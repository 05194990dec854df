import Unr.Mpi.Issues

/-!
What the operations of a plan transfer.

An operation belongs to a write of a plan by the number of the plan and the
position of the write. Wherever it is kept, sent or posted, on the side of the
initiator or of a target, it transfers what the write with this position says.
-/

namespace Unr.Mpi

open Unr.Uru Unr.Logic

/-- What an operation transfers: all of it that does not depend on tags and on
how long the operation is kept. -/
structure OpData where
  op_type : OpType
  addr : Nat
  size : Nat
  rank : Nat
  flag_p : Option Nat
  flag_add : BitVec 64
  deriving Repr, DecidableEq

def MpiOp.data (op : MpiOp) : OpData :=
  ⟨op.op_type, op.addr, op.size, op.rank, op.flag_p, op.flag_add⟩

def Write.ownData (w : Write) : OpData where
  op_type := w.opType
  addr := w.loc_mem.addr + w.loc_offset
  size := w.dma_size
  rank := w.rmt_mem.rank
  flag_p := w.loc_flag_p
  flag_add := w.loc_flag_add

def Write.peerData (initiator : Nat) (w : Write) : OpData where
  op_type := w.opType.flip
  addr := w.rmt_mem.addr + w.rmt_offset
  size := w.dma_size
  rank := initiator
  flag_p := w.rmt_flag_p
  flag_add := w.rmt_flag_add

/-- The write of a plan, as the events of its creator tell. -/
def WriteAt (evs : List Event) (plan index : Nat) (wr : Write) : Prop :=
  ∃ once_now writes, .created plan once_now writes ∈ evs ∧ writes[index]? = some wr

/-- An operation of a plan for the initiator itself. -/
def OwnOp (evs : List Event) (op : MpiOp) : Prop :=
  ∃ wr, WriteAt evs op.plan op.index wr ∧ op.data = wr.ownData

/-- An operation of a plan of process `rank` for a target, up to the rank that
the target will find in it. -/
def PeerOp (rank : Nat) (evs : List Event) (op : MpiOp) : Prop :=
  ∃ wr, WriteAt evs op.plan op.index wr ∧ { op with rank := rank }.data = wr.peerData rank

section Mono

variable {evs new : List Event} {plan index rank : Nat} {wr : Write} {op : MpiOp}

theorem WriteAt.mono (h : WriteAt evs plan index wr) : WriteAt (evs ++ new) plan index wr := by
  obtain ⟨once_now, writes, hmem, hget⟩ := h
  exact ⟨once_now, writes, List.mem_append_left _ hmem, hget⟩

theorem OwnOp.mono (h : OwnOp evs op) : OwnOp (evs ++ new) op := by
  obtain ⟨wr, hwrite, hdata⟩ := h
  exact ⟨wr, hwrite.mono, hdata⟩

theorem PeerOp.mono (h : PeerOp rank evs op) : PeerOp rank (evs ++ new) op := by
  obtain ⟨wr, hwrite, hdata⟩ := h
  exact ⟨wr, hwrite.mono, hdata⟩

theorem Issued.writeAt_unique {proc : Proc} (h : Issued evs proc) {wr' : Write}
    (hwrite : WriteAt evs plan index wr) (hwrite' : WriteAt evs plan index wr') : wr = wr' := by
  obtain ⟨_, _, hmem, hget⟩ := hwrite
  obtain ⟨_, _, hmem', hget'⟩ := hwrite'
  obtain ⟨-, rfl⟩ := h.created_unique _ _ _ _ _ hmem hmem'
  exact Option.some.inj (hget.symm.trans hget')

end Mono

/-! ### What a process keeps -/

def UserPhase.ownOps : UserPhase → List MpiOp
  | creating _ _ _ _ send_ops _ _ | announcing _ _ send_ops _ _ _ => send_ops
  | _ => []

def UserPhase.peerOps : UserPhase → List MpiOp
  | creating _ _ _ _ _ recv_ops _ => recv_ops
  | announcing _ _ _ groups recv_batch _ => recv_batch.flatMap (·.ops) ++ groups.flatten
  | _ => []

/-- What a process keeps and has sent belongs to its plans. -/
structure Proc.Keeps (rank : Nat) (evs : List Event) (proc : Proc) : Prop where
  own : ∀ op ∈ proc.user.ownOps ++ proc.plans.flatMap (·.send_batch), OwnOp evs op
  peer : ∀ op ∈ proc.user.peerOps ++ proc.plans.flatMap fun p => p.recv_batch.flatMap (·.ops),
    PeerOp rank evs op
  sent : ∀ j, ∀ msg ∈ proc.ctrl_sent j, ∀ batch ∈ msg.batch, ∀ op ∈ batch.ops, PeerOp rank evs op

section Moves

variable {w : World} {rank : Nat} {evs new : List Event} {proc proc' : Proc} {a : ProcAct}

theorem Proc.Keeps.mono (h : proc.Keeps rank evs) : proc.Keeps rank (evs ++ new) where
  own op hop := (h.own op hop).mono
  peer op hop := (h.peer op hop).mono
  sent j msg hmsg batch hbatch op hop := (h.sent j msg hmsg batch hbatch op hop).mono

theorem Issued.next_write (h : Issued evs proc) {once_now : Bool} {plan : Nat} {wr : Write}
    {rest : List Write} {tag : Option Nat} {send_ops recv_ops : List MpiOp} {mpi_op : List Entry}
    (huser : proc.user = .creating once_now plan (wr :: rest) tag send_ops recv_ops mpi_op) :
    WriteAt evs plan send_ops.length wr := by
  have hphase := h.user
  rw [huser] at hphase
  obtain ⟨⟨writes, hmem, -, hdrop⟩, -⟩ := hphase
  refine ⟨once_now, writes, hmem, ?_⟩
  rw [← Nat.add_zero send_ops.length, ← List.getElem?_drop, hdrop]
  rfl

theorem Proc.Keeps.sends (h : proc.Keeps rank evs) {dst : Nat} {msg : CtrlMsg}
    (hmsg : ∀ batch ∈ msg.batch, ∀ op ∈ batch.ops, PeerOp rank evs op) (j : Nat) :
    ∀ m ∈ (proc.send dst msg).ctrl_sent j, ∀ batch ∈ m.batch, ∀ op ∈ batch.ops,
      PeerOp rank evs op := by
  intro m hm
  by_cases hj : j = dst
  · subst hj
    simp only [Proc.send, Function.update_self, List.mem_append, List.mem_singleton] at hm
    rcases hm with hm | rfl
    · exact h.sent j m hm
    · exact hmsg
  · simp only [Proc.send, Function.update_of_ne hj] at hm
    exact h.sent j m hm

theorem PeerOp.addressed {group : List MpiOp} (h : ∀ op ∈ group, PeerOp rank evs op) :
    ∀ op ∈ addressed rank group, PeerOp rank evs op := by
  intro op hop
  obtain ⟨op', hop', rfl⟩ := List.mem_map.mp hop
  exact h op' hop'

theorem Proc.Keeps.move (h : proc.Keeps rank evs) (hissued : Issued evs proc)
    (hmove : Move w rank proc a proc') : proc'.Keeps rank evs := by
  have hown := h.own
  have hpeer := h.peer
  -- the call ends, or begins with what the plans keep
  have hleave : ∀ {proc' : Proc}, proc'.user.ownOps = [] → proc'.user.peerOps = [] →
      (∀ p ∈ proc'.plans, p ∈ proc.plans) →
      (∀ j, ∀ msg ∈ proc'.ctrl_sent j, ∀ batch ∈ msg.batch, ∀ op ∈ batch.ops,
        PeerOp rank evs op) → proc'.Keeps rank evs := by
    intro proc' hnone hnone' hplans hsent
    refine ⟨fun op hop => ?_, fun op hop => ?_, hsent⟩
    · rw [hnone, List.nil_append] at hop
      obtain ⟨p, hp, hop⟩ := List.mem_flatMap.mp hop
      exact hown op (List.mem_append_right _ (List.mem_flatMap.mpr ⟨p, hplans p hp, hop⟩))
    · rw [hnone', List.nil_append] at hop
      obtain ⟨p, hp, hop⟩ := List.mem_flatMap.mp hop
      exact hpeer op (List.mem_append_right _ (List.mem_flatMap.mpr ⟨p, hplans p hp, hop⟩))
  -- a write gives one operation for either side
  have hwrite : ∀ {once_now : Bool} {plan tag : Nat} {wr : Write} {rest : List Write}
      {send_ops recv_ops : List MpiOp} {mpi_op mpi_op' : List Entry} (flag flag' : BitVec 8)
      {proc' : Proc}, proc.user = .creating once_now plan (wr :: rest) (some tag) send_ops recv_ops
        mpi_op → proc'.user = .creating once_now plan rest none
          (send_ops ++ [wr.sendOp flag plan send_ops.length tag])
          (recv_ops ++ [wr.recvOp flag' plan send_ops.length tag]) mpi_op' →
      proc'.plans = proc.plans → proc'.ctrl_sent = proc.ctrl_sent → proc'.Keeps rank evs := by
    intro once_now plan tag wr rest send_ops recv_ops mpi_op mpi_op' flag flag' proc' huser huser'
      hplans hsent
    have hnext := hissued.next_write huser
    rw [huser] at hown hpeer
    refine ⟨fun op hop => ?_, fun op hop => ?_, hsent ▸ h.sent⟩
    · simp only [huser', UserPhase.ownOps, hplans, List.mem_append, List.mem_singleton] at hop
      rcases hop with (hop | rfl) | hop
      · exact hown op (List.mem_append_left _ hop)
      · exact ⟨wr, hnext, rfl⟩
      · exact hown op (List.mem_append_right _ hop)
    · simp only [huser', UserPhase.peerOps, hplans, List.mem_append, List.mem_singleton] at hop
      rcases hop with (hop | rfl) | hop
      · exact hpeer op (List.mem_append_left _ hop)
      · exact ⟨wr, hnext, rfl⟩
      · exact hpeer op (List.mem_append_right _ hop)
  cases hmove with
  | beginCreate huser | beginStart huser | beginClose huser | startOp huser
  | finishStart huser | destroyOp huser | finishDestroy huser =>
      exact hleave rfl rfl (fun _ hp => hp) h.sent
  | beginDestroy => exact hleave rfl rfl (fun _ => List.mem_of_mem_erase) h.sent
  | closeLoop huser =>
      refine hleave ?_ ?_ (fun _ hp => hp) h.sent <;> unfold Proc.closeLoop <;> split <;> rfl
  | startBatch | destroyBatch =>
      exact hleave rfl rfl (fun _ hp => hp) (h.sends nofun)
  | sortOps huser hperm =>
      rw [huser] at hown hpeer
      refine ⟨hown, fun op hop => hpeer op ?_, h.sent⟩
      simp only [UserPhase.peerOps, List.flatMap_nil, List.nil_append, receivers_flatten,
        List.mem_append] at hop ⊢
      exact hop.imp hperm.mem_iff.mp id
  | drawTag huser =>
      rw [huser] at hown hpeer
      exact ⟨hown, hpeer, h.sent⟩
  | writeOnce huser => exact hwrite _ _ huser rfl rfl rfl
  | writeKept huser => exact hwrite _ _ huser rfl rfl rfl
  | announceOnce huser =>
      rw [huser] at hown hpeer
      refine ⟨hown, fun op hop => hpeer op ?_, h.sends ?_⟩
      · simp only [Proc.enter, Proc.send, UserPhase.peerOps, List.flatten_cons, List.mem_append]
          at hop ⊢
        exact hop.imp (Or.imp id .inr) id
      · rintro _ ⟨⟩
        exact PeerOp.addressed fun op hop => hpeer op (by
          simp only [UserPhase.peerOps, List.flatten_cons, List.mem_append]
          exact .inl (.inr (.inl hop)))
  | announceKept huser =>
      rw [huser] at hown hpeer
      refine ⟨hown, fun op hop => hpeer op ?_, h.sends ?_⟩
      · simp only [Proc.enter, Proc.send, Proc.setIdPool, UserPhase.peerOps, List.flatten_cons,
          List.flatMap_append, List.flatMap_cons, List.flatMap_nil, List.append_nil,
          List.mem_append, or_assoc] at hop ⊢
        exact hop
      · rintro _ ⟨⟩
        exact PeerOp.addressed fun op hop => hpeer op (by
          simp only [UserPhase.peerOps, List.flatten_cons, List.mem_append]
          exact .inl (.inr (.inl hop)))
  | @finishCreate once_now plan send_ops recv_batch mpi_op huser =>
      cases once_now with
      | true => exact hleave rfl rfl (fun _ hp => hp) h.sent
      | false =>
          rw [huser] at hown hpeer
          simp only [UserPhase.peerOps, List.flatten_nil, List.append_nil] at hpeer
          exact ⟨hown, hpeer, h.sent⟩
  | userHalt | recvCreate | recvDestroy | recvStart | recvExecute | recvHalt | postStarted
  | postOnce | postHalt | finishPosting | keepTag | returnTag | finishEffects | daemonHalt =>
      exact ⟨hown, hpeer, h.sent⟩
  | @testSome done =>
      rcases testSome_user proc done with hsame | ⟨n, tested, -, hnew⟩
      · rw [← hsame] at hown hpeer
        exact ⟨hown, hpeer, h.sent⟩
      · exact hleave (hnew ▸ rfl) (hnew ▸ rfl) (fun _ hp => hp) h.sent

end Moves

/-! ### What is posted -/

/-- A posting belongs to the plan that its write names. -/
structure Posting.Sound (q : Nat) (es : List (Nat × Event)) (x : Posting) : Prop where
  own : x.own = true → x.write.initiator = q ∧ OwnOp (eventsAt q es) x.op
  peer : x.own = false → PeerOp x.write.initiator (eventsAt x.write.initiator es) x.op
  plan : x.write.plan = x.op.plan
  index : x.write.index = x.op.index

/-- All operations belong to their plans. -/
structure World.Sound (es : List (Nat × Event)) (w : World) : Prop where
  keeps : ∀ p, (w.procs p).Keeps p (eventsAt p es)
  daemon : ∀ q src start rest mpi_op, (w.procs q).daemon = .posting src start rest mpi_op →
    ∀ op ∈ rest, PeerOp src (eventsAt src es) op
  posted : ∀ q, ∀ x ∈ postings q es, x.Sound q es

section Sound

variable {es new : List (Nat × Event)} {w w' : World} {rank q : Nat} {proc proc' : Proc}
  {a : ProcAct}

theorem Posting.Sound.mono {x : Posting} (h : x.Sound q es) : x.Sound q (es ++ new) where
  own hown := by
    rw [eventsAt_append]
    exact ⟨(h.own hown).1, (h.own hown).2.mono⟩
  peer hpeer := by
    rw [eventsAt_append]
    exact (h.peer hpeer).mono
  plan := h.plan
  index := h.index

theorem World.Sound.posting (h : World.Sound es w)
    (hissued : Issued (eventsAt rank es) (w.procs rank))
    (hini : (w.procs rank).Ini w.size rank) {x : Posting}
    (hx : x ∈ ((w.procs rank).events rank a).filterMap Event.posting) : x.Sound rank es := by
  obtain ⟨e, he, hpost⟩ := List.mem_filterMap.mp hx
  have hcall := hini.user
  cases a with
  | beginCreate | beginStart | beginDestroy =>
      rw [Proc.events, List.mem_singleton] at he
      subst he
      cases hpost
  | sortOps | beginClose | recvCtrl | testSome => cases he
  | userStep =>
      rw [Proc.events] at he
      split at he
      · rename_i plan wr rest tag send_ops recv_ops mpi_op huser
        cases List.mem_singleton.mp he
        cases hpost
        exact ⟨fun _ => ⟨rfl, wr, hissued.next_write huser, rfl⟩, by rintro ⟨⟩, rfl, rfl⟩
      · rename_i p start op ops mpi_op huser
        cases List.mem_singleton.mp he
        cases hpost
        rw [huser] at hcall
        obtain ⟨hp, -, hops, -⟩ := hcall
        have hop : op ∈ (w.procs rank).plans.flatMap (·.send_batch) :=
          List.mem_flatMap.mpr ⟨p, hp, hops.subset (by simp)⟩
        exact ⟨fun _ => ⟨rfl, (h.keeps rank).own op (List.mem_append_right _ hop)⟩,
          by rintro ⟨⟩, rfl, rfl⟩
      · cases he
  | daemonStep =>
      rw [Proc.events] at he
      split at he
      · rename_i src start op rest mpi_op hdaemon
        cases List.mem_singleton.mp he
        cases hpost
        exact ⟨by rintro ⟨⟩, fun _ => h.daemon rank _ _ _ _ hdaemon op (by simp), rfl, rfl⟩
      · cases List.mem_singleton.mp he
        cases hpost
      · cases he

theorem World.Sound.taken (h : World.Sound es w) (hinv : w.Inv)
    (hlive : (w.procs rank).halted = none)
    (hmove : Move w rank (w.procs rank) a proc') {src : Nat} {start : Option Nat}
    {rest : List MpiOp} {mpi_op : List Entry}
    (hdaemon : proc'.daemon = .posting src start rest mpi_op) :
    ∀ op ∈ rest, PeerOp src (eventsAt src es) op := by
  have hold := h.daemon rank src
  cases hmove with
  | @recvStart src' batch_id plan start' batch _ _ _ hmsg hslot =>
      cases hdaemon
      have hview : tableMap ((w.procs rank).recv_batch src) batch_id = some batch := by
        rw [tableMap, hslot]
        rfl
      rw [((hinv.link src rank).live hlive).1] at hview
      exact final_batch (Q := fun batch => ∀ op ∈ batch.ops, PeerOp src (eventsAt src es) op)
        (fun msg hmem => (h.keeps src).sent rank msg (List.mem_of_mem_take hmem)) hview
  | @recvExecute src' batch _ _ _ hmsg =>
      cases hdaemon
      exact (h.keeps src).sent rank _ (List.mem_of_getElem? hmsg) batch rfl
  | postStarted hposting | postOnce hposting | postHalt hposting =>
      cases hdaemon
      exact fun op hop => hold _ _ _ hposting op (List.mem_cons_of_mem _ hop)
  | testSome | finishPosting | keepTag | returnTag | finishEffects => cases hdaemon
  | beginCreate | sortOps | beginStart | beginDestroy | beginClose | drawTag | writeOnce
  | writeKept | announceOnce | announceKept | finishCreate | startBatch | startOp | finishStart
  | destroyOp | destroyBatch | finishDestroy | closeLoop | userHalt | daemonHalt | recvCreate
  | recvDestroy | recvHalt => exact hold _ _ _ hdaemon

theorem World.Sound.move (h : World.Sound es w) (hinv : w.Inv)
    (hissued : Issued (eventsAt rank es) (w.procs rank)) (hlive : (w.procs rank).halted = none)
    (hmove : Move w rank (w.procs rank) a proc') :
    World.Sound (es ++ w.events (.proc rank a))
      { w with procs := Function.update w.procs rank proc' } where
  keeps p := by
    rw [eventsAt_append]
    refine Proc.Keeps.mono ?_
    by_cases hp : p = rank
    · subst hp
      simp only [Function.update_self]
      exact (h.keeps p).move hissued hmove
    · simp only [Function.update_of_ne hp]
      exact h.keeps p
  daemon q src start rest mpi_op hdaemon op hop := by
    rw [eventsAt_append]
    refine PeerOp.mono ?_
    by_cases hq : q = rank
    · subst hq
      simp only [Function.update_self] at hdaemon
      exact h.taken hinv hlive hmove hdaemon op hop
    · simp only [Function.update_of_ne hq] at hdaemon
      exact h.daemon q src start rest mpi_op hdaemon op hop
  posted q x hx := by
    refine Posting.Sound.mono ?_
    rw [postings, eventsAt_append, List.filterMap_append] at hx
    rcases List.mem_append.mp hx with hx | hx
    · exact h.posted q x hx
    · by_cases hq : q = rank
      · subst hq
        rw [World.events, eventsAt_map_self] at hx
        exact h.posting hissued (hinv.ini q) hx
      · rw [World.events, eventsAt_map_of_ne (Ne.symm hq)] at hx
        exact nomatch hx

theorem World.Sound.setUser (h : World.Sound es w) {user : UserPhase} (hrest : user.Resting) :
    World.Sound es (w.setUser user) where
  keeps p := by
    simp only [World.setUser]
    split
    · have hkeeps := h.keeps p
      refine ⟨fun op hop => hkeeps.own op ?_, fun op hop => hkeeps.peer op ?_, hkeeps.sent⟩
      · cases user <;> first | exact List.mem_append_right _ hop | cases hrest
      · cases user <;> first | exact List.mem_append_right _ hop | cases hrest
    · exact h.keeps p
  daemon q := by
    simp only [World.setUser]
    split <;> exact h.daemon q
  posted := h.posted

end Sound

theorem World.Sound.init (size : Nat) (flags : Nat → Nat → UruFlag) :
    World.Sound [] (World.init size flags) where
  keeps _ := ⟨fun _ h => (nomatch h), fun _ h => (nomatch h), fun _ _ h => (nomatch h)⟩
  daemon _ _ _ _ _ h := nomatch h
  posted _ _ h := nomatch h

/-- In every run all operations belong to their plans. -/
theorem History.sound {size : Nat} {flags : Nat → Nat → UruFlag} {es : List (Nat × Event)}
    {w : World} (h : History size flags es w) : World.Sound es w := by
  refine Recorded.invariant (I := World.Sound) (World.Sound.init size flags) ?_ h
  intro es w a w' hrun ih hstep
  rcases step_cases hstep with ⟨rank, pa, proc', rfl, -, hlive, hmove, rfl⟩ | ⟨rfl, -, rfl⟩ |
    ⟨rfl, -, rfl⟩
  · exact ih.move (World.inv_run hrun.run) (History.issued hrun hlive) hlive hmove
  · rw [World.events, List.append_nil]
    exact ih.setUser trivial
  · rw [World.events, List.append_nil]
    exact ih.setUser trivial

end Unr.Mpi
