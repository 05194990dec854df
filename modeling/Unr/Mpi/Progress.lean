import Unr.Mpi.ExecuteBatch
import Unr.Mpi.Lifetimes
import Unr.Logic.Progress

/-!
The daemons finish what has been issued.

A daemon step is fruitful if it takes a control message, posts an operation,
reports one or applies its effects; a test that reports nothing leaves the
process as it was. Each message is worth two steps, each operation that is
still to be posted four and each request in the queue three, so fruitful steps
come to an end. Where they do, no receive can be waiting for a send that is
not posted: both sides of every write are.
-/

namespace Unr.Mpi

open Unr.Uru Unr.Logic

/-- The steps of the daemons, except for tests that report nothing. -/
def fruitful : Act → Bool
  | .proc _ (.recvCtrl _) | .proc _ .daemonStep => true
  | .proc _ (.testSome done) => done.any id
  | _ => false

/-! ### Work that is left -/

/-- Control messages of process `i` that process `j` has still to handle, and
operations it has still to post for them. -/
def World.owed (w : World) (i j : Nat) : Nat :=
  2 * (((w.procs i).ctrl_sent j).length - (w.procs j).ctrl_received i) +
    4 * (((batchHandler i).outputs emptyMap ((w.procs i).ctrl_sent j)).length -
      (peerLog i (w.procs j).log).length)

def DaemonPhase.work : DaemonPhase → Nat
  | drain => 0
  | posting _ _ _ mpi_op => 3 * mpi_op.length + 1
  | effects rest => rest.length + 1

/-- The fruitful steps that the daemon of process `j` can still take, or more. -/
def World.workAt (w : World) (j : Nat) : Nat :=
  if (w.procs j).halted = none then
    ((List.range w.size).map fun i => w.owed i j).sum +
      3 * (w.procs j).queue.length + (w.procs j).daemon.work
  else 0

/-- The fruitful steps that the daemons can still take, or more. -/
def World.work (w : World) : Nat := ((List.range w.size).map w.workAt).sum

/-! ### Both sides of every write -/

theorem World.Inv.posted_eq {w : World} (h : w.Inv) (p q tag : Nat) (ty : OpType) :
    (w.procs p).posted ty q tag =
      (ownWrites q tag ty (w.procs p).log).length +
        (announcedWrites tag ty.flip (peerLog q (w.procs p).log)).length := by
  have hpeer : ∀ x ∈ (w.procs p).log, x.own = false → x.rank = x.write.initiator :=
    fun x hx hown => (h.peer_post hx hown).1
  have hflip : ty.flip.flip = ty := by cases ty <;> rfl
  unfold Proc.posted
  generalize (w.procs p).log = log at hpeer ⊢
  induction log with
  | nil => rfl
  | cons x log ih =>
      have hx := hpeer x (by simp)
      have ih := ih fun y hy => hpeer y (List.mem_cons_of_mem _ hy)
      rw [List.countP_cons, ih]
      by_cases hthis : x.op_type = ty ∧ x.rank = q ∧ x.tag = tag
      · obtain ⟨rfl, rfl, rfl⟩ := hthis
        cases hown : x.own with
        | true => simp [ownWrites, peerLog, hown, Nat.add_right_comm]
        | false =>
            simp [ownWrites, peerLog, announcedWrites, hown, ← hx hown, hflip, Nat.add_assoc]
      · cases hown : x.own with
        | true =>
            have hnot : ¬ (x.rank = q ∧ x.tag = tag ∧ x.op_type = ty) := fun hsel =>
              hthis ⟨hsel.2.2, hsel.1, hsel.2.1⟩
            simp [ownWrites, peerLog, hown, hnot, hthis]
        | false =>
            by_cases hq : x.rank = q
            · have hnot : ¬ (x.tag = tag ∧ x.op_type = ty) := fun hsel =>
                hthis ⟨hsel.2, hq, hsel.1⟩
              simpa [ownWrites, peerLog, announcedWrites, hown, ← hx hown, hq, hnot, hflip] using
                fun hty htag => hnot ⟨htag, hty⟩
            · simp [ownWrites, peerLog, hown, ← hx hown, hq]

/-- Once everything is announced, handled and posted, there is a receive for
every send. -/
theorem World.Inv.posted_balanced {w : World} (h : w.Inv)
    (hidle : ∀ p < w.size, (w.procs p).user = .idle)
    (hlive : ∀ p < w.size, (w.procs p).halted = none)
    (hhandled : ∀ p < w.size, ∀ q < w.size,
      (w.procs q).ctrl_received p = ((w.procs p).ctrl_sent q).length)
    (hdrain : ∀ p < w.size, (w.procs p).daemon = .drain) {p q : Nat} (hp : p < w.size)
    (hq : q < w.size) (tag : Nat) :
    (w.procs p).posted .opSend q tag = (w.procs q).posted .opRecv p tag := by
  have hwrites : ∀ {i j : Nat}, i < w.size → j < w.size → ∀ ty,
      ownWrites j tag ty (w.procs i).log = announcedWrites tag ty (peerLog i (w.procs j).log) := by
    intro i j hi hj ty
    have hal := (h.ini i).aligned j tag ty
    have hposts := ((h.link i j).live (hlive j hj)).2
    rw [hhandled i hi j hj, List.take_length, hdrain j hj] at hposts
    rw [hidle i hi, ← hposts] at hal
    simpa only [UserPhase.pendingOwn, UserPhase.pendingPeer, DaemonPhase.pendingPosts,
      List.append_nil] using hal
  rw [h.posted_eq, h.posted_eq, hwrites hp hq, hwrites hq hp]
  exact Nat.add_comm _ _

/-! ### Receives in hand -/

section Moves

variable {w : World} {rank : Nat} {proc proc' : Proc} {a : ProcAct}

theorem Move.log_prefix (hmove : Move w rank proc a proc') : proc.log <+: proc'.log := by
  cases hmove with
  | writeOnce | startOp | postStarted | postOnce | postHalt => exact List.prefix_append _ _
  | beginCreate | sortOps | beginStart | beginDestroy | beginClose | drawTag | writeKept
  | announceOnce | announceKept | startBatch | finishStart | finishCreate | destroyOp
  | destroyBatch | finishDestroy | closeLoop | userHalt | daemonHalt | recvCreate | recvDestroy
  | recvStart | recvExecute | recvHalt | testSome | finishPosting | keepTag | returnTag
  | finishEffects => exact List.prefix_refl _

/-- An entry that a process gets stands for a message or for what it posts in
the same step. -/
theorem Move.inHand_new (hmove : Move w rank proc a proc') {e : Entry} (he : e ∈ proc'.inHand) :
    e ∈ proc.inHand ∨ (∃ dst, e = ctrlEntry dst) ∨
      ∃ op side own id, e = proc.entry op side id ∧ proc'.log = (proc.post op own id).log := by
  simp only [Proc.inHand, List.mem_append] at he ⊢
  cases hmove with
  | beginCreate huser | sortOps huser | beginStart huser | beginDestroy huser | beginClose huser
  | drawTag huser | writeKept huser | destroyOp huser =>
      rw [huser]
      exact .inl he
  | userHalt | recvCreate | recvDestroy | recvHalt | daemonHalt => exact .inl he
  | recvStart hdaemon | recvExecute hdaemon =>
      rw [hdaemon]
      exact .inl he
  | announceOnce huser | announceKept huser | startBatch huser | destroyBatch huser =>
      rw [huser]
      rcases he with (he | he) | he
      · rcases List.mem_append.mp he with he | he
        · exact .inl (.inl (.inl he))
        · exact .inr (.inl ⟨_, List.mem_singleton.mp he⟩)
      · exact .inl (.inl (.inr he))
      · exact .inl (.inr he)
  | writeOnce huser | startOp huser =>
      rw [huser]
      rcases he with (he | he) | he
      · rcases List.mem_append.mp he with he | he
        · exact .inl (.inl (.inl he))
        · exact .inr (.inr ⟨_, _, _, _, List.mem_singleton.mp he, rfl⟩)
      · exact .inl (.inl (.inr he))
      · exact .inl (.inr he)
  | finishCreate huser | finishStart huser | finishDestroy huser =>
      rw [huser]
      rcases he with (he | he) | he
      · cases he
      · rcases List.mem_append.mp he with he | he
        · exact .inl (.inl (.inr he))
        · exact .inl (.inl (.inl he))
      · exact .inl (.inr he)
  | @closeLoop n huser =>
      have hnone : (proc.closeLoop n).user.entries = [] := by
        unfold Proc.closeLoop
        split <;> rfl
      rw [hnone] at he
      rcases he with (he | he) | he
      · cases he
      · exact .inl (.inl (.inr he))
      · exact .inl (.inr he)
  | postStarted hdaemon | postOnce hdaemon | postHalt hdaemon =>
      rw [hdaemon]
      rcases he with he | he
      · exact .inl (.inl he)
      · rcases List.mem_append.mp he with he | he
        · exact .inl (.inr he)
        · exact .inr (.inr ⟨_, _, _, _, List.mem_singleton.mp he, rfl⟩)
  | finishPosting hdaemon =>
      rw [hdaemon]
      rcases he with (he | he) | he
      · exact .inl (.inl (.inl he))
      · rcases List.mem_append.mp he with he | he
        · exact .inl (.inl (.inr he))
        · exact .inl (.inr he)
      · cases he
  | keepTag hdaemon | returnTag hdaemon | finishEffects hdaemon =>
      rw [hdaemon]
      exact .inl he
  | @testSome done hdaemon _ hlen =>
      have hentries := testSome_same proc done UserPhase.entries fun _ _ => rfl
      rw [hentries] at he
      rcases he with (he | he) | he
      · exact .inl (.inl (.inl he))
      · exact .inl (.inl (.inr ((pick_perm done _ hlen).mem_iff.mpr (List.mem_append_left _ he))))
      · cases he

def Proc.Awaits (proc : Proc) : Prop :=
  ∀ e ∈ proc.inHand, e.op.op_type = .opRecv → e.pos < proc.posted .opRecv e.op.rank e.op.tag

theorem Proc.Awaits.move (h : proc.Awaits) (hmove : Move w rank proc a proc') :
    proc'.Awaits := by
  intro e he hrecv
  rcases hmove.inHand_new he with hold | ⟨dst, rfl⟩ | ⟨op, side, own, id, rfl, hlog⟩
  · exact Nat.lt_of_lt_of_le (h e hold hrecv) (hmove.log_prefix.sublist.countP_le)
  · cases hrecv
  · have hty : op.op_type = .opRecv := hrecv
    simp only [Proc.posted, hlog, Proc.post, Proc.entry, List.countP_append, hty]
    simp

def UserPhase.ranks : UserPhase → List Nat
  | creating _ _ rest tag send_ops _ _ =>
      (drawnPair rest tag).map Prod.fst ++ send_ops.map (·.rank)
  | announcing _ _ send_ops _ _ _ => send_ops.map (·.rank)
  | _ => []

/-- The processes that a process posts for exist. -/
structure Proc.InRange (size : Nat) (proc : Proc) : Prop where
  log : ∀ x ∈ proc.log, x.own = true → x.rank < size
  user : ∀ r ∈ proc.user.ranks, r < size
  plans : ∀ p ∈ proc.plans, ∀ op ∈ p.send_batch, op.rank < size

theorem Write.check_rank {size rank : Nat} {wr : Write} (h : wr.check size rank = .ok ()) :
    wr.rmt_mem.rank < size := by
  simp only [Write.check, bind_eq_ok, uruAssert_eq_ok, throw_if_eq_ok] at h
  obtain ⟨-, -, -, -, -, -, -, hrank⟩ := h
  by_contra hge
  rw [if_pos hge] at hrank
  exact throw_eq_ok hrank

theorem Proc.InRange.move (h : proc.InRange w.size) (hini : proc.Ini w.size rank)
    (hmove : Move w rank proc a proc') : proc'.InRange w.size := by
  have huser := h.user
  have hpost : ∀ {x : Post}, x.rank < w.size →
      ∀ y ∈ proc.log ++ [x], y.own = true → y.rank < w.size := by
    intro x hx y hy hown
    rcases List.mem_append.mp hy with hy | hy
    · exact h.log y hy hown
    · exact List.mem_singleton.mp hy ▸ hx
  have hpeer : ∀ {x : Post}, x.own = false →
      ∀ y ∈ proc.log ++ [x], y.own = true → y.rank < w.size := by
    intro x hx y hy hown
    rcases List.mem_append.mp hy with hy | hy
    · exact h.log y hy hown
    · rw [List.mem_singleton.mp hy, hx] at hown
      cases hown
  cases hmove with
  | beginCreate => exact ⟨h.log, by simp [UserPhase.ranks], h.plans⟩
  | beginStart | beginClose | startBatch | finishStart | destroyOp | destroyBatch
  | finishDestroy => exact ⟨h.log, List.forall_mem_nil _, h.plans⟩
  | beginDestroy =>
      exact ⟨h.log, List.forall_mem_nil _, fun p hp => h.plans p (List.mem_of_mem_erase hp)⟩
  | closeLoop =>
      refine ⟨h.log, ?_, h.plans⟩
      unfold Proc.closeLoop
      split <;> exact List.forall_mem_nil _
  | sortOps hphase | announceOnce hphase | announceKept hphase =>
      rw [hphase] at huser
      refine ⟨h.log, fun r hr => huser r ?_, h.plans⟩
      simpa [UserPhase.ranks, Proc.enter] using hr
  | drawTag hphase hcheck =>
      rw [hphase] at huser
      refine ⟨h.log, fun r hr => ?_, h.plans⟩
      rcases List.mem_append.mp hr with hr | hr
      · exact List.mem_singleton.mp hr ▸ Write.check_rank hcheck
      · exact huser r (List.mem_append_right _ hr)
  | writeOnce hphase =>
      rw [hphase] at huser
      refine ⟨hpost (huser _ (List.mem_append_left _ (List.mem_singleton_self _))),
        fun r hr => ?_, h.plans⟩
      refine huser r ?_
      simpa [UserPhase.ranks, drawnPair, Proc.enter, Write.sendOp, or_comm, eq_comm] using hr
  | writeKept hphase =>
      rw [hphase] at huser
      refine ⟨h.log, fun r hr => huser r ?_, h.plans⟩
      simpa [UserPhase.ranks, drawnPair, Proc.enter, Write.sendOp, or_comm, eq_comm] using hr
  | @finishCreate once_now plan send_ops recv_batch mpi_op hphase =>
      rw [hphase] at huser
      refine ⟨h.log, List.forall_mem_nil _, ?_⟩
      cases once_now with
      | true => exact h.plans
      | false =>
          intro p hp
          rcases List.mem_cons.mp hp with rfl | hp
          · exact fun op hop => huser _ (List.mem_map_of_mem hop)
          · exact h.plans p hp
  | startOp hphase =>
      have hcall := hini.user
      rw [hphase] at hcall
      obtain ⟨hp, -, hops, -⟩ := hcall
      exact ⟨hpost (h.plans _ hp _ (hops.subset (by simp))), List.forall_mem_nil _, h.plans⟩
  | postStarted | postOnce | postHalt => exact ⟨hpeer rfl, huser, h.plans⟩
  | userHalt | daemonHalt | recvCreate | recvDestroy | recvStart | recvExecute | recvHalt
  | finishPosting | keepTag | returnTag | finishEffects => exact ⟨h.log, huser, h.plans⟩
  | @testSome done =>
      exact ⟨h.log, (testSome_same proc done UserPhase.ranks fun _ _ => rfl) ▸ huser, h.plans⟩

end Moves

/-- The receives in hand are posted for processes that exist. -/
structure World.Expects (w : World) : Prop where
  awaits : ∀ p, (w.procs p).Awaits
  inRange : ∀ p, (w.procs p).InRange w.size

theorem World.Expects.setUser {w : World} (h : w.Expects) {user : UserPhase} (hrest : user.Resting)
    (hall : ∀ p < w.size, (w.procs p).user.Resting) : (w.setUser user).Expects where
  awaits p e he hrecv := by
    by_cases hp : p < w.size
    · have hold := h.awaits p e
      simp only [Proc.inHand, (hall p hp).entries] at hold
      simp only [World.setUser, hp, if_true, Proc.inHand, hrest.entries] at he ⊢
      exact hold he hrecv
    · simp only [World.setUser, hp, if_false] at he ⊢
      exact h.awaits p e he hrecv
  inRange p := by
    by_cases hp : p < w.size
    · simp only [World.setUser, hp, if_true]
      refine ⟨(h.inRange p).log, ?_, (h.inRange p).plans⟩
      cases user <;> first | exact List.forall_mem_nil _ | cases hrest
    · simp only [World.setUser, hp, if_false]
      exact h.inRange p

theorem World.expects_run {C : World → Act → Prop} {size : Nat} {flags : Nat → Nat → UruFlag}
    {w : World} (hrun : Run World.step C (World.init size flags) w) : w.Expects := by
  have hinit : (World.init size flags).Expects :=
    ⟨fun _ _ he => absurd he List.not_mem_nil,
      fun _ => ⟨List.forall_mem_nil _, List.forall_mem_nil _, List.forall_mem_nil _⟩⟩
  refine hrun.invariant hinit ?_
  intro w a w' hrun h _ hstep
  have hinv := World.inv_run hrun
  rcases step_cases hstep with ⟨rank, pa, proc', -, -, -, hmove, rfl⟩ | ⟨-, hall, rfl⟩ |
    ⟨-, hall, rfl⟩
  · refine ⟨fun p => ?_, fun p => ?_⟩
    · by_cases hp : p = rank
      · subst hp
        simp only [Function.update_self]
        exact (h.awaits p).move hmove
      · simp only [Function.update_of_ne hp]
        exact h.awaits p
    · by_cases hp : p = rank
      · subst hp
        simp only [Function.update_self]
        exact (h.inRange p).move (hinv.ini p) hmove
      · simp only [Function.update_of_ne hp]
        exact h.inRange p
  · exact h.setUser trivial fun p hp => (hall p hp).1 ▸ trivial
  · exact h.setUser trivial fun p hp => resting_of_contribution (hall p hp).1

/-! ### Fruitful steps -/

theorem sum_range_lt {size j : Nat} {f g : Nat → Nat} (hj : j < size) (hlt : f j < g j)
    (hsame : ∀ i, i ≠ j → f i = g i) :
    ((List.range size).map f).sum < ((List.range size).map g).sum := by
  refine List.sum_lt_sum _ _ (fun i _ => ?_) ⟨j, List.mem_range.mpr hj, hlt⟩
  by_cases hi : i = j
  · exact hi ▸ hlt.le
  · exact (hsame i hi).le

theorem sum_range_add {size j c : Nat} {f g : Nat → Nat} (hj : j < size)
    (h : ∀ i, f i + (if i = j then c else 0) = g i) :
    ((List.range size).map f).sum + c = ((List.range size).map g).sum := by
  have hone : ∀ n, ((List.range n).map fun i => if i = j then c else 0).sum =
      if j < n then c else 0 := by
    intro n
    induction n with
    | zero => rfl
    | succ n ih =>
        rw [List.range_succ, List.map_append, List.sum_append, ih]
        rcases Nat.lt_trichotomy j n with hlt | rfl | hgt
        · simp [hlt, Nat.lt_succ_of_lt hlt, Nat.ne_of_gt hlt]
        · simp
        · simp [Nat.not_lt_of_gt hgt, Nat.ne_of_lt hgt, Nat.not_lt.mpr hgt]
  rw [← funext h, List.sum_map_add, hone, if_pos hj]

theorem length_pick {α : Type} {done : List Bool} {xs : List α} (hlen : done.length = xs.length)
    (hany : done.any id = true) :
    (pick false done xs).length + (pick true done xs).length = xs.length ∧
      pick true done xs ≠ [] := by
  refine ⟨?_, ?_⟩
  · have := (pick_perm done xs hlen).length_eq
    rw [List.length_append] at this
    exact this.symm
  · induction done generalizing xs with
    | nil => simp at hany
    | cons m done ih =>
        cases xs with
        | nil => simp at hlen
        | cons x xs =>
            cases m with
            | true => simp [pick]
            | false => simpa [pick] using ih (by simpa using hlen) (by simpa using hany)

section Work

variable {w : World} {rank : Nat} {proc' : Proc} {a : ProcAct}

theorem Move.sent_eq (hmove : Move w rank (w.procs rank) a proc')
    (ha : fruitful (.proc rank a) = true) : proc'.ctrl_sent = (w.procs rank).ctrl_sent := by
  cases hmove with
  | beginCreate | sortOps | beginStart | beginDestroy | beginClose | drawTag | writeOnce
  | writeKept | announceOnce | announceKept | finishCreate | startBatch | startOp | finishStart
  | destroyOp | destroyBatch | finishDestroy | closeLoop | userHalt => cases ha
  | recvCreate | recvDestroy | recvStart | recvExecute | recvHalt | testSome | postStarted
  | postOnce | postHalt | finishPosting | keepTag | returnTag | finishEffects | daemonHalt => rfl

abbrev World.set (w : World) (rank : Nat) (proc' : Proc) : World :=
  { w with procs := Function.update w.procs rank proc' }

theorem World.owed_set_of_ne (hsent : proc'.ctrl_sent = (w.procs rank).ctrl_sent) {i j : Nat}
    (hj : j ≠ rank) : (w.set rank proc').owed i j = w.owed i j := by
  by_cases hi : i = rank
  · subst hi
    simp only [World.owed, Function.update_self, Function.update_of_ne hj, hsent]
  · simp only [World.owed, Function.update_of_ne hi, Function.update_of_ne hj]

theorem World.workAt_set_of_ne (hsent : proc'.ctrl_sent = (w.procs rank).ctrl_sent) {j : Nat}
    (hj : j ≠ rank) : (w.set rank proc').workAt j = w.workAt j := by
  have howed : (fun i => (w.set rank proc').owed i j) = fun i => w.owed i j :=
    funext fun i => World.owed_set_of_ne hsent hj
  unfold World.workAt
  rw [howed]
  simp only [Function.update_of_ne hj]

theorem World.owed_set (hsent : proc'.ctrl_sent = (w.procs rank).ctrl_sent) (i : Nat) :
    (w.set rank proc').owed i rank =
      2 * (((w.procs i).ctrl_sent rank).length - proc'.ctrl_received i) +
        4 * (((batchHandler i).outputs emptyMap ((w.procs i).ctrl_sent rank)).length -
          (peerLog i proc'.log).length) := by
  by_cases hi : i = rank
  · subst hi
    simp only [World.owed, Function.update_self, hsent]
  · simp only [World.owed, Function.update_self, Function.update_of_ne hi]

theorem World.owed_counted {src : Nat} {msg : CtrlMsg}
    (hmsg : ((w.procs src).ctrl_sent rank)[(w.procs rank).ctrl_received src]? = some msg)
    (hsent : proc'.ctrl_sent = (w.procs rank).ctrl_sent)
    (hreceived : proc'.ctrl_received = ((w.procs rank).counted src).ctrl_received)
    (hlog : proc'.log = (w.procs rank).log) (i : Nat) :
    (w.set rank proc').owed i rank + (if i = src then 2 else 0) = w.owed i rank := by
  have hlt := (List.getElem?_eq_some_iff.mp hmsg).1
  rw [World.owed_set hsent, hreceived, hlog, World.owed]
  by_cases hi : i = src
  · subst hi
    simp only [Proc.counted, Function.update_self, if_true]
    omega
  · simp only [Proc.counted, Function.update_of_ne hi, hi, if_false]
    omega

theorem World.owed_posted {src : Nat} {x : Post} (hinv : (w.set rank proc').Inv)
    (hx : x.own = false) (hinitiator : x.write.initiator = src)
    (hsent : proc'.ctrl_sent = (w.procs rank).ctrl_sent)
    (hreceived : proc'.ctrl_received = (w.procs rank).ctrl_received)
    (hlog : proc'.log = (w.procs rank).log ++ [x]) (i : Nat) :
    (w.set rank proc').owed i rank + (if i = src then 4 else 0) = w.owed i rank := by
  have hposts := (hinv.link i rank).posts.length_le
  have hproc : (w.set rank proc').procs rank = proc' := Function.update_self ..
  have hsame : ((w.set rank proc').procs i).ctrl_sent = (w.procs i).ctrl_sent := by
    by_cases hi : i = rank
    · subst hi
      rw [hproc, hsent]
    · simp only [Function.update_of_ne hi]
  rw [hproc, hsame, hlog, peerLog_append, List.length_append] at hposts
  rw [World.owed_set hsent, hreceived, hlog, World.owed, peerLog_append, List.length_append]
  by_cases hi : i = src
  · have hone : (peerLog i [x]).length = 1 := by simp [peerLog, hx, hinitiator, hi]
    rw [hone] at hposts ⊢
    simp only [hi, if_true] at hposts ⊢
    omega
  · have hzero : (peerLog i [x]).length = 0 := by simp [peerLog, hinitiator, Ne.symm hi]
    rw [hzero]
    simp [hi]

theorem World.workAt_pos (hlive : (w.procs rank).halted = none)
    (hmove : Move w rank (w.procs rank) a proc') (ha : fruitful (.proc rank a) = true) :
    0 < w.workAt rank := by
  have hmessage : ∀ {src : Nat} {msg : CtrlMsg}, src < w.size →
      ((w.procs src).ctrl_sent rank)[(w.procs rank).ctrl_received src]? = some msg →
      0 < ((List.range w.size).map fun i => w.owed i rank).sum := by
    intro src msg hsrc hmsg
    have hlt := (List.getElem?_eq_some_iff.mp hmsg).1
    have howed : 0 < w.owed src rank := by
      unfold World.owed
      omega
    exact Nat.lt_of_lt_of_le howed
      (List.le_sum_of_mem (List.mem_map_of_mem (List.mem_range.mpr hsrc)))
  rw [World.workAt, if_pos hlive]
  cases hmove with
  | beginCreate | sortOps | beginStart | beginDestroy | beginClose | drawTag | writeOnce
  | writeKept | announceOnce | announceKept | finishCreate | startBatch | startOp | finishStart
  | destroyOp | destroyBatch | finishDestroy | closeLoop | userHalt => cases ha
  | recvCreate _ _ hsrc hmsg | recvDestroy _ _ hsrc hmsg | recvStart _ _ hsrc hmsg
  | recvExecute _ _ hsrc hmsg | recvHalt _ _ hsrc hmsg =>
      have hpos := hmessage hsrc hmsg
      omega
  | postStarted hdaemon | postOnce hdaemon | postHalt hdaemon | finishPosting hdaemon
  | keepTag hdaemon | returnTag hdaemon | finishEffects hdaemon | daemonHalt hdaemon =>
      rw [hdaemon]
      simp only [DaemonPhase.work]
      omega
  | testSome _ _ hlen =>
      obtain ⟨hlength, hne⟩ := length_pick hlen ha
      have hpos := List.length_pos_of_ne_nil hne
      omega

theorem World.workAt_lt (hinv : w.Inv) (hinv' : (w.set rank proc').Inv) (hrank : rank < w.size)
    (hlive : (w.procs rank).halted = none) (hmove : Move w rank (w.procs rank) a proc')
    (ha : fruitful (.proc rank a) = true) : (w.set rank proc').workAt rank < w.workAt rank := by
  by_cases hlive' : proc'.halted = none
  case neg =>
    have hzero : (w.set rank proc').workAt rank = 0 := by
      simp only [World.workAt, Function.update_self, hlive', if_false]
    exact hzero ▸ World.workAt_pos hlive hmove ha
  have hsent := hmove.sent_eq ha
  have hnew : (w.set rank proc').workAt rank =
      ((List.range w.size).map fun i => (w.set rank proc').owed i rank).sum +
        3 * proc'.queue.length + proc'.daemon.work := by
    simp only [World.workAt, Function.update_self, hlive', if_true]
  rw [hnew, World.workAt, if_pos hlive]
  -- the messages are left alone
  have hkept : proc'.ctrl_received = (w.procs rank).ctrl_received →
      proc'.log = (w.procs rank).log →
      ((List.range w.size).map fun i => (w.set rank proc').owed i rank).sum =
        ((List.range w.size).map fun i => w.owed i rank).sum := by
    intro hreceived hlog
    congr 2
    funext i
    rw [World.owed_set hsent, hreceived, hlog, World.owed]
  have hcounted : ∀ {src : Nat} {msg : CtrlMsg}, src < w.size →
      ((w.procs src).ctrl_sent rank)[(w.procs rank).ctrl_received src]? = some msg →
      proc'.ctrl_received = ((w.procs rank).counted src).ctrl_received →
      proc'.log = (w.procs rank).log →
      ((List.range w.size).map fun i => (w.set rank proc').owed i rank).sum + 2 =
        ((List.range w.size).map fun i => w.owed i rank).sum :=
    fun hsrc hmsg hreceived hlog =>
      sum_range_add hsrc (World.owed_counted hmsg hsent hreceived hlog)
  have hposted : ∀ {src : Nat} {start : Option Nat} {op : MpiOp} {rest : List MpiOp}
      {mpi_op : List Entry} {x : Post},
      (w.procs rank).daemon = .posting src start (op :: rest) mpi_op → x.own = false →
      x.write.initiator = src → proc'.ctrl_received = (w.procs rank).ctrl_received →
      proc'.log = (w.procs rank).log ++ [x] →
      ((List.range w.size).map fun i => (w.set rank proc').owed i rank).sum + 4 =
        ((List.range w.size).map fun i => w.owed i rank).sum := by
    intro src start op rest mpi_op x hdaemon hx hinitiator hreceived hlog
    obtain ⟨plan, hfrom⟩ := hinv.daemon rank _ _ _ _ hdaemon op (by simp)
    have hsrc : src < w.size := hfrom.tag_mod ▸ Nat.mod_lt _ (Nat.zero_lt_of_lt hrank)
    exact sum_range_add hsrc (World.owed_posted hinv' hx hinitiator hsent hreceived hlog)
  generalize ((List.range w.size).map fun i => (w.set rank proc').owed i rank).sum = owed' at *
  cases hmove with
  | beginCreate | sortOps | beginStart | beginDestroy | beginClose | drawTag | writeOnce
  | writeKept | announceOnce | announceKept | finishCreate | startBatch | startOp | finishStart
  | destroyOp | destroyBatch | finishDestroy | closeLoop | userHalt => cases ha
  | recvHalt | postHalt | daemonHalt => cases hlive'
  | recvCreate hdaemon _ hsrc hmsg | recvDestroy hdaemon _ hsrc hmsg =>
      have hsum := hcounted hsrc hmsg rfl rfl
      simp only [Proc.counted, Proc.setTable]
      omega
  | recvStart hdaemon _ hsrc hmsg | recvExecute hdaemon _ hsrc hmsg =>
      have hsum := hcounted hsrc hmsg rfl rfl
      simp only [Proc.counted, Proc.goOn, DaemonPhase.work, List.length_nil]
      omega
  | postStarted hdaemon | postOnce hdaemon =>
      have hsum := hposted hdaemon rfl rfl rfl rfl
      rw [hdaemon]
      simp only [Proc.post, Proc.goOn, Proc.activate, DaemonPhase.work, List.length_append,
        List.length_singleton]
      omega
  | finishPosting hdaemon =>
      have hsum := hkept rfl rfl
      rw [hdaemon]
      simp only [Proc.append, Proc.goOn, DaemonPhase.work, List.length_append]
      omega
  | keepTag hdaemon | returnTag hdaemon | finishEffects hdaemon =>
      have hsum := hkept rfl rfl
      rw [hdaemon]
      simp only [Proc.flagged, Proc.goOn, Proc.setTagPool, DaemonPhase.work, List.length_cons,
        List.length_nil]
      omega
  | testSome hdaemon _ hlen =>
      have hsum := hkept rfl rfl
      obtain ⟨hlength, hne⟩ := length_pick hlen ha
      have hpos := List.length_pos_of_ne_nil hne
      simp only [Proc.testSome, DaemonPhase.work]
      omega

end Work

section Runs

variable {size : Nat} {flags : Nat → Nat → UruFlag} {w w' : World} {a : Act}

theorem World.work_lt (hinv : w.Inv) (ha : fruitful a = true) (hstep : w.step a = some w') :
    w'.Inv ∧ w'.work < w.work := by
  have hinv' := hinv.step hstep
  rcases step_cases hstep with ⟨rank, pa, proc', rfl, hrank, hlive, hmove, rfl⟩ | ⟨rfl, -, -⟩ |
    ⟨rfl, -, -⟩
  · refine ⟨hinv', sum_range_lt hrank (World.workAt_lt hinv hinv' hrank hlive hmove ha) ?_⟩
    exact fun j hj => World.workAt_set_of_ne (hmove.sent_eq ha) hj
  · cases ha
  · cases ha

theorem idle_step (hidle : ∀ p < w.size, (w.procs p).user = .idle) (ha : fruitful a = true)
    (hstep : w.step a = some w') : ∀ p < w'.size, (w'.procs p).user = .idle := by
  intro p hp
  rw [World.size_step hstep] at hp
  rcases step_cases hstep with ⟨rank, pa, proc', rfl, hrank, -, hmove, rfl⟩ | ⟨rfl, -, -⟩ |
    ⟨rfl, -, -⟩
  · by_cases hpr : p = rank
    · subst hpr
      simp only [Function.update_self]
      have huser := hidle p hp
      cases hmove with
      | beginCreate | sortOps | beginStart | beginDestroy | beginClose | drawTag | writeOnce
      | writeKept | announceOnce | announceKept | finishCreate | startBatch | startOp
      | finishStart | destroyOp | destroyBatch | finishDestroy | closeLoop | userHalt => cases ha
      | recvCreate | recvDestroy | recvStart | recvExecute | recvHalt | postStarted | postOnce
      | postHalt | finishPosting | keepTag | returnTag | finishEffects | daemonHalt => exact huser
      | testSome => simp [Proc.testSome, huser]
    · simp only [Function.update_of_ne hpr]
      exact hidle p hp
  · cases ha
  · cases ha

theorem complete_of_balanced (hinv : w.Inv) (hexpects : w.Expects) {p : Nat} (hp : p < w.size)
    (hbalanced : ∀ q < w.size, ∀ tag,
      (w.procs q).posted .opSend p tag = (w.procs p).posted .opRecv q tag) :
    ∀ e ∈ (w.procs p).queue, w.complete p e = true := by
  intro e he
  unfold World.complete
  match hty : e.op.op_type with
  | .opSend => rfl
  | .opRecv =>
      have hlt := hexpects.awaits p e
        (List.mem_append_left _ (List.mem_append_right _ he)) hty
      -- the receive is posted, so it is for a process that exists
      have hrank : e.op.rank < w.size := by
        obtain ⟨x, hx, hsel⟩ := List.countP_pos_iff.mp (Nat.zero_lt_of_lt hlt)
        obtain ⟨-, hr, -⟩ := of_decide_eq_true hsel
        cases hown : x.own with
        | true => exact hr ▸ (hexpects.inRange p).log x hx hown
        | false =>
            obtain ⟨hinitiator, htag⟩ := hinv.peer_post hx hown
            rw [← hr, hinitiator, ← htag]
            exact Nat.mod_lt _ (Nat.zero_lt_of_lt hp)
      simpa [hbalanced _ hrank] using hlt

/-- If no fruitful step is possible, everything is done. -/
theorem completed_of_stuck (hinv : w.Inv) (hexpects : w.Expects)
    (hidle : ∀ p < w.size, (w.procs p).user = .idle)
    (hlive : ∀ p < w.size, (w.procs p).halted = none)
    (hstuck : Stuck World.step (fun _ a => fruitful a = true) w) : w.Completed := by
  have hnone : ∀ {p : Nat} (pa : ProcAct), p < w.size → fruitful (.proc p pa) = true →
      w.procStep p pa = none := by
    intro p pa hp ha
    have hstep := hstuck (.proc p pa) ha
    rwa [World.step, if_pos ⟨hp, hlive p hp⟩, Option.map_eq_none_iff] at hstep
  have hpolls : ∀ p < w.size, (w.procs p).polls = true := by
    intro p hp
    rw [Proc.polls, hidle p hp]
  have hdrain : ∀ p < w.size, (w.procs p).daemon = .drain := by
    intro p hp
    have hstep := hnone .daemonStep hp rfl
    cases hdaemon : (w.procs p).daemon with
    | drain => rfl
    | posting src start ops mpi_op =>
        cases ops <;> simp [World.procStep, Proc.daemonStep, hdaemon] at hstep
    | effects entries => cases entries <;> simp [World.procStep, Proc.daemonStep, hdaemon] at hstep
  have hhandled : ∀ p < w.size, ∀ q < w.size,
      (w.procs q).ctrl_received p = ((w.procs p).ctrl_sent q).length := by
    intro p hp q hq
    have hstep := hnone (.recvCtrl p) hq rfl
    rw [World.procStep, if_pos ⟨hdrain q hq, hpolls q hq, hp⟩, Option.map_eq_none_iff,
      List.getElem?_eq_none_iff] at hstep
    exact Nat.le_antisymm (hinv.link p q).received_le hstep
  refine ⟨hlive, hidle, hhandled, fun p hp => ⟨?_, hdrain p hp⟩⟩
  -- all receives are matched, so a test would report the whole queue
  have hcomplete := complete_of_balanced hinv hexpects hp fun q hq tag =>
    hinv.posted_balanced hidle hlive hhandled hdrain hq hp tag
  by_contra hne
  have hpos := List.length_pos_of_ne_nil hne
  have hstep := hnone (.testSome (List.replicate (w.procs p).queue.length true)) hp (by
    simp only [fruitful, List.any_replicate]
    simp [Nat.ne_of_gt hpos])
  have hpick : pick true (List.replicate (w.procs p).queue.length true) (w.procs p).queue =
      (w.procs p).queue := by
    induction (w.procs p).queue with
    | nil => rfl
    | cons e es ih => simp [List.replicate_succ, pick, ih]
  rw [World.procStep, if_pos ⟨hdrain p hp, hpolls p hp, List.length_replicate,
    hpick.symm ▸ hcomplete⟩] at hstep
  cases hstep

/-- The daemons go on as far as the program defines what they do. -/
def carriesOn (w : World) (a : Act) : Bool := wellDefined w a && fruitful a

theorem carriesOn_iff : carriesOn w a = true ↔ wellDefined w a = true ∧ fruitful a = true := by
  rw [carriesOn, Bool.and_eq_true]

/-- Where the daemons cannot carry on, everything is done, unless the only steps
left free an operation in use. -/
theorem completed_of_carried (hinv : w.Inv) (hexpects : w.Expects)
    (hidle : ∀ p < w.size, (w.procs p).user = .idle)
    (hlive : ∀ p < w.size, (w.procs p).halted = none)
    (hstuck : Stuck World.step (fun w a => carriesOn w a = true) w) :
    w.Completed ∨ ∃ a w', fruitful a = true ∧ w.step a = some w' ∧ freesIdle w a = false := by
  refine or_iff_not_imp_right.mpr fun hnone => completed_of_stuck hinv hexpects hidle hlive ?_
  intro a ha
  by_contra hstep
  obtain ⟨w', hw'⟩ := Option.ne_none_iff_exists'.mp hstep
  have hfrees : freesIdle w a = true := by
    by_contra hfrees
    exact hnone ⟨a, w', ha, hw', eq_false_of_ne_true hfrees⟩
  have hstarts : startsDone w a = true := by
    unfold startsDone
    split
    · cases ha
    · rfl
  exact hstep (hstuck a (carriesOn_iff.mpr
    ⟨by rw [wellDefined, hstarts, hfrees, Bool.and_self], ha⟩))

/-- Whatever the processes have issued, once their calls have returned the
daemons alone finish it: from there on every run of fruitful steps is bounded,
there is one that can go no further, and such a run has left nothing to do,
unless a process has stopped or all that is left to do frees operations in
use. -/
theorem daemons_finish
    (hrun : Run World.step (fun w a => wellDefined w a = true) (World.init size flags) w)
    (hidle : ∀ p < size, (w.procs p).user = .idle) :
    (∀ n w', Steps World.step (fun w a => carriesOn w a = true) w n w' → n ≤ w.work) ∧
    (∃ w', Run World.step (fun w a => carriesOn w a = true) w w' ∧
      Stuck World.step (fun w a => carriesOn w a = true) w') ∧
    ∀ w', Run World.step (fun w a => carriesOn w a = true) w w' →
      Stuck World.step (fun w a => carriesOn w a = true) w' →
      (∀ p < size, (w'.procs p).halted = none) →
      w'.Completed ∨
        ∃ a w'', fruitful a = true ∧ w'.step a = some w'' ∧ freesIdle w' a = false := by
  have hinv := World.inv_run hrun
  have hsize := World.size_run hrun
  have hdec : ∀ (t : World) (a : Act) (u : World), t.Inv → carriesOn t a = true →
      t.step a = some u → u.Inv ∧ u.work < t.work :=
    fun _ _ _ hinv ha hstep => World.work_lt hinv (carriesOn_iff.mp ha).2 hstep
  refine ⟨fun n w' hsteps => ?_, exists_stuck hdec hinv, fun w' hrun' hstuck hlive => ?_⟩
  · have hle := (hsteps.measure hdec hinv).2
    omega
  · have hwhole := hrun.trans (hrun'.mono fun _ _ ha => (carriesOn_iff.mp ha).1)
    have hidle' : ∀ p < w'.size, (w'.procs p).user = .idle :=
      hrun'.invariant (I := fun w => ∀ p < w.size, (w.procs p).user = .idle)
        (fun p hp => hidle p (hsize ▸ hp))
        fun _ _ _ _ h ha hstep => idle_step h (carriesOn_iff.mp ha).2 hstep
    exact completed_of_carried (World.inv_run hwhole) (World.expects_run hwhole) hidle'
      (fun p hp => hlive p (World.size_run hwhole ▸ hp)) hstuck

end Runs

/-- Process 0 has put to process 1, and neither daemon has done anything. -/
def putIssued : World := World.after wellDefined 2 (putRun.take 6)

theorem daemons_finish_put :
    (∀ p < 2, (putIssued.procs p).user = .idle) ∧ (putIssued.procs 1).ctrl_received 0 = 0 ∧
      (∀ n w', Steps World.step (fun w a => carriesOn w a = true) putIssued n w' → n ≤ 12) ∧
      ∃ w', Run World.step (fun w a => carriesOn w a = true) putIssued w' ∧
        Stuck World.step (fun w a => carriesOn w a = true) w' := by
  have hidle : ∀ p < 2, (putIssued.procs p).user = .idle := by decide +kernel
  have hwork : putIssued.work = 12 := by decide +kernel
  have hrun : Run World.step (fun w a => wellDefined w a = true)
      (World.init 2 fun _ _ => ⟨0, none, 0, 0⟩) putIssued := World.run_after (by decide +kernel)
  obtain ⟨hbound, hend, -⟩ := daemons_finish hrun hidle
  exact ⟨hidle, by decide +kernel, fun n w' hsteps => hwork ▸ hbound n w' hsteps, hend⟩

end Unr.Mpi
