import Unr.Mpi.Memory
import Unr.Mpi.Restart
import Unr.Mpi.BatchTable

/-!
How long the operations of a plan last.

An operation that is issued at once is a copy of its own, which the daemon
frees together with its entry. Starting a plan puts pointers into the queue:
to the operations in the send batch of the plan, and at a target to those in
the batch it keeps. Destroying the plan frees the former, and handling the
message that destroys the batch the latter, whether or not the queue still
points to them.
-/

namespace Unr.Mpi

open Unr.Uru Unr.Logic

def tableOps (table : List (Option OpBatch)) : List MpiOp :=
  table.reduceOption.flatMap (·.ops)

/-- The operations of a plan whose requests `uri_mpi_rdma_plan_destroy` has not
freed yet. -/
def UserPhase.undestroyed : UserPhase → List MpiOp
  | .destroying _ ops _ _ => ops
  | _ => []

def Proc.ownKept (proc : Proc) : List MpiOp :=
  proc.plans.flatMap (·.send_batch) ++ proc.user.undestroyed

def Proc.retains (proc : Proc) (e : Entry) : Prop :=
  e.write.start ≠ 0 →
    match e.side with
    | .ctrl => False
    | .own => e.op ∈ proc.ownKept
    | .peer => e.op ∈ tableOps (proc.recv_batch e.write.initiator)

/-- Whether a step of process `rank` frees the operation that an entry of a
start points to, or its request. -/
def World.frees (w : World) (rank : Nat) (e : Entry) : ProcAct → Bool
  | .userStep =>
      match (w.procs rank).user with
      | .destroying _ (op :: _) _ _ => decide (e.side = .own ∧ e.op = op)
      | _ => false
  | .recvCtrl src =>
      match w.nextMsg src rank with
      | some (.destroyOpBatch batch_id _) =>
          match ((w.procs rank).recv_batch src)[batch_id]? with
          | some (some batch) =>
              decide (e.side = .peer ∧ e.write.initiator = src ∧ e.op ∈ batch.ops)
          | _ => false
      | _ => false
  | _ => false

/-- No operation is freed that an entry points to. -/
def freesIdle (w : World) : Act → Bool
  | .proc rank a =>
      decide (∀ e ∈ (w.procs rank).unapplied, e.write.start ≠ 0 → w.frees rank e a = false)
  | _ => true

/-- The program defines what the step does: it starts no request that is active
and frees no operation in use. -/
def wellDefined (w : World) (a : Act) : Bool := startsDone w a && freesIdle w a

/-- Every entry, and everything the daemon is about to start, points to an
operation that is still there. -/
structure Proc.Lasting (proc : Proc) : Prop where
  entries : ∀ e ∈ proc.unapplied, proc.retains e
  daemon : ∀ src start rest mpi_op, proc.daemon = .posting src (some start) rest mpi_op →
    ∀ op ∈ rest, op ∈ tableOps (proc.recv_batch src)

/-- No operation is in two of the batches that a process keeps for another
one. -/
def Proc.OneSlot (proc : Proc) : Prop :=
  ∀ (src i j : Nat) (batch batch' : OpBatch),
    (proc.recv_batch src)[i]? = some (some batch) →
    (proc.recv_batch src)[j]? = some (some batch') → ∀ op ∈ batch.ops, op ∈ batch'.ops → i = j

/-! ### Tables -/

section Tables

variable {table table' : List (Option OpBatch)} {id : Nat} {batch : OpBatch} {op : MpiOp}

theorem mem_tableOps : op ∈ tableOps table ↔
    ∃ (id : Nat) (batch : OpBatch), table[id]? = some (some batch) ∧ op ∈ batch.ops := by
  simp only [tableOps, List.mem_flatMap, List.reduceOption_mem_iff]
  constructor
  · rintro ⟨batch, hbatch, hop⟩
    obtain ⟨id, hid⟩ := List.mem_iff_getElem?.mp hbatch
    exact ⟨id, batch, hid, hop⟩
  · rintro ⟨id, batch, hid, hop⟩
    exact ⟨batch, List.mem_of_getElem? hid, hop⟩

theorem mem_tableOps_map : op ∈ tableOps table ↔
    ∃ (id : Nat) (batch : OpBatch), tableMap table id = some batch ∧ op ∈ batch.ops := by
  simp only [mem_tableOps, tableMap_eq_some]

theorem tableOps_create (hgrow : growTable table id = .ok table')
    (hslot : table'[id]? = some none) (hop : op ∈ tableOps table) :
    op ∈ tableOps (table'.set id (some batch)) := by
  obtain ⟨hsame, -, hid⟩ := tableMap_growTable hgrow
  obtain ⟨i, b, hb, hmem⟩ := mem_tableOps_map.mp hop
  refine mem_tableOps_map.mpr ⟨i, b, ?_, hmem⟩
  rw [tableMap_set _ hid]
  have hne : i ≠ id := by
    rintro rfl
    rw [← hsame, tableMap_eq_some, hslot] at hb
    cases hb
  rwa [Function.update_of_ne hne, hsame]

theorem mem_tableOps_destroy (hslot : table[id]? = some (some batch)) :
    op ∈ tableOps (table.set id none) ↔
      ∃ i b, i ≠ id ∧ table[i]? = some (some b) ∧ op ∈ b.ops := by
  have hid := (List.getElem?_eq_some_iff.mp hslot).1
  rw [mem_tableOps_map, tableMap_set _ hid]
  refine exists_congr fun i => exists_congr fun b => ?_
  by_cases hi : i = id
  · simp [hi]
  · simp [tableMap_eq_some, hi]

end Tables

/-! ### Steps of a process -/

section Moves

variable {w : World} {rank : Nat} {proc proc' : Proc} {a : ProcAct} {e : Entry}

theorem made_started (he : e ∈ proc.made rank a) (hstart : e.write.start ≠ 0) :
    (a = .userStep ∧ e.side = .own ∧ ∃ p start ops mpi_op,
      proc.user = .starting p start [] (e.op :: ops) mpi_op) ∨
    (a = .daemonStep ∧ e.side = .peer ∧ ∃ start rest mpi_op,
      proc.daemon = .posting e.write.initiator (some start) (e.op :: rest) mpi_op) := by
  unfold Proc.made at he
  split at he
  · split at he
    · rw [List.mem_singleton.mp he] at hstart
      exact absurd rfl hstart
    · rw [List.mem_singleton.mp he] at hstart
      exact absurd rfl hstart
    · rw [List.mem_singleton.mp he] at hstart
      exact absurd rfl hstart
    · rename_i huser
      rw [List.mem_singleton.mp he]
      exact .inl ⟨rfl, rfl, _, _, _, _, huser⟩
    · rw [List.mem_singleton.mp he] at hstart
      exact absurd rfl hstart
    · exact absurd he List.not_mem_nil
  · split at he
    · rename_i src start op rest mpi_op hdaemon
      rw [List.mem_singleton.mp he] at hstart ⊢
      cases start with
      | none => exact absurd rfl hstart
      | some start => exact .inr ⟨rfl, rfl, _, _, _, hdaemon⟩
    · exact absurd he List.not_mem_nil
  · exact absurd he List.not_mem_nil

/-- A step that frees nothing keeps the operations of the plans and of the
batches. -/
theorem Proc.retains.mono (h : proc.retains e)
    (hown : ∀ op ∈ proc.ownKept, op ∈ proc'.ownKept)
    (hpeer : ∀ src, ∀ op ∈ tableOps (proc.recv_batch src), op ∈ tableOps (proc'.recv_batch src)) :
    proc'.retains e := by
  intro hstart
  have hkept := h hstart
  match hside : e.side with
  | .ctrl => simp only [hside] at hkept
  | .own =>
      simp only [hside] at hkept
      exact hown _ hkept
  | .peer =>
      simp only [hside] at hkept
      exact hpeer _ _ hkept

theorem Proc.Ini.destroyed_once {size : Nat} (h : proc.Ini size rank) {p : Plan} {op : MpiOp}
    {ops : List MpiOp} {batches : List RecvBatch} {mpi_op : List Entry}
    (huser : proc.user = .destroying p (op :: ops) batches mpi_op) :
    op ∉ proc.plans.flatMap (·.send_batch) ++ ops := by
  intro hop
  have hnodup := h.tags.nodup op.rank
  rw [Proc.heldPairs, huser] at hnodup
  simp only [UserPhase.tagPairs, List.map_cons, List.cons_append, tagsTo_cons, MpiOp.pair,
    if_true, List.nodup_cons, tagsTo_append, List.mem_append, not_or] at hnodup
  obtain ⟨⟨-, ⟨⟨hops, hplans⟩, -⟩, -⟩, -⟩ := hnodup
  have hmem : ∀ {pairs : List (Nat × Nat)}, (op.rank, op.tag) ∈ pairs →
      op.tag ∈ tagsTo op.rank pairs := fun hpair =>
    List.mem_filterMap.mpr ⟨_, hpair, if_pos rfl⟩
  rcases List.mem_append.mp hop with hop | hop
  · obtain ⟨p', hp', hop⟩ := List.mem_flatMap.mp hop
    exact hplans (hmem (List.mem_flatMap.mpr ⟨p', hp', List.mem_map_of_mem hop⟩))
  · exact hops (hmem (List.mem_map_of_mem hop))

/-- A step takes away what it frees, and nothing else. -/
theorem Move.retains_iff (hmove : Move w rank (w.procs rank) a proc') (hlive' : proc'.halted = none)
    (hini : (w.procs rank).Ini w.size rank)
    (hone : (w.procs rank).OneSlot)
    (he : (w.procs rank).retains e) (hstart : e.write.start ≠ 0) :
    proc'.retains e ↔ w.frees rank e a = false := by
  -- a step that frees nothing
  have hkeep : w.frees rank e a = false →
      (∀ op ∈ (w.procs rank).ownKept, op ∈ proc'.ownKept) →
      (∀ src, ∀ op ∈ tableOps ((w.procs rank).recv_batch src),
        op ∈ tableOps (proc'.recv_batch src)) →
      (proc'.retains e ↔ w.frees rank e a = false) := fun hfrees hown hpeer =>
    ⟨fun _ => hfrees, fun _ => he.mono hown hpeer⟩
  have hplans : (w.procs rank).user.undestroyed = [] → ∀ op ∈ (w.procs rank).ownKept,
      op ∈ (w.procs rank).plans.flatMap (·.send_batch) := by
    intro hnone op hop
    rwa [Proc.ownKept, hnone, List.append_nil] at hop
  have hrest : ∀ {user : UserPhase}, (w.procs rank).user.undestroyed = [] →
      ∀ op ∈ (w.procs rank).ownKept, op ∈ (w.procs rank).plans.flatMap (·.send_batch) ++
        user.undestroyed := fun hnone op hop => List.mem_append_left _ (hplans hnone op hop)
  cases hmove with
  | userHalt | daemonHalt | recvHalt | postHalt => cases hlive'
  | beginCreate huser | sortOps huser | beginStart huser | beginClose huser =>
      exact hkeep rfl (hrest (by rw [huser]; rfl)) fun _ _ hop => hop
  | @beginDestroy _ p huser hp =>
      refine hkeep rfl (fun op hop => ?_) fun _ _ hop => hop
      obtain ⟨p', hp', hop⟩ := List.mem_flatMap.mp (hplans (by rw [huser]; rfl) op hop)
      by_cases hpp : p' = p
      · exact List.mem_append_right _ (hpp ▸ hop)
      · exact List.mem_append_left _ (List.mem_flatMap.mpr
          ⟨p', (List.mem_erase_of_ne hpp).mpr hp', hop⟩)
  | drawTag huser | writeOnce huser | writeKept huser | announceOnce huser | announceKept huser
  | startBatch huser | startOp huser | finishStart huser | destroyBatch huser
  | finishDestroy huser =>
      exact hkeep (by simp [World.frees, huser]) (hrest (by rw [huser]; rfl)) fun _ _ hop => hop
  | @finishCreate once_now plan send_ops recv_batch mpi_op huser =>
      refine hkeep (by simp [World.frees, huser]) (fun op hop => ?_) fun _ _ hop => hop
      replace hop := hplans (by rw [huser]; rfl) op hop
      refine List.mem_append_left _ ?_
      simp only [Proc.finishCreate]
      split
      · exact hop
      · exact List.mem_append_right _ hop
  | closeLoop huser =>
      refine hkeep (by simp [World.frees, huser]) (hrest (by rw [huser]; rfl)) fun _ _ hop => hop
  | @destroyOp p op ops batches mpi_op pool huser =>
      have honce := hini.destroyed_once huser
      have hfrees : w.frees rank e .userStep = decide (e.side = .own ∧ e.op = op) := by
        simp only [World.frees, huser]
      rw [hfrees, decide_eq_false_iff_not]
      have hkept := he hstart
      constructor
      · rintro hnow ⟨hside, hop⟩
        have hin := hnow hstart
        simp only [hside, hop] at hin
        exact honce hin
      · intro hnot _
        cases hside : e.side with
        | ctrl => simp only [hside] at hkept
        | peer =>
            simp only [hside] at hkept
            exact hkept
        | own =>
            simp only [hside, Proc.ownKept, huser, UserPhase.undestroyed, List.mem_append,
              List.mem_cons] at hkept
            refine List.mem_append.mpr (hkept.imp id fun h => h.resolve_left fun hop => ?_)
            exact hnot ⟨hside, hop⟩
  | @recvCreate src id batch table _ _ _ hmsg hgrow hslot =>
      have hfrees : w.frees rank e (.recvCtrl src) = false := by
        simp only [World.frees, World.nextMsg, hmsg]
      refine hkeep hfrees (fun _ hop => hop) fun i op hop => ?_
      by_cases hi : i = src
      · subst hi
        simp only [Proc.setTable, Function.update_self]
        exact tableOps_create hgrow hslot hop
      · simp only [Proc.setTable, Function.update_of_ne hi]
        exact hop
  | @recvDestroy src id plan batch _ _ _ hmsg hslot =>
      have hfrees : w.frees rank e (.recvCtrl src) =
          decide (e.side = .peer ∧ e.write.initiator = src ∧ e.op ∈ batch.ops) := by
        simp only [World.frees, World.nextMsg, hmsg, hslot]
      rw [hfrees, decide_eq_false_iff_not]
      have hkept := he hstart
      constructor
      · rintro hnow ⟨hside, hsrc, hop⟩
        have hin := hnow hstart
        simp only [hside, hsrc, Proc.setTable, Function.update_self] at hin
        obtain ⟨i, b, hne, hb, hop'⟩ := (mem_tableOps_destroy hslot).mp hin
        exact hne (hone src i id b batch hb hslot e.op hop' hop)
      · intro hnot _
        cases hside : e.side with
        | ctrl => simp only [hside] at hkept
        | own =>
            simp only [hside] at hkept
            exact hkept
        | peer =>
            simp only [hside] at hkept ⊢
            by_cases hsrc : e.write.initiator = src
            · rw [hsrc] at hkept ⊢
              simp only [Proc.setTable, Function.update_self]
              obtain ⟨i, b, hb, hop⟩ := mem_tableOps.mp hkept
              refine (mem_tableOps_destroy hslot).mpr
                ⟨i, b, fun hi => hnot ⟨hside, hsrc, ?_⟩, hb, hop⟩
              rw [hi, hslot] at hb
              cases hb
              exact hop
            · simp only [Proc.setTable, Function.update_of_ne hsrc]
              exact hkept
  | recvStart _ _ _ hmsg | recvExecute _ _ _ hmsg =>
      refine hkeep ?_ (fun _ hop => hop) fun _ _ hop => hop
      simp only [World.frees, World.nextMsg, hmsg]
  | postStarted | postOnce | finishPosting | keepTag | returnTag | finishEffects =>
      exact hkeep rfl (fun _ hop => hop) fun _ _ hop => hop
  | @testSome done =>
      refine hkeep rfl (fun op hop => ?_) fun _ _ hop => hop
      rwa [Proc.ownKept, testSome_same (w.procs rank) done UserPhase.undestroyed fun _ _ => rfl]

/-- What a step makes points to an operation that is there, and that the step
does not free. -/
theorem made_retains (hini : (w.procs rank).Ini w.size rank) (h : (w.procs rank).Lasting)
    (he : e ∈ (w.procs rank).made rank a) (hstart : e.write.start ≠ 0) :
    (w.procs rank).retains e ∧ w.frees rank e a = false := by
  rcases made_started he hstart with ⟨rfl, hside, p, start, ops, mpi_op, huser⟩ |
    ⟨rfl, hside, start, rest, mpi_op, hdaemon⟩
  · have huserOk := hini.user
    rw [huser] at huserOk
    refine ⟨fun _ => ?_, by simp only [World.frees, huser]⟩
    rw [hside]
    exact List.mem_append_left _ (List.mem_flatMap.mpr
      ⟨p, huserOk.1, huserOk.2.2.1.subset (List.mem_cons_self ..)⟩)
  · refine ⟨fun _ => ?_, rfl⟩
    rw [hside]
    exact h.daemon _ _ _ _ hdaemon e.op (List.mem_cons_self ..)

/-- A step that frees no operation in use leaves everything in place. -/
theorem Proc.Lasting.move (h : (w.procs rank).Lasting) (hini : (w.procs rank).Ini w.size rank)
    (hone : (w.procs rank).OneSlot) (hmove : Move w rank (w.procs rank) a proc')
    (hlive' : proc'.halted = none) (hidle : freesIdle w (.proc rank a) = true) :
    proc'.Lasting where
  entries e he := by
    have hold := (hmove.entries_perm hlive').mem_iff.mp (List.mem_append_right _ he)
    by_cases hstart : e.write.start = 0
    · exact fun hne => absurd hstart hne
    · obtain ⟨hkept, hfree⟩ : (w.procs rank).retains e ∧ w.frees rank e a = false := by
        rcases List.mem_append.mp hold with hold | hmade
        · exact ⟨h.entries e hold, of_decide_eq_true hidle e hold hstart⟩
        · exact made_retains hini h hmade hstart
      exact (hmove.retains_iff hlive' hini hone hkept hstart).mpr hfree
  daemon src start rest mpi_op hdaemon op hop := by
    cases hmove with
    | userHalt | daemonHalt | recvHalt | postHalt => cases hlive'
    | beginCreate | sortOps | beginStart | beginDestroy | beginClose | drawTag | writeOnce
    | writeKept | announceOnce | announceKept | finishCreate | startBatch | startOp | finishStart
    | destroyOp | destroyBatch | finishDestroy | closeLoop =>
        exact h.daemon src start rest mpi_op hdaemon op hop
    | recvCreate hdrain | recvDestroy hdrain =>
        exact nomatch hdrain.symm.trans hdaemon
    | recvStart _ _ _ _ hslot =>
        cases hdaemon
        exact mem_tableOps.mpr ⟨_, _, hslot, hop⟩
    | postStarted hposting =>
        cases hdaemon
        exact h.daemon _ _ _ _ hposting op (List.mem_cons_of_mem _ hop)
    | recvExecute | postOnce | finishPosting | keepTag | returnTag | finishEffects | testSome =>
        cases hdaemon

theorem UserPhase.Resting.undestroyed {user : UserPhase} (h : user.Resting) :
    user.undestroyed = [] := by
  cases user <;> first | rfl | exact h.elim

theorem Proc.Lasting.enter (h : proc.Lasting) {user : UserPhase} (hold : proc.user.Resting)
    (huser : user.Resting) : (proc.enter user).Lasting where
  entries e he := by
    have hkept : (proc.enter user).ownKept = proc.ownKept := by
      simp only [Proc.ownKept, Proc.enter, hold.undestroyed, huser.undestroyed]
    have hentries : (proc.enter user).unapplied = proc.unapplied := by
      simp only [Proc.unapplied, Proc.enter, hold.entries, huser.entries]
    exact (h.entries e (hentries ▸ he)).mono (fun op hop => hkept ▸ hop) fun _ _ hop => hop
  daemon := h.daemon

theorem frees_unapplied (hmove : Move w rank (w.procs rank) a proc')
    (hlive' : proc'.halted = none) (hfrees : w.frees rank e a = true)
    (he : e ∈ (w.procs rank).unapplied) : e ∈ proc'.unapplied := by
  have hnone : ((w.procs rank).events rank a).filterMap Event.entry = [] := by
    unfold World.frees at hfrees
    split at hfrees
    · split at hfrees
      · rename_i huser
        simp only [Proc.events, huser, List.filterMap_nil]
      · cases hfrees
    · rfl
    · cases hfrees
  have hperm := hmove.entries_perm hlive'
  rw [hnone, List.nil_append] at hperm
  exact hperm.mem_iff.mpr (List.mem_append_left _ he)

end Moves

/-! ### Runs -/

section Runs

variable {C : World → Act → Prop} {size : Nat} {flags : Nat → Nat → UruFlag} {w w' : World}

/-- The plans of every process are numbered as they are created. -/
theorem numbered_run (hrun : Run World.step C (World.init size flags) w) (p : Nat) :
    (w.procs p).Numbered := by
  refine hrun.invariant (I := fun w => ∀ p, (w.procs p).Numbered)
    (World.Tables.init size flags).numbered ?_ p
  intro w a w' _ h _ hstep p
  have hset : ∀ user : UserPhase, (∀ sent next_plan, user.NewTo sent next_plan) →
      ((w.setUser user).procs p).Numbered := by
    intro user huser
    simp only [World.setUser]
    split
    · exact (h p).same rfl rfl rfl (huser _ _)
    · exact h p
  rcases step_cases hstep with ⟨rank, pa, proc', -, -, -, hmove, rfl⟩ | ⟨-, -, rfl⟩ |
    ⟨-, -, rfl⟩
  · by_cases hp : p = rank
    · subst hp
      simp only [Function.update_self]
      exact (h p).move hmove
    · simp only [Function.update_of_ne hp]
      exact h p
  · exact hset _ fun _ _ => trivial
  · exact hset _ fun _ _ => trivial

/-- The batches in a table are of different plans, and so are their
operations. -/
theorem oneSlot_run (hrun : Run World.step C (World.init size flags) w) {p : Nat}
    (hlive : (w.procs p).halted = none) : (w.procs p).OneSlot := by
  intro src i j batch batch' hi hj op hop hop'
  have hinv := World.inv_run hrun
  have hfresh := (numbered_run hrun src).fresh p
  have hcreated : ∀ {id : Nat} {b : OpBatch},
      ((w.procs p).recv_batch src)[id]? = some (some b) →
        .createOpBatch id b ∈ (w.procs src).ctrl_sent p := by
    intro id b hslot
    rw [← tableMap_eq_some, ((hinv.link src p).live hlive).1] at hslot
    have hall := (hinv.ini src).valid p
    rw [← List.take_append_drop ((w.procs p).ctrl_received src) ((w.procs src).ctrl_sent p),
      Handler.valid_append] at hall
    exact List.mem_of_mem_take
      ((final_existing hall.1 (hfresh.sublist (List.take_sublist _ _)) id b).mp hslot).1
  have hplan : ∀ {id : Nat} {b : OpBatch},
      ((w.procs p).recv_batch src)[id]? = some (some b) → op ∈ b.ops → op.plan = b.plan :=
    fun hslot hmem => ((hinv.ini src).sent p _ (hcreated hslot) _ rfl op hmem).plan_eq
  exact (hfresh.unique (hcreated hi) (hcreated hj)
    ((hplan hi hop).symm.trans (hplan hj hop'))).1

theorem lasting_run
    (hrun : Run World.step (fun w a => freesIdle w a = true) (World.init size flags) w) (p : Nat)
    (hlive : (w.procs p).halted = none) : (w.procs p).Lasting := by
  refine hrun.invariant (I := fun w => ∀ p, (w.procs p).halted = none → (w.procs p).Lasting)
    (fun p _ => ⟨fun _ he => absurd he List.not_mem_nil, by rintro _ _ _ _ ⟨⟩⟩) ?_ p hlive
  intro w a w' hrun h hidle hstep p hlive'
  have hset : ∀ user : UserPhase, user.Resting → (∀ q < w.size, (w.procs q).user.Resting) →
      ((w.setUser user).procs p).Lasting := by
    intro user huser hall
    have hlive := live_of_step hstep hlive'
    simp only [World.setUser]
    split
    · exact (h p hlive).enter (hall p ‹_›) huser
    · exact h p hlive
  rcases step_cases hstep with ⟨rank, pa, proc', rfl, -, hlive, hmove, rfl⟩ | ⟨-, hall, rfl⟩ |
    ⟨-, hall, rfl⟩
  · by_cases hp : p = rank
    · subst hp
      simp only [Function.update_self] at hlive' ⊢
      exact (h p hlive).move ((World.inv_run hrun).ini p) (oneSlot_run hrun hlive) hmove hlive'
        hidle
    · simp only [Function.update_of_ne hp] at hlive' ⊢
      exact h p hlive'
  · exact hset _ trivial fun q hq => (hall q hq).1 ▸ trivial
  · exact hset _ trivial fun q hq => resting_of_contribution (hall q hq).1

end Runs

/-- In a run that frees no operation in use, every entry of a running process
points to an operation that is there. A step of a process leaves one that does
not exactly when it frees an operation in use. -/
theorem entries_retained_iff {size : Nat} {flags : Nat → Nat → UruFlag} {w w' : World}
    {rank : Nat} {a : ProcAct}
    (hrun : Run World.step (fun w a => freesIdle w a = true) (World.init size flags) w)
    (hstep : w.step (.proc rank a) = some w') (hlive' : (w'.procs rank).halted = none) :
    (∀ p, (w.procs p).halted = none → ∀ e ∈ (w.procs p).unapplied, (w.procs p).retains e) ∧
      ((∀ e ∈ (w'.procs rank).unapplied, (w'.procs rank).retains e) ↔
        freesIdle w (.proc rank a) = true) := by
  refine ⟨fun p hlive => (lasting_run hrun p hlive).entries, fun hkept => ?_, fun hidle => ?_⟩
  · rcases step_cases hstep with ⟨_, _, proc', ⟨⟩, -, hlive, hmove, rfl⟩ | ⟨⟨⟩, -, -⟩ |
      ⟨⟨⟩, -, -⟩
    simp only [Function.update_self] at hlive' hkept
    refine decide_eq_true fun e he hstart => ?_
    -- were the operation freed, the entry would still point to it
    by_contra hfrees
    refine hfrees ((hmove.retains_iff hlive' ((World.inv_run hrun).ini rank)
      (oneSlot_run hrun hlive) ((lasting_run hrun rank hlive).entries e he) hstart).mp ?_)
    exact hkept e (frees_unapplied hmove hlive' (eq_true_of_ne_false hfrees) he)
  · exact (lasting_run (.snoc hrun hidle hstep) rank hlive').entries

def destroyedEarly : World :=
  World.after freesIdle 2 (createSteps ++ startSteps [true, true, true] ++
    [.proc 1 (.recvCtrl 0)] ++ handleSteps ++
    [.beginDestroy 0, .userStep, .userStep].map (.proc 0))

/-- All that process 0 waits for is complete, but the receive of process 1 is
not: handling the message frees an operation that the queue points to. -/
theorem entries_retained_iff_early :
    ∃ w', destroyedEarly.step (.proc 1 (.recvCtrl 0)) = some w' ∧
      (∀ e ∈ (destroyedEarly.procs 0).unapplied, (destroyedEarly.procs 0).retains e) ∧
      (∀ e ∈ (destroyedEarly.procs 1).unapplied, (destroyedEarly.procs 1).retains e) ∧
      ¬ ∀ e ∈ (w'.procs 1).unapplied, (w'.procs 1).retains e := by
  have hstep : (destroyedEarly.step (.proc 1 (.recvCtrl 0))).any
      (fun w' => (w'.procs 1).halted == none) = true := by
    decide +kernel
  obtain ⟨w', hw', hlive⟩ := (Option.any_eq_true _ _).mp hstep
  obtain ⟨hkept, hiff⟩ := entries_retained_iff (World.run_after (by decide +kernel)) hw'
    (eq_of_beq hlive)
  refine ⟨w', hw', hkept 0 (by decide +kernel), hkept 1 (by decide +kernel), fun hall => ?_⟩
  exact absurd (hiff.mp hall) (by decide +kernel)

end Unr.Mpi
