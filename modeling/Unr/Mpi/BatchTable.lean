import Unr.Mpi.WorldInv

/-!
The tables of batches.

A process returns the id of a batch to its pool when it sends the message that
destroys the batch, so the id may be drawn again while the receiver still
holds the old one. The messages arrive in order, so the receiver has emptied
the slot by the time it is told to fill it again: a slot holds a batch exactly
from the message that creates it to the message that destroys it.
-/

namespace Unr.Mpi

open Unr.Uru Unr.Logic

/-! ### Batches in a sequence of messages -/

def CtrlMsg.names : CtrlMsg → Option Nat
  | createOpBatch _ batch => some batch.plan
  | destroyOpBatch _ plan => some plan
  | _ => none

/-- The batch has been created and its plan has not been destroyed. -/
def Existing (msgs : List CtrlMsg) (batch_id : Nat) (batch : OpBatch) : Prop :=
  .createOpBatch batch_id batch ∈ msgs ∧ ∀ id, .destroyOpBatch id batch.plan ∉ msgs

/-- A batch is created for a plan that no earlier message names. -/
def FreshPlans (msgs : List CtrlMsg) : Prop :=
  msgs.Pairwise fun msg msg' =>
    ∀ batch_id batch, msg' = .createOpBatch batch_id batch → msg.names ≠ some batch.plan

theorem FreshPlans.concat {msgs : List CtrlMsg} {msg : CtrlMsg} (h : FreshPlans msgs)
    (hmsg : ∀ batch_id batch, msg = .createOpBatch batch_id batch →
      ∀ m ∈ msgs, m.names ≠ some batch.plan) : FreshPlans (msgs ++ [msg]) := by
  refine List.pairwise_append.mpr ⟨h, List.pairwise_singleton _ _, fun m hm msg' hmsg' => ?_⟩
  rw [List.mem_singleton.mp hmsg']
  exact fun batch_id batch hcreate => hmsg batch_id batch hcreate m hm

/-- If both messages create a batch, then for different plans or with the same
id and the same batch. -/
def CtrlMsg.Agree (msg msg' : CtrlMsg) : Prop :=
  ∀ id batch id' batch', msg = .createOpBatch id batch → msg' = .createOpBatch id' batch' →
    batch.plan = batch'.plan → id = id' ∧ batch = batch'

theorem FreshPlans.unique {msgs : List CtrlMsg} (h : FreshPlans msgs) {id id' : Nat}
    {batch batch' : OpBatch} (hcreate : .createOpBatch id batch ∈ msgs)
    (hcreate' : .createOpBatch id' batch' ∈ msgs) (hplan : batch.plan = batch'.plan) :
    id = id' ∧ batch = batch' := by
  have hself : ∀ m ∈ msgs, m.Agree m := by
    rintro m - id batch id' batch' rfl ⟨⟩ -
    exact ⟨rfl, rfl⟩
  have hafter : msgs.Pairwise CtrlMsg.Agree := by
    refine h.imp ?_
    rintro m m' hfresh id batch id' batch' rfl rfl hplan
    exact absurd (congrArg some hplan) (hfresh id' batch' rfl)
  have hbefore : msgs.Pairwise (flip CtrlMsg.Agree) := by
    refine h.imp ?_
    rintro m m' hfresh id batch id' batch' rfl rfl hplan
    exact absurd (congrArg some hplan.symm) (hfresh id batch rfl)
  exact List.Pairwise.forall_of_forall_of_flip hself hafter hbefore hcreate hcreate'
    id batch id' batch' rfl rfl hplan

theorem final_existing {i : Nat} {msgs : List CtrlMsg}
    (hvalid : (batchHandler i).Valid emptyMap msgs) (hfresh : FreshPlans msgs) (id : Nat)
    (batch : OpBatch) :
    (batchHandler i).final emptyMap msgs id = some batch ↔ Existing msgs id batch := by
  -- a message changes the slot it names and no other
  induction msgs using List.reverseRecOn generalizing id batch with
  | nil => exact ⟨fun h => (nomatch h), fun h => (nomatch h.1)⟩
  | append_singleton msgs msg ih =>
      obtain ⟨hvalid, hok⟩ := (Handler.valid_concat _ _ _ _).mp hvalid
      obtain ⟨hfresh', -, hnew⟩ := List.pairwise_append.mp hfresh
      have ih := fun id batch => ih hvalid hfresh' id batch
      have hlast : ∀ {m : CtrlMsg}, m ∈ msgs ++ [msg] ↔ m ∈ msgs ∨ m = msg := by simp
      rw [Handler.final_concat]
      cases msg with
      -- the slot is empty and the plan is new, so nothing before concerns this batch
      | createOpBatch id' batch' =>
          have hkeep : (∀ i, .destroyOpBatch i batch.plan ∉ msgs ++ [.createOpBatch id' batch']) ↔
              ∀ i, .destroyOpBatch i batch.plan ∉ msgs := by simp
          rw [Existing, hkeep, hlast, CtrlMsg.createOpBatch.injEq]
          by_cases hid : id = id'
          · subst hid
            rw [show (batchHandler i).step _ (.createOpBatch id batch') id = some batch' from
              Function.update_self .., Option.some.injEq]
            constructor
            · rintro rfl
              refine ⟨.inr ⟨rfl, rfl⟩, fun i hi => ?_⟩
              exact hnew _ hi _ (List.mem_singleton_self _) _ _ rfl rfl
            · rintro ⟨hold | ⟨-, rfl⟩, hnone⟩
              · exact nomatch hok.symm.trans ((ih id batch).mpr ⟨hold, hnone⟩)
              · rfl
          · rw [show (batchHandler i).step _ (.createOpBatch id' batch') id =
              (batchHandler i).final emptyMap msgs id from Function.update_of_ne hid .., ih]
            simp [Existing, hid]
      -- a plan has one batch here, so only the batch of this slot goes
      | destroyOpBatch id' plan =>
          obtain ⟨held, hheld, rfl⟩ := hok
          have hcreate : .createOpBatch id batch ∈ msgs ++ [.destroyOpBatch id' held.plan] ↔
              .createOpBatch id batch ∈ msgs := by simp
          have hkeep : (∀ i, .destroyOpBatch i batch.plan ∉
              msgs ++ [.destroyOpBatch id' held.plan]) ↔
              (∀ i, .destroyOpBatch i batch.plan ∉ msgs) ∧ batch.plan ≠ held.plan := by
            simp only [hlast, CtrlMsg.destroyOpBatch.injEq, not_or, not_and]
            constructor
            · exact fun h => ⟨fun i => (h i).1, (h id').2 rfl⟩
            · exact fun h i => ⟨h.1 i, fun _ => h.2⟩
          rw [Existing, hcreate, hkeep, ← and_assoc]
          change _ ↔ Existing msgs id batch ∧ _
          by_cases hid : id = id'
          · subst hid
            rw [show (batchHandler i).step _ (.destroyOpBatch id held.plan) id = none from
              Function.update_self .., ← ih, hheld]
            constructor
            · exact fun h => nomatch h
            · rintro ⟨heq, hne⟩
              exact absurd (congrArg OpBatch.plan (Option.some.inj heq)).symm hne
          · rw [show (batchHandler i).step _ (.destroyOpBatch id' held.plan) id =
              (batchHandler i).final emptyMap msgs id from Function.update_of_ne hid .., ih]
            refine ⟨fun h => ⟨h, fun hplan => ?_⟩, fun h => h.1⟩
            exact hid (FreshPlans.unique hfresh' h.1 ((ih id' held).mp hheld).1 hplan).1
      | startOpBatch | executeOpBatch =>
          change (batchHandler i).final emptyMap msgs id = some batch ↔ _
          rw [ih]
          simp [Existing]

/-! ### Batches of one plan -/

def groupRank : List MpiOp → Nat
  | op :: _ => op.rank
  | [] => 0

/-- A sorted array has one group for each receiver. -/
theorem receivers_sorted {ops : List MpiOp} (hsorted : ops.Pairwise (·.rank ≤ ·.rank)) :
    ((receivers ops).map groupRank).Pairwise (· < ·) ∧
      ∀ g ∈ receivers ops, ∃ op ∈ ops, groupRank g = op.rank := by
  induction ops with
  | nil => exact ⟨List.Pairwise.nil, fun g hg => nomatch hg⟩
  | cons op ops ih =>
      obtain ⟨hle, hsorted⟩ := List.pairwise_cons.mp hsorted
      obtain ⟨hranks, hmem⟩ := ih hsorted
      have hfrom : ∀ g ∈ receivers ops, ∃ op' ∈ op :: ops, groupRank g = op'.rank := by
        intro g hg
        obtain ⟨op', hop', hrank⟩ := hmem g hg
        exact ⟨op', List.mem_cons_of_mem _ hop', hrank⟩
      unfold receivers
      -- does the operation join the first group?
      split
      · rename_i op' g groups hrec
        rw [hrec] at hranks hmem hfrom
        split
        · rename_i hsame
          have hfirst : groupRank (op :: op' :: g) = groupRank (op' :: g) := hsame.symm
          refine ⟨?_, fun g' hg' => ?_⟩
          · rw [List.map_cons, hfirst]
            exact hranks
          · rcases List.mem_cons.mp hg' with rfl | hg'
            · exact ⟨op, List.mem_cons_self .., rfl⟩
            · exact hfrom g' (List.mem_cons_of_mem _ hg')
        · rename_i hdiff
          refine ⟨?_, fun g' hg' => ?_⟩
          · refine List.pairwise_cons.mpr ⟨fun r hr => ?_, hranks⟩
            have hhead : op.rank < op'.rank := by
              obtain ⟨op'', hop'', hrank⟩ := hmem _ (List.mem_cons_self ..)
              have hle' : op.rank ≤ op'.rank :=
                Nat.le_trans (hle op'' hop'') (Nat.le_of_eq hrank.symm)
              exact Nat.lt_of_le_of_ne hle' fun heq => hdiff heq.symm
            rw [List.map_cons, List.mem_cons] at hr
            rcases hr with rfl | hr
            · exact hhead
            · exact Nat.lt_trans hhead ((List.pairwise_cons.mp hranks).1 r hr)
          · rcases List.mem_cons.mp hg' with rfl | hg'
            · exact ⟨op, List.mem_cons_self .., rfl⟩
            · exact hfrom g' hg'
      · rename_i groups hempty
        refine ⟨?_, fun g' hg' => ?_⟩
        · match hrec : receivers ops with
          | [] => exact List.pairwise_singleton _ _
          | [] :: groups =>
              obtain ⟨first, rest, heq, -⟩ := receivers_uniform ops [] (hrec ▸ by simp)
              exact nomatch heq
          | (op' :: g) :: groups => exact absurd hrec (hempty op' g groups)
        · rcases List.mem_cons.mp hg' with rfl | hg'
          · exact ⟨op, List.mem_cons_self .., rfl⟩
          · exact hfrom g' hg'

/-- The plan of a running call is new to every process that has not been told
of it. -/
def UserPhase.NewTo (sent : Nat → List CtrlMsg) (next_plan : Nat) : UserPhase → Prop
  | creating _ plan _ _ _ _ _ =>
      plan < next_plan ∧ ∀ j, ∀ msg ∈ sent j, msg.names ≠ some plan
  | announcing _ plan _ groups _ _ =>
      plan < next_plan ∧ (groups.map groupRank).Pairwise (· < ·) ∧
        ∀ g ∈ groups, ∀ msg ∈ sent (groupRank g), msg.names ≠ some plan
  | destroying p _ _ _ => p.plan < next_plan
  | _ => True

structure Proc.Numbered (proc : Proc) : Prop where
  sent : ∀ j, ∀ msg ∈ proc.ctrl_sent j, ∀ plan ∈ msg.names, plan < proc.next_plan
  fresh : ∀ j, FreshPlans (proc.ctrl_sent j)
  plans : ∀ p ∈ proc.plans, p.plan < proc.next_plan
  user : proc.user.NewTo proc.ctrl_sent proc.next_plan

section Moves

variable {w : World} {rank : Nat} {proc proc' : Proc} {a : ProcAct}

theorem mem_send {dst j : Nat} {msg m : CtrlMsg} (h : m ∈ (proc.send dst msg).ctrl_sent j) :
    m ∈ proc.ctrl_sent j ∨ (j = dst ∧ m = msg) := by
  by_cases hj : j = dst
  · subst hj
    simp only [Proc.send, Function.update_self, List.mem_append, List.mem_singleton] at h
    exact h.imp id fun hm => ⟨rfl, hm⟩
  · simp only [Proc.send, Function.update_of_ne hj] at h
    exact .inl h

theorem Proc.Numbered.sends (h : proc.Numbered) {dst : Nat} {msg : CtrlMsg}
    (hsent : proc'.ctrl_sent = (proc.send dst msg).ctrl_sent)
    (hnext : proc'.next_plan = proc.next_plan) (hplans : proc'.plans = proc.plans)
    (hold : ∀ plan ∈ msg.names, plan < proc.next_plan)
    (hnew : ∀ batch_id batch, msg = .createOpBatch batch_id batch →
      ∀ m ∈ proc.ctrl_sent dst, m.names ≠ some batch.plan)
    (huser : proc'.user.NewTo proc'.ctrl_sent proc.next_plan) : proc'.Numbered where
  sent j m hm plan hplan := by
    rw [hsent] at hm
    rw [hnext]
    rcases mem_send hm with hm | ⟨-, rfl⟩
    · exact h.sent j m hm plan hplan
    · exact hold plan hplan
  fresh j := by
    rw [hsent]
    by_cases hj : j = dst
    · subst hj
      simp only [Proc.send, Function.update_self]
      exact (h.fresh j).concat hnew
    · simp only [Proc.send, Function.update_of_ne hj]
      exact h.fresh j
  plans := by
    rw [hplans, hnext]
    exact h.plans
  user := hnext.symm ▸ huser

theorem Proc.Numbered.same (h : proc.Numbered) (hsent : proc'.ctrl_sent = proc.ctrl_sent)
    (hnext : proc'.next_plan = proc.next_plan) (hplans : proc'.plans = proc.plans)
    (huser : proc'.user.NewTo proc.ctrl_sent proc.next_plan) : proc'.Numbered where
  sent := by rw [hsent, hnext]; exact h.sent
  fresh := by rw [hsent]; exact h.fresh
  plans := by rw [hplans, hnext]; exact h.plans
  user := by rw [hsent, hnext]; exact huser

theorem newTo_send {once_now : Bool} {plan : Nat} {op : MpiOp} {ops send_ops : List MpiOp}
    {groups : List (List MpiOp)} {recv_batch recv_batch' : List RecvBatch}
    {mpi_op mpi_op' : List Entry} {msg : CtrlMsg}
    (h : (UserPhase.announcing once_now plan send_ops ((op :: ops) :: groups) recv_batch
      mpi_op).NewTo proc.ctrl_sent proc.next_plan) :
    (UserPhase.announcing once_now plan send_ops groups recv_batch' mpi_op').NewTo
      (proc.send op.rank msg).ctrl_sent proc.next_plan := by
  obtain ⟨hlt, hranks, hnew⟩ := h
  obtain ⟨hhead, hranks⟩ := List.pairwise_cons.mp hranks
  refine ⟨hlt, hranks, fun g hg m hm => ?_⟩
  rcases mem_send hm with hm | ⟨hrank, -⟩
  · exact hnew g (List.mem_cons_of_mem _ hg) m hm
  · have hless : op.rank < groupRank g := hhead _ (List.mem_map_of_mem hg)
    omega

theorem Proc.Numbered.move (h : proc.Numbered) (hmove : Move w rank proc a proc') :
    proc'.Numbered := by
  have huser := h.user
  cases hmove with
  | beginCreate =>
      refine ⟨fun j m hm plan hplan => ?_, h.fresh, fun p hp => ?_, Nat.lt_succ_self _,
        fun j m hm hname => ?_⟩
      · exact Nat.lt_succ_of_lt (h.sent j m hm plan hplan)
      · exact Nat.lt_succ_of_lt (h.plans p hp)
      · exact absurd (h.sent j m hm _ hname) (Nat.lt_irrefl _)
  | sortOps hphase _ hsorted =>
      rw [hphase] at huser
      exact h.same rfl rfl rfl ⟨huser.1, (receivers_sorted hsorted).1,
        fun g _ => huser.2 (groupRank g)⟩
  | beginDestroy _ hp =>
      exact ⟨h.sent, h.fresh, fun p hp' => h.plans p (List.mem_of_mem_erase hp'),
        h.plans _ (List.mem_of_find?_eq_some hp)⟩
  | drawTag hphase | writeOnce hphase | writeKept hphase | destroyOp hphase =>
      rw [hphase] at huser
      exact h.same rfl rfl rfl huser
  | announceOnce hphase =>
      rw [hphase] at huser
      exact h.sends rfl rfl rfl (by rintro _ ⟨⟩) (by rintro _ _ ⟨⟩) (newTo_send huser)
  | announceKept hphase =>
      rw [hphase] at huser
      refine h.sends rfl rfl rfl ?_ ?_ (newTo_send huser)
      · rintro _ ⟨⟩
        exact huser.1
      · rintro _ _ ⟨⟩
        exact huser.2.2 _ (List.mem_cons_self ..)
  | @finishCreate once_now plan send_ops recv_batch mpi_op hphase =>
      rw [hphase] at huser
      refine ⟨h.sent, h.fresh, fun p hp => ?_, trivial⟩
      simp only [Proc.finishCreate] at hp
      split at hp
      · exact h.plans p hp
      · rcases List.mem_cons.mp hp with rfl | hp
        · exact huser.1
        · exact h.plans p hp
  | startBatch => exact h.sends rfl rfl rfl (by rintro _ ⟨⟩) (by rintro _ _ ⟨⟩) trivial
  | destroyBatch hphase =>
      rw [hphase] at huser
      refine h.sends rfl rfl rfl ?_ (by rintro _ _ ⟨⟩) huser
      rintro _ ⟨⟩
      exact huser
  | beginStart | beginClose | startOp | finishStart | finishDestroy =>
      exact h.same rfl rfl rfl trivial
  | closeLoop =>
      refine h.same rfl rfl rfl ?_
      unfold Proc.closeLoop
      split <;> exact trivial
  | userHalt | recvCreate | recvDestroy | recvStart | recvExecute | recvHalt | postStarted
  | postOnce | postHalt | finishPosting | keepTag | returnTag | finishEffects | daemonHalt =>
      exact h.same rfl rfl rfl huser
  | @testSome done =>
      exact h.same rfl rfl rfl (testSome_keeps done huser fun _ => trivial)

end Moves

/-! ### Tables and messages -/

def World.handled (w : World) (src tgt : Nat) : List CtrlMsg :=
  ((w.procs src).ctrl_sent tgt).take ((w.procs tgt).ctrl_received src)

def World.nextMsg (w : World) (src tgt : Nat) : Option CtrlMsg :=
  ((w.procs src).ctrl_sent tgt)[(w.procs tgt).ctrl_received src]?

/-- Where the table is too short for a new batch, its new length is an
`int`. -/
def tableFits (w : World) : Act → Bool
  | .proc tgt (.recvCtrl src) =>
      match w.nextMsg src tgt with
      | some (.createOpBatch batch_id _) =>
          batch_id < ((w.procs tgt).recv_batch src).length || batch_id * 2 + 16 < 2 ^ 31
      | _ => true
  | _ => true

/-- The table is what the message is meant for: the slot of a new batch is
there after the table has grown, and empty; the slot of an old batch is in
range and holds the batch of the plan, which has not been destroyed. -/
def World.Ready (w : World) (src tgt : Nat) : CtrlMsg → Prop
  | .createOpBatch batch_id _ => ∃ table,
      growTable ((w.procs tgt).recv_batch src) batch_id = .ok table ∧
        table[batch_id]? = some none
  | .startOpBatch batch_id plan _ | .destroyOpBatch batch_id plan => ∃ batch,
      ((w.procs tgt).recv_batch src)[batch_id]? = some (some batch) ∧ batch.plan = plan ∧
        Existing (w.handled src tgt) batch_id batch
  | .executeOpBatch _ => True

/-- The slots in use are the batches that exist, one for each plan. -/
structure World.SlotsOk (w : World) (src tgt : Nat) : Prop where
  slot : ∀ batch_id batch, ((w.procs tgt).recv_batch src)[batch_id]? = some (some batch) ↔
    Existing (w.handled src tgt) batch_id batch
  one : ∀ id batch id' batch', Existing (w.handled src tgt) id batch →
    Existing (w.handled src tgt) id' batch' → batch.plan = batch'.plan → id = id' ∧ batch = batch'

/-- The table of every process is the replay of the messages it has
handled. -/
structure World.Tables (w : World) : Prop where
  numbered : ∀ p, (w.procs p).Numbered
  table : ∀ src tgt, tableMap ((w.procs tgt).recv_batch src) =
    (batchHandler src).final emptyMap (w.handled src tgt)

section Tables

variable {w w' : World} {src tgt : Nat}

theorem tableMap_eq_some {table : List (Option OpBatch)} {id : Nat} {batch : OpBatch} :
    tableMap table id = some batch ↔ table[id]? = some (some batch) := by
  unfold tableMap
  match table[id]? with
  | some slot => simp
  | none => simp

theorem World.Tables.slotsOk (h : w.Tables) (hinv : w.Inv) (src tgt : Nat) :
    w.SlotsOk src tgt := by
  have hsent : w.handled src tgt <+: (w.procs src).ctrl_sent tgt := List.take_prefix _ _
  have hvalid : (batchHandler src).Valid emptyMap (w.handled src tgt) := by
    have hall := (hinv.ini src).valid tgt
    rw [← List.take_append_drop ((w.procs tgt).ctrl_received src) ((w.procs src).ctrl_sent tgt),
      Handler.valid_append] at hall
    exact hall.1
  have hfresh : FreshPlans (w.handled src tgt) :=
    ((h.numbered src).fresh tgt).sublist hsent.sublist
  refine ⟨fun id batch => ?_, fun id batch id' batch' hex hex' hplan => ?_⟩
  · rw [← tableMap_eq_some, h.table]
    exact final_existing hvalid hfresh id batch
  · exact hfresh.unique hex.1 hex'.1 hplan

theorem growTable_ok {table : List (Option OpBatch)} {id : Nat}
    (hfits : id < table.length ∨ id * 2 + 16 < 2 ^ 31) :
    ∃ table', growTable table id = .ok table' := by
  unfold growTable
  split
  · rename_i hshort
    rw [if_pos (hfits.resolve_left (by omega))]
    exact ⟨_, rfl⟩
  · exact ⟨_, rfl⟩

theorem World.Tables.ready (h : w.Tables) (hinv : w.Inv) {msg : CtrlMsg}
    (hmsg : w.nextMsg src tgt = some msg)
    (hfits : tableFits w (.proc tgt (.recvCtrl src)) = true) : w.Ready src tgt msg := by
  have hok := Handler.Valid.next _ ((hinv.ini src).valid tgt) hmsg
  have htable := h.table src tgt
  rw [World.handled] at htable
  rw [← htable] at hok
  have hslot := (h.slotsOk hinv src tgt).slot
  cases msg with
  | createOpBatch id batch =>
      simp only [tableFits, hmsg, Bool.or_eq_true, decide_eq_true_eq] at hfits
      obtain ⟨table, hgrow⟩ := growTable_ok hfits
      obtain ⟨hsame, -, hid⟩ := tableMap_growTable hgrow
      refine ⟨table, hgrow, ?_⟩
      have hnone : tableMap table id = none := hsame ▸ hok
      rw [List.getElem?_eq_getElem hid]
      simpa [tableMap, hid] using hnone
  | startOpBatch id plan start | destroyOpBatch id plan =>
      obtain ⟨batch, hbatch, hplan⟩ := hok
      have hheld := tableMap_eq_some.mp hbatch
      exact ⟨batch, hheld, hplan, (hslot id batch).mp hheld⟩
  | executeOpBatch => exact trivial

theorem World.Ready.processCtrlMsg {msg : CtrlMsg} (h : w.Ready src tgt msg) :
    ∃ proc', ((w.procs tgt).counted src).processCtrlMsg src msg = .ok proc' := by
  have hrecv : ((w.procs tgt).counted src).recv_batch = (w.procs tgt).recv_batch := rfl
  unfold Proc.processCtrlMsg
  cases msg with
  | createOpBatch id batch =>
      obtain ⟨table, hgrow, hslot⟩ := h
      simp only [hrecv, hgrow, ok_bind, fetch_eq_ok.mpr hslot, uruAssert_bind, if_true]
      exact ⟨_, rfl⟩
  | startOpBatch id plan start =>
      obtain ⟨batch, hslot, -⟩ := h
      have hlt := (List.getElem?_eq_some_iff.mp hslot).1
      simp only [hrecv, uruAssert_bind, if_pos hlt, fetch_eq_ok.mpr hslot, ok_bind]
      exact ⟨_, rfl⟩
  | destroyOpBatch id plan =>
      obtain ⟨batch, hslot, -⟩ := h
      simp only [hrecv, fetch_eq_ok.mpr hslot, ok_bind]
      exact ⟨_, rfl⟩
  | executeOpBatch => exact ⟨_, rfl⟩

end Tables

/-! ### Runs -/

section Runs

variable {w w' : World} {rank : Nat} {proc' : Proc} {a : ProcAct}

theorem World.Tables.init (size : Nat) (flags : Nat → Nat → UruFlag) :
    (World.init size flags).Tables where
  numbered _ := ⟨fun _ _ h => (nomatch h), fun _ => List.Pairwise.nil, fun _ h => (nomatch h),
    trivial⟩
  table _ _ := rfl

theorem World.Tables.setUser (h : w.Tables) {user : UserPhase}
    (huser : ∀ {sent next_plan}, user.NewTo sent next_plan) : (w.setUser user).Tables where
  numbered p := by
    have hp := h.numbered p
    simp only [World.setUser]
    split
    · exact ⟨hp.sent, hp.fresh, hp.plans, huser⟩
    · exact hp
  table src tgt := by
    have htgt : ((w.setUser user).procs tgt).recv_batch = (w.procs tgt).recv_batch ∧
        (w.setUser user).handled src tgt = w.handled src tgt := by
      have hsame : ∀ p, ((w.setUser user).procs p).recv_batch = (w.procs p).recv_batch ∧
          ((w.setUser user).procs p).ctrl_sent = (w.procs p).ctrl_sent ∧
          ((w.setUser user).procs p).ctrl_received = (w.procs p).ctrl_received := by
        intro p
        simp only [World.setUser]
        split <;> exact ⟨rfl, rfl, rfl⟩
      exact ⟨(hsame tgt).1, by rw [World.handled, (hsame src).2.1, (hsame tgt).2.2, World.handled]⟩
    rw [htgt.1, htgt.2]
    exact h.table src tgt

/-- Only a message changes a table, or how many messages are handled. -/
theorem World.Tables.tableOf (h : w.Tables) (hinv : w.Inv)
    (hlive : (w.procs rank).halted = none) (hmove : Move w rank (w.procs rank) a proc')
    (hfits : tableFits w (.proc rank a) = true) (src : Nat) :
    tableMap (proc'.recv_batch src) = (batchHandler src).final emptyMap
      (((w.procs src).ctrl_sent rank).take (proc'.ctrl_received src)) := by
  have hsame : proc'.recv_batch = (w.procs rank).recv_batch →
      proc'.ctrl_received = (w.procs rank).ctrl_received →
      tableMap (proc'.recv_batch src) = (batchHandler src).final emptyMap
        (((w.procs src).ctrl_sent rank).take (proc'.ctrl_received src)) := by
    intro htable hreceived
    rw [htable, hreceived]
    exact h.table src rank
  have hlink : proc'.halted = none → tableMap (proc'.recv_batch src) =
      (batchHandler src).final emptyMap
        (((w.procs src).ctrl_sent rank).take (proc'.ctrl_received src)) := by
    intro hlive'
    exact (((hinv.link src rank).move hlive hmove).live hlive').1
  cases hmove with
  | recvHalt _ _ _ hmsg hcall =>
      obtain ⟨proc'', hok⟩ := (h.ready hinv hmsg hfits).processCtrlMsg
      exact nomatch hok.symm.trans hcall
  | recvCreate | recvDestroy | recvStart | recvExecute => exact hlink hlive
  | closeLoop | beginCreate | sortOps | beginStart | beginDestroy | beginClose | drawTag
  | writeOnce | writeKept | announceOnce | announceKept | finishCreate | startBatch | startOp
  | finishStart | destroyOp | destroyBatch | finishDestroy | userHalt | testSome | postStarted
  | postOnce | postHalt | finishPosting | keepTag | returnTag | finishEffects | daemonHalt =>
      exact hsame rfl rfl

theorem World.Tables.step (h : w.Tables) (hinv : w.Inv) {a : Act}
    (hfits : tableFits w a = true) (hstep : w.step a = some w') : w'.Tables := by
  rcases step_cases hstep with ⟨rank, pa, proc', rfl, -, hlive, hmove, rfl⟩ | ⟨-, -, rfl⟩ |
    ⟨-, -, rfl⟩
  · refine ⟨fun p => ?_, fun src tgt => ?_⟩
    · by_cases hp : p = rank
      · simp only [hp, Function.update_self]
        exact (h.numbered rank).move hmove
      · simp only [Function.update_of_ne hp]
        exact h.numbered p
    · have hsent : ∃ msgs, (Function.update w.procs rank proc' src).ctrl_sent tgt =
          (w.procs src).ctrl_sent tgt ++ msgs := by
        by_cases hsrc : src = rank
        · rw [hsrc, Function.update_self]
          exact hmove.sent tgt
        · rw [Function.update_of_ne hsrc]
          exact ⟨[], (List.append_nil _).symm⟩
      obtain ⟨msgs, hmsgs⟩ := hsent
      simp only [World.handled, hmsgs]
      by_cases htgt : tgt = rank
      · subst htgt
        have hle := ((hinv.link src tgt).move hlive hmove).received_le
        simp only [Function.update_self]
        rw [List.take_append_of_le_length hle]
        exact h.tableOf hinv hlive hmove hfits src
      · simp only [Function.update_of_ne htgt]
        rw [List.take_append_of_le_length (hinv.link src tgt).received_le]
        exact h.table src tgt
  · exact h.setUser trivial
  · exact h.setUser trivial

theorem World.tables_run {size : Nat} {flags : Nat → Nat → UruFlag}
    (hrun : Run World.step (fun w a => tableFits w a = true) (World.init size flags) w) :
    w.Tables :=
  hrun.invariant (World.Tables.init size flags) fun _ _ _ hrun h hfits hstep =>
    h.step (World.inv_run hrun) hfits hstep

end Runs

/-- In every run in which the tables fit, the slots in use are at every moment
the batches that exist, and every message finds the table it is meant for. -/
theorem batch_table {size : Nat} {flags : Nat → Nat → UruFlag} {w : World}
    (hrun : Run World.step (fun w a => tableFits w a = true) (World.init size flags) w)
    (src tgt : Nat) :
    w.SlotsOk src tgt ∧ ∀ msg, w.nextMsg src tgt = some msg →
      tableFits w (.proc tgt (.recvCtrl src)) = true → w.Ready src tgt msg :=
  ⟨(World.tables_run hrun).slotsOk (World.inv_run hrun) src tgt, fun _ hmsg hfits =>
    (World.tables_run hrun).ready (World.inv_run hrun) hmsg hfits⟩

def registerSteps (rank tag : Nat) : List Act :=
  [.beginCreate false [sampleWrite .dmaPut rank 0], .userStep, .userStep,
    .sortOps [(sampleWrite .dmaPut rank 0).recvOp (keepOp ||| keepReq) 0 0 tag], .userStep,
    .userStep].map (.proc rank)

/-- The batch of process 1 is registered with process 0, and its plan is then
destroyed. -/
theorem batch_table_destroy :
    (World.after tableFits 2 (registerSteps 1 3 ++ [.proc 0 (.recvCtrl 1)] ++
        [.beginDestroy 0, .userStep, .userStep].map (.proc 1))).nextMsg 1 0 =
      some (.destroyOpBatch 3 0) ∧
    (World.after tableFits 2 (registerSteps 1 3 ++ [.proc 0 (.recvCtrl 1)] ++
        [.beginDestroy 0, .userStep, .userStep].map (.proc 1))).Ready 1 0
      (.destroyOpBatch 3 0) := by
  have hmsg : (World.after tableFits 2 (registerSteps 1 3 ++ [.proc 0 (.recvCtrl 1)] ++
        [.beginDestroy 0, .userStep, .userStep].map (.proc 1))).nextMsg 1 0 =
      some (.destroyOpBatch 3 0) := by
    decide +kernel
  exact ⟨hmsg, (batch_table (World.run_after (by decide +kernel)) 1 0).2 _ hmsg
    (by decide +kernel)⟩

/-- With 700 million processes the first id of process 400 million is so large
that the new length of the table overflows: there is no slot for the batch. -/
theorem batch_table_overflows :
    ∃ w : World, ∃ batch_id batch, Run World.step (fun _ _ => True)
        (World.init 700000000 fun _ _ => ⟨0, none, 0, 0⟩) w ∧
      w.nextMsg 400000000 0 = some (.createOpBatch batch_id batch) ∧
      ¬ w.Ready 400000000 0 (.createOpBatch batch_id batch) := by
  refine ⟨World.after (fun _ _ => true) 700000000 (registerSteps 400000000 1100000000), 1100000000,
    ⟨0, addressed 400000000 [(sampleWrite .dmaPut 400000000 0).recvOp (keepOp ||| keepReq) 0 0
      1100000000]⟩, (World.run_after (by decide +kernel)).mono fun _ _ _ => trivial, ?_, ?_⟩
  · decide +kernel
  · rintro ⟨table, hgrow, -⟩
    have hshort : ((World.after (fun _ _ => true) 700000000
        (registerSteps 400000000 1100000000)).procs 0).recv_batch 400000000 = [] := by
      decide +kernel
    rw [hshort] at hgrow
    simp [growTable] at hgrow

end Unr.Mpi
