import Unr.Mpi.WorldInv

/-!
`MPI_Start` and the requests it is applied to.

A request of a plan is started by the initiator itself or by the daemon of a
target. For each request there is at most one reason at a time why it may
still be started: a call of `uri_mpi_rdma_plan_start` that has not come to it,
or a control message that the target has not finished. It stays inactive until
then if, when the plan is started, the operations of its last start are
complete on both sides.
-/

namespace Unr.Mpi

open Unr.Uru Unr.Logic

/-! ### Starting requests -/

def World.startedReq (w : World) : Act → Option (Nat × Req)
  | .proc rank .userStep =>
      match (w.procs rank).user with
      | .starting _ _ [] (op :: _) _ => some (rank, ⟨true, rank, op.plan, op.index⟩)
      | _ => none
  | .proc rank .daemonStep =>
      match (w.procs rank).daemon with
      | .posting src (some _) (op :: _) _ => some (rank, ⟨false, src, op.plan, op.index⟩)
      | _ => none
  | _ => none

/-- The daemon of process `p` has updated the flags of all operations that `p`
has started for the plan. -/
def World.localDone (w : World) (p plan : Nat) : Bool :=
  ((w.procs p).queue ++ (w.procs p).daemon.entries).all fun e =>
    e.side ≠ .own ∨ e.write.plan ≠ plan

/-- A message that starts the plan. -/
def CtrlMsg.starts (plan : Nat) : CtrlMsg → Bool
  | startOpBatch _ plan' _ => plan' = plan
  | _ => false

/-- What the daemon is about to start for a plan of process `p`. -/
def DaemonPhase.starts (p plan : Nat) : DaemonPhase → Bool
  | posting src (some _) rest _ => src = p ∧ ∃ op ∈ rest, op.plan = plan
  | _ => false

/-- Every process has handled the messages of `p` that start the plan, and the
operations it has started for them are complete. -/
def World.remoteDone (w : World) (p plan : Nat) : Bool :=
  (List.range w.size).all fun j =>
    (((w.procs p).ctrl_sent j).drop ((w.procs j).ctrl_received p)).all
        (fun msg => !msg.starts plan) &&
      !(w.procs j).daemon.starts p plan &&
      (w.procs j).active.all fun r => r.own = true ∨ r.initiator ≠ p ∨ r.plan ≠ plan

/-- Plans are started when their last start is complete on the side of the
initiator. -/
def startsLocal (w : World) : Act → Bool
  | .proc rank (.beginStart plan) => w.localDone rank plan
  | _ => true

/-- Plans are started when their last start is complete on both sides. -/
def startsDone (w : World) : Act → Bool
  | .proc rank (.beginStart plan) => w.localDone rank plan && w.remoteDone rank plan
  | _ => true

/-! ### Reasons to start a request -/

def MpiOp.slot (op : MpiOp) : Nat × Nat := (op.plan, op.index)

/-- The own operations that a running call has still to start. -/
def UserPhase.ownStarts : UserPhase → List (Nat × Nat)
  | starting _ _ _ ops _ => ops.map MpiOp.slot
  | _ => []

/-- The operations of process `j` whose start a running call has still to
announce. -/
def UserPhase.peerStarts (j : Nat) : UserPhase → List (Nat × Nat)
  | starting _ _ batches _ _ =>
      (batches.filter fun b => b.dst_rank = j).flatMap fun b => b.ops.map MpiOp.slot
  | _ => []

/-- A post by `MPI_Start`; what is executed at once has start number 0. -/
def Post.started (x : Post) : Option (Nat × Nat) :=
  if x.write.start = 0 then none else some (x.write.plan, x.write.index)

/-- The active requests of a process that belong to the plans of process `i`,
on the given side. -/
def activeSlots (own : Bool) (i : Nat) (active : List Req) : List (Nat × Nat) :=
  active.filterMap fun r => if r.own = own ∧ r.initiator = i then some (r.plan, r.index) else none

theorem mem_activeSlots {own : Bool} {i plan index : Nat} {active : List Req} :
    (plan, index) ∈ activeSlots own i active ↔ ⟨own, i, plan, index⟩ ∈ active := by
  simp only [activeSlots, List.mem_filterMap, Option.ite_none_right_eq_some, Option.some.injEq,
    Prod.mk.injEq]
  constructor
  · rintro ⟨r, hr, ⟨rfl, rfl⟩, rfl, rfl⟩
    exact hr
  · exact fun hr => ⟨_, hr, ⟨rfl, rfl⟩, rfl, rfl⟩

theorem activeSlots_append (own : Bool) (i : Nat) (rs rs' : List Req) :
    activeSlots own i (rs ++ rs') = activeSlots own i rs ++ activeSlots own i rs' :=
  List.filterMap_append

theorem activeSlots_activate {own own' : Bool} {i i' : Nat} {active : List Req}
    {req : Option Req} {plan index : Nat}
    (hreq : req = none ∨ req = some ⟨own', i', plan, index⟩) :
    (activeSlots own i (req.toList ++ active)).Sublist
      ((if own' = own ∧ i' = i then [(plan, index)] else []) ++ activeSlots own i active) := by
  rw [activeSlots_append]
  refine List.Sublist.append ?_ (List.Sublist.refl _)
  rcases hreq with rfl | rfl
  · exact List.nil_sublist _
  · by_cases hside : own' = own ∧ i' = i <;> simp [activeSlots, hside]

theorem entry_req (proc : Proc) (op : MpiOp) (side : Side) (id : WriteId) :
    (proc.entry op side id).req = none ∨
      (proc.entry op side id).req = some ⟨side == .own, id.initiator, id.plan, id.index⟩ := by
  unfold Entry.req
  split
  · exact .inr rfl
  · exact .inl rfl

/-- What process `j`, in state `tgt`, has still to post for the messages that
process `p`, in state `ini`, has sent. -/
def toPost (p j : Nat) (ini tgt : Proc) : List Post :=
  ((batchHandler p).outputs emptyMap (ini.ctrl_sent j)).drop (peerLog p tgt.log).length

/-- The reasons why process `j` may start a request for process `p`, and those
it has started. -/
def peerSlots (p j : Nat) (ini tgt : Proc) : List (Nat × Nat) :=
  ini.user.peerStarts j ++ (toPost p j ini tgt).filterMap Post.started ++
    activeSlots false p tgt.active

def Proc.ownSlots (rank : Nat) (proc : Proc) : List (Nat × Nat) :=
  proc.user.ownStarts ++ activeSlots true rank proc.active

structure Proc.StartPos (proc : Proc) : Prop where
  next : proc.next_start ≠ 0
  user : ∀ p start batches ops mpi_op, proc.user = .starting p start batches ops mpi_op → start ≠ 0
  sent : ∀ j id plan start, .startOpBatch id plan start ∈ proc.ctrl_sent j → start ≠ 0
  daemon : ∀ src start rest mpi_op, proc.daemon = .posting src (some start) rest mpi_op → start ≠ 0

structure World.StartOk (w : World) : Prop where
  pos : ∀ p, (w.procs p).StartPos
  /-- An active request has an entry that is not reported as complete. -/
  entry : ∀ p, ∀ r ∈ (w.procs p).active, ∃ e ∈ (w.procs p).inHand, e.req = some r
  own : ∀ p, ((w.procs p).ownSlots p).Nodup
  peer : ∀ p, ∀ j < w.size, (w.procs j).halted = none →
    (peerSlots p j (w.procs p) (w.procs j)).Nodup

/-! ### Steps -/

section Steps

variable {w : World} {rank : Nat} {proc proc' : Proc} {a : ProcAct}

theorem Proc.StartPos.move (h : proc.StartPos) (hall : ∀ i, (w.procs i).StartPos)
    (hmove : Move w rank proc a proc') : proc'.StartPos := by
  have hsend : ∀ {dst msg}, (∀ id plan start, msg = .startOpBatch id plan start → start ≠ 0) →
      ∀ j id plan start, .startOpBatch id plan start ∈ (proc.send dst msg).ctrl_sent j →
        start ≠ 0 := by
    intro dst msg hmsg j id plan start hmem
    by_cases hj : j = dst
    · subst hj
      simp only [Proc.send, Function.update_self, List.mem_append, List.mem_singleton] at hmem
      exact hmem.elim (h.sent j id plan start) fun heq => hmsg id plan start heq.symm
    · simp only [Proc.send, Function.update_of_ne hj] at hmem
      exact h.sent j id plan start hmem
  cases hmove with
  | beginCreate | sortOps | beginDestroy | beginClose | drawTag | writeOnce | writeKept
  | finishCreate | finishStart | destroyOp | finishDestroy =>
      exact ⟨h.next, by rintro _ _ _ _ _ ⟨⟩, h.sent, h.daemon⟩
  | closeLoop =>
      refine ⟨h.next, ?_, h.sent, h.daemon⟩
      unfold Proc.closeLoop
      split <;> rintro _ _ _ _ _ ⟨⟩
  | beginStart =>
      refine ⟨Nat.succ_ne_zero _, ?_, h.sent, h.daemon⟩
      rintro _ _ _ _ _ ⟨⟩
      exact h.next
  | announceOnce | announceKept | destroyBatch =>
      exact ⟨h.next, by rintro _ _ _ _ _ ⟨⟩, hsend (by rintro _ _ _ ⟨⟩), h.daemon⟩
  | startBatch huser =>
      refine ⟨h.next, ?_, hsend ?_, h.daemon⟩
      · rintro _ _ _ _ _ ⟨⟩
        exact h.user _ _ _ _ _ huser
      · rintro _ _ _ ⟨⟩
        exact h.user _ _ _ _ _ huser
  | startOp huser =>
      refine ⟨h.next, ?_, h.sent, h.daemon⟩
      rintro _ _ _ _ _ ⟨⟩
      exact h.user _ _ _ _ _ huser
  | userHalt | recvCreate | recvDestroy | recvHalt | daemonHalt =>
      exact ⟨h.next, h.user, h.sent, h.daemon⟩
  | @recvStart src _ _ _ _ _ _ _ hmsg =>
      refine ⟨h.next, h.user, h.sent, ?_⟩
      rintro _ _ _ _ ⟨⟩
      exact (hall src).sent rank _ _ _ (List.mem_of_getElem? hmsg)
  | recvExecute | postOnce | postHalt | finishPosting | keepTag | returnTag | finishEffects =>
      exact ⟨h.next, h.user, h.sent, by rintro _ _ _ _ ⟨⟩⟩
  | postStarted hdaemon =>
      refine ⟨h.next, h.user, h.sent, ?_⟩
      rintro _ _ _ _ ⟨⟩
      exact h.daemon _ _ _ _ hdaemon
  | @testSome done =>
      refine ⟨h.next, ?_, h.sent, by rintro _ _ _ _ ⟨⟩⟩
      exact testSome_keeps (P := fun user => ∀ p start batches ops mpi_op,
        user = .starting p start batches ops mpi_op → start ≠ 0) done h.user
        fun _ => by rintro _ _ _ _ _ ⟨⟩

/-- A request becomes active with an entry, and its entry is reported with
it. -/
theorem Move.active_entry (hmove : Move w rank proc a proc')
    (h : ∀ r ∈ proc.active, ∃ e ∈ proc.inHand, e.req = some r) :
    ∀ r ∈ proc'.active, ∃ e ∈ proc'.inHand, e.req = some r := by
  have hsame : (∀ done, a ≠ .testSome done) → ∀ r ∈ proc.active,
      ∃ e ∈ proc'.inHand, e.req = some r := by
    intro ha r hr
    obtain ⟨e, he, hreq⟩ := h r hr
    rcases hmove.inHand he with he | ⟨done, hdone, -⟩
    · exact ⟨e, he, hreq⟩
    · exact absurd hdone (ha done)
  have hnew : (∀ done, a ≠ .testSome done) → ∀ e ∈ proc'.inHand,
      ∀ r ∈ e.req.toList ++ proc.active, ∃ e ∈ proc'.inHand, e.req = some r := by
    intro ha e he r hr
    rcases List.mem_append.mp hr with hr | hr
    · exact ⟨e, he, Option.mem_toList.mp hr⟩
    · exact hsame ha r hr
  cases hmove with
  | startOp =>
      exact hnew (by simp) _ (by simp [Proc.inHand, Proc.startOp, UserPhase.entries])
  | postStarted =>
      exact hnew (by simp) _ (by simp [Proc.inHand, Proc.activate, Proc.goOn, DaemonPhase.posted])
  | @testSome done hdaemon hpolls hlen hdone =>
      intro r hr
      obtain ⟨hr, hnot⟩ := List.mem_filter.mp hr
      obtain ⟨e, he, hreq⟩ := h r hr
      rcases Move.inHand (.testSome hdaemon hpolls hlen hdone) he with he | ⟨_, ⟨⟩, hreported⟩
      · exact ⟨e, he, hreq⟩
      · exact absurd (List.mem_filterMap.mpr ⟨e, hreported, hreq⟩) (of_decide_eq_true hnot)
  | beginCreate | sortOps | beginStart | beginDestroy | beginClose | drawTag | writeOnce
  | writeKept | announceOnce | announceKept | finishCreate | startBatch | finishStart | destroyOp
  | destroyBatch | finishDestroy | closeLoop | userHalt | recvCreate | recvDestroy | recvStart
  | recvExecute | recvHalt | postOnce | postHalt | finishPosting | keepTag | returnTag
  | finishEffects | daemonHalt => exact hsame (by simp)

/-- The slots of a plan are different, and belong to it. -/
theorem slots_nodup {ops : List MpiOp} (hindex : (ops.map (·.index)).Nodup) :
    (ops.map MpiOp.slot).Nodup := by
  refine List.Nodup.of_map Prod.snd ?_
  rw [List.map_map]
  exact hindex

/-- What is left of the active requests after a test. -/
theorem activeSlots_testSome (own : Bool) (i : Nat) (done : List Bool) :
    (activeSlots own i (proc.testSome done).active).Sublist (activeSlots own i proc.active) :=
  List.filter_sublist.filterMap _

theorem Move.ownSlots (hmove : Move w rank proc a proc') (ha : ∀ plan, a ≠ .beginStart plan)
    (h : (proc.ownSlots rank).Nodup) : (proc'.ownSlots rank).Nodup := by
  have hsame : proc'.user.ownStarts = proc.user.ownStarts → proc'.active = proc.active →
      (proc'.ownSlots rank).Nodup := by
    intro huser hactive
    rwa [Proc.ownSlots, huser, hactive]
  cases hmove with
  | beginStart => exact absurd rfl (ha _)
  | beginCreate huser | sortOps huser | beginDestroy huser | beginClose huser | drawTag huser
  | writeOnce huser | writeKept huser | announceOnce huser | announceKept huser
  | finishCreate huser | startBatch huser | finishStart huser | destroyOp huser
  | destroyBatch huser | finishDestroy huser =>
      exact hsame (by rw [huser]; rfl) rfl
  | closeLoop huser =>
      refine hsame ?_ rfl
      rw [huser]
      unfold Proc.closeLoop
      split <;> rfl
  | @startOp p start op ops mpi_op huser =>
      have hsub := @activeSlots_activate true true rank rank proc.active _ _ _
        (entry_req proc op .own ⟨rank, op.plan, start, op.index⟩)
      rw [if_pos ⟨rfl, rfl⟩] at hsub
      rw [Proc.ownSlots, huser] at h
      have hmiddle : (ops.map MpiOp.slot ++ op.slot :: activeSlots true rank proc.active).Nodup :=
        List.perm_middle.nodup_iff.mpr h
      exact hmiddle.sublist (hsub.append_left _)
  | userHalt | recvCreate | recvDestroy | recvStart | recvExecute | recvHalt | postOnce | postHalt
  | finishPosting | keepTag | returnTag | finishEffects | daemonHalt => exact hsame rfl rfl
  | @postStarted src start op rest mpi_op _ =>
      have hsub := @activeSlots_activate true false rank src proc.active _ _ _
        (entry_req proc op .peer ⟨src, op.plan, start, op.index⟩)
      rw [if_neg (fun hside => nomatch hside.1), List.nil_append] at hsub
      exact h.sublist (hsub.append_left _)
  | @testSome done =>
      rw [Proc.ownSlots, testSome_same proc done UserPhase.ownStarts fun _ _ => rfl]
      exact h.sublist ((activeSlots_testSome _ _ _).append_left _)

/-- What a step of the initiator announces is what it has no longer to
announce. -/
theorem Move.announces (hmove : Move w rank proc a proc') (h : proc.Ini w.size rank)
    (hpos : proc.StartPos) (ha : ∀ plan, a ≠ .beginStart plan) (j : Nat) :
    ∃ xs, (batchHandler rank).outputs emptyMap (proc'.ctrl_sent j) =
        (batchHandler rank).outputs emptyMap (proc.ctrl_sent j) ++ xs ∧
      proc.user.peerStarts j = xs.filterMap Post.started ++ proc'.user.peerStarts j := by
  -- a step that sends nothing
  have hsame : proc'.ctrl_sent = proc.ctrl_sent →
      proc'.user.peerStarts j = proc.user.peerStarts j →
      ∃ xs, (batchHandler rank).outputs emptyMap (proc'.ctrl_sent j) =
          (batchHandler rank).outputs emptyMap (proc.ctrl_sent j) ++ xs ∧
        proc.user.peerStarts j = xs.filterMap Post.started ++ proc'.user.peerStarts j :=
    fun hsent huser => ⟨[], by rw [hsent, List.append_nil], by rw [huser]; rfl⟩
  -- a step that sends one message
  have hsend : ∀ {dst msg}, proc'.ctrl_sent =
        Function.update proc.ctrl_sent dst (proc.ctrl_sent dst ++ [msg]) →
      (∀ V, ViewOk rank dst V proc.batches →
        proc.user.peerStarts j = (if j = dst then
          ((batchHandler rank).out V msg).filterMap Post.started else []) ++
            proc'.user.peerStarts j) →
      ∃ xs, (batchHandler rank).outputs emptyMap (proc'.ctrl_sent j) =
          (batchHandler rank).outputs emptyMap (proc.ctrl_sent j) ++ xs ∧
        proc.user.peerStarts j = xs.filterMap Post.started ++ proc'.user.peerStarts j := by
    intro dst msg hsent huser
    have huser := huser _ (h.view dst)
    by_cases hj : j = dst
    · subst hj
      rw [if_pos rfl] at huser
      exact ⟨_, by rw [hsent, Function.update_self, Handler.outputs_concat], huser⟩
    · rw [if_neg hj] at huser
      exact ⟨[], by rw [hsent, Function.update_of_ne hj, List.append_nil], huser⟩
  cases hmove with
  | beginStart => exact absurd rfl (ha _)
  | beginCreate huser | sortOps huser | beginDestroy huser | beginClose huser | drawTag huser
  | writeOnce huser | writeKept huser | finishCreate huser | startOp huser | finishStart huser
  | destroyOp huser | finishDestroy huser =>
      exact hsame rfl (by rw [huser]; rfl)
  | closeLoop huser =>
      refine hsame rfl ?_
      rw [huser]
      unfold Proc.closeLoop
      split <;> rfl
  | announceOnce huser =>
      refine hsend rfl fun V _ => ?_
      rw [huser]
      simp [UserPhase.peerStarts, Proc.enter, batchHandler, peerPost, Post.started]
  | announceKept huser | destroyBatch huser =>
      refine hsend rfl fun V _ => ?_
      rw [huser]
      simp [UserPhase.peerStarts, Proc.enter, batchHandler]
  -- the target has the batch in this slot, and posts what is in it
  | @startBatch p start b batches ops mpi_op huser =>
      refine hsend rfl fun V hV => ?_
      have hphase := h.user
      simp only [huser, UserPhase.Ok] at hphase
      obtain ⟨hp, hbatches, -, -⟩ := hphase
      have hslot : V b.batch_id = some (kept rank (p.plan, b)) :=
        (hV _ _).mpr ⟨(p.plan, b), Proc.mem_batches hp (hbatches.subset (by simp)), rfl, rfl⟩
      have hstart := hpos.user _ _ _ _ _ huser
      have hops : (b.ops.map fun op => peerPost rank start { op with rank := rank }).filterMap
          Post.started = b.ops.map MpiOp.slot := by
        rw [List.filterMap_map]
        refine List.filterMap_eq_map_iff_forall_eq_some.mpr fun op _ => ?_
        simp [Post.started, peerPost, hstart, MpiOp.slot]
      rw [huser]
      simp only [UserPhase.peerStarts, Proc.startBatch, batchHandler, hslot, kept, addressed,
        List.map_map, Function.comp_def, hops, List.filter_cons]
      by_cases hj : j = b.dst_rank
      · rw [if_pos hj, if_pos (by simp [hj]), List.flatMap_cons]
      · rw [if_neg hj, if_neg (by simp [Ne.symm hj]), List.nil_append]
  | userHalt | recvCreate | recvDestroy | recvStart | recvExecute | recvHalt | postStarted
  | postOnce | postHalt | finishPosting | keepTag | returnTag | finishEffects | daemonHalt =>
      exact hsame rfl rfl
  | @testSome done =>
      exact hsame rfl (testSome_same proc done (fun user => user.peerStarts j) fun _ _ => rfl)

/-- What a step of the target starts for process `i` is what it posts. -/
theorem Move.starts (hmove : Move w rank proc a proc') (hpos : proc.StartPos) (i : Nat) :
    (peerLog i proc'.log = peerLog i proc.log ∧
      (activeSlots false i proc'.active).Sublist (activeSlots false i proc.active)) ∨
    ∃ x, peerLog i proc'.log = peerLog i proc.log ++ [x] ∧
      (activeSlots false i proc'.active).Sublist
        (x.started.toList ++ activeSlots false i proc.active) := by
  -- a step that posts one operation
  have hpost : ∀ {op : MpiOp} {src start : Nat}, proc'.log = proc.log ++ [peerPost src start op] →
      (activeSlots false i proc'.active).Sublist ((if src = i then
        (peerPost src start op).started.toList else []) ++ activeSlots false i proc.active) →
      (peerLog i proc'.log = peerLog i proc.log ∧
        (activeSlots false i proc'.active).Sublist (activeSlots false i proc.active)) ∨
      ∃ x, peerLog i proc'.log = peerLog i proc.log ++ [x] ∧
        (activeSlots false i proc'.active).Sublist
          (x.started.toList ++ activeSlots false i proc.active) := by
    intro op src start hlog hactive
    by_cases hsrc : src = i
    · rw [if_pos hsrc] at hactive
      refine .inr ⟨_, ?_, hactive⟩
      rw [hlog, peerLog_append]
      simp [peerLog, peerPost, hsrc]
    · rw [if_neg hsrc] at hactive
      refine .inl ⟨?_, hactive⟩
      rw [hlog, peerLog_append]
      simp [peerLog, peerPost, hsrc]
  cases hmove with
  | writeOnce => exact .inl ⟨by simp [Proc.enter, Proc.post, peerLog], List.Sublist.refl _⟩
  | @startOp p start op ops mpi_op _ =>
      have hsub := @activeSlots_activate false true i rank proc.active _ _ _
        (entry_req proc op .own ⟨rank, op.plan, start, op.index⟩)
      rw [if_neg (by simp), List.nil_append] at hsub
      exact .inl ⟨by simp [Proc.startOp, Proc.activate, Proc.post, peerLog], hsub⟩
  | @postStarted src start op rest mpi_op hdaemon =>
      have hstart := hpos.daemon _ _ _ _ hdaemon
      have hsub := @activeSlots_activate false false i src proc.active _ _ _
        (entry_req proc op .peer ⟨src, op.plan, start, op.index⟩)
      refine @hpost op src start rfl ?_
      by_cases hsrc : src = i
      · rw [if_pos ⟨rfl, hsrc⟩] at hsub
        have hstarted : (peerPost src start op).started = some (op.plan, op.index) := by
          simp [Post.started, peerPost, hstart]
        rw [if_pos hsrc, hstarted]
        exact hsub
      · rw [if_neg fun hside => hsrc hside.2] at hsub
        rw [if_neg hsrc]
        exact hsub
  -- posted without a request that is started
  | @postOnce src op _ _ _ | @postHalt src op _ _ _ =>
      refine @hpost op src 0 rfl ?_
      split
      · exact List.sublist_append_right _ _
      · exact List.Sublist.refl _
  | @testSome done => exact .inl ⟨rfl, activeSlots_testSome _ _ _⟩
  | beginCreate | sortOps | beginStart | beginDestroy | beginClose | drawTag | writeKept
  | announceOnce | announceKept | finishCreate | startBatch | finishStart | destroyOp
  | destroyBatch | finishDestroy | closeLoop | userHalt | recvCreate | recvDestroy | recvStart
  | recvExecute | recvHalt | finishPosting | keepTag | returnTag | finishEffects | daemonHalt =>
      exact .inl ⟨rfl, List.Sublist.refl _⟩

end Steps

/-- The reasons stay different when some of them move on: from the call to the
messages, and from the messages to the active requests. -/
theorem slots_step {A A' L L' xs : List Post} {S S' T T' : List (Nat × Nat)} (hA : A' = A ++ xs)
    (hS : S = xs.filterMap Post.started ++ S') (hL : L <+: A) (hL' : L' <+: A')
    (hT : (L' = L ∧ T'.Sublist T) ∨ ∃ x, L' = L ++ [x] ∧ T'.Sublist (x.started.toList ++ T))
    (h : (S ++ (A.drop L.length).filterMap Post.started ++ T).Nodup) :
    (S' ++ (A'.drop L'.length).filterMap Post.started ++ T').Nodup := by
  have hdrop : A'.drop L.length = A.drop L.length ++ xs := by
    rw [hA, List.drop_append_of_le_length hL.length_le]
  -- the reasons that are announced go from the call to the messages
  have hall : (S' ++ (A'.drop L.length).filterMap Post.started ++ T).Nodup := by
    refine (List.Perm.nodup_iff ?_).mp h
    rw [hS, hdrop, List.filterMap_append]
    refine List.Perm.append_right _ ?_
    rw [List.append_assoc]
    refine List.perm_append_comm.trans ?_
    rw [List.append_assoc]
  rcases hT with ⟨rfl, hsub⟩ | ⟨x, rfl, hsub⟩
  · exact hall.sublist (hsub.append_left _)
  · obtain ⟨rest, hrest⟩ := hL'
    have hhead : A'.drop L.length = x :: A'.drop (L ++ [x]).length := by
      rw [← hrest, List.append_assoc, List.drop_left, List.length_append, List.length_singleton,
        ← List.append_assoc, ← List.length_singleton (a := x), ← List.length_append,
        List.drop_left]
      rfl
    rw [hhead] at hall
    have hmiddle : (S' ++ (A'.drop (L ++ [x]).length).filterMap Post.started ++
        (x.started.toList ++ T)).Nodup := by
      refine (List.Perm.nodup_iff ?_).mp hall
      rw [List.append_assoc, List.append_assoc]
      refine List.Perm.append_left _ ?_
      rw [List.filterMap_cons, ← List.append_assoc]
      refine List.Perm.append_right _ ?_
      cases x.started with
      | none => simp
      | some slot => exact @List.perm_append_comm _ [slot] _
    exact hmiddle.sublist (hsub.append_left _)

/-! ### Starting a plan -/

theorem outputs_started {size i : Nat} {V : BatchMap} {msgs : List CtrlMsg}
    (hV : ∀ id batch, V id = some batch → batch.From size i) (hfrom : AllFrom size i msgs)
    (hvalid : (batchHandler i).Valid V msgs) {x : Post} {slot : Nat × Nat}
    (hx : x ∈ (batchHandler i).outputs V msgs) (hslot : x.started = some slot) :
    ∃ msg ∈ msgs, msg.starts slot.1 = true := by
  induction msgs generalizing V with
  | nil => exact nomatch hx
  | cons msg msgs ih =>
      obtain ⟨hok, hvalid⟩ := hvalid
      rcases List.mem_append.mp hx with hx | hx
      · refine ⟨msg, by simp, ?_⟩
        cases msg with
        | createOpBatch | destroyOpBatch => exact nomatch hx
        | executeOpBatch batch =>
            obtain ⟨op, -, rfl⟩ := List.mem_map.mp hx
            exact nomatch hslot
        | startOpBatch id plan start =>
            obtain ⟨batch, hbatch, rfl⟩ := hok
            simp only [batchHandler, hbatch] at hx
            obtain ⟨op, hop, rfl⟩ := List.mem_map.mp hx
            simp only [Post.started, Option.ite_none_left_eq_some, Option.some.injEq] at hslot
            obtain ⟨-, rfl⟩ := hslot
            simp only [CtrlMsg.starts, peerPost, (hV id batch hbatch op hop).plan_eq]
            decide
      · have hstep : ∀ id batch, (batchHandler i).step V msg id = some batch →
            batch.From size i := by
          intro id batch hbatch
          cases msg with
          | createOpBatch id' batch' =>
              by_cases hid : id = id'
              · subst hid
                simp only [batchHandler, Function.update_self, Option.some.injEq] at hbatch
                exact hbatch ▸ hfrom (.createOpBatch id batch') (by simp) batch' rfl
              · simp only [batchHandler, Function.update_of_ne hid] at hbatch
                exact hV id batch hbatch
          | destroyOpBatch id' plan =>
              by_cases hid : id = id'
              · subst hid
                simp [batchHandler] at hbatch
              · simp only [batchHandler, Function.update_of_ne hid] at hbatch
                exact hV id batch hbatch
          | startOpBatch | executeOpBatch => exact hV id batch hbatch
        obtain ⟨msg', hmsg', hstarts⟩ :=
          ih hstep (fun m hm => hfrom m (List.mem_cons_of_mem _ hm)) hvalid hx
        exact ⟨msg', List.mem_cons_of_mem _ hmsg', hstarts⟩

section Begin

variable {w : World} {p j plan : Nat}

theorem remoteDone_at (h : w.remoteDone p plan = true) (hj : j < w.size) :
    (∀ msg ∈ ((w.procs p).ctrl_sent j).drop ((w.procs j).ctrl_received p),
      msg.starts plan = false) ∧
    (w.procs j).daemon.starts p plan = false ∧
    ∀ index, (⟨false, p, plan, index⟩ : Req) ∉ (w.procs j).active := by
  have hdone := List.all_eq_true.mp h j (List.mem_range.mpr hj)
  simp only [Bool.and_eq_true, List.all_eq_true, Bool.not_eq_true', decide_eq_true_eq] at hdone
  obtain ⟨⟨hmsgs, hdaemon⟩, hactive⟩ := hdone
  refine ⟨hmsgs, hdaemon, fun index hmem => ?_⟩
  rcases hactive _ hmem with hown | hne | hne
  · exact nomatch hown
  · exact hne rfl
  · exact hne rfl

/-- The daemon is about to post what the messages it has handled ask for; the
rest is on its way. -/
theorem toPost_split (hinv : w.Inv) (hlive : (w.procs j).halted = none) :
    toPost p j (w.procs p) (w.procs j) = (w.procs j).daemon.pendingPosts p ++
      (batchHandler p).outputs ((batchHandler p).final emptyMap
        (((w.procs p).ctrl_sent j).take ((w.procs j).ctrl_received p)))
        (((w.procs p).ctrl_sent j).drop ((w.procs j).ctrl_received p)) := by
  obtain ⟨-, hposts⟩ := (hinv.link p j).live hlive
  rw [toPost]
  conv_lhs =>
    rw [← List.take_append_drop ((w.procs j).ctrl_received p) ((w.procs p).ctrl_sent j),
      Handler.outputs_append, ← hposts, List.append_assoc, List.drop_left]

theorem toPost_of_done (hinv : w.Inv) (hlive : (w.procs j).halted = none)
    (hmsgs : ∀ msg ∈ ((w.procs p).ctrl_sent j).drop ((w.procs j).ctrl_received p),
      msg.starts plan = false) (hdaemon : (w.procs j).daemon.starts p plan = false) :
    ∀ slot ∈ (toPost p j (w.procs p) (w.procs j)).filterMap Post.started, slot.1 ≠ plan := by
  have hsent := (hinv.ini p).sent j
  have hvalid := (hinv.ini p).valid j
  rw [← List.take_append_drop ((w.procs j).ctrl_received p) ((w.procs p).ctrl_sent j),
    Handler.valid_append] at hvalid
  intro slot hslot
  obtain ⟨x, hx, hstarted⟩ := List.mem_filterMap.mp hslot
  rw [toPost_split hinv hlive] at hx
  -- either the daemon is posting it, or it comes from a message not received yet
  rcases List.mem_append.mp hx with hx | hx
  · cases hphase : (w.procs j).daemon with
    | posting src start rest es =>
        rw [hphase] at hx hdaemon
        cases start with
        | some start =>
            simp only [DaemonPhase.pendingPosts] at hx
            split at hx
            · rename_i hsrc
              obtain ⟨op, hop, rfl⟩ := List.mem_map.mp hx
              simp only [Post.started, Option.ite_none_left_eq_some, Option.some.injEq] at hstarted
              obtain ⟨-, rfl⟩ := hstarted
              intro hplan
              simp only [DaemonPhase.starts, decide_eq_false_iff_not] at hdaemon
              exact hdaemon ⟨hsrc, op, hop, hplan⟩
            · cases hx
        | none =>
            simp only [DaemonPhase.pendingPosts] at hx
            split at hx
            · obtain ⟨op, hop, rfl⟩ := List.mem_map.mp hx
              cases hstarted
            · cases hx
    | drain | effects =>
        rw [hphase] at hx
        cases hx
  · obtain ⟨msg, hmsg, hstarts⟩ := outputs_started
      (fun id batch hbatch => final_batch (fun m hm => hsent m (List.mem_of_mem_take hm)) hbatch)
      (fun m hm => hsent m (List.mem_of_mem_drop hm)) hvalid.2 hx hstarted
    intro hplan
    rw [hplan, hmsgs msg hmsg] at hstarts
    cases hstarts

theorem nodup_start {xs ys : List (Nat × Nat)} (hxs : xs.Nodup) (hys : ys.Nodup)
    (hplan : ∀ slot ∈ xs, slot.1 = plan) (hother : ∀ slot ∈ ys, slot.1 ≠ plan) :
    (xs ++ ys).Nodup :=
  List.nodup_append.mpr ⟨hxs, hys, fun slot hx slot' hy heq =>
    hother slot' hy (heq ▸ hplan slot hx)⟩

theorem active_of_done (hentry : ∀ r ∈ (w.procs p).active, ∃ e ∈ (w.procs p).inHand, e.req = some r)
    (huser : (w.procs p).user = .idle) (hdone : w.localDone p plan = true) :
    ∀ slot ∈ activeSlots true p (w.procs p).active, slot.1 ≠ plan := by
  rintro ⟨plan', index⟩ hslot rfl
  obtain ⟨e, he, hreq⟩ := hentry _ (mem_activeSlots.mp hslot)
  have hmem : e ∈ (w.procs p).queue ++ (w.procs p).daemon.entries := by
    rw [Proc.inHand, huser] at he
    rcases List.mem_append.mp he with he | he
    · exact List.mem_append_left _ he
    · refine List.mem_append_right _ ?_
      cases hdaemon : (w.procs p).daemon with
      | posting =>
          rw [hdaemon] at he
          exact he
      | drain | effects =>
          rw [hdaemon] at he
          cases he
  have hall := List.all_eq_true.mp hdone e hmem
  simp only [Entry.req, Option.ite_none_right_eq_some, Option.some.injEq, Req.mk.injEq,
    beq_iff_eq] at hreq
  obtain ⟨-, hside, -, hplan, -⟩ := hreq
  rcases of_decide_eq_true hall with hne | hne
  · exact hne hside
  · exact hne hplan

end Begin

/-! ### Runs -/

section Runs

variable {w w' : World} {rank : Nat} {proc' : Proc} {a : ProcAct}

theorem World.StartOk.init (size : Nat) (flags : Nat → Nat → UruFlag) :
    (World.init size flags).StartOk where
  pos _ := ⟨Nat.one_ne_zero, nofun, nofun, nofun⟩
  entry _ := nofun
  own _ := List.nodup_nil
  peer _ _ _ _ := List.nodup_nil

theorem World.StartOk.peer_move (h : w.StartOk) (hinv : w.Inv)
    (hinv' : { w with procs := Function.update w.procs rank proc' }.Inv)
    (hlive : (w.procs rank).halted = none) (hmove : Move w rank (w.procs rank) a proc')
    (ha : ∀ plan, a ≠ .beginStart plan) (p : Nat) {j : Nat} (hj : j < w.size)
    (hlive' : (Function.update w.procs rank proc' j).halted = none) :
    (peerSlots p j (Function.update w.procs rank proc' p)
      (Function.update w.procs rank proc' j)).Nodup := by
  have hold : (w.procs j).halted = none := by
    by_cases hjr : j = rank
    · rw [hjr]
      exact hlive
    · rwa [Function.update_of_ne hjr] at hlive'
  -- only the process that moves announces
  have hsent : ∃ xs, (batchHandler p).outputs emptyMap
        ((Function.update w.procs rank proc' p).ctrl_sent j) =
        (batchHandler p).outputs emptyMap ((w.procs p).ctrl_sent j) ++ xs ∧
      (w.procs p).user.peerStarts j = xs.filterMap Post.started ++
        (Function.update w.procs rank proc' p).user.peerStarts j := by
    by_cases hp : p = rank
    · subst hp
      rw [Function.update_self]
      exact hmove.announces (hinv.ini p) (h.pos p) ha j
    · rw [Function.update_of_ne hp]
      exact ⟨[], (List.append_nil _).symm, rfl⟩
  -- and only it posts
  have hstarts : (peerLog p (Function.update w.procs rank proc' j).log =
        peerLog p (w.procs j).log ∧
      (activeSlots false p (Function.update w.procs rank proc' j).active).Sublist
        (activeSlots false p (w.procs j).active)) ∨
      ∃ x, peerLog p (Function.update w.procs rank proc' j).log =
          peerLog p (w.procs j).log ++ [x] ∧
        (activeSlots false p (Function.update w.procs rank proc' j).active).Sublist
          (x.started.toList ++ activeSlots false p (w.procs j).active) := by
    by_cases hjr : j = rank
    · subst hjr
      rw [Function.update_self]
      exact hmove.starts (h.pos j) p
    · rw [Function.update_of_ne hjr]
      exact .inl ⟨rfl, List.Sublist.refl _⟩
  obtain ⟨xs, hA, hS⟩ := hsent
  exact slots_step hA hS (hinv.link p j).posts (hinv'.link p j).posts hstarts
    (h.peer p j hj hold)

theorem World.StartOk.start (h : w.StartOk) (hinv : w.Inv) {plan : Nat} {q : Plan}
    (huser : (w.procs rank).user = .idle)
    (hq : (w.procs rank).plans.find? (·.plan == plan) = some q)
    (hproc : proc' = { w.procs rank with
      next_start := (w.procs rank).next_start + 1
      user := .starting q (w.procs rank).next_start q.recv_batch q.send_batch [] })
    (hlocal : w.localDone rank plan = true) (hremote : w.remoteDone rank plan = true) :
    (proc'.ownSlots rank).Nodup ∧ ∀ j < w.size, (w.procs j).halted = none → ∀ tgt : Proc,
      tgt.log = (w.procs j).log → tgt.active = (w.procs j).active →
      (peerSlots rank j proc' tgt).Nodup := by
  have hplan : q.plan = plan := by simpa using List.find?_some hq
  have hok := (hinv.ini rank).plans q (List.mem_of_find?_eq_some hq)
  subst hplan
  constructor
  · have hown := h.own rank
    rw [Proc.ownSlots, huser] at hown
    rw [Proc.ownSlots, hproc]
    refine @nodup_start q.plan _ _ (slots_nodup hok.own_nodup) hown ?_
      (active_of_done (h.entry rank) huser hlocal)
    intro slot hslot
    obtain ⟨op, hop, rfl⟩ := List.mem_map.mp hslot
    exact (hok.own_ops op hop).1.plan_eq
  · intro j hj hlive tgt hlog hactive
    have hpeer := h.peer rank j hj hlive
    obtain ⟨hmsgs, hdaemon, hnone⟩ := remoteDone_at hremote hj
    have hslots : ∀ slot ∈ (q.recv_batch.flatMap (·.ops)).map MpiOp.slot, slot.1 = q.plan := by
      intro slot hslot
      obtain ⟨op, hop, rfl⟩ := List.mem_map.mp hslot
      exact (hok.peer_ops op hop).1.plan_eq
    -- the batches for `j` are some of the batches of the plan
    have hsub : (proc'.user.peerStarts j).Sublist
        ((q.recv_batch.flatMap (·.ops)).map MpiOp.slot) := by
      rw [hproc, List.map_flatMap]
      exact List.filter_sublist.flatMap _
    have hpost : toPost rank j proc' tgt = toPost rank j (w.procs rank) (w.procs j) := by
      rw [toPost, toPost, hlog, hproc]
    rw [peerSlots, huser, List.append_assoc] at hpeer
    rw [peerSlots, hpost, hactive, List.append_assoc]
    refine @nodup_start q.plan _ _ ((slots_nodup hok.peer_nodup).sublist hsub) hpeer
      (fun slot hslot => hslots slot (hsub.subset hslot)) fun slot hslot => ?_
    rcases List.mem_append.mp hslot with hslot | hslot
    · exact toPost_of_done hinv hlive hmsgs hdaemon slot hslot
    · intro hplan
      refine hnone slot.2 (mem_activeSlots.mp ?_)
      rw [← hplan]
      exact hslot

/-- The other processes do not see that a plan is started. -/
theorem World.StartOk.peer_start (h : w.StartOk) {q : Plan}
    (hlive : (w.procs rank).halted = none)
    (hproc : proc' = { w.procs rank with
      next_start := (w.procs rank).next_start + 1
      user := .starting q (w.procs rank).next_start q.recv_batch q.send_batch [] })
    (hstart : ∀ j < w.size, (w.procs j).halted = none → ∀ tgt : Proc,
      tgt.log = (w.procs j).log → tgt.active = (w.procs j).active →
      (peerSlots rank j proc' tgt).Nodup) (p : Nat) {j : Nat} (hj : j < w.size)
    (hlive' : (Function.update w.procs rank proc' j).halted = none) :
    (peerSlots p j (Function.update w.procs rank proc' p)
      (Function.update w.procs rank proc' j)).Nodup := by
  have htgt : (Function.update w.procs rank proc' j).log = (w.procs j).log ∧
      (Function.update w.procs rank proc' j).active = (w.procs j).active ∧
      (w.procs j).halted = none := by
    by_cases hjr : j = rank
    · subst hjr
      rw [Function.update_self, hproc]
      exact ⟨rfl, rfl, hlive⟩
    · rw [Function.update_of_ne hjr] at hlive' ⊢
      exact ⟨rfl, rfl, hlive'⟩
  obtain ⟨hlog, hactive, hold⟩ := htgt
  by_cases hp : p = rank
  · subst hp
    rw [Function.update_self]
    exact hstart j hj hold _ hlog hactive
  · have hpeer := h.peer p j hj hold
    rw [peerSlots, toPost] at hpeer
    rw [Function.update_of_ne hp]
    rwa [peerSlots, toPost, hlog, hactive]

/-- A phase in which no plan is being started. -/
structure UserPhase.NoStart (user : UserPhase) : Prop where
  entries : user.entries = []
  ownStarts : user.ownStarts = []
  peerStarts : ∀ j, user.peerStarts j = []
  not_starting : ∀ p start batches ops mpi_op, user ≠ .starting p start batches ops mpi_op

theorem UserPhase.noStart_idle : UserPhase.idle.NoStart := ⟨rfl, rfl, fun _ => rfl, nofun⟩

theorem UserPhase.noStart_finalizing : UserPhase.finalizing.NoStart :=
  ⟨rfl, rfl, fun _ => rfl, nofun⟩

theorem UserPhase.noStart_reducing (n : Nat) : (UserPhase.reducing n).NoStart :=
  ⟨rfl, rfl, fun _ => rfl, nofun⟩

theorem UserPhase.noStart_calling (n : Nat) (tested : Bool) :
    (UserPhase.calling n tested).NoStart := ⟨rfl, rfl, fun _ => rfl, nofun⟩

theorem World.StartOk.setUser (h : w.StartOk) {user : UserPhase} (hnew : user.NoStart)
    (hall : ∀ p < w.size, (w.procs p).user.NoStart) : (w.setUser user).StartOk := by
  have hsame : ∀ p, (w.setUser user).procs p = w.procs p ∨
      (w.setUser user).procs p = { w.procs p with user := user } ∧ (w.procs p).user.NoStart := by
    intro p
    by_cases hp : p < w.size
    · exact .inr ⟨by simp only [World.setUser, if_pos hp], hall p hp⟩
    · exact .inl (by simp only [World.setUser, if_neg hp])
  refine ⟨fun p => ?_, fun p => ?_, fun p => ?_, fun p j hj hlive => ?_⟩
  · rcases hsame p with heq | ⟨heq, -⟩
    · exact heq ▸ h.pos p
    · rw [heq]
      exact ⟨(h.pos p).next, fun q start batches ops mpi_op hstarting =>
        absurd hstarting (hnew.not_starting q start batches ops mpi_op), (h.pos p).sent,
        (h.pos p).daemon⟩
  · rcases hsame p with heq | ⟨heq, hold⟩
    · exact heq ▸ h.entry p
    · have hentry := h.entry p
      simp only [Proc.inHand, hold.entries] at hentry
      simpa only [heq, Proc.inHand, hnew.entries] using hentry
  · rcases hsame p with heq | ⟨heq, hold⟩
    · exact heq ▸ h.own p
    · have hown := h.own p
      rw [Proc.ownSlots, hold.ownStarts] at hown
      rwa [heq, Proc.ownSlots, hnew.ownStarts]
  · have hslots : peerSlots p j ((w.setUser user).procs p) ((w.setUser user).procs j) =
        peerSlots p j (w.procs p) (w.procs j) := by
      have htgt : ∀ ini, peerSlots p j ini ((w.setUser user).procs j) =
          peerSlots p j ini (w.procs j) := by
        intro ini
        rcases hsame j with heq | ⟨heq, -⟩
        · rw [heq]
        · rw [heq]
          rfl
      rw [htgt]
      rcases hsame p with heq | ⟨heq, hold⟩
      · rw [heq]
      · rw [heq, peerSlots, peerSlots, hnew.peerStarts, hold.peerStarts]
        rfl
    have hlive' : (w.procs j).halted = none := by
      rcases hsame j with heq | ⟨heq, -⟩
      · exact heq ▸ hlive
      · rw [heq] at hlive
        exact hlive
    rw [hslots]
    exact h.peer p j hj hlive'

theorem World.StartOk.step (h : w.StartOk) (hinv : w.Inv) {a : Act}
    (hdone : startsDone w a = true) (hstep : w.step a = some w') : w'.StartOk := by
  have hinv' := hinv.step hstep
  rcases step_cases hstep with ⟨rank, pa, proc', rfl, hrank, hlive, hmove, rfl⟩ | ⟨-, hall, rfl⟩ |
    ⟨-, hall, rfl⟩
  · have hpos : ∀ p, (Function.update w.procs rank proc' p).StartPos := by
      intro p
      by_cases hp : p = rank
      · rw [hp, Function.update_self]
        exact (h.pos rank).move h.pos hmove
      · rw [Function.update_of_ne hp]
        exact h.pos p
    have hentry : ∀ p, ∀ r ∈ (Function.update w.procs rank proc' p).active,
        ∃ e ∈ (Function.update w.procs rank proc' p).inHand, e.req = some r := by
      intro p
      by_cases hp : p = rank
      · rw [hp, Function.update_self]
        exact hmove.active_entry (h.entry rank)
      · rw [Function.update_of_ne hp]
        exact h.entry p
    have hown : (proc'.ownSlots rank).Nodup →
        ∀ p, ((Function.update w.procs rank proc' p).ownSlots p).Nodup := by
      intro hnew p
      by_cases hp : p = rank
      · rw [hp, Function.update_self]
        exact hnew
      · rw [Function.update_of_ne hp]
        exact h.own p
    -- a start brings new reasons, any other step moves the old ones along
    by_cases ha : ∃ plan, pa = .beginStart plan
    · obtain ⟨plan, rfl⟩ := ha
      obtain ⟨hlocal, hremote⟩ := Bool.and_eq_true_iff.mp hdone
      cases hmove with
      | beginStart huser hq =>
          obtain ⟨hnew, hstart⟩ := h.start hinv huser hq rfl hlocal hremote
          refine ⟨hpos, hentry, hown hnew, fun p j hj hlive' => ?_⟩
          exact h.peer_start hlive rfl hstart p hj hlive'
    · have ha' : ∀ plan, pa ≠ .beginStart plan := fun plan hplan => ha ⟨plan, hplan⟩
      exact ⟨hpos, hentry, hown (hmove.ownSlots ha' (h.own rank)), fun p j hj hlive' =>
        h.peer_move hinv hinv' hlive hmove ha' p hj hlive'⟩
  · refine h.setUser UserPhase.noStart_finalizing fun p hp => ?_
    exact (hall p hp).1 ▸ UserPhase.noStart_idle
  · refine h.setUser (UserPhase.noStart_calling _ _) fun p hp => ?_
    have hcontribution := (hall p hp).1
    match hphase : (w.procs p).user with
    | .reducing n => exact UserPhase.noStart_reducing n
    | .idle | .finalizing | .calling .. | .closed | .creating .. | .announcing .. | .starting ..
    | .destroying .. => simp [hphase, UserPhase.contribution] at hcontribution

/-- A request is started by the user thread, for a request of its own, or by
the daemon, for one of a peer. -/
theorem startedReq_cases {a : Act} {q : Nat} {r : Req} (h : w.startedReq a = some (q, r)) :
    (∃ p start op ops mpi_op, a = .proc q .userStep ∧
      (w.procs q).user = .starting p start [] (op :: ops) mpi_op ∧
      r = ⟨true, q, op.plan, op.index⟩) ∨
    ∃ src start op rest mpi_op, a = .proc q .daemonStep ∧
      (w.procs q).daemon = .posting src (some start) (op :: rest) mpi_op ∧
      r = ⟨false, src, op.plan, op.index⟩ := by
  unfold World.startedReq at h
  split at h
  · split at h
    · rename_i huser
      cases h
      exact .inl ⟨_, _, _, _, _, rfl, huser, rfl⟩
    · cases h
  · split at h
    · rename_i hdaemon
      cases h
      exact .inr ⟨_, _, _, _, _, rfl, hdaemon, rfl⟩
    · cases h
  · cases h

/-- The user thread has a reason to start what it starts, and so has the
daemon. -/
theorem World.StartOk.started (h : w.StartOk) (hinv : w.Inv) {a : Act}
    (hstep : w.step a = some w') {q : Nat} {r : Req} (hstarted : w.startedReq a = some (q, r)) :
    r ∉ (w.procs q).active := by
  obtain ⟨p, start, op, ops, mpi_op, rfl, huser, rfl⟩ |
    ⟨src, start, op, rest, mpi_op, rfl, hdaemon, rfl⟩ := startedReq_cases hstarted
  · have hown := h.own q
    rw [Proc.ownSlots, huser] at hown
    intro hactive
    exact (List.nodup_append.mp hown).2.2 op.slot (List.mem_cons_self ..) op.slot
      (mem_activeSlots.mpr hactive) rfl
  · have hready : q < w.size ∧ (w.procs q).halted = none := by
      by_contra hnot
      simp [World.step, hnot] at hstep
    obtain ⟨hrank, hlive⟩ := hready
    have hstart := (h.pos q).daemon _ _ _ _ hdaemon
    have hpeer := h.peer src q hrank hlive
    -- the operation at the head of the daemon is a reason still to be posted
    have hhead : op.slot ∈ (toPost src q (w.procs src) (w.procs q)).filterMap Post.started := by
      refine List.mem_filterMap.mpr ⟨peerPost src start op, ?_, ?_⟩
      · rw [toPost_split hinv hlive, hdaemon]
        simp [DaemonPhase.pendingPosts]
      · simp [Post.started, peerPost, hstart, MpiOp.slot]
    intro hactive
    exact (List.nodup_append.mp hpeer).2.2 op.slot (List.mem_append_right _ hhead) op.slot
      (mem_activeSlots.mpr hactive) rfl

end Runs

/-- In every run in which plans are started when their last start is complete
on both sides, `MPI_Start` is applied to inactive requests only. -/
theorem started_inactive {size : Nat} {flags : Nat → Nat → UruFlag} {w w' : World}
    (hrun : Run World.step (fun w a => startsDone w a = true) (World.init size flags) w)
    {a : Act} (hstep : w.step a = some w') {q : Nat} {r : Req}
    (hstarted : w.startedReq a = some (q, r)) : r ∉ (w.procs q).active := by
  have h : w.StartOk := hrun.invariant (World.StartOk.init size flags)
    fun _ _ _ hrun h hdone hstep => h.step (World.inv_run hrun) hdone hstep
  exact h.started (World.inv_run hrun) hstep hstarted

def flaggedWrite : Write := { sampleWrite .dmaPut 0 1 with loc_flag_p := some 0, loc_flag_add := 1 }

def createSteps : List Act :=
  [.beginCreate false [flaggedWrite], .userStep, .userStep,
    .sortOps [flaggedWrite.recvOp (keepOp ||| keepReq) 0 0 2], .userStep, .userStep].map (.proc 0)

def startSteps (sent : List Bool) : List Act :=
  [.beginStart 0, .userStep, .userStep, .userStep, .testSome sent].map (.proc 0) ++
    (.daemonStep :: sent.map fun _ => .daemonStep).map (.proc 0)

def handleSteps : List Act := [.recvCtrl 0, .daemonStep, .daemonStep].map (.proc 1)

def receiveSteps : List Act := [.testSome [true], .daemonStep, .daemonStep].map (.proc 1)

def firstStart : List Act :=
  createSteps ++ startSteps [true, true, true] ++ [.proc 1 (.recvCtrl 0)] ++ handleSteps ++
    receiveSteps

/-- The second start finds the request of process 1 inactive when the first
one has been received. -/
theorem started_inactive_restart :
    (World.after startsDone 2 (firstStart ++ startSteps [true, true] ++
      [.proc 1 (.recvCtrl 0)])).startedReq (.proc 1 .daemonStep) = some (1, ⟨false, 0, 0, 0⟩) ∧
    (⟨false, 0, 0, 0⟩ : Req) ∉ ((World.after startsDone 2 (firstStart ++ startSteps [true, true] ++
      [.proc 1 (.recvCtrl 0)])).procs 1).active := by
  have hstarted : (World.after startsDone 2 (firstStart ++ startSteps [true, true] ++
      [.proc 1 (.recvCtrl 0)])).startedReq (.proc 1 .daemonStep) = some (1, ⟨false, 0, 0, 0⟩) := by
    decide +kernel
  have hstep : ((World.after startsDone 2 (firstStart ++ startSteps [true, true] ++
      [.proc 1 (.recvCtrl 0)])).step (.proc 1 .daemonStep)).isSome = true := by
    decide +kernel
  obtain ⟨w', hw'⟩ := Option.isSome_iff_exists.mp hstep
  exact ⟨hstarted, started_inactive (World.run_after (by decide +kernel)) hw' hstarted⟩

/-- Process 0 sees both starts complete before process 1 tests the receive of
the first: its second `MPI_Start` is applied to an active request. -/
theorem restart_hits_active :
    ∃ w w' : World, Run World.step (fun w a => startsLocal w a = true)
        (World.init 2 fun _ _ => ⟨0, none, 0, 0⟩) w ∧
      w.step (.proc 1 .daemonStep) = some w' ∧
      ∃ r, w.startedReq (.proc 1 .daemonStep) = some (1, r) ∧ r ∈ (w.procs 1).active := by
  have hstep : ((World.after startsLocal 2 (createSteps ++ startSteps [true, true, true] ++
      startSteps [true, true] ++ [.proc 1 (.recvCtrl 0)] ++ handleSteps ++
      [.proc 1 (.recvCtrl 0)])).step (.proc 1 .daemonStep)).isSome = true := by
    decide +kernel
  obtain ⟨w', hw'⟩ := Option.isSome_iff_exists.mp hstep
  refine ⟨_, w', World.run_after (by decide +kernel), hw', ⟨false, 0, 0, 0⟩, ?_, ?_⟩
  · decide +kernel
  · decide +kernel

end Unr.Mpi
