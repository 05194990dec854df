import Unr.Mpi.InitiatorSteps

/-!
Starting and destroying plans, the end of the channel and the daemon: the
remaining steps that keep the invariant of a process about its own plans.
-/

namespace Unr.Mpi

open Unr.Uru Unr.Logic

namespace Proc

variable {size rank : Nat} {proc proc' : Proc}

/-! ### Starting a plan -/

theorem mem_batches {p : Plan} {b : RecvBatch} (hp : p ∈ proc.plans) (hb : b ∈ p.recv_batch) :
    (p.plan, b) ∈ proc.batches :=
  List.mem_append_right _ (List.mem_flatMap.mpr ⟨p, hp, List.mem_map_of_mem hb⟩)

theorem Ini.beginStart (h : proc.Ini size rank) (huser : proc.user = .idle) {p : Plan}
    (hp : p ∈ proc.plans) (start : Nat) :
    { proc with
      next_start := start + 1
      user := .starting p start p.recv_batch p.send_batch [] }.Ini size rank := by
  refine h.rephase ⟨rfl, rfl⟩ rfl rfl ?_ ?_ ?_ h.plans ?_
  · simp only [heldPairs, huser, UserPhase.tagPairs]
    exact List.Perm.refl _
  · simp only [batches, huser, UserPhase.batches]
    exact List.Perm.refl _
  · intro j t ty
    refine ⟨selected rank start j t ty (p.send_batch.map MpiOp.key), ?_, ?_⟩
    · simp [huser, UserPhase.pendingOwn]
    · simp [huser, UserPhase.pendingPeer, (h.plans p hp).balanced]
  · exact ⟨hp, List.suffix_refl _, List.suffix_refl _, rfl⟩

theorem Ini.startBatch (h : proc.Ini size rank) {p : Plan} {start : Nat} {b : RecvBatch}
    {batches : List RecvBatch} {ops : List MpiOp} {mpi_op : List Entry}
    (huser : proc.user = .starting p start (b :: batches) ops mpi_op) :
    (proc.startBatch p start b batches ops mpi_op).Ini size rank := by
  have hphase := h.user
  simp only [huser, UserPhase.Ok] at hphase
  obtain ⟨hp, hbatches, hops, hrel⟩ := hphase
  have hb : b ∈ p.recv_batch := hbatches.subset (by simp)
  have hdst : ∀ op ∈ b.ops, op.rank = b.dst_rank := by
    obtain ⟨first, rest, heq, hrest⟩ := (h.plans p hp).uniform b hb
    intro op hop
    rw [heq] at hop
    simp only [RecvBatch.dst_rank, heq]
    rcases List.mem_cons.mp hop with rfl | hop
    · rfl
    · exact hrest op hop
  have hslot : ∀ V, ViewOk rank b.dst_rank V proc.batches →
      V b.batch_id = some (kept rank (p.plan, b)) :=
    fun V hV => (hV _ _).mpr ⟨(p.plan, b), mem_batches hp hb, rfl, rfl⟩
  have hsame : (proc.startBatch p start b batches ops mpi_op).batches = proc.batches := by
    simp only [Proc.batches, Proc.startBatch, huser, UserPhase.batches, send]
  refine h.sending b.dst_rank (.startOpBatch b.batch_id p.plan start) rfl rfl ?_ ?_ ?_ ?_ ?_ ?_
    (by rintro _ ⟨⟩) rfl ?_
  · have htags := h.tags
    simp only [heldPairs, huser, UserPhase.tagPairs] at htags
    exact htags
  · rw [hsame]
    exact h.ids
  · intro j V _ hV
    rw [hsame]
    exact hV
  · intro V hV
    rw [hsame]
    exact ⟨⟨_, hslot V hV, rfl⟩, hV⟩
  · intro j t ty
    rw [huser]
    rfl
  · intro j t ty V hV
    simp only [huser, UserPhase.pendingPeer, List.flatMap_cons, List.map_append,
      selected_append, Proc.startBatch, batchHandler, hslot V hV]
    rw [announced_group hdst j t ty]
    rfl
  · exact ⟨hp, (List.suffix_cons b batches).trans hbatches, hops, by
      rw [releasing_append, hrel, releasing_ctrlEntry, List.append_nil]⟩

theorem Ini.startOp (h : proc.Ini size rank) {p : Plan} {start : Nat} {op : MpiOp}
    {ops : List MpiOp} {mpi_op : List Entry}
    (huser : proc.user = .starting p start [] (op :: ops) mpi_op) :
    (proc.startOp rank p start op ops mpi_op).Ini size rank := by
  have hphase := h.user
  simp only [huser, UserPhase.Ok] at hphase
  obtain ⟨hp, -, hops, hrel⟩ := hphase
  obtain ⟨⟨-, htag⟩, hfree⟩ := (h.plans p hp).own_ops op (hops.subset (by simp))
  have hal := h.aligned
  have hids := h.ids
  have hview := h.view
  have htags := h.tags
  simp only [batches, heldPairs, huser] at hal hids hview htags
  refine ⟨htags, hids, hview, h.valid, ?_, h.sent, ?_, h.plans, ?_⟩
  · intro j t ty
    have hal := hal j t ty
    simp only [UserPhase.pendingOwn, UserPhase.pendingPeer, List.map_cons] at hal
    rw [selected_cons, ← @ownWrites_post rank start _ _ _ op,
      ← List.append_assoc, ← ownWrites_append] at hal
    exact hal
  · intro x hx hown
    rcases List.mem_append.mp hx with hx | hx
    · exact h.own x hx hown
    · rw [List.mem_singleton.mp hx]
      exact ⟨rfl, htag⟩
  · refine ⟨hp, List.nil_suffix, (List.suffix_cons op ops).trans hops, ?_⟩
    rw [releasing_append, hrel, List.nil_append]
    exact releasing_eq_nil fun e he => by
      rw [List.mem_singleton.mp he]
      exact hfree

/-- A phase of the user thread in which it holds nothing. -/
structure Quiet (user : UserPhase) : Prop where
  tagPairs : user.tagPairs = []
  batches : user.batches = []
  own : ∀ rank j t ty, user.pendingOwn rank j t ty = []
  peer : ∀ rank j t ty, user.pendingPeer rank j t ty = []
  ok : ∀ size rank plans, user.Ok size rank plans

theorem Ini.quiet (h : proc.Ini size rank) (hquiet : Quiet proc.user) {user : UserPhase}
    (hquiet' : Quiet user) : { proc with user := user }.Ini size rank := by
  refine h.rephase ⟨rfl, rfl⟩ rfl rfl ?_ ?_ ?_ h.plans (hquiet'.ok _ _ _)
  · simp only [heldPairs, hquiet.tagPairs, hquiet'.tagPairs]
    exact List.Perm.refl _
  · simp only [batches, hquiet.batches, hquiet'.batches]
    exact List.Perm.refl _
  · intro j t ty
    exact ⟨[], by simp [hquiet.own, hquiet'.own], by simp [hquiet.peer, hquiet'.peer]⟩

theorem quiet_idle : Quiet .idle := ⟨rfl, rfl, fun _ _ _ _ => rfl, fun _ _ _ _ => rfl,
  fun _ _ _ => trivial⟩

theorem quiet_finalizing : Quiet .finalizing := ⟨rfl, rfl, fun _ _ _ _ => rfl,
  fun _ _ _ _ => rfl, fun _ _ _ => trivial⟩

theorem quiet_reducing (n : Nat) : Quiet (.reducing n) := ⟨rfl, rfl, fun _ _ _ _ => rfl,
  fun _ _ _ _ => rfl, fun _ _ _ => trivial⟩

theorem quiet_calling (n : Nat) (tested : Bool) : Quiet (.calling n tested) :=
  ⟨rfl, rfl, fun _ _ _ _ => rfl, fun _ _ _ _ => rfl, fun _ _ _ => trivial⟩

theorem quiet_closed : Quiet .closed := ⟨rfl, rfl, fun _ _ _ _ => rfl, fun _ _ _ _ => rfl,
  fun _ _ _ => trivial⟩

theorem Ini.finishStart (h : proc.Ini size rank) {p : Plan} {start : Nat} {mpi_op : List Entry}
    (huser : proc.user = .starting p start [] [] mpi_op) :
    (proc.finishCall mpi_op).Ini size rank := by
  have hphase := h.user
  simp only [huser, UserPhase.Ok] at hphase
  obtain ⟨-, -, -, hrel⟩ := hphase
  refine h.rephase ⟨rfl, rfl⟩ rfl rfl ?_ ?_ ?_ h.plans trivial
  · simp only [heldPairs, Proc.finishCall, append, huser, UserPhase.tagPairs, releasing_append,
      hrel, List.append_nil]
    exact List.Perm.refl _
  · simp only [batches, Proc.finishCall, append, huser, UserPhase.batches]
    exact List.Perm.refl _
  · intro j t ty
    exact ⟨[], by simp [Proc.finishCall, huser, UserPhase.pendingOwn],
      by simp [Proc.finishCall, huser, UserPhase.pendingPeer]⟩

/-! ### Destroying a plan -/

theorem Ini.beginDestroy (h : proc.Ini size rank) (huser : proc.user = .idle) {p : Plan}
    (hp : p ∈ proc.plans) :
    { proc with
      plans := proc.plans.erase p
      user := .destroying p p.send_batch p.recv_batch [] }.Ini size rank := by
  have hperm : proc.plans.Perm (p :: proc.plans.erase p) := List.perm_cons_erase hp
  refine h.rephase ⟨rfl, rfl⟩ rfl rfl ?_ ?_ ?_ ?_ ?_
  · simp only [heldPairs, huser, UserPhase.tagPairs, List.nil_append]
    exact ((hperm.flatMap_right _).append_right _).append_right _
  · simp only [batches, huser, UserPhase.batches, List.nil_append]
    exact hperm.flatMap_right _
  · intro j t ty
    exact ⟨[], by simp [huser, UserPhase.pendingOwn], by simp [huser, UserPhase.pendingPeer]⟩
  · exact fun q hq => h.plans q (List.mem_of_mem_erase hq)
  · exact ⟨h.plans p hp, List.suffix_refl _, List.suffix_refl _, rfl⟩

theorem Ini.destroyOp (h : proc.Ini size rank) (hsize : 0 < size) {p : Plan} {op : MpiOp}
    {ops : List MpiOp} {batches : List RecvBatch} {mpi_op : List Entry} {pool : IntPool}
    (huser : proc.user = .destroying p (op :: ops) batches mpi_op)
    (hput : (proc.mpi_tag op.rank).put size rank op.tag = .ok pool) :
    ((proc.setTagPool op.rank pool).enter (.destroying p ops batches mpi_op)).Ini size rank := by
  have hphase := h.user
  simp only [huser, UserPhase.Ok] at hphase
  obtain ⟨hp, hbatches, hops, hrel⟩ := hphase
  have hal := h.aligned
  have hids := h.ids
  have hview := h.view
  have htags := h.tags
  simp only [Proc.batches, heldPairs, huser] at hal hids hview htags
  exact ⟨htags.put hsize hput, hids, hview, h.valid, hal, h.sent, h.own, h.plans,
    hp, hbatches, (List.suffix_cons op ops).trans hops, hrel⟩

theorem Ini.destroyBatch (h : proc.Ini size rank) (hsize : 0 < size) {p : Plan} {b : RecvBatch}
    {batches : List RecvBatch} {mpi_op : List Entry} {pool : IntPool}
    (huser : proc.user = .destroying p [] (b :: batches) mpi_op)
    (hput : (proc.batch_id b.dst_rank).put size rank b.batch_id = .ok pool) :
    (((proc.send b.dst_rank (.destroyOpBatch b.batch_id p.plan)).setIdPool b.dst_rank pool).enter
      (.destroying p [] batches (mpi_op ++ [ctrlEntry b.dst_rank]))).Ini size rank := by
  have hphase := h.user
  simp only [huser, UserPhase.Ok] at hphase
  obtain ⟨hp, hbatches, hops, hrel⟩ := hphase
  have hids := h.ids
  have hfresh := h.ids
  have hold : proc.batches = (p.plan, b) :: (batches.map (p.plan, ·) ++
      proc.plans.flatMap fun p => p.recv_batch.map (p.plan, ·)) := by
    simp only [Proc.batches, huser, UserPhase.batches, List.map_cons, List.cons_append]
  rw [hold, List.map_cons] at hids hfresh
  refine h.sending b.dst_rank (.destroyOpBatch b.batch_id p.plan) rfl rfl ?_ ?_ ?_ ?_ ?_ ?_
    (by rintro _ ⟨⟩) rfl ?_
  · have htags := h.tags
    simp only [heldPairs, huser, UserPhase.tagPairs] at htags
    exact htags
  · exact hids.put hsize hput
  · intro j V hj hV
    rw [hold] at hV
    exact (ViewOk.cons_of_ne (Ne.symm hj)).mp hV
  · intro V hV
    rw [hold] at hV
    exact ⟨⟨_, (hV _ _).mpr ⟨(p.plan, b), by simp, rfl, rfl⟩, rfl⟩,
      hV.erase rfl hfresh.fresh⟩
  · intro j t ty
    rw [huser]
    rfl
  · intro j t ty V _
    simp [huser, UserPhase.pendingPeer, batchHandler, enter]
  · exact ⟨hp, (List.suffix_cons b batches).trans hbatches, hops, by
      rw [releasing_append, hrel, releasing_ctrlEntry, List.append_nil]⟩

theorem Ini.finishDestroy (h : proc.Ini size rank) {p : Plan} {mpi_op : List Entry}
    (huser : proc.user = .destroying p [] [] mpi_op) :
    (proc.finishCall mpi_op).Ini size rank := by
  have hphase := h.user
  simp only [huser, UserPhase.Ok] at hphase
  obtain ⟨-, -, -, hrel⟩ := hphase
  refine h.rephase ⟨rfl, rfl⟩ rfl rfl ?_ ?_ ?_ h.plans trivial
  · simp only [heldPairs, Proc.finishCall, append, huser, UserPhase.tagPairs, releasing_append,
      hrel, List.append_nil, List.map_nil]
    exact List.Perm.refl _
  · simp only [batches, Proc.finishCall, append, huser, UserPhase.batches, List.map_nil]
    exact List.Perm.refl _
  · intro j t ty
    exact ⟨[], by simp [Proc.finishCall, huser, UserPhase.pendingOwn],
      by simp [Proc.finishCall, huser, UserPhase.pendingPeer]⟩

/-! ### The daemon -/

theorem releasing_perm {es es' : List Entry} (h : es.Perm es') :
    (releasing es).Perm (releasing es') :=
  (h.filter _).map _

theorem Ini.posted (h : proc.Ini size rank) {src : Nat} {start : Option Nat} {op : MpiOp}
    {rest : List MpiOp} {mpi_op : List Entry}
    (hdaemon : proc.daemon = .posting src start (op :: rest) mpi_op)
    (hfree : ∀ op ∈ proc.daemon.ops, op.TagFree)
    (hpools : proc'.mpi_tag = proc.mpi_tag ∧ proc'.batch_id = proc.batch_id)
    (hsent : proc'.ctrl_sent = proc.ctrl_sent) (hqueue : proc'.queue = proc.queue)
    {id : WriteId} (hlog : proc'.log = proc.log ++ [⟨op.op_type, op.rank, op.tag, false, id⟩])
    (hnext : proc'.daemon = .posting src start rest (mpi_op ++ [proc.entry op .peer id]))
    (hplans : proc'.plans = proc.plans) (huser : proc'.user = proc.user) :
    proc'.Ini size rank := by
  refine h.sameUser hpools hsent ?_ ?_ hplans huser
  · rw [hlog, List.filter_append]
    simp
  · have hnone : releasing [proc.entry op .peer id] = [] := releasing_eq_nil fun e he => by
      rw [List.mem_singleton.mp he]
      rw [hdaemon] at hfree
      exact hfree op (by simp [DaemonPhase.ops])
    rw [hqueue, hnext, hdaemon]
    simp only [DaemonPhase.entries, releasing_append, hnone, List.append_nil]
    exact List.Perm.refl _

theorem Ini.returnTag (h : proc.Ini size rank) (hsize : 0 < size) {e : Entry}
    {rest : List Entry} {flags : Nat → UruFlag} {pushed : List (Nat × Int)} {pool : IntPool}
    (hdaemon : proc.daemon = .effects (e :: rest)) (hbit : hasBit e.op.flag freeTag = true)
    (hput : (proc.mpi_tag e.op.rank).put size rank e.op.tag = .ok pool) :
    (((proc.flagged flags pushed).goOn (.effects rest)).setTagPool e.op.rank pool).Ini
      size rank := by
  have hone : releasing (e :: rest) = (e.op.rank, e.op.tag) :: releasing rest := by
    simp [releasing, hbit, MpiOp.pair]
  have hheld : proc.heldPairs.Perm ((e.op.rank, e.op.tag) ::
      ((proc.flagged flags pushed).goOn (.effects rest)).heldPairs) := by
    simp only [heldPairs, hdaemon, flagged, goOn, DaemonPhase.entries, hone]
    exact List.perm_middle
  exact ⟨(h.tags.perm hheld).put hsize hput, h.ids, h.view, h.valid, h.aligned, h.sent, h.own,
    h.plans, h.user⟩

theorem Ini.testSome (h : proc.Ini size rank) (hdrain : proc.daemon = .drain) {done : List Bool}
    (hlen : done.length = proc.queue.length) : (proc.testSome done).Ini size rank := by
  have hqueue : (releasing proc.queue ++ releasing proc.daemon.entries).Perm
      (releasing (pick false done proc.queue) ++ releasing (pick true done proc.queue)) := by
    simp only [hdrain, DaemonPhase.entries, releasing_nil, List.append_nil]
    rw [← releasing_append]
    exact releasing_perm (pick_perm done _ hlen)
  have hbase : { proc.testSome done with user := proc.user }.Ini size rank :=
    h.sameUser ⟨rfl, rfl⟩ rfl rfl hqueue rfl rfl
  match huser : proc.user with
  | .calling max_arr_tail tested =>
      have hquiet := hbase.quiet (huser ▸ quiet_calling _ _)
        (quiet_calling max_arr_tail true)
      simpa only [Proc.testSome, huser] using hquiet
  | .idle | .creating .. | .announcing .. | .starting .. | .destroying .. | .finalizing
  | .reducing _ | .closed =>
      simpa only [Proc.testSome, huser] using hbase

/-- Every step of the process. What the daemon posts comes from a message, and
returns no tag. -/
theorem Ini.move {w : World} {a : ProcAct} (h : proc.Ini w.size rank) (hrank : rank < w.size)
    (hfree : ∀ op ∈ proc.daemon.ops, op.TagFree) (hmove : Move w rank proc a proc') :
    proc'.Ini w.size rank := by
  have hsize : 0 < w.size := Nat.lt_of_le_of_lt (Nat.zero_le _) hrank
  cases hmove with
  | beginCreate huser _ => exact h.beginCreate huser _ _
  | sortOps huser hperm _ => exact h.sortOps huser hperm
  | beginStart huser hp => exact h.beginStart huser (List.mem_of_find?_eq_some hp) _
  | beginDestroy huser hp => exact h.beginDestroy huser (List.mem_of_find?_eq_some hp)
  | beginClose huser _ => exact h.quiet (huser ▸ quiet_finalizing) (quiet_reducing _)
  | drawTag huser _ hget => exact h.drawTag hsize huser hget
  | writeOnce huser => exact h.writeOnce hrank huser
  | writeKept huser => exact h.writeKept hrank huser
  | announceOnce huser => exact h.announceOnce huser
  | announceKept huser hget => exact h.announceKept hsize huser hget
  | finishCreate huser => exact h.finishCreate huser
  | startBatch huser => exact h.startBatch huser
  | startOp huser => exact h.startOp huser
  | finishStart huser => exact h.finishStart huser
  | destroyOp huser hput => exact h.destroyOp hsize huser hput
  | destroyBatch huser hput => exact h.destroyBatch hsize huser hput
  | finishDestroy huser => exact h.finishDestroy huser
  | closeLoop huser _ =>
      have hquiet : Quiet proc.user := huser ▸ quiet_calling _ _
      rw [closeLoop]
      split
      · exact h.quiet hquiet quiet_closed
      · exact h.quiet hquiet (quiet_reducing _)
  | testSome hdaemon _ hlen _ => exact h.testSome hdaemon hlen
  | postStarted hdaemon | postOnce hdaemon | postHalt hdaemon =>
      exact h.posted hdaemon hfree ⟨rfl, rfl⟩ rfl rfl rfl rfl rfl rfl
  | returnTag hdaemon _ hbit hput => exact h.returnTag hsize hdaemon hbit hput
  | recvCreate | recvDestroy | recvHalt | userHalt | daemonHalt =>
      exact h.sameUser ⟨rfl, rfl⟩ rfl rfl (List.Perm.refl _) rfl rfl
  | recvStart hdaemon | recvExecute hdaemon =>
      refine h.sameUser ⟨rfl, rfl⟩ rfl rfl ?_ rfl rfl
      simp only [hdaemon, counted, goOn, DaemonPhase.entries]
      exact List.Perm.refl _
  | finishPosting hdaemon =>
      refine h.sameUser ⟨rfl, rfl⟩ rfl rfl ?_ rfl rfl
      simp only [hdaemon, append, goOn, DaemonPhase.entries, releasing_append, releasing_nil,
        List.append_nil]
      exact List.Perm.refl _
  | keepTag hdaemon _ hbit =>
      refine h.sameUser ⟨rfl, rfl⟩ rfl rfl ?_ rfl rfl
      simp only [hdaemon, flagged, goOn, DaemonPhase.entries, releasing, List.filter_cons, hbit]
      exact List.Perm.refl _
  | finishEffects hdaemon =>
      refine h.sameUser ⟨rfl, rfl⟩ rfl rfl ?_ rfl rfl
      simp only [hdaemon, goOn, DaemonPhase.entries]
      exact List.Perm.refl _

end Proc

end Unr.Mpi
