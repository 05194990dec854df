import Unr.Mpi.Initiator
import Unr.Mpi.Moves

/-!
The steps of the user thread keep the invariant of a process about its own
plans, one lemma for each step.
-/

namespace Unr.Mpi

open Unr.Uru Unr.Logic

theorem ViewOk.perm {rank j : Nat} {V : BatchMap} {xs xs' : List (Nat × RecvBatch)}
    (h : ViewOk rank j V xs) (hperm : xs.Perm xs') : ViewOk rank j V xs' := by
  intro id batch
  rw [h id batch]
  constructor
  · rintro ⟨x, hx, hrest⟩
    exact ⟨x, hperm.mem_iff.mp hx, hrest⟩
  · rintro ⟨x, hx, hrest⟩
    exact ⟨x, hperm.mem_iff.mpr hx, hrest⟩

theorem exists_mem_cons_of_ne {x : Nat × RecvBatch} {xs : List (Nat × RecvBatch)} {id : Nat × Nat}
    (hx : idPair x ≠ id) {P : Nat × RecvBatch → Prop} :
    (∃ y ∈ x :: xs, idPair y = id ∧ P y) ↔ ∃ y ∈ xs, idPair y = id ∧ P y := by
  constructor
  · rintro ⟨y, hy, hid, hrest⟩
    rcases List.mem_cons.mp hy with rfl | hy
    · exact absurd hid hx
    · exact ⟨y, hy, hid, hrest⟩
  · rintro ⟨y, hy, hrest⟩
    exact ⟨y, List.mem_cons_of_mem _ hy, hrest⟩

theorem ViewOk.cons_of_ne {rank j : Nat} {V : BatchMap} {x : Nat × RecvBatch}
    {xs : List (Nat × RecvBatch)} (hx : (idPair x).1 ≠ j) :
    ViewOk rank j V (x :: xs) ↔ ViewOk rank j V xs := by
  refine forall₂_congr fun id batch => ?_
  rw [exists_mem_cons_of_ne fun hid => hx (congrArg Prod.fst hid)]

/-- A slot is free if no batch uses its id. -/
theorem ViewOk.eq_none {rank j id : Nat} {V : BatchMap} {xs : List (Nat × RecvBatch)}
    (h : ViewOk rank j V xs) (hfresh : (j, id) ∉ xs.map idPair) : V id = none := by
  match hslot : V id with
  | none => rfl
  | some batch =>
      obtain ⟨x, hx, hid, -⟩ := (h id batch).mp hslot
      exact absurd (hid ▸ List.mem_map_of_mem hx) hfresh

theorem ViewOk.insert {rank j id : Nat} {V : BatchMap} {x : Nat × RecvBatch}
    {xs : List (Nat × RecvBatch)} (h : ViewOk rank j V xs) (hid : idPair x = (j, id))
    (hfresh : (j, id) ∉ xs.map idPair) :
    ViewOk rank j (Function.update V id (some (kept rank x))) (x :: xs) := by
  intro id' batch
  by_cases hid' : id' = id
  · subst hid'
    rw [Function.update_self]
    constructor
    · intro hbatch
      exact ⟨x, by simp, hid, Option.some.inj hbatch⟩
    · rintro ⟨y, hy, hidy, hkept⟩
      rcases List.mem_cons.mp hy with rfl | hy
      · rw [hkept]
      · exact absurd (hidy ▸ List.mem_map_of_mem hy) hfresh
  · have hne : idPair x ≠ (j, id') := fun heq =>
      hid' (congrArg Prod.snd (heq.symm.trans hid))
    rw [Function.update_of_ne hid', h id' batch, exists_mem_cons_of_ne hne]

theorem ViewOk.erase {rank j id : Nat} {V : BatchMap} {x : Nat × RecvBatch}
    {xs : List (Nat × RecvBatch)} (h : ViewOk rank j V (x :: xs)) (hid : idPair x = (j, id))
    (hfresh : (j, id) ∉ xs.map idPair) :
    ViewOk rank j (Function.update V id none) xs := by
  intro id' batch
  by_cases hid' : id' = id
  · subst hid'
    rw [Function.update_self]
    constructor
    · intro hbatch
      exact nomatch hbatch
    · rintro ⟨y, hy, hidy, -⟩
      exact absurd (hidy ▸ List.mem_map_of_mem hy) hfresh
  · have hne : idPair x ≠ (j, id') := fun heq =>
      hid' (congrArg Prod.snd (heq.symm.trans hid))
    rw [Function.update_of_ne hid', h id' batch, exists_mem_cons_of_ne hne]

theorem PoolsOk.fresh {size rank : Nat} {pools : Nat → IntPool} {p : Nat × Nat}
    {ps : List (Nat × Nat)} (h : PoolsOk size rank pools (p :: ps)) : p ∉ ps := by
  intro hmem
  have hnodup := h.nodup p.1
  rw [tagsTo_cons, if_pos rfl, List.singleton_append, List.nodup_cons] at hnodup
  exact hnodup.1 (List.mem_filterMap.mpr ⟨p, hmem, if_pos rfl⟩)

theorem mirror_append {send_ops recv_ops : List MpiOp} {send_op recv_op : MpiOp}
    (h : recv_ops.map MpiOp.key = (send_ops.map MpiOp.key).map Key.flip)
    (hop : recv_op.key = send_op.key.flip) :
    (recv_ops ++ [recv_op]).map MpiOp.key =
      ((send_ops ++ [send_op]).map MpiOp.key).map Key.flip := by
  simp [h, hop]

/-- The collected operations with one more write of the plan. -/
theorem CreatingOk.write {size rank : Nat} {once_now : Bool} {plan tag : Nat}
    {send_ops recv_ops : List MpiOp} {mpi_op : List Entry}
    (h : CreatingOk size rank once_now plan send_ops recv_ops mpi_op) (htag : tag % size = rank)
    (w : Write) (flag flag' : BitVec 8) (hflag : hasBit flag' freeTag = false) (es : List Entry)
    (honce : once_now = true →
      es.map (fun e => e.op.key) = [(w.sendOp flag plan send_ops.length tag).key] ∧
      ∀ e ∈ es, hasBit e.op.flag freeTag = true)
    (hkeep : once_now = false → es = [] ∧ hasBit flag freeTag = false) :
    CreatingOk size rank once_now plan
      (send_ops ++ [w.sendOp flag plan send_ops.length tag])
      (recv_ops ++ [w.recvOp flag' plan send_ops.length tag]) (mpi_op ++ es) where
  mirror := mirror_append h.mirror rfl
  tagFree := by
    intro op hop
    rcases List.mem_append.mp hop with hop | hop
    · exact h.tagFree op hop
    · rw [List.mem_singleton.mp hop]
      exact hflag
  ofPlan := by
    intro op hop
    rcases List.mem_append.mp hop with hop | hop
    · exact h.ofPlan op hop
    · rw [List.mem_singleton.mp hop]
      exact ⟨rfl, htag⟩
  index := by
    rw [List.map_append, h.index, List.length_append, List.length_singleton,
      List.range_succ]
    rfl
  once := by
    intro hnow
    obtain ⟨hkeys, hbits⟩ := h.once hnow
    obtain ⟨hkeys', hbits'⟩ := honce hnow
    refine ⟨by rw [List.map_append, hkeys, hkeys', List.map_append]; rfl, ?_⟩
    intro e he
    rcases List.mem_append.mp he with he | he
    · exact hbits e he
    · exact hbits' e he
  keep := by
    intro hlater
    obtain ⟨rfl, hfree⟩ := h.keep hlater
    obtain ⟨rfl, hbit⟩ := hkeep hlater
    refine ⟨rfl, ?_⟩
    intro op hop
    rcases List.mem_append.mp hop with hop | hop
    · exact hfree op hop
    · rw [List.mem_singleton.mp hop]
      exact hbit

theorem CreatingOk.tagPairs {size rank : Nat} {once_now : Bool} {plan : Nat}
    {send_ops recv_ops : List MpiOp} {mpi_op : List Entry} {rest : List Write} {tag : Option Nat}
    (h : CreatingOk size rank once_now plan send_ops recv_ops mpi_op) :
    (UserPhase.creating once_now plan rest tag send_ops recv_ops mpi_op).tagPairs =
      drawnPair rest tag ++ send_ops.map MpiOp.pair := by
  cases once_now with
  | false => rfl
  | true =>
      obtain ⟨hkeys, hbits⟩ := h.once rfl
      have hpairs : mpi_op.map (fun e => e.op.pair) = send_ops.map MpiOp.pair := by
        have := congrArg (List.map fun k : Key => (k.rank, k.tag)) hkeys
        simp only [List.map_map] at this
        exact this
      simp only [UserPhase.tagPairs, if_true, releasing, List.filter_eq_self.mpr hbits, hpairs]

theorem CreatingOk.recv_ofPlan {size rank : Nat} {once_now : Bool} {plan : Nat}
    {send_ops recv_ops : List MpiOp} {mpi_op : List Entry}
    (h : CreatingOk size rank once_now plan send_ops recv_ops mpi_op) :
    ∀ op ∈ recv_ops, op.OfPlan size rank plan := by
  intro op hop
  have hkey : op.key ∈ (send_ops.map MpiOp.key).map Key.flip := by
    rw [← h.mirror]
    exact List.mem_map_of_mem hop
  simp only [List.map_map, List.mem_map, Function.comp_apply] at hkey
  obtain ⟨send_op, hmem, hkey⟩ := hkey
  obtain ⟨hplan, htag⟩ := h.ofPlan send_op hmem
  have hplan' : send_op.plan = op.plan := congrArg Key.plan hkey
  have htag' : send_op.tag = op.tag := congrArg Key.tag hkey
  exact ⟨hplan' ▸ hplan, htag' ▸ htag⟩

theorem CreatingOk.recv_index {size rank : Nat} {once_now : Bool} {plan : Nat}
    {send_ops recv_ops : List MpiOp} {mpi_op : List Entry}
    (h : CreatingOk size rank once_now plan send_ops recv_ops mpi_op) :
    recv_ops.map (·.index) = List.range send_ops.length := by
  have := congrArg (List.map Key.index) h.mirror
  simp only [List.map_map] at this
  rw [← h.index]
  exact this

theorem CreatingOk.announcing {size rank : Nat} {once_now : Bool} {plan : Nat}
    {send_ops recv_ops sorted : List MpiOp} {mpi_op : List Entry}
    (h : CreatingOk size rank once_now plan send_ops recv_ops mpi_op)
    (hperm : sorted.Perm recv_ops)
    (hmirror : ∀ start j t ty, selected rank start j t ty (send_ops.map MpiOp.key) =
      selected rank start j t ty.flip (sorted.map MpiOp.key)) :
    AnnouncingOk size rank once_now plan send_ops (receivers sorted) [] mpi_op where
  groups_uniform := receivers_uniform sorted
  batches_uniform := by simp
  peer_ops := by
    intro op hop
    rw [receivers_flatten] at hop
    have hmem : op ∈ recv_ops := hperm.mem_iff.mp hop
    exact ⟨h.recv_ofPlan op hmem, h.tagFree op hmem⟩
  peer_nodup := by
    rw [receivers_flatten]
    refine ((hperm.map _).nodup_iff).mpr ?_
    rw [h.recv_index]
    exact List.nodup_range
  own_ops := h.ofPlan
  own_nodup := by
    rw [h.index]
    exact List.nodup_range
  once := fun _ => rfl
  keep := by
    intro hlater
    obtain ⟨rfl, hfree⟩ := h.keep hlater
    refine ⟨rfl, hfree, ?_⟩
    rw [receivers_flatten]
    exact hmirror

section Announcing

variable {size rank plan : Nat} {once_now : Bool} {op : MpiOp} {ops send_ops : List MpiOp}
  {groups : List (List MpiOp)} {recv_batch : List RecvBatch} {mpi_op : List Entry}

theorem AnnouncingOk.next_rank
    (h : AnnouncingOk size rank once_now plan send_ops ((op :: ops) :: groups) recv_batch mpi_op) :
    ∀ op' ∈ op :: ops, op'.rank = op.rank := by
  obtain ⟨first, rest, heq, hrest⟩ := h.groups_uniform (op :: ops) (by simp)
  obtain ⟨rfl, rfl⟩ := List.cons_eq_cons.mp heq
  intro op' hop'
  rcases List.mem_cons.mp hop' with rfl | hop'
  · rfl
  · exact hrest op' hop'

theorem AnnouncingOk.next_ops
    (h : AnnouncingOk size rank once_now plan send_ops ((op :: ops) :: groups) recv_batch mpi_op) :
    ∀ op' ∈ op :: ops, op'.OfPlan size rank plan ∧ op'.TagFree := by
  intro op' hop'
  refine h.peer_ops op' ?_
  rw [List.flatten_cons]
  exact List.mem_append_right _ (List.mem_append_left _ hop')

end Announcing

namespace Proc

variable {size rank : Nat} {proc proc' : Proc}

theorem ini_init (flags : Nat → UruFlag) : (Proc.init flags).Ini size rank where
  tags _ := IntPool.ok_init
  ids _ := IntPool.ok_init
  view _ _ _ := by simp [Proc.init, Proc.batches, UserPhase.batches, emptyMap]
  valid _ := trivial
  aligned _ _ _ := rfl
  sent _ _ h := by simp [Proc.init] at h
  own _ h := by simp [Proc.init] at h
  plans _ h := by simp [Proc.init] at h
  user := trivial

theorem ownWrites_filter {j t : Nat} {ty : OpType} (log : List Post) :
    ownWrites j t ty (log.filter (·.own)) = ownWrites j t ty log := by
  induction log with
  | nil => rfl
  | cons x log ih =>
      cases hown : x.own <;> simp_all [ownWrites, List.filterMap_cons]

/-- A step that neither draws nor returns a number, sends nothing and posts
nothing of its own: what it changes is how the tags and the batches are held,
and the writes that are pending on both sides. -/
theorem Ini.rephase (h : proc.Ini size rank)
    (hpools : proc'.mpi_tag = proc.mpi_tag ∧ proc'.batch_id = proc.batch_id)
    (hsent : proc'.ctrl_sent = proc.ctrl_sent)
    (hlog : proc'.log.filter (·.own) = proc.log.filter (·.own))
    (hheld : proc.heldPairs.Perm proc'.heldPairs) (hbatches : proc.batches.Perm proc'.batches)
    (hpending : ∀ j t ty, ∃ ws,
      proc'.user.pendingOwn rank j t ty = proc.user.pendingOwn rank j t ty ++ ws ∧
      proc'.user.pendingPeer rank j t ty = proc.user.pendingPeer rank j t ty ++ ws)
    (hplans : ∀ p ∈ proc'.plans, p.Ok size rank) (huser : proc'.user.Ok size rank proc'.plans) :
    proc'.Ini size rank where
  tags := by
    rw [hpools.1]
    exact h.tags.perm hheld
  ids := by
    rw [hpools.2]
    exact h.ids.perm (hbatches.map _)
  view j := by
    rw [hsent]
    exact (h.view j).perm hbatches
  valid j := by
    rw [hsent]
    exact h.valid j
  aligned j t ty := by
    obtain ⟨ws, hown, hpeer⟩ := hpending j t ty
    rw [hsent, ← ownWrites_filter proc'.log, hlog, ownWrites_filter, hown, hpeer,
      ← List.append_assoc, ← List.append_assoc, h.aligned j t ty]
  sent := hsent ▸ h.sent
  own := by
    intro x hx hown
    have hmem : x ∈ proc'.log.filter (·.own) := List.mem_filter.mpr ⟨hx, hown⟩
    rw [hlog] at hmem
    exact h.own x (List.mem_filter.mp hmem).1 hown
  plans := hplans
  user := huser

theorem Ini.sameUser (h : proc.Ini size rank)
    (hpools : proc'.mpi_tag = proc.mpi_tag ∧ proc'.batch_id = proc.batch_id)
    (hsent : proc'.ctrl_sent = proc.ctrl_sent)
    (hlog : proc'.log.filter (·.own) = proc.log.filter (·.own))
    (hqueue : (releasing proc.queue ++ releasing proc.daemon.entries).Perm
      (releasing proc'.queue ++ releasing proc'.daemon.entries))
    (hplans : proc'.plans = proc.plans) (huser : proc'.user = proc.user) :
    proc'.Ini size rank := by
  refine h.rephase hpools hsent hlog ?_ ?_ ?_ (hplans ▸ h.plans) ?_
  · simp only [heldPairs, hplans, huser, List.append_assoc]
    exact (hqueue.append_left _).append_left _
  · rw [batches, batches, hplans, huser]
  · intro j t ty
    exact ⟨[], by rw [huser, List.append_nil], by rw [huser, List.append_nil]⟩
  · rw [hplans, huser]
    exact h.user

theorem Ini.sending (h : proc.Ini size rank) (dst : Nat) (msg : CtrlMsg)
    (hsent : proc'.ctrl_sent =
      Function.update proc.ctrl_sent dst (proc.ctrl_sent dst ++ [msg]))
    (hlog : proc'.log = proc.log)
    (htags : PoolsOk size rank proc'.mpi_tag proc'.heldPairs)
    (hids : PoolsOk size rank proc'.batch_id (proc'.batches.map idPair))
    (hother : ∀ j V, j ≠ dst → ViewOk rank j V proc.batches → ViewOk rank j V proc'.batches)
    (hself : ∀ V, ViewOk rank dst V proc.batches →
      (batchHandler rank).ok V msg ∧ ViewOk rank dst ((batchHandler rank).step V msg) proc'.batches)
    (hown : ∀ j t ty, proc'.user.pendingOwn rank j t ty = proc.user.pendingOwn rank j t ty)
    (hpeer : ∀ j t ty V, ViewOk rank dst V proc.batches →
      proc.user.pendingPeer rank j t ty =
        (if j = dst then announcedWrites t ty ((batchHandler rank).out V msg) else []) ++
          proc'.user.pendingPeer rank j t ty)
    (hops : ∀ batch ∈ msg.batch, batch.From size rank)
    (hplans : proc'.plans = proc.plans) (huser : proc'.user.Ok size rank proc.plans) :
    proc'.Ini size rank where
  tags := htags
  ids := hids
  view j := by
    rw [hsent]
    by_cases hj : j = dst
    · subst hj
      rw [Function.update_self, Handler.final_concat]
      exact (hself _ (h.view j)).2
    · rw [Function.update_of_ne hj]
      exact hother j _ hj (h.view j)
  valid j := by
    rw [hsent]
    by_cases hj : j = dst
    · subst hj
      rw [Function.update_self, Handler.valid_concat]
      exact ⟨h.valid j, (hself _ (h.view j)).1⟩
    · rw [Function.update_of_ne hj]
      exact h.valid j
  aligned j t ty := by
    rw [hlog, hown, h.aligned, hpeer j t ty _ (h.view dst), hsent]
    by_cases hj : j = dst
    · subst hj
      rw [Function.update_self, Handler.outputs_concat, announcedWrites_append, if_pos rfl,
        List.append_assoc]
    · rw [Function.update_of_ne hj, if_neg hj, List.nil_append]
  sent j m hm := by
    rw [hsent] at hm
    by_cases hj : j = dst
    · subst hj
      rw [Function.update_self] at hm
      rcases List.mem_append.mp hm with hm | hm
      · exact h.sent j m hm
      · rw [List.mem_singleton.mp hm]
        exact hops
    · rw [Function.update_of_ne hj] at hm
      exact h.sent j m hm
  own := hlog ▸ h.own
  plans := hplans ▸ h.plans
  user := hplans ▸ huser

/-! ### Creating a plan -/

theorem Ini.beginCreate (h : proc.Ini size rank) (huser : proc.user = .idle)
    (once_now : Bool) (writes : List Write) :
    { proc with
      next_plan := proc.next_plan + 1
      user := .creating once_now proc.next_plan writes none [] [] [] }.Ini size rank := by
  refine h.rephase ⟨rfl, rfl⟩ rfl rfl ?_ ?_ ?_ h.plans ?_
  · cases once_now <;> simp [heldPairs, huser, UserPhase.tagPairs]
  · simp [batches, huser, UserPhase.batches]
  · intro j t ty
    cases once_now <;> exact ⟨[], by simp [huser, UserPhase.pendingOwn],
      by simp [huser, UserPhase.pendingPeer]⟩
  · exact ⟨rfl, by simp, by simp, rfl, fun _ => ⟨rfl, by simp⟩, fun _ => ⟨rfl, by simp⟩⟩

theorem Ini.drawTag (h : proc.Ini size rank) (hsize : 0 < size) {once_now : Bool}
    {plan tag : Nat} {w : Write} {rest : List Write} {send_ops recv_ops : List MpiOp}
    {mpi_op : List Entry} {pool : IntPool}
    (huser : proc.user = .creating once_now plan (w :: rest) none send_ops recv_ops mpi_op)
    (hget : (proc.mpi_tag w.rmt_mem.rank).get size rank = .ok (tag, pool)) :
    ((proc.setTagPool w.rmt_mem.rank pool).enter
      (.creating once_now plan (w :: rest) (some tag) send_ops recv_ops mpi_op)).Ini
        size rank := by
  have hal := h.aligned
  have hids := h.ids
  have hview := h.view
  have hphase := h.user
  simp only [batches, huser] at hal hids hview hphase
  refine ⟨?_, hids, hview, h.valid, ?_, h.sent, h.own, h.plans, hphase⟩
  · have htags := h.tags.get hsize hget
    simpa only [heldPairs, huser, setTagPool, enter, UserPhase.tagPairs, drawnPair_none,
      drawnPair, List.nil_append, List.append_assoc, List.cons_append] using htags
  · intro j t ty
    have hal := hal j t ty
    cases once_now <;> exact hal

/-- The entry of a transfer that is used once returns its tag. -/
theorem releasing_once {w : Write} {plan index tag : Nat} {id : WriteId} :
    releasing [proc.entry (w.sendOp (freeOp ||| freeTag) plan index tag) .own id] =
      [(w.rmt_mem.rank, tag)] := by
  have hbit : hasBit (freeOp ||| freeTag) freeTag = true := by decide
  simp [releasing, Proc.entry, Write.sendOp, hbit, MpiOp.pair]

theorem Ini.drawn_mod (h : proc.Ini size rank) (hrank : rank < size) {once_now : Bool}
    {plan tag : Nat} {w : Write} {rest : List Write} {send_ops recv_ops : List MpiOp}
    {mpi_op : List Entry}
    (huser : proc.user =
      .creating once_now plan (w :: rest) (some tag) send_ops recv_ops mpi_op) :
    tag % size = rank := by
  have hmem : (w.rmt_mem.rank, tag) ∈ proc.heldPairs := by
    simp [heldPairs, huser, UserPhase.tagPairs, drawnPair]
  exact h.tags.mod_eq hrank hmem

theorem Ini.writeKept (h : proc.Ini size rank) (hrank : rank < size)
    {plan tag : Nat} {w : Write} {rest : List Write} {send_ops recv_ops : List MpiOp}
    {mpi_op : List Entry}
    (huser : proc.user = .creating false plan (w :: rest) (some tag) send_ops recv_ops mpi_op) :
    (proc.enter (.creating false plan rest none
      (send_ops ++ [w.sendOp (keepOp ||| keepReq) plan send_ops.length tag])
      (recv_ops ++ [w.recvOp (keepOp ||| keepReq) plan send_ops.length tag]) mpi_op)).Ini
        size rank := by
  have hphase := h.user
  simp only [huser, UserPhase.Ok] at hphase
  refine h.rephase ⟨rfl, rfl⟩ rfl rfl ?_ ?_ ?_ h.plans ?_
  · simp only [enter, heldPairs, huser, UserPhase.tagPairs, drawnPair, Bool.false_eq_true,
      if_false, List.map_append, List.map_cons, List.map_nil, List.nil_append,
      List.append_assoc, List.singleton_append]
    cases rest <;> exact List.perm_middle.symm
  · simp [enter, batches, huser, UserPhase.batches]
  · intro j t ty
    exact ⟨[], by simp [enter, huser, UserPhase.pendingOwn],
      by simp [enter, huser, UserPhase.pendingPeer]⟩
  · have hnext := hphase.write (h.drawn_mod hrank huser) w (keepOp ||| keepReq)
      (keepOp ||| keepReq) (by decide) [] (fun h => nomatch h) fun _ => ⟨rfl, by decide⟩
    rwa [List.append_nil] at hnext

theorem Ini.writeOnce (h : proc.Ini size rank) (hrank : rank < size)
    {plan tag : Nat} {w : Write} {rest : List Write} {send_ops recv_ops : List MpiOp}
    {mpi_op : List Entry}
    (huser : proc.user = .creating true plan (w :: rest) (some tag) send_ops recv_ops mpi_op) :
    ((proc.post (w.sendOp (freeOp ||| freeTag) plan send_ops.length tag) true
      ⟨rank, plan, 0, send_ops.length⟩).enter
      (.creating true plan rest none (send_ops ++ [w.sendOp 0 plan send_ops.length tag])
        (recv_ops ++ [w.recvOp freeOp plan send_ops.length tag])
        (mpi_op ++ [proc.entry (w.sendOp (freeOp ||| freeTag) plan send_ops.length tag) .own
          ⟨rank, plan, 0, send_ops.length⟩]))).Ini size rank := by
  have hphase := h.user
  simp only [huser, UserPhase.Ok] at hphase
  have htag := h.drawn_mod hrank huser
  have hal := h.aligned
  have hids := h.ids
  have hview := h.view
  simp only [batches, huser] at hal hids hview
  refine ⟨?_, hids, hview, h.valid, ?_, h.sent, ?_, h.plans, ?_⟩
  · refine h.tags.perm ?_
    simp only [enter, heldPairs, huser, UserPhase.tagPairs, drawnPair, if_true,
      List.append_assoc, releasing_append, releasing_once, List.singleton_append, post]
    cases rest <;> exact List.perm_middle.symm
  · intro j t ty
    have hal := hal j t ty
    have hnew := @selected_flip rank 0 j t ty
      [(w.sendOp 0 plan send_ops.length tag).key]
    simp only [UserPhase.pendingOwn, UserPhase.pendingPeer, List.append_nil] at hal
    simp only [enter, post, UserPhase.pendingOwn, UserPhase.pendingPeer, List.append_nil,
      ownWrites_append, List.map_append, selected_append, hal, List.append_assoc]
    congr 2
    refine Eq.trans (@ownWrites_post rank 0 _ _ _ _) hnew.symm
  · intro x hx hown
    rcases List.mem_append.mp hx with hx | hx
    · exact h.own x hx hown
    · rw [List.mem_singleton.mp hx]
      exact ⟨rfl, htag⟩
  · exact hphase.write htag w 0 freeOp (by decide)
      [proc.entry (w.sendOp (freeOp ||| freeTag) plan send_ops.length tag) .own
        ⟨rank, plan, 0, send_ops.length⟩]
      (fun _ => ⟨rfl, fun e he => by
        rw [List.mem_singleton.mp he]
        exact show hasBit (freeOp ||| freeTag) freeTag = true by decide⟩)
      (fun h => nomatch h)

theorem Ini.sortOps (h : proc.Ini size rank) {once_now : Bool} {plan : Nat}
    {send_ops recv_ops : List MpiOp} {mpi_op : List Entry} {sorted : List MpiOp}
    (huser : proc.user = .creating once_now plan [] none send_ops recv_ops mpi_op)
    (hperm : sorted.Perm recv_ops) :
    { proc with
      user := .announcing once_now plan send_ops (receivers sorted) [] mpi_op }.Ini
        size rank := by
  have hphase := h.user
  simp only [huser, UserPhase.Ok] at hphase
  have hsub : ∀ j, (tagsTo j (send_ops.map MpiOp.pair)).Nodup := by
    intro j
    have htags := h.tags.nodup j
    rw [heldPairs, huser, hphase.tagPairs] at htags
    simp only [List.append_assoc, tagsTo_append, drawnPair_none, List.nil_append] at htags
    exact (List.nodup_append.mp htags).1
  have hmirror : ∀ start j t ty, selected rank start j t ty (send_ops.map MpiOp.key) =
      selected rank start j t ty.flip (sorted.map MpiOp.key) := by
    intro start j t ty
    have hflip := @selected_flip rank start j t ty
      (send_ops.map MpiOp.key)
    rw [← hphase.mirror] at hflip
    rw [← hflip]
    refine selected_perm (hperm.symm.map _) ?_
    rw [hflip]
    exact Nat.le_trans length_selected_le (List.nodup_iff_count_le_one.mp (hsub j) t)
  refine h.rephase ⟨rfl, rfl⟩ rfl rfl ?_ ?_ ?_ h.plans ?_
  · simp only [heldPairs, huser, UserPhase.tagPairs, drawnPair_none, List.nil_append]
    exact List.Perm.refl _
  · simp [batches, huser, UserPhase.batches]
  · intro j t ty
    refine ⟨[], by simp [huser, UserPhase.pendingOwn], ?_⟩
    cases once_now with
    | false => simp [huser, UserPhase.pendingPeer]
    | true =>
        simp only [huser, UserPhase.pendingPeer, receivers_flatten, List.append_nil]
        rw [← hmirror, hphase.mirror, selected_flip]
  · exact hphase.announcing hperm hmirror

theorem announced_group {start dst : Nat} {group : List MpiOp}
    (hdst : ∀ op ∈ group, op.rank = dst) (j t : Nat) (ty : OpType) :
    selected rank start j t ty.flip (group.map MpiOp.key) =
      if j = dst then
        announcedWrites t ty ((addressed rank group).map (peerPost rank start))
      else [] := by
  by_cases hj : j = dst
  · rw [if_pos hj, announcedWrites_addressed (hj ▸ hdst)]
  · rw [if_neg hj]
    refine selected_eq_nil fun k hk => ?_
    obtain ⟨op, hop, rfl⟩ := List.mem_map.mp hk
    exact fun h => hj (h.symm.trans (hdst op hop))

theorem from_addressed {plan : Nat} {group : List MpiOp}
    (hops : ∀ op ∈ group, op.OfPlan size rank plan ∧ op.TagFree) :
    (⟨plan, addressed rank group⟩ : OpBatch).From size rank := by
  intro op hop
  obtain ⟨op', hmem, rfl⟩ := List.mem_map.mp hop
  obtain ⟨⟨hplan, htag⟩, hfree⟩ := hops op' hmem
  exact ⟨hfree, rfl, htag, hplan⟩

theorem Ini.announceOnce (h : proc.Ini size rank)
    {plan : Nat} {op : MpiOp} {ops send_ops : List MpiOp} {groups : List (List MpiOp)}
    {recv_batch : List RecvBatch} {mpi_op : List Entry}
    (huser : proc.user =
      .announcing true plan send_ops ((op :: ops) :: groups) recv_batch mpi_op) :
    ((proc.send op.rank (.executeOpBatch ⟨plan, addressed rank (op :: ops)⟩)).enter
      (.announcing true plan send_ops groups recv_batch (mpi_op ++ [ctrlEntry op.rank]))).Ini
        size rank := by
  have hphase := h.user
  simp only [huser, UserPhase.Ok] at hphase
  -- a plan that is used once keeps no batch
  have hnone := hphase.once rfl
  refine h.sending op.rank (.executeOpBatch ⟨plan, addressed rank (op :: ops)⟩) rfl rfl ?_ ?_
    ?_ ?_ ?_ ?_ (fun _ hb => Option.some.inj hb ▸ from_addressed hphase.next_ops) rfl ?_
  · have htags := h.tags
    simpa only [heldPairs, huser, UserPhase.tagPairs, send, enter, releasing_append,
      releasing_ctrlEntry, List.append_nil] using htags
  · have hids := h.ids
    simpa only [batches, huser, UserPhase.batches, send, enter] using hids
  · intro j V _ hV
    simpa only [batches, huser, UserPhase.batches, send, enter] using hV
  · intro V hV
    refine ⟨trivial, ?_⟩
    simp only [batches, huser, UserPhase.batches] at hV
    exact hV
  · intro j t ty
    rw [huser]
    rfl
  · intro j t ty V _
    simp only [huser, UserPhase.pendingPeer, List.flatten_cons, List.map_append,
      selected_append, batchHandler]
    rw [← announced_group hphase.next_rank j t ty]
    rfl
  · exact { hphase with
      groups_uniform := fun g hg => hphase.groups_uniform g (List.mem_cons_of_mem _ hg)
      peer_ops := fun op' hop' => hphase.peer_ops op' (by
        rw [hnone, List.flatten_cons]
        exact List.mem_append_right _ (List.mem_append_right _ (by
          rw [hnone] at hop'
          exact hop')))
      peer_nodup := by
        have hnodup := hphase.peer_nodup
        rw [hnone, List.flatten_cons, List.flatMap_nil, List.nil_append, List.map_append]
          at hnodup
        rw [hnone]
        exact (List.nodup_append.mp hnodup).2.1
      keep := fun h => nomatch h }

theorem Ini.announceKept (h : proc.Ini size rank) (hsize : 0 < size)
    {plan batch_id : Nat} {op : MpiOp} {ops send_ops : List MpiOp} {groups : List (List MpiOp)}
    {recv_batch : List RecvBatch} {mpi_op : List Entry} {pool : IntPool}
    (huser : proc.user =
      .announcing false plan send_ops ((op :: ops) :: groups) recv_batch mpi_op)
    (hget : (proc.batch_id op.rank).get size rank = .ok (batch_id, pool)) :
    (((proc.send op.rank
      (.createOpBatch batch_id ⟨plan, addressed rank (op :: ops)⟩)).setIdPool op.rank pool).enter
      (.announcing false plan send_ops groups (recv_batch ++ [⟨batch_id, op :: ops⟩])
        (mpi_op ++ [ctrlEntry op.rank]))).Ini size rank := by
  have hphase := h.user
  simp only [huser, UserPhase.Ok] at hphase
  obtain ⟨hrel, hfree, hbal⟩ := hphase.keep rfl
  have hids := h.ids.get hsize hget
  have hfresh := hids.fresh
  -- the new batch is listed behind the others of the plan
  have hbatches : ((plan, (⟨batch_id, op :: ops⟩ : RecvBatch)) :: proc.batches).Perm
      (((proc.send op.rank
        (.createOpBatch batch_id ⟨plan, addressed rank (op :: ops)⟩)).setIdPool op.rank
          pool).enter
        (.announcing false plan send_ops groups (recv_batch ++ [⟨batch_id, op :: ops⟩])
          (mpi_op ++ [ctrlEntry op.rank]))).batches := by
    simp only [batches, huser, UserPhase.batches, enter, setIdPool, send, List.map_append,
      List.append_assoc, List.map_cons, List.map_nil, List.singleton_append]
    exact List.perm_middle.symm
  refine h.sending op.rank (.createOpBatch batch_id ⟨plan, addressed rank (op :: ops)⟩) rfl
    rfl ?_ (hids.perm (hbatches.map idPair)) ?_ ?_ ?_ ?_
    (fun _ hb => Option.some.inj hb ▸ from_addressed hphase.next_ops) rfl ?_
  · have htags := h.tags
    simpa only [heldPairs, huser, UserPhase.tagPairs, send, enter, setIdPool,
      Bool.false_eq_true, if_false] using htags
  · intro j V hj hV
    exact ((ViewOk.cons_of_ne (Ne.symm hj)).mpr hV).perm hbatches
  · intro V hV
    exact ⟨hV.eq_none hfresh,
      (hV.insert (x := (plan, ⟨batch_id, op :: ops⟩)) rfl hfresh).perm hbatches⟩
  · intro j t ty
    rw [huser]
    rfl
  · intro j t ty V _
    simp [huser, UserPhase.pendingPeer, batchHandler, enter]
  · have hsame : (recv_batch ++ [(⟨batch_id, op :: ops⟩ : RecvBatch)]).flatMap (·.ops) ++
        groups.flatten = recv_batch.flatMap (·.ops) ++ ((op :: ops) :: groups).flatten := by
      simp
    exact {
      groups_uniform := fun g hg => hphase.groups_uniform g (List.mem_cons_of_mem _ hg)
      batches_uniform := by
        intro b hb
        rcases List.mem_append.mp hb with hb | hb
        · exact hphase.batches_uniform b hb
        · rw [List.mem_singleton.mp hb]
          exact hphase.groups_uniform _ (by simp)
      peer_ops := hsame ▸ hphase.peer_ops
      peer_nodup := hsame ▸ hphase.peer_nodup
      own_ops := hphase.own_ops
      own_nodup := hphase.own_nodup
      once := fun h => nomatch h
      keep := fun _ => ⟨by simp [hrel], hfree, by rw [hsame]; exact hbal⟩ }

theorem Ini.finishCreate (h : proc.Ini size rank) {once_now : Bool} {plan : Nat}
    {send_ops : List MpiOp} {recv_batch : List RecvBatch} {mpi_op : List Entry}
    (huser : proc.user = .announcing once_now plan send_ops [] recv_batch mpi_op) :
    (proc.finishCreate once_now plan send_ops recv_batch mpi_op).Ini size rank := by
  have hphase := h.user
  simp only [huser, UserPhase.Ok] at hphase
  cases once_now with
  -- used once: the entries take the tags along
  | true =>
      refine h.rephase ⟨rfl, rfl⟩ rfl rfl ?_ ?_ ?_ h.plans trivial
      · simp only [heldPairs, huser, Proc.finishCreate, append, UserPhase.tagPairs, if_true,
          releasing_append, List.nil_append, List.append_assoc]
        refine List.perm_append_comm.trans ?_
        simp only [List.append_assoc]
        exact ((List.perm_append_comm).append_left _).append_left _
      · simp [Proc.finishCreate, append, batches, huser, UserPhase.batches, hphase.once rfl]
      · intro j t ty
        exact ⟨[], by simp [Proc.finishCreate, huser, UserPhase.pendingOwn],
          by simp [Proc.finishCreate, huser, UserPhase.pendingPeer]⟩
  -- kept: the plan takes the operations, and with them the tags
  | false =>
      obtain ⟨hrel, hfree, hbal⟩ := hphase.keep rfl
      refine h.rephase ⟨rfl, rfl⟩ rfl rfl ?_ ?_ ?_ ?_ trivial
      · simp only [heldPairs, huser, Proc.finishCreate, append, UserPhase.tagPairs,
          Bool.false_eq_true, if_false, releasing_append, hrel, List.nil_append, List.append_nil,
          List.flatMap_cons, List.append_assoc]
        exact List.Perm.refl _
      · simp only [batches, huser, Proc.finishCreate, append, UserPhase.batches,
          Bool.false_eq_true, if_false, List.flatMap_cons, List.nil_append]
        exact List.Perm.refl _
      · intro j t ty
        exact ⟨[], by simp [Proc.finishCreate, huser, UserPhase.pendingOwn],
          by simp [Proc.finishCreate, huser, UserPhase.pendingPeer]⟩
      · intro p hp
        rcases List.mem_cons.mp hp with rfl | hp
        · simp only [List.flatten_nil, List.append_nil] at hbal
          exact {
            balanced := hbal
            uniform := hphase.batches_uniform
            own_ops := fun op hop => ⟨hphase.own_ops op hop, hfree op hop⟩
            peer_ops := fun op hop => hphase.peer_ops op (List.mem_append_left _ hop)
            own_nodup := hphase.own_nodup
            peer_nodup := by
              have hnodup := hphase.peer_nodup
              rwa [List.flatten_nil, List.append_nil] at hnodup }
        · exact h.plans p hp

end Proc

end Unr.Mpi
