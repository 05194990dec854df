import Unr.Mpi.Draws

/-!
No tag and no batch id is lost.

Every number that a pool has handed out is in use or back on its stack. What is
in use can therefore be read off the pools alone: the numbers below `max` that
are not on the stack.
-/

namespace Unr.Mpi

open Unr.Uru Unr.Logic

/-! ### One pool -/

def IntPool.inUse (size rank : Nat) (pool : IntPool) : List Nat :=
  ((List.range' 1 (pool.max - 1)).filter fun k => k ∉ pool.recycle_stack).map (· * size + rank)

/-- The numbers handed out so far are those in use and those on the stack. -/
structure IntPool.Exact (size rank : Nat) (pool : IntPool) (held : List Nat) : Prop where
  pos : 0 < pool.max
  perm : (held ++ pool.recycle_stack.map (· * size + rank)).Perm
    ((List.range' 1 (pool.max - 1)).map (· * size + rank))

namespace IntPool

variable {size rank : Nat} {pool pool' : IntPool} {held held' : List Nat} {num : Nat}

theorem exact_init : IntPool.init.Exact size rank [] := ⟨Nat.one_pos, List.Perm.refl _⟩

theorem Exact.of_perm (h : pool.Exact size rank held) (hperm : held.Perm held') :
    pool.Exact size rank held' :=
  ⟨h.pos, (hperm.symm.append_right _).trans h.perm⟩

theorem Exact.get (h : pool.Exact size rank held)
    (hget : pool.get size rank = .ok (num, pool')) : pool'.Exact size rank (num :: held) := by
  obtain ⟨max, stack⟩ := pool
  obtain ⟨hpos, hperm⟩ := h
  cases stack with
  | cons ret stack =>
      simp only [IntPool.get, bind_eq_ok, pure_eq_ok, Prod.mk.injEq] at hget
      obtain ⟨-, -, rfl, rfl⟩ := hget
      exact ⟨hpos, List.perm_middle.symm.trans hperm⟩
  | nil =>
      simp only [IntPool.get, bind_eq_ok, pure_eq_ok, Prod.mk.injEq] at hget
      obtain ⟨-, -, -, -, rfl, rfl⟩ := hget
      obtain ⟨n, rfl⟩ : ∃ n, max = n + 1 := ⟨max - 1, by simp only at hpos; omega⟩
      refine ⟨Nat.succ_pos _, ?_⟩
      simp only [List.map_nil, List.append_nil, Nat.add_sub_cancel] at hperm ⊢
      rw [List.range'_1_concat, List.map_append, Nat.add_comm 1 n]
      exact (hperm.cons _).trans (List.perm_append_singleton _ _).symm

theorem Exact.put (h : pool.Exact size rank (num :: held)) (hsize : 0 < size)
    (hput : pool.put size rank num = .ok pool') : pool'.Exact size rank held := by
  simp only [IntPool.put, bind_eq_ok, pure_eq_ok] at hput
  obtain ⟨-, -, rfl⟩ := hput
  have hmem : num ∈ (List.range' 1 (pool.max - 1)).map (· * size + rank) :=
    h.perm.mem_iff.mp (by simp)
  obtain ⟨k, -, hnum⟩ := List.mem_map.mp hmem
  have hdiv : (num - rank) / size = k := by
    rw [← hnum, Nat.add_sub_cancel, Nat.mul_div_cancel _ hsize]
  refine ⟨h.pos, ?_⟩
  rw [List.map_cons, hdiv, hnum]
  exact List.perm_middle.trans h.perm

theorem Exact.held_perm (h : pool.Exact size rank held) (hsize : 0 < size) :
    held.Perm (pool.inUse size rank) := by
  have hinj : Function.Injective fun k : Nat => k * size + rank :=
    fun _ _ heq => Nat.eq_of_mul_eq_mul_right hsize (Nat.add_right_cancel heq)
  have hnodup : (held ++ pool.recycle_stack.map (· * size + rank)).Nodup :=
    h.perm.nodup_iff.mpr ((List.nodup_range' ..).map hinj)
  have hdisjoint := (List.nodup_append.mp hnodup).2.2
  have hfilter := h.perm.filter fun num => num ∉ pool.recycle_stack.map (· * size + rank)
  rw [List.filter_append, List.filter_eq_self.mpr, List.filter_eq_nil_iff.mpr, List.append_nil,
    List.filter_map] at hfilter
  · have hsame : (List.range' 1 (pool.max - 1)).filter
        ((fun num => decide (num ∉ pool.recycle_stack.map (· * size + rank))) ∘
          (· * size + rank)) =
        (List.range' 1 (pool.max - 1)).filter fun k => k ∉ pool.recycle_stack :=
      List.filter_congr fun k _ => by
        simp only [Function.comp_apply, List.mem_map_of_injective hinj]
    rw [hsame] at hfilter
    exact hfilter
  · intro num hnum
    simpa using hnum
  · intro num hnum
    simp only [decide_eq_true_eq]
    exact fun hmem => hdisjoint num hnum num hmem rfl

end IntPool

/-! ### The pools of a process -/

/-- Every number that one of the pools has handed out is held or back. -/
def PoolsExact (size rank : Nat) (pools : Nat → IntPool) (held : List (Nat × Nat)) : Prop :=
  ∀ j, (pools j).Exact size rank (tagsTo j held)

/-- What a step does to pools and to the numbers held: it draws one, returns
one, or does neither. -/
inductive PoolUse (size rank : Nat) (pools : Nat → IntPool) (held : List (Nat × Nat)) :
    (Nat → IntPool) → List (Nat × Nat) → Prop
  | same {held' : List (Nat × Nat)} (hperm : held.Perm held') :
      PoolUse size rank pools held pools held'
  | get {dst num : Nat} {pool : IntPool} {held' : List (Nat × Nat)}
      (hget : (pools dst).get size rank = .ok (num, pool))
      (hperm : ((dst, num) :: held).Perm held') :
      PoolUse size rank pools held (Function.update pools dst pool) held'
  | put {dst num : Nat} {pool : IntPool} {held' : List (Nat × Nat)}
      (hput : (pools dst).put size rank num = .ok pool)
      (hperm : held.Perm ((dst, num) :: held')) :
      PoolUse size rank pools held (Function.update pools dst pool) held'

theorem PoolsExact.use {size rank : Nat} {pools pools' : Nat → IntPool}
    {held held' : List (Nat × Nat)} (h : PoolsExact size rank pools held) (hsize : 0 < size)
    (huse : PoolUse size rank pools held pools' held') : PoolsExact size rank pools' held' := by
  intro j
  cases huse with
  | same hperm => exact (h j).of_perm (tagsTo_perm hperm)
  | @get dst num pool _ hget hperm =>
      have hj := tagsTo_perm (j := j) hperm
      rw [tagsTo_cons] at hj
      by_cases hdst : j = dst
      · subst hdst
        rw [if_pos rfl] at hj
        rw [Function.update_self]
        exact ((h j).get hget).of_perm hj
      · rw [if_neg (Ne.symm hdst)] at hj
        rw [Function.update_of_ne hdst]
        exact (h j).of_perm hj
  | @put dst num pool _ hput hperm =>
      have hj := tagsTo_perm (j := j) hperm
      rw [tagsTo_cons] at hj
      by_cases hdst : j = dst
      · subst hdst
        rw [if_pos rfl] at hj
        rw [Function.update_self]
        exact ((h j).of_perm hj).put hsize hput
      · rw [if_neg (Ne.symm hdst)] at hj
        rw [Function.update_of_ne hdst]
        exact (h j).of_perm hj

theorem PoolStep.use {size rank : Nat} {pools pools' : Nat → IntPool} {held held' : List Draw}
    {evs : List (LeaseEvent Draw)} (h : PoolStep size rank pools held evs pools' held') :
    PoolUse size rank pools (held.map Draw.pair) pools' (held'.map Draw.pair) := by
  cases h with
  | same hperm => exact .same (hperm.map _)
  | get hget hperm => exact .get hget (hperm.map Draw.pair)
  | put hput hperm => exact .put hput (hperm.map Draw.pair)

section Moves

variable {w : World} {rank : Nat} {proc proc' : Proc} {a : ProcAct}

theorem Move.tagUse (hmove : Move w rank proc a proc') (h : proc.Ini w.size rank)
    (hfree : ∀ op ∈ proc.daemon.ops, op.TagFree) :
    PoolUse w.size rank proc.mpi_tag proc.heldPairs proc'.mpi_tag proc'.heldPairs := by
  obtain ⟨evs, -, hstep⟩ := hmove.tagEffect h hfree
  simpa only [Proc.heldTags_pair] using hstep.use

theorem Move.idUse (hmove : Move w rank proc a proc') (h : proc.Ini w.size rank) :
    PoolUse w.size rank proc.batch_id (proc.batches.map idPair) proc'.batch_id
      (proc'.batches.map idPair) := by
  obtain ⟨evs, -, hstep⟩ := hmove.idEffect h
  simpa only [Proc.heldIds_pair] using hstep.use

end Moves

/-! ### Runs -/

/-- A property of the pools of a process and of the numbers in use: it holds
when the channel is opened, and whatever a step does to pools keeps it. -/
theorem World.pools_run {C : World → Act → Prop} {size : Nat} {flags : Nat → Nat → UruFlag}
    {w : World} {P : Nat → Nat → (Nat → IntPool) → List (Nat × Nat) → Prop}
    (hinit : ∀ size rank, P size rank (fun _ => .init) [])
    (huse : ∀ {size rank pools held pools' held'}, 0 < size → P size rank pools held →
      PoolUse size rank pools held pools' held' → P size rank pools' held')
    (hrun : Run World.step C (World.init size flags) w) (p : Nat) :
    P w.size p (w.procs p).mpi_tag (w.procs p).heldPairs ∧
      P w.size p (w.procs p).batch_id ((w.procs p).batches.map idPair) := by
  refine hrun.invariant (I := fun w => ∀ p, P w.size p (w.procs p).mpi_tag (w.procs p).heldPairs ∧
    P w.size p (w.procs p).batch_id ((w.procs p).batches.map idPair)) ?_ ?_ p
  · exact fun p => ⟨hinit _ p, hinit _ p⟩
  intro w a w' hrun ih _ hstep p
  have hinv := World.inv_run hrun
  have hset : ∀ user, Proc.Quiet user → (∀ p < w.size, Proc.Quiet (w.procs p).user) →
      P w.size p ((w.setUser user).procs p).mpi_tag ((w.setUser user).procs p).heldPairs ∧
        P w.size p ((w.setUser user).procs p).batch_id
          (((w.setUser user).procs p).batches.map idPair) := by
    intro user hquiet hall
    by_cases hp : p < w.size
    · have hsame := ih p
      have hold := hall p hp
      simp only [World.setUser, hp, if_true]
      simp only [Proc.heldPairs, Proc.batches, hold.tagPairs, hold.batches] at hsame
      simp only [Proc.heldPairs, Proc.batches, hquiet.tagPairs, hquiet.batches]
      exact hsame
    · simp only [World.setUser, hp, if_false]
      exact ih p
  rcases step_cases hstep with ⟨rank, pa, proc', rfl, hrank, -, hmove, rfl⟩ | ⟨rfl, hall, rfl⟩ |
    ⟨rfl, hall, rfl⟩
  · by_cases hp : p = rank
    · subst hp
      have hsize := Nat.zero_lt_of_lt hrank
      simp only [Function.update_self]
      exact ⟨huse hsize (ih p).1 (hmove.tagUse (hinv.ini p) (hinv.daemon p).tagFree),
        huse hsize (ih p).2 (hmove.idUse (hinv.ini p))⟩
    · simp only [Function.update_of_ne hp]
      exact ih p
  · exact hset _ Proc.quiet_finalizing fun p hp => (hall p hp).1 ▸ Proc.quiet_idle
  · exact hset _ (Proc.quiet_calling _ _) fun p hp => (resting_of_contribution (hall p hp).1).quiet

structure Proc.NumbersExact (size rank : Nat) (proc : Proc) : Prop where
  tags : PoolsExact size rank proc.mpi_tag proc.heldPairs
  ids : PoolsExact size rank proc.batch_id (proc.batches.map idPair)

/-- In every run no number is lost. -/
theorem World.numbers_run {C : World → Act → Prop} {size : Nat} {flags : Nat → Nat → UruFlag}
    {w : World} (hrun : Run World.step C (World.init size flags) w) (p : Nat) :
    (w.procs p).NumbersExact w.size p := by
  obtain ⟨htags, hids⟩ := World.pools_run (P := PoolsExact)
    (fun _ _ _ => IntPool.exact_init) (fun hsize h huse => h.use hsize huse) hrun p
  exact ⟨htags, hids⟩

end Unr.Mpi
