import Unr.Mpi.ReqQueue

/-!
The removal of the completed entries against the one that keeps the order.

The daemon fills the places of completed entries with entries from the end. A
comment in it has another method, which moves every entry that is kept to the
front. Both keep the same entries, and both move a request and its operation
together.
-/

namespace Unr.Mpi

open Unr.Uru Unr.Logic

/-! ### The method that keeps the order -/

/-- The inner loop: completed entries are skipped. The result is what is left of
`idx`, and `j`. -/
def skipDone : List Nat → Nat → List Nat × Nat
  | [], j => ([], j)
  | hole :: rest, j => if hole = j then skipDone rest (j + 1) else (hole :: rest, j)

def ReqQue.moveTo (q : ReqQue) (i j : Nat) : Prog ReqQue := do
  let req ← fetch q.req_arr j
  let req_arr ← store q.req_arr i req
  let op ← fetch q.op_arr j
  let op_arr ← store q.op_arr i op
  return { q with req_arr := req_arr, op_arr := op_arr }

/-- Where the loop is: `i`, `j`, and the positions from `idx[k]` on. -/
structure Keeping where
  i : Nat
  j : Nat
  rest : List Nat
  q : ReqQue
  deriving Repr, DecidableEq

/-- A turn of the loop. It does nothing once `j` has reached the tail, as the
loop has ended then. -/
def keepTurn (s : Keeping) (_ : Nat) : Prog Keeping :=
  if s.j < s.q.arr_tail then
    match skipDone s.rest s.j with
    | (rest, j) =>
        if s.q.arr_tail ≤ j then .ok { s with j := j, rest := rest }
        else do
          let q ← s.q.moveTo s.i j
          return ⟨s.i + 1, j + 1, rest, q⟩
  else .ok s

def ReqQue.removeInOrder (q : ReqQue) (idx : List Nat) : Prog ReqQue := do
  let s ← (List.range q.arr_tail).foldlM keepTurn ⟨0, 0, idx, q⟩
  uruAssert (s.i = s.q.arr_tail - idx.length)
  return { s.q with arr_tail := s.q.arr_tail - idx.length }

/-! ### What it keeps -/

section

variable {idx rest : List Nat} {q : ReqQue} {j : Nat}

/-- The inner loop skips completed positions only, and stops at one that is
not. -/
theorem skipDone_spec (hsorted : rest.Pairwise (· < ·)) (hfrom : ∀ hole ∈ rest, j ≤ hole) :
    ∃ rest' j', skipDone rest j = (rest', j') ∧ j ≤ j' ∧ rest'.Pairwise (· < ·) ∧
      (∀ hole ∈ rest', j' < hole) ∧ ∀ p, p ∈ rest ↔ (j ≤ p ∧ p < j') ∨ p ∈ rest' := by
  induction rest generalizing j with
  | nil =>
      refine ⟨[], j, rfl, Nat.le_refl _, hsorted, fun _ hp => (nomatch hp), fun p => ?_⟩
      constructor
      · exact fun hp => nomatch hp
      · rintro (⟨hlow, hhigh⟩ | hp)
        · omega
        · exact nomatch hp
  | cons hole rest ih =>
      obtain ⟨hbefore, hrest⟩ := List.pairwise_cons.mp hsorted
      -- the walk passes over a run of holes and stops at the first entry to keep
      by_cases heq : hole = j
      · subst heq
        obtain ⟨rest', j', hskip, hle, hsorted', hfrom', hmem⟩ := ih hrest hbefore
        refine ⟨rest', j', by rw [skipDone, if_pos rfl, hskip], by omega, hsorted', hfrom',
          fun p => ?_⟩
        rw [List.mem_cons, hmem]
        constructor
        · rintro (rfl | ⟨hlow, hhigh⟩ | hp)
          · exact .inl ⟨Nat.le_refl _, hle⟩
          · exact .inl ⟨by omega, hhigh⟩
          · exact .inr hp
        · rintro (⟨hlow, hhigh⟩ | hp)
          · rcases Nat.eq_or_lt_of_le hlow with rfl | hlt
            · exact .inl rfl
            · exact .inr (.inl ⟨hlt, hhigh⟩)
          · exact .inr (.inr hp)
      · have hfirst := hfrom hole (List.mem_cons_self ..)
        refine ⟨hole :: rest, j, by rw [skipDone, if_neg heq], Nat.le_refl _, hsorted,
          fun p hp => ?_, fun p => ?_⟩
        · rcases List.mem_cons.mp hp with rfl | hp
          · omega
          · have := hbefore p hp
            omega
        · constructor
          · exact .inr
          · rintro (⟨hlow, hhigh⟩ | hp)
            · omega
            · exact hp

theorem ReqQue.moveTo_ok {i : Nat} {x : Option Nat × Option QueOp} (hx : q.pairs[j]? = some x)
    (hi : i ≤ j) :
    ∃ q', q.moveTo i j = .ok q' ∧ q'.arr_tail = q.arr_tail ∧ q'.pairs = q.pairs.set i x := by
  obtain ⟨req, op⟩ := x
  obtain ⟨hrequest, hslot⟩ := List.getElem?_zip_eq_some.mp hx
  have hreq := (List.getElem?_eq_some_iff.mp hrequest).1
  have hop := (List.getElem?_eq_some_iff.mp hslot).1
  refine ⟨{ q with req_arr := q.req_arr.set i req, op_arr := q.op_arr.set i op }, ?_, rfl,
    zip_set _ _ _ _ _⟩
  rw [ReqQue.moveTo, fetch_eq_ok.mpr hrequest, ok_bind, store_of_lt (by omega), ok_bind,
    fetch_eq_ok.mpr hslot, ok_bind, store_of_lt (by omega)]
  rfl

/-- The invariant of the loop: the entries before `i` are those that are kept of
the ones before `j`, and nothing has been written from `j` on. -/
structure Kept (idx : List Nat) (q : ReqQue) (turns : Nat) (s : Keeping) : Prop where
  arr_tail : s.q.arr_tail = q.arr_tail
  length : s.q.pairs.length = q.pairs.length
  i_le : s.i ≤ s.j
  j_le : s.j ≤ q.arr_tail
  progress : turns ≤ s.j ∨ s.j = q.arr_tail
  sorted : s.rest.Pairwise (· < ·)
  rest : ∀ p, p ∈ s.rest ↔ p ∈ idx ∧ s.j ≤ p
  front : s.q.pairs.take s.i = remaining q.pairs s.j idx
  behind : ∀ p, s.j ≤ p → s.q.pairs[p]? = q.pairs[p]?

theorem Kept.done {turns : Nat} {s : Keeping} (h : Kept idx q turns s) (hj : s.j = q.arr_tail) :
    Kept idx q (turns + 1) s :=
  ⟨h.arr_tail, h.length, h.i_le, h.j_le, .inr hj, h.sorted, h.rest, h.front, h.behind⟩

theorem Kept.skip (hidx : ∀ hole ∈ idx, hole < q.arr_tail) {turns : Nat} {s : Keeping}
    (h : Kept idx q turns s) (hj : s.j < q.arr_tail) :
    ∃ rest' j', skipDone s.rest s.j = (rest', j') ∧ j' ∉ idx ∧
      Kept idx q turns { s with j := j', rest := rest' } := by
  obtain ⟨rest', j', hskip, hle, hsorted', hfrom', hmem⟩ :=
    skipDone_spec h.sorted fun hole hhole => ((h.rest hole).mp hhole).2
  have hskipped : ∀ p, s.j ≤ p → p < j' → p ∈ idx := fun p hlow hhigh =>
    ((h.rest p).mp ((hmem p).mpr (.inl ⟨hlow, hhigh⟩))).1
  have hrest' : ∀ p, p ∈ rest' ↔ p ∈ idx ∧ j' ≤ p := by
    intro p
    constructor
    · intro hp
      exact ⟨((h.rest p).mp ((hmem p).mpr (.inr hp))).1, Nat.le_of_lt (hfrom' p hp)⟩
    · rintro ⟨hp, hlow⟩
      rcases (hmem p).mp ((h.rest p).mpr ⟨hp, hle.trans hlow⟩) with ⟨-, hhigh⟩ | hp
      · omega
      · exact hp
  have hj'_notin : j' ∉ idx := fun hp =>
    Nat.lt_irrefl _ (hfrom' j' ((hrest' j').mpr ⟨hp, Nat.le_refl _⟩))
  have hj'_le : j' ≤ q.arr_tail := by
    by_contra hgt
    have hlast := hidx _ (hskipped (j' - 1) (by omega) (by omega))
    omega
  refine ⟨rest', j', hskip, hj'_notin, h.arr_tail, h.length, h.i_le.trans hle, hj'_le, ?_,
    hsorted', hrest', ?_, fun p hp => h.behind p (hle.trans hp)⟩
  · exact h.progress.elim (fun hturns => .inl (hturns.trans hle)) fun htail => by omega
  · rw [remaining_skip hle hskipped]
    exact h.front

theorem Kept.move (hroomy : q.Roomy) {turns : Nat} {s : Keeping} (h : Kept idx q turns s)
    (hj : s.j < q.arr_tail) (hnotin : s.j ∉ idx) :
    ∃ q', s.q.moveTo s.i s.j = .ok q' ∧
      Kept idx q (turns + 1) ⟨s.i + 1, s.j + 1, s.rest, q'⟩ := by
  have hi_le := h.i_le
  have hx := List.getElem?_eq_getElem (Nat.lt_of_lt_of_le hj hroomy.le_pairs)
  have hx' := (h.behind s.j (Nat.le_refl _)).trans hx
  have hi_lt : s.i < s.q.pairs.length :=
    Nat.lt_of_le_of_lt hi_le (List.getElem?_eq_some_iff.mp hx').1
  obtain ⟨q', hmove, htail', hpairs'⟩ := s.q.moveTo_ok hx' hi_le
  refine ⟨q', hmove, htail'.trans h.arr_tail, ?_, Nat.succ_le_succ hi_le, hj, ?_, h.sorted,
    fun p => ?_, ?_, fun p hp => ?_⟩
  · dsimp only
    rw [hpairs', List.length_set, h.length]
  · exact .inl (h.progress.elim Nat.succ_le_succ fun htail => by omega)
  · dsimp only
    rw [h.rest]
    constructor
    · rintro ⟨hp, hlow⟩
      have hne : p ≠ s.j := fun heq => hnotin (heq ▸ hp)
      exact ⟨hp, by omega⟩
    · rintro ⟨hp, hlow⟩
      exact ⟨hp, by omega⟩
  · dsimp only
    rw [hpairs', List.take_add_one, List.take_set_of_le (Nat.le_refl _), h.front,
      List.getElem?_set_self hi_lt, remaining_keep hx hnotin]
    rfl
  · dsimp only at hp
    rw [hpairs', List.getElem?_set_ne (by omega)]
    exact h.behind p (by omega)

theorem Kept.turn (hroomy : q.Roomy) (hidx : ∀ hole ∈ idx, hole < q.arr_tail) {turns : Nat}
    {s : Keeping} (h : Kept idx q turns s) :
    ∃ s', keepTurn s turns = .ok s' ∧ Kept idx q (turns + 1) s' := by
  unfold keepTurn
  rw [h.arr_tail]
  by_cases hj : s.j < q.arr_tail
  · rw [if_pos hj]
    obtain ⟨rest', j', hskip, hnotin, hskipped⟩ := h.skip hidx hj
    simp only [hskip]
    by_cases hend : q.arr_tail ≤ j'
    · rw [if_pos hend]
      exact ⟨_, rfl, hskipped.done (Nat.le_antisymm hskipped.j_le hend)⟩
    · rw [if_neg hend]
      obtain ⟨q', hmove, hmoved⟩ := hskipped.move hroomy (Nat.lt_of_not_le hend) hnotin
      exact ⟨_, by rw [hmove]; rfl, hmoved⟩
  · rw [if_neg hj]
    exact ⟨s, rfl, h.done (Nat.le_antisymm h.j_le (Nat.le_of_not_lt hj))⟩

/-- It keeps the entries at the other positions, in their order. -/
theorem ReqQue.Roomy.removeInOrder (h : q.Roomy) (hsorted : idx.Pairwise (· < ·))
    (hidx : ∀ hole ∈ idx, hole < q.arr_tail) :
    ∃ q', q.removeInOrder idx = .ok q' ∧ q'.arr_tail + idx.length = q.arr_tail ∧
      q'.entries = remaining q.pairs q.arr_tail idx := by
  have hstart : Kept idx q 0 ⟨0, 0, idx, q⟩ :=
    ⟨rfl, rfl, Nat.le_refl _, Nat.zero_le _, .inl (Nat.le_refl _), hsorted, fun p => by simp, rfl,
      fun _ _ => rfl⟩
  obtain ⟨s, hrun, hlast⟩ :
      ∃ s, (List.range q.arr_tail).foldlM keepTurn ⟨0, 0, idx, q⟩ = .ok s ∧
      Kept idx q q.arr_tail s :=
    foldlM_range_ok (fun _ _ _ hs => Kept.turn h hidx hs) hstart
  have hnodup : idx.Nodup := hsorted.imp Nat.ne_of_lt
  have hj : s.j = q.arr_tail := by
    have := hlast.progress
    have := hlast.j_le
    omega
  have hfront := hlast.front
  rw [hj] at hfront
  have hcount := length_remaining hnodup hidx h.le_pairs
  have hi_le : s.i ≤ s.q.pairs.length := by
    rw [hlast.length]
    exact hlast.i_le.trans (hlast.j_le.trans h.le_pairs)
  have hi : s.i = s.q.arr_tail - idx.length := by
    have hlen := congrArg List.length hfront
    rw [List.length_take, Nat.min_eq_left hi_le] at hlen
    rw [hlast.arr_tail]
    omega
  refine ⟨{ s.q with arr_tail := s.q.arr_tail - idx.length }, ?_, ?_, ?_⟩
  · rw [ReqQue.removeInOrder, hrun, ok_bind, uruAssert_bind, if_pos hi]
    rfl
  · dsimp only
    rw [hlast.arr_tail]
    omega
  · rw [← hfront, hi]
    rfl

end

/-! ### The two methods -/

/-- For arrays of requests and operations that belong together, the removal ends
without an access behind the tail, takes as many entries off the tail as there
are completed ones, and keeps the others, each request with its operation. They
are those that the other method keeps in their order. -/
theorem removal_keeps_the_rest {q : ReqQue} (hreq : q.req_arr.length = q.arr_tail)
    (hop : q.op_arr.length = q.arr_tail) {idx : List Nat} (hsorted : idx.Pairwise (· < ·))
    {snapshot : Nat} (hsnapshot : snapshot ≤ q.arr_tail) (hidx : ∀ i ∈ idx, i < snapshot) :
    ∃ q' ordered, q.removeDone idx = .ok q' ∧ q.removeInOrder idx = .ok ordered ∧
      q'.arr_tail + idx.length = q.arr_tail ∧ ordered.arr_tail = q'.arr_tail ∧
      ordered.entries = remaining (q.req_arr.zip q.op_arr) q.arr_tail idx ∧
      q'.entries.Perm ordered.entries := by
  have hroomy : q.Roomy := ⟨hreq.ge, hop.ge⟩
  have hholes : ∀ hole ∈ idx, hole < q.arr_tail := fun hole hhole =>
    Nat.lt_of_lt_of_le (hidx hole hhole) hsnapshot
  obtain ⟨q', hrun, -, -, -, -, htail, hkept⟩ := hroomy.removeDone hsorted hholes
  obtain ⟨ordered, hrun', htail', hkept'⟩ := hroomy.removeInOrder hsorted hholes
  refine ⟨q', ordered, hrun, hrun', htail, by omega, hkept', ?_⟩
  rw [hkept']
  exact hkept

/-- A queue with operations that are all received, numbered by their
requests. -/
def receiving (n : Nat) : ReqQue :=
  let op (i : Nat) : QueOp := ⟨⟨0, 8, none, 0, 0, 0, 0, .opRecv, 0, i⟩, i⟩
  { arr_len := n
    arr_tail := n
    op_arr := (List.range n).map fun i => some (op i)
    req_arr := (List.range n).map some }

/-- Two of five entries are completed. The last one fills the place of the
first of them. -/
theorem removal_keeps_the_rest_five :
    ∃ q' ordered, (receiving 5).removeDone [1, 3] = .ok q' ∧
      (receiving 5).removeInOrder [1, 3] = .ok ordered ∧ q'.entries.Perm ordered.entries ∧
      q'.entries.map Prod.fst = [some 0, some 4, some 2] ∧
      ordered.entries.map Prod.fst = [some 0, some 2, some 4] := by
  obtain ⟨q', ordered, hrun, hrun', -, -, -, hperm⟩ :=
    removal_keeps_the_rest (show (receiving 5).req_arr.length = 5 from rfl)
      (show (receiving 5).op_arr.length = 5 from rfl)
      (by decide : [1, 3].Pairwise (· < ·)) (show 4 ≤ 5 by decide) (by decide)
  refine ⟨q', ordered, hrun, hrun', hperm, ?_, ?_⟩
  · cases hrun.symm.trans rfl
    rfl
  · cases hrun'.symm.trans rfl
    rfl

end Unr.Mpi
