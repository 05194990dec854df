import Unr.Logic.Buffer
import Unr.Mpi.BatchTable

/-!
The loops of `uri_mpi_rdma_plan_create` over the sorted array of operations.

One loop counts the receivers, by comparing every operation with the one before
it. The other one goes through the array with two indices, the beginning of a
group and its end. On a sorted array neither reads behind the end, and the
groups are the maximal runs of one rank.
-/

namespace Unr.Mpi

open Unr.Uru Unr.Logic

def uriMpiOpCmp (op1 op2 : MpiOp) : Int := op1.rank - op2.rank

/-- What `qsort` may make of an array. -/
def SortedBy (arr sorted : List MpiOp) : Prop :=
  sorted.Perm arr ∧ sorted.Pairwise fun op1 op2 => uriMpiOpCmp op1 op2 ≤ 0

section Loops

variable (arr : List MpiOp)

/-- The loop that counts the receivers. -/
def countReceivers : Prog Nat :=
  (List.range' 1 (arr.length - 1)).foldlM (fun num_receiver i => do
    let op ← fetch arr i
    let prev ← fetch arr (i - 1)
    return if op.rank ≠ prev.rank then num_receiver + 1 else num_receiver) 1

/-- `while (en < num_wrt && ...) en++;`, for at most `fuel` comparisons. -/
def runEnd (st : Nat) : Nat → Nat → Prog Nat
  | 0, _ => .error .diverges
  | fuel + 1, en =>
      if en < arr.length then do
        let op ← fetch arr en
        let first ← fetch arr st
        if op.rank = first.rank then runEnd st fuel (en + 1) else return en
      else .ok en

/-- The loop over the receivers, with what it does for the group from `st` to
`en`. -/
def groupLoop {β : Type} (body : Nat → Nat → Nat → Prog β) :
    Nat → Nat → Nat → Nat → Prog (List β)
  | 0, _, _, _ => .ok []
  | num_receiver + 1, i, st, en => do
      let en ← runEnd arr st arr.length en
      let x ← body i st en
      let xs ← groupLoop body num_receiver (i + 1) en (en + 1)
      return x :: xs

end Loops

/-! ### Counting -/

theorem SortedBy.pairwise {arr sorted : List MpiOp} (h : SortedBy arr sorted) :
    sorted.Pairwise (·.rank ≤ ·.rank) :=
  h.2.imp fun hcmp => by
    unfold uriMpiOpCmp at hcmp
    omega

theorem receivers_cons (op : MpiOp) (ops : List MpiOp) :
    ∃ g groups, receivers (op :: ops) = (op :: g) :: groups := by
  unfold receivers
  split
  · split <;> exact ⟨_, _, rfl⟩
  · exact ⟨_, _, rfl⟩

/-- The receivers of an array with one more operation in front. -/
theorem length_receivers_cons (op op' : MpiOp) (ops : List MpiOp) :
    (receivers (op :: op' :: ops)).length =
      (receivers (op' :: ops)).length + if op'.rank ≠ op.rank then 1 else 0 := by
  obtain ⟨g, groups, hrec⟩ := receivers_cons op' ops
  rw [receivers, hrec]
  by_cases hsame : op'.rank = op.rank <;> simp [hsame]

theorem countReceivers_eq {arr : List MpiOp} (hne : arr ≠ []) :
    countReceivers arr = .ok (receivers arr).length := by
  have key : ∀ (post pre : List MpiOp) (op : MpiOp) (acc : Nat), arr = pre ++ op :: post →
      (List.range' (pre.length + 1) post.length).foldlM (fun num_receiver i => do
        let op ← fetch arr i
        let prev ← fetch arr (i - 1)
        return if op.rank ≠ prev.rank then num_receiver + 1 else num_receiver) (acc + 1) =
        (.ok (acc + (receivers (op :: post)).length) : Prog Nat) := by
    intro post
    induction post with
    | nil =>
        intro pre op acc _
        rfl
    | cons op' post ih =>
        intro pre op acc harr
        have hnext : arr = (pre ++ [op]) ++ op' :: post := by rw [harr, List.append_cons]
        have hop : fetch arr (pre.length + 1) = .ok op' := by
          rw [fetch_eq_ok, hnext, List.getElem?_append_right (by simp)]
          simp
        have hprev : fetch arr (pre.length + 1 - 1) = .ok op := by
          rw [fetch_eq_ok, harr, Nat.add_sub_cancel, List.getElem?_append_right (Nat.le_refl _),
            Nat.sub_self]
          rfl
        rw [List.length_cons, List.range'_succ, List.foldlM_cons, hop, ok_bind, hprev, ok_bind,
          length_receivers_cons]
        have hrest := fun acc => ih (pre ++ [op]) op' acc hnext
        rw [List.length_append, List.length_singleton] at hrest
        by_cases hsame : op'.rank = op.rank
        · rw [if_neg (not_not_intro hsame), if_neg (not_not_intro hsame)]
          exact hrest acc
        · have hacc : acc + ((receivers (op' :: post)).length + 1) =
              acc + 1 + (receivers (op' :: post)).length := by omega
          rw [if_pos hsame, if_pos hsame, hacc]
          exact hrest (acc + 1)
  obtain ⟨op, post, rfl⟩ := List.exists_cons_of_ne_nil hne
  have hall := key post [] op 0 rfl
  rw [Nat.zero_add] at hall
  exact hall.trans (by rw [Nat.zero_add])

/-! ### Grouping -/

section Groups

variable {arr pre g post : List MpiOp} {op : MpiOp}

/-- The end of a group is found at the next operation for another process, or
at the end of the array. -/
theorem runEnd_eq {rest : List MpiOp} (harr : arr = pre ++ (op :: rest) ++ post)
    (hsame : ∀ op' ∈ rest, op'.rank = op.rank)
    (hnext : ∀ op' ∈ post.head?, op'.rank ≠ op.rank) (fuel : Nat) {k : Nat}
    (hk : k ≤ rest.length) (hfuel : rest.length < k + fuel) :
    runEnd arr pre.length fuel (pre.length + (k + 1)) = .ok (pre.length + (rest.length + 1)) := by
  induction fuel generalizing k with
  | zero => omega
  | succ fuel ih =>
      have hst : fetch arr pre.length = .ok op := by
        rw [fetch_eq_ok, harr, List.append_assoc, List.getElem?_append_right (Nat.le_refl _),
          Nat.sub_self]
        rfl
      rw [runEnd]
      rcases Nat.lt_or_eq_of_le hk with hlt | rfl
      · -- one more operation for the same process
        have hen : fetch arr (pre.length + (k + 1)) = .ok rest[k] := by
          rw [fetch_eq_ok, harr, List.append_assoc, List.getElem?_append_right (by omega),
            Nat.add_sub_cancel_left, List.getElem?_append_left (by simpa using hlt),
            List.getElem?_cons_succ, List.getElem?_eq_getElem hlt]
        have hinside : pre.length + (k + 1) < arr.length := by
          rw [harr]
          simp only [List.length_append, List.length_cons]
          omega
        rw [if_pos hinside, hen, ok_bind, hst, ok_bind,
          if_pos (hsame _ (List.getElem_mem hlt)), Nat.add_assoc]
        exact ih (by omega) (by omega)
      · cases post with
        | nil =>
            rw [if_neg]
            rw [harr]
            simp
        | cons op' post =>
            have hen : fetch arr (pre.length + (rest.length + 1)) = .ok op' := by
              rw [fetch_eq_ok, harr, List.getElem?_append_right (by simp)]
              simp
            have hinside : pre.length + (rest.length + 1) < arr.length := by
              rw [harr]
              simp
            rw [if_pos hinside, hen, ok_bind, hst, ok_bind, if_neg (hnext op' rfl)]
            rfl

theorem groupLoop_eq {β : Type} {body : Nat → Nat → Nat → Prog β} {f : Nat → List MpiOp → β}
    (groups : List (List MpiOp)) (huniform : ∀ g ∈ groups, Uniform g)
    (hranks : (groups.map groupRank).Pairwise (· < ·))
    (hbody : ∀ i pre g post, arr = pre ++ g ++ post → g ∈ groups →
      body i pre.length (pre.length + g.length) = .ok (f i g))
    (harr : arr = pre ++ groups.flatten) (i : Nat) :
    groupLoop arr body groups.length i pre.length (pre.length + 1) =
      .ok ((groups.zipIdx i).map fun x => f x.2 x.1) := by
  induction groups generalizing pre i with
  | nil => rfl
  | cons g groups ih =>
      obtain ⟨op, rest, rfl, hsame⟩ := huniform g (by simp)
      have hsplit : arr = pre ++ (op :: rest) ++ groups.flatten := by
        rw [harr, List.flatten_cons, List.append_assoc]
      have hnext : ∀ op' ∈ groups.flatten.head?, op'.rank ≠ op.rank := by
        intro op' hop'
        cases groups with
        | nil => exact nomatch hop'
        | cons g' groups =>
            obtain ⟨first, rest', rfl, -⟩ := huniform g' (by simp)
            have hlt : op.rank < first.rank :=
              (List.pairwise_cons.mp hranks).1 _ (by simp [groupRank])
            obtain rfl : first = op' := Option.some.inj hop'
            omega
      have hlen : rest.length < 0 + arr.length := by
        rw [hsplit]
        simp only [List.length_append, List.length_cons]
        omega
      have hend := runEnd_eq hsplit hsame hnext arr.length (Nat.zero_le _) hlen
      have hrest : groupLoop arr body groups.length (i + 1) (pre ++ (op :: rest)).length
          ((pre ++ (op :: rest)).length + 1) =
          .ok ((groups.zipIdx (i + 1)).map fun x => f x.2 x.1) :=
        ih (fun g hg => huniform g (by simp [hg])) (List.pairwise_cons.mp hranks).2
          (fun i pre g post hpre hg => hbody i pre g post hpre (by simp [hg])) hsplit (i + 1)
      rw [List.length_append, List.length_cons] at hrest
      have hfirst := hbody i pre (op :: rest) _ hsplit (by simp)
      rw [List.length_cons] at hfirst
      rw [List.length_cons, groupLoop, hend, ok_bind, hfirst, ok_bind, hrest, ok_bind]
      rfl

end Groups

end Unr.Mpi
