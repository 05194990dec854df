import Unr.Mpi.Types
import Unr.Logic.SwapRemove
import Unr.Logic.Loop
import Unr.Logic.Transition

/-!
The request queue of the MPI channel, one access at a time.

Calls of `uri_mpi_req_que_app` enter operations under the lock of the queue.
An iteration of the daemon copies the entries that are there when it reads the
tail, tests the copy, applies the effects of what is complete by positions of
the copy, and removes these positions from the queue, which may have grown in
the meantime.
-/

namespace Unr.Mpi

open Unr.Uru Unr.Logic

/-! ### The arrays -/

/-- An operation given to the queue, and its `mpi_req`. -/
structure QueOp where
  op : MpiOp
  mpi_req : Nat
  deriving Repr, DecidableEq

/-- `mpi_req` of `uri_mpi_channel_t`. -/
structure ReqQue where
  arr_len : Nat
  arr_tail : Nat
  op_arr : List (Option QueOp)
  req_arr : List (Option Nat)
  deriving Repr, DecidableEq

def ReqQue.init : ReqQue where
  arr_len := 1024
  arr_tail := 0
  op_arr := List.replicate 1024 none
  req_arr := List.replicate 1024 none

/-- `memcpy` of the first `n` entries. -/
def copyFirst {α : Type} (xs : List α) (n : Nat) : Prog (List α) :=
  if n ≤ xs.length then .ok (xs.take n) else .error .undefined

/-- `uri_mpi_req_que_app`, before its loop. -/
def ReqQue.grow (q : ReqQue) (num_op : Nat) : ReqQue :=
  if q.arr_tail + num_op > q.arr_len then
    let new_size := (q.arr_tail + num_op) * 2
    { q with
      req_arr := q.req_arr ++ List.replicate (new_size - q.arr_len) none
      op_arr := q.op_arr ++ List.replicate (new_size - q.arr_len) none
      arr_len := new_size }
  else q

/-- A turn of the loop of `uri_mpi_req_que_app`. -/
def ReqQue.push (q : ReqQue) (op : QueOp) : Prog ReqQue := do
  let op_arr ← store q.op_arr q.arr_tail (some op)
  let req_arr ← store q.req_arr q.arr_tail (some op.mpi_req)
  return { q with op_arr := op_arr, req_arr := req_arr, arr_tail := q.arr_tail + 1 }

/-- The inner loop of the removal: completed entries at the end are dropped.
The result is `idx_count` and `arr_tail`. -/
def dropDone (idx : List Nat) (i : Nat) : Nat → Nat → Nat × Nat
  | 0, arr_tail => (0, arr_tail)
  | idx_count + 1, arr_tail =>
      if i < idx_count + 1 ∧ (idx[idx_count]?).map (· + 1) = some arr_tail then
        dropDone idx i idx_count (arr_tail - 1)
      else (idx_count + 1, arr_tail)

/-- The last entry is moved to position `hole`. -/
def ReqQue.moveLast (q : ReqQue) (hole : Nat) : Prog ReqQue := do
  let arr_tail := q.arr_tail - 1
  let req ← fetch q.req_arr arr_tail
  let req_arr ← store q.req_arr hole req
  let op ← fetch q.op_arr arr_tail
  let op_arr ← store q.op_arr hole op
  return { q with req_arr := req_arr, op_arr := op_arr, arr_tail := arr_tail }

/-- A turn of the loop that removes the completed entries. It does nothing
once `i` has reached `idx_count`, as the loop has ended then. -/
def removeTurn (idx : List Nat) (acc : Nat × ReqQue) (i : Nat) : Prog (Nat × ReqQue) :=
  if i < acc.1 then do
    let hole ← fetch idx i
    let _ ← fetch acc.2.op_arr hole
    let (idx_count, arr_tail) := dropDone idx i acc.1 acc.2.arr_tail
    let q := { acc.2 with arr_tail := arr_tail }
    if i < idx_count then do
      let q ← q.moveLast hole
      return (idx_count, q)
    else return (idx_count, q)
  else return acc

def ReqQue.removeDone (q : ReqQue) (idx : List Nat) : Prog ReqQue := do
  let (_, q) ← (List.range idx.length).foldlM (removeTurn idx) (idx.length, q)
  return q

/-! ### The operations in the queue -/

def ReqQue.contents (q : ReqQue) : List QueOp := (q.op_arr.take q.arr_tail).reduceOption

/-- The entries in use are operations, each with its request. -/
structure ReqQue.Ok (q : ReqQue) : Prop where
  op_len : q.op_arr.length = q.arr_len
  req_len : q.req_arr.length = q.arr_len
  tail_le : q.arr_tail ≤ q.arr_len
  entry : ∀ p < q.arr_tail, ∃ op : QueOp,
    q.op_arr[p]? = some (some op) ∧ q.req_arr[p]? = some (some op.mpi_req)

theorem ReqQue.ok_init : ReqQue.init.Ok :=
  ⟨List.length_replicate, List.length_replicate, Nat.zero_le _, fun _ hp => nomatch hp⟩

section Append

variable {q : ReqQue}

theorem ReqQue.Ok.grow (h : q.Ok) (num_op : Nat) :
    (q.grow num_op).Ok ∧ (q.grow num_op).arr_tail = q.arr_tail ∧
      (q.grow num_op).contents = q.contents ∧
      q.arr_tail + num_op ≤ (q.grow num_op).arr_len ∧
      ∀ n ≤ q.arr_tail, (q.grow num_op).op_arr.take n = q.op_arr.take n := by
  unfold ReqQue.grow
  split
  · have hop := h.op_len
    have hreq := h.req_len
    have htail := h.tail_le
    have htake : ∀ n ≤ q.arr_tail, (q.op_arr ++ List.replicate
        ((q.arr_tail + num_op) * 2 - q.arr_len) none).take n = q.op_arr.take n := fun n hn =>
      List.take_append_of_le_length (by omega)
    refine ⟨⟨?_, ?_, ?_, fun p hp => ?_⟩, rfl, ?_, ?_, htake⟩
    · simp only [List.length_append, List.length_replicate]
      omega
    · simp only [List.length_append, List.length_replicate]
      omega
    · simp only
      omega
    · have hp' : p < q.arr_tail := hp
      obtain ⟨op, hslot, hrequest⟩ := h.entry p hp'
      refine ⟨op, ?_, ?_⟩
      · simp only
        rw [List.getElem?_append_left (by omega), hslot]
      · simp only
        rw [List.getElem?_append_left (by omega), hrequest]
    · simp only [ReqQue.contents, htake q.arr_tail (Nat.le_refl _)]
    · simp only
      omega
  · exact ⟨h, rfl, rfl, by omega, fun _ _ => rfl⟩

theorem ReqQue.Ok.push (h : q.Ok) (hroom : q.arr_tail < q.arr_len) (op : QueOp) :
    ∃ q', q.push op = .ok q' ∧ q'.Ok ∧ q'.arr_tail = q.arr_tail + 1 ∧ q'.arr_len = q.arr_len ∧
      q'.contents = q.contents ++ [op] ∧
      ∀ n ≤ q.arr_tail, q'.op_arr.take n = q.op_arr.take n := by
  have hop : q.arr_tail < q.op_arr.length := h.op_len ▸ hroom
  have hreq : q.arr_tail < q.req_arr.length := h.req_len ▸ hroom
  have htake : ∀ n ≤ q.arr_tail,
      (q.op_arr.set q.arr_tail (some op)).take n = q.op_arr.take n := fun n hn =>
    List.take_set_of_le hn
  refine ⟨{ q with
      op_arr := q.op_arr.set q.arr_tail (some op)
      req_arr := q.req_arr.set q.arr_tail (some op.mpi_req)
      arr_tail := q.arr_tail + 1 }, ?_, ⟨?_, ?_, hroom, fun p hp => ?_⟩, rfl, rfl, ?_, htake⟩
  · rw [ReqQue.push, store_of_lt hop, store_of_lt hreq]
    rfl
  · simpa using h.op_len
  · simpa using h.req_len
  · by_cases hlast : p = q.arr_tail
    · subst hlast
      exact ⟨op, List.getElem?_set_self hop, List.getElem?_set_self hreq⟩
    · obtain ⟨op', hslot, hrequest⟩ := h.entry p (by simp only at hp; omega)
      refine ⟨op', ?_, ?_⟩
      · simpa only [List.getElem?_set_ne (Ne.symm hlast)] using hslot
      · simpa only [List.getElem?_set_ne (Ne.symm hlast)] using hrequest
  · simp only [ReqQue.contents, List.take_add_one, htake q.arr_tail (Nat.le_refl _),
      List.getElem?_set_self hop, Option.toList_some, List.reduceOption_append]
    rfl

end Append

/-! ### The removal -/

section Remove

variable {idx : List Nat} {i : Nat}

/-- The positions that are still to be removed before turn `i`. -/
def holes (idx : List Nat) (i idx_count : Nat) : List Nat := (idx.take idx_count).drop i

theorem holes_eq_nil {idx_count : Nat} (h : idx_count ≤ i) : holes idx i idx_count = [] :=
  List.drop_eq_nil_of_le ((List.length_take_le _ _).trans h)

theorem holes_cons {idx_count : Nat} (hi : i < idx_count) (hlen : idx_count ≤ idx.length) :
    ∃ hole, idx[i]? = some hole ∧ holes idx i idx_count = hole :: holes idx (i + 1) idx_count := by
  have hlt : i < (idx.take idx_count).length := by
    rw [List.length_take]
    omega
  refine ⟨idx[i], List.getElem?_eq_getElem (by omega), ?_⟩
  rw [holes, List.drop_eq_getElem_cons hlt, List.getElem_take]
  rfl

theorem holes_concat {idx_count last : Nat} (hi : i ≤ idx_count)
    (hlast : idx[idx_count]? = some last) :
    holes idx i (idx_count + 1) = holes idx i idx_count ++ [last] := by
  have hlen := (List.getElem?_eq_some_iff.mp hlast).1
  rw [holes, List.take_add_one, hlast, List.drop_append_of_le_length]
  · rfl
  · rw [List.length_take]
    omega

theorem holes_sorted (hsorted : idx.Pairwise (· < ·)) (idx_count : Nat) :
    (holes idx i idx_count).Pairwise (· < ·) :=
  hsorted.sublist ((List.drop_sublist _ _).trans (List.take_sublist _ _))

/-- The inner loop drops holes only, and stops at an entry that is kept. -/
theorem dropDone_spec {α : Type} (xs : List α) (hsorted : idx.Pairwise (· < ·))
    {idx_count arr_tail : Nat} (hcount : idx_count ≤ idx.length)
    (hholes : ∀ hole ∈ holes idx i idx_count, hole < arr_tail) {idx_count' arr_tail' : Nat}
    (h : dropDone idx i idx_count arr_tail = (idx_count', arr_tail')) :
    idx_count' ≤ idx_count ∧ arr_tail' ≤ arr_tail ∧
      remaining xs arr_tail' (holes idx i idx_count') =
        remaining xs arr_tail (holes idx i idx_count) ∧
      (∀ hole ∈ holes idx i idx_count', hole < arr_tail') ∧
      (i < idx_count' → ∀ hole ∈ holes idx i idx_count', hole + 1 < arr_tail') := by
  induction idx_count generalizing arr_tail with
  | zero =>
      cases h
      exact ⟨Nat.le_refl _, Nat.le_refl _, rfl, hholes, fun hi => by omega⟩
  | succ idx_count ih =>
      obtain ⟨last, hlast⟩ : ∃ last, idx[idx_count]? = some last :=
        ⟨_, List.getElem?_eq_getElem (by omega)⟩
      rw [dropDone] at h
      split at h
      · rename_i hdrop
        obtain ⟨hi, htail⟩ := hdrop
        rw [hlast, Option.map_some, Option.some.injEq] at htail
        subst htail
        -- the last hole is the last entry: both go
        have hsplit := holes_concat (Nat.le_of_lt_succ hi) hlast
        have hbefore : ∀ hole ∈ holes idx i idx_count, hole < last := fun hole hhole =>
          (List.pairwise_append.mp (hsplit ▸ holes_sorted hsorted (idx_count + 1))).2.2
            hole hhole last (List.mem_singleton_self _)
        obtain ⟨hcount', htail', hkept, hrest⟩ := ih (by omega) hbefore h
        refine ⟨by omega, by omega, ?_, hrest⟩
        rw [hkept, hsplit]
        exact remaining_drop.symm
      · rename_i hstop
        cases h
        refine ⟨Nat.le_refl _, Nat.le_refl _, rfl, hholes, fun hi hole hhole => ?_⟩
        have hsplit := holes_concat (Nat.le_of_lt_succ hi) hlast
        -- the last entry is to be kept, so every hole is before it
        have hlast_lt : last < arr_tail' := hholes last (hsplit ▸ by simp)
        have hne : last + 1 ≠ arr_tail' := fun heq =>
          hstop ⟨hi, by rw [hlast, Option.map_some, heq]⟩
        have hle : hole ≤ last := by
          rw [hsplit] at hhole
          rcases List.mem_append.mp hhole with hfront | hend
          · exact Nat.le_of_lt
              ((List.pairwise_append.mp (hsplit ▸ holes_sorted hsorted (idx_count + 1))).2.2
                hole hfront last (List.mem_singleton_self _))
          · exact Nat.le_of_eq (List.mem_singleton.mp hend)
        omega

/-- The entries of both arrays, each request with its operation. -/
def ReqQue.pairs (q : ReqQue) : List (Option Nat × Option QueOp) := q.req_arr.zip q.op_arr

def ReqQue.entries (q : ReqQue) : List (Option Nat × Option QueOp) := q.pairs.take q.arr_tail

structure ReqQue.Roomy (q : ReqQue) : Prop where
  req_le : q.arr_tail ≤ q.req_arr.length
  op_le : q.arr_tail ≤ q.op_arr.length

theorem ReqQue.Roomy.le_pairs {q : ReqQue} (h : q.Roomy) : q.arr_tail ≤ q.pairs.length := by
  rw [ReqQue.pairs, List.length_zip]
  exact Nat.le_min.mpr ⟨h.req_le, h.op_le⟩

/-- Moving the last entry into a hole keeps its request and its operation
together. -/
theorem ReqQue.Roomy.moveLast {q : ReqQue} (h : q.Roomy) {hole : Nat}
    (hhole : hole + 1 < q.arr_tail) :
    ∃ x, q.pairs[q.arr_tail - 1]? = some x ∧ ∃ q', q.moveLast hole = .ok q' ∧
      q'.arr_tail = q.arr_tail - 1 ∧ q'.arr_len = q.arr_len ∧ q'.pairs = q.pairs.set hole x ∧
      q'.req_arr.length = q.req_arr.length ∧ q'.op_arr.length = q.op_arr.length := by
  have hreq := h.req_le
  have hop := h.op_le
  have hreq_lt : q.arr_tail - 1 < q.req_arr.length := by omega
  have hop_lt : q.arr_tail - 1 < q.op_arr.length := by omega
  have hslot := List.getElem?_eq_getElem hop_lt
  have hrequest := List.getElem?_eq_getElem hreq_lt
  refine ⟨(q.req_arr[q.arr_tail - 1], q.op_arr[q.arr_tail - 1]),
    List.getElem?_zip_eq_some.mpr ⟨hrequest, hslot⟩, { q with
      req_arr := q.req_arr.set hole q.req_arr[q.arr_tail - 1]
      op_arr := q.op_arr.set hole q.op_arr[q.arr_tail - 1]
      arr_tail := q.arr_tail - 1 }, ?_, rfl, rfl, zip_set _ _ _ _ _, List.length_set,
    List.length_set⟩
  rw [ReqQue.moveLast, fetch_eq_ok.mpr hrequest, ok_bind, store_of_lt (by omega), ok_bind,
    fetch_eq_ok.mpr hslot, ok_bind, store_of_lt (by omega)]
  rfl

/-- The invariant of the removal: what will be kept stays the same. -/
structure Removing (idx : List Nat) (q : ReqQue) (i : Nat) (acc : Nat × ReqQue) : Prop where
  count : acc.1 ≤ idx.length
  arr_len : acc.2.arr_len = q.arr_len
  req_len : acc.2.req_arr.length = q.req_arr.length
  op_len : acc.2.op_arr.length = q.op_arr.length
  tail_le : acc.2.arr_tail ≤ q.arr_tail
  holes_lt : ∀ hole ∈ holes idx i acc.1, hole < acc.2.arr_tail
  kept : (remaining acc.2.pairs acc.2.arr_tail (holes idx i acc.1)).Perm
    (remaining q.pairs q.arr_tail idx)

theorem Removing.done {q : ReqQue} {acc : Nat × ReqQue} (h : Removing idx q i acc)
    (hi : acc.1 ≤ i) : Removing idx q (i + 1) acc := by
  have hnil : holes idx i acc.1 = [] := holes_eq_nil hi
  have hnil' : holes idx (i + 1) acc.1 = [] := holes_eq_nil (Nat.le_succ_of_le hi)
  refine ⟨h.count, h.arr_len, h.req_len, h.op_len, h.tail_le, ?_, ?_⟩
  · rw [hnil', ← hnil]
    exact h.holes_lt
  · rw [hnil', ← hnil]
    exact h.kept

/-- After the inner loop no hole is at the end. -/
theorem Removing.drop {q : ReqQue} (hsorted : idx.Pairwise (· < ·)) {q₁ : ReqQue}
    {idx_count idx_count' arr_tail' : Nat} (h : Removing idx q i (idx_count, q₁))
    (hdrop : dropDone idx i idx_count q₁.arr_tail = (idx_count', arr_tail')) :
    Removing idx q i (idx_count', { q₁ with arr_tail := arr_tail' }) ∧
      (i < idx_count' → ∀ hole ∈ holes idx i idx_count', hole + 1 < arr_tail') := by
  obtain ⟨hcount, htail, hsame, hlt, hlast⟩ :=
    dropDone_spec q₁.pairs hsorted h.count h.holes_lt hdrop
  refine ⟨⟨hcount.trans h.count, h.arr_len, h.req_len, h.op_len, htail.trans h.tail_le, hlt, ?_⟩,
    hlast⟩
  have hkept := h.kept
  rw [← hsame] at hkept
  exact hkept

theorem Removing.fill {q : ReqQue} (hroomy : q.Roomy) (hsorted : idx.Pairwise (· < ·))
    {q₁ : ReqQue} {idx_count hole : Nat} (h : Removing idx q i (idx_count, q₁))
    (hi : i < idx_count) (hidx : idx[i]? = some hole)
    (hlast : ∀ hole ∈ holes idx i idx_count, hole + 1 < q₁.arr_tail) :
    ∃ q', q₁.moveLast hole = .ok q' ∧ Removing idx q (i + 1) (idx_count, q') := by
  obtain ⟨hcount, hlen, hreq, hop, htail, -, hkept⟩ := h
  dsimp only at hcount hlen hreq hop htail hkept
  obtain ⟨hole', hidx', hcons⟩ := holes_cons hi hcount
  obtain rfl : hole' = hole := Option.some.inj (hidx'.symm.trans hidx)
  have hbefore : ∀ p ∈ holes idx (i + 1) idx_count, hole' < p :=
    (List.pairwise_cons.mp (hcons ▸ holes_sorted hsorted idx_count)).1
  rw [hcons] at hlast hkept
  have hfirst : hole' + 1 < q₁.arr_tail := hlast hole' (List.mem_cons_self ..)
  have hroomy₁ : q₁.Roomy :=
    ⟨htail.trans (hroomy.req_le.trans_eq hreq.symm), htail.trans (hroomy.op_le.trans_eq hop.symm)⟩
  obtain ⟨x, hx, q', hmove, htail', hlen', hset, hreq', hop'⟩ := hroomy₁.moveLast hfirst
  refine ⟨q', hmove, hcount, hlen'.trans hlen, hreq'.trans hreq, hop'.trans hop, ?_,
    fun p hp => ?_, ?_⟩
  · dsimp only
    omega
  · have hp' := hlast p (List.mem_cons_of_mem _ hp)
    dsimp only
    omega
  · have hnotin : q₁.arr_tail - 1 ∉ holes idx (i + 1) idx_count := by
      intro hmem
      have hend := hlast _ (List.mem_cons_of_mem _ hmem)
      omega
    have hfill := remaining_fill hx (Nat.lt_sub_of_add_lt hfirst)
      (fun hmem => Nat.lt_irrefl _ (hbefore _ hmem)) hnotin
    have hsucc : q₁.arr_tail - 1 + 1 = q₁.arr_tail := by omega
    rw [hsucc] at hfill
    dsimp only
    rw [htail', hset]
    exact hfill.trans hkept

theorem Removing.turn {q : ReqQue} (hroomy : q.Roomy) (hsorted : idx.Pairwise (· < ·))
    {acc : Nat × ReqQue} (h : Removing idx q i acc) :
    ∃ acc', removeTurn idx acc i = .ok acc' ∧ Removing idx q (i + 1) acc' := by
  obtain ⟨idx_count, q₁⟩ := acc
  unfold removeTurn
  by_cases hi : i < idx_count
  · rw [if_pos hi]
    obtain ⟨hole, hidx, hcons⟩ := holes_cons hi h.count
    have hslot : hole < q₁.op_arr.length := by
      have hhole : hole < q₁.arr_tail := h.holes_lt hole (hcons ▸ List.mem_cons_self ..)
      have hop : q₁.op_arr.length = q.op_arr.length := h.op_len
      have htail : q₁.arr_tail ≤ q.arr_tail := h.tail_le
      have hop_le := hroomy.op_le
      omega
    rcases hdrop : dropDone idx i idx_count q₁.arr_tail with ⟨idx_count', arr_tail'⟩
    obtain ⟨hdropped, hlast⟩ := h.drop hsorted hdrop
    simp only [fetch_eq_ok.mpr hidx, fetch_of_lt hslot, ok_bind]
    by_cases hi' : i < idx_count'
    · rw [if_pos hi']
      obtain ⟨q', hmove, hfilled⟩ := hdropped.fill hroomy hsorted hi' hidx (hlast hi')
      exact ⟨(idx_count', q'), by rw [hmove]; rfl, hfilled⟩
    · rw [if_neg hi']
      exact ⟨_, rfl, hdropped.done (Nat.le_of_not_lt hi')⟩
  · rw [if_neg hi]
    exact ⟨_, rfl, h.done (Nat.le_of_not_lt hi)⟩

/-- The removal keeps exactly the entries at the other positions. -/
theorem ReqQue.Roomy.removeDone {q : ReqQue} (h : q.Roomy) (hsorted : idx.Pairwise (· < ·))
    (hidx : ∀ hole ∈ idx, hole < q.arr_tail) :
    ∃ q', q.removeDone idx = .ok q' ∧ q'.Roomy ∧ q'.arr_len = q.arr_len ∧
      q'.req_arr.length = q.req_arr.length ∧ q'.op_arr.length = q.op_arr.length ∧
      q'.arr_tail + idx.length = q.arr_tail ∧
      q'.entries.Perm (remaining q.pairs q.arr_tail idx) := by
  have hall : holes idx 0 idx.length = idx := by rw [holes, List.take_length, List.drop_zero]
  have hstart : Removing idx q 0 (idx.length, q) :=
    ⟨Nat.le_refl _, rfl, rfl, rfl, Nat.le_refl _, by rw [hall]; exact hidx, by rw [hall]⟩
  obtain ⟨⟨idx_count, q'⟩, hrun, hlast⟩ :=
    foldlM_range_ok (fun i acc _ hacc => Removing.turn h hsorted hacc) hstart
  obtain ⟨hcount, hlen, hreq, hop, htail, -, hkept⟩ := hlast
  dsimp only at hcount hlen hreq hop htail hkept
  have hroomy : q'.Roomy :=
    ⟨htail.trans (h.req_le.trans_eq hreq.symm), htail.trans (h.op_le.trans_eq hop.symm)⟩
  rw [holes_eq_nil hcount, remaining_nil] at hkept
  have hnodup : idx.Nodup := hsorted.imp Nat.ne_of_lt
  refine ⟨q', by rw [ReqQue.removeDone, hrun]; rfl, hroomy, hlen, hreq, hop, ?_, hkept⟩
  have hentries := hkept.length_eq
  rw [List.length_take, Nat.min_eq_left hroomy.le_pairs] at hentries
  rw [hentries]
  exact length_remaining hnodup hidx h.le_pairs

/-! ### The removal in the queue -/

theorem ReqQue.Ok.roomy {q : ReqQue} (h : q.Ok) : q.Roomy :=
  ⟨h.req_len ▸ h.tail_le, h.op_len ▸ h.tail_le⟩

theorem ReqQue.Ok.entry_of_mem {q : ReqQue} (h : q.Ok) {x : Option Nat × Option QueOp}
    (hx : x ∈ q.entries) : ∃ op : QueOp, x = (some op.mpi_req, some op) := by
  obtain ⟨p, hp, hget⟩ := List.mem_iff_getElem.mp hx
  have hp' : p < q.arr_tail := (List.length_take_le _ _).trans_lt' hp
  obtain ⟨op, hslot, hrequest⟩ := h.entry p hp'
  have hpair : q.pairs[p]? = some (some op.mpi_req, some op) :=
    List.getElem?_zip_eq_some.mpr ⟨hrequest, hslot⟩
  refine ⟨op, ?_⟩
  have hget' := List.getElem?_eq_some_iff.mpr ⟨hp, hget⟩
  rw [ReqQue.entries, List.getElem?_take_of_lt hp'] at hget'
  exact Option.some.inj (hget'.symm.trans hpair)

/-- The removal takes exactly the given positions out of the queue. -/
theorem ReqQue.Ok.removeDone {q : ReqQue} (h : q.Ok) (hsorted : idx.Pairwise (· < ·))
    (hidx : ∀ hole ∈ idx, hole < q.arr_tail) :
    ∃ q', q.removeDone idx = .ok q' ∧ q'.Ok ∧
      q.contents.Perm ((entriesAt q.op_arr idx).reduceOption ++ q'.contents) := by
  obtain ⟨q', hrun, hroomy, hlen, hreq, hop, htail, hkept⟩ := h.roomy.removeDone hsorted hidx
  have hops : q.pairs.map Prod.snd = q.op_arr :=
    List.map_snd_zip (h.op_len.trans h.req_len.symm).le
  have hops' : q'.pairs.map Prod.snd = q'.op_arr :=
    List.map_snd_zip (hop.trans (h.op_len.trans (h.req_len.symm.trans hreq.symm))).le
  refine ⟨q', hrun, ⟨?_, ?_, ?_, fun p hp => ?_⟩, ?_⟩
  · rw [hop, h.op_len, hlen]
  · rw [hreq, h.req_len, hlen]
  · have := h.tail_le
    omega
  · -- a kept entry was an entry
    have hp' : p < q'.entries.length := by
      rw [ReqQue.entries, List.length_take, Nat.min_eq_left hroomy.le_pairs]
      exact hp
    have hmem := remaining_subset (hkept.subset (List.getElem_mem hp'))
    obtain ⟨op, hpair⟩ := h.entry_of_mem hmem
    have hget := List.getElem?_eq_some_iff.mpr ⟨hp', hpair⟩
    rw [ReqQue.entries, List.getElem?_take_of_lt hp] at hget
    obtain ⟨hrequest, hslot⟩ := List.getElem?_zip_eq_some.mp hget
    exact ⟨op, hslot, hrequest⟩
  · have hkept' := hkept.map Prod.snd
    rw [ReqQue.entries, List.map_take, hops', remaining, ← entriesAt_map, hops] at hkept'
    have hnodup : idx.Nodup := hsorted.imp Nat.ne_of_lt
    rw [ReqQue.contents, ReqQue.contents, ← List.reduceOption_append]
    exact (take_perm_remaining hnodup hidx).trans (hkept'.symm.append_left _) |>.filterMap _

end Remove

end Unr.Mpi
