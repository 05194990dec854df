import Mathlib

/-!
Buffers: a range of a buffer that is read or written, integers as bytes, and
buffers that consist of pieces of one size.

A write changes the range it is for and nothing else, and never the length of
the buffer; reading a range back gives what was last written there.
-/

namespace Unr.Logic

variable {β : Type}

/-- The `n` elements from position `off` on. -/
def slice (buf : List β) (off n : Nat) : List β := (buf.drop off).take n

/-- The buffer after `xs` has been written from position `off` on. -/
def splice (buf : List β) (off : Nat) (xs : List β) : List β :=
  buf.take off ++ xs ++ buf.drop (off + xs.length)

section Ranges

variable {buf xs : List β} {off o n : Nat}

@[simp] theorem length_slice (h : off + n ≤ buf.length) : (slice buf off n).length = n := by
  simp only [slice, List.length_take, List.length_drop]
  omega

@[simp] theorem length_splice (h : off + xs.length ≤ buf.length) :
    (splice buf off xs).length = buf.length := by
  simp only [splice, List.length_append, List.length_take, List.length_drop]
  omega

theorem getElem?_slice (i : Nat) (hi : i < n) : (slice buf off n)[i]? = buf[off + i]? := by
  rw [slice, List.getElem?_take_of_lt hi, List.getElem?_drop]

theorem getElem?_splice (h : off + xs.length ≤ buf.length) (p : Nat) :
    (splice buf off xs)[p]? =
      if off ≤ p ∧ p < off + xs.length then xs[p - off]? else buf[p]? := by
  have hlen : (buf.take off).length = off := by
    rw [List.length_take]
    omega
  rw [splice, List.append_assoc]
  split
  · next hin =>
    rw [List.getElem?_append_right (by omega), hlen, List.getElem?_append_left (by omega)]
  · next hout =>
    rcases Nat.lt_or_ge p off with hbefore | hbehind
    · rw [List.getElem?_append_left (by omega), List.getElem?_take_of_lt hbefore]
    · rw [List.getElem?_append_right (by omega), hlen, List.getElem?_append_right (by omega),
        List.getElem?_drop]
      congr 1
      omega

theorem slice_congr {buf' : List β} {off' : Nat} (h : ∀ i < n, buf[off + i]? = buf'[off' + i]?) :
    slice buf off n = slice buf' off' n := by
  apply List.ext_getElem?
  intro i
  rcases Nat.lt_or_ge i n with hi | hi
  · rw [getElem?_slice i hi, getElem?_slice i hi, h i hi]
  · rw [slice, slice, List.getElem?_take_eq_none hi, List.getElem?_take_eq_none hi]

theorem slice_splice_of_disjoint (h : off + xs.length ≤ buf.length)
    (hdisjoint : o + n ≤ off ∨ off + xs.length ≤ o) :
    slice (splice buf off xs) o n = slice buf o n := by
  refine slice_congr fun i hi => ?_
  rw [getElem?_splice h, if_neg (by omega)]

theorem set_eq_splice {x : β} (h : off < buf.length) : buf.set off x = splice buf off [x] := by
  rw [splice, List.set_eq_take_append_cons_drop, if_pos h, List.append_assoc]
  rfl

theorem mem_slice {x : β} : x ∈ slice buf off n ↔ ∃ i < n, buf[off + i]? = some x := by
  rw [List.mem_iff_getElem?]
  constructor
  · rintro ⟨i, hi⟩
    rcases Nat.lt_or_ge i n with hlt | hge
    · exact ⟨i, hlt, by rw [← getElem?_slice i hlt, hi]⟩
    · rw [slice, List.getElem?_take_eq_none hge] at hi
      cases hi
  · rintro ⟨i, hlt, hi⟩
    exact ⟨i, by rw [getElem?_slice i hlt, hi]⟩

theorem slice_all : slice buf 0 buf.length = buf := by simp [slice]

/-- What has been written can be read back. -/
theorem slice_splice_self (h : off + xs.length ≤ buf.length) :
    slice (splice buf off xs) off xs.length = xs := by
  have hlen : (buf.take off).length = off := by
    rw [List.length_take]
    omega
  rw [slice, splice, List.append_assoc, List.drop_append_of_le_length (by omega),
    List.drop_of_length_le (by omega), List.nil_append, List.take_left']
  rfl

theorem splice_splice_adjacent {ys : List β} (h : off ≤ buf.length) :
    splice (splice buf off xs) (off + xs.length) ys = splice buf off (xs ++ ys) := by
  have hlen : (buf.take off ++ xs).length = off + xs.length := by
    rw [List.length_append, List.length_take]
    omega
  simp only [splice]
  rw [← hlen, List.take_left, ← List.drop_drop, List.drop_left, List.drop_drop, hlen,
    List.length_append, Nat.add_assoc, List.append_assoc (buf.take off)]

theorem slice_of_slice (hxs : slice buf off xs.length = xs) (h : o + n ≤ xs.length) :
    slice buf (off + o) n = slice xs o n := by
  refine slice_congr fun i hi => ?_
  rw [← hxs, getElem?_slice _ (by omega), Nat.add_assoc]

end Ranges

/-! ### Pieces of one size -/

theorem length_flatten_of_forall {xss : List (List β)} {n : Nat} (h : ∀ xs ∈ xss, xs.length = n) :
    xss.flatten.length = xss.length * n := by
  induction xss with
  | nil => simp
  | cons xs xss ih =>
      rw [List.flatten_cons, List.length_append, h xs (by simp),
        ih fun ys hys => h ys (by simp [hys]), List.length_cons]
      ring

theorem slice_flatten {xss : List (List β)} {n j : Nat} (h : ∀ xs ∈ xss, xs.length = n)
    (hj : j < xss.length) : slice xss.flatten (j * n) n = xss[j] := by
  induction xss generalizing j with
  | nil => exact absurd hj (Nat.not_lt_zero _)
  | cons xs xss ih =>
      have hlen := h xs (by simp)
      cases j with
      | zero => simp [slice, ← hlen]
      | succ j =>
          have htail := ih (fun ys hys => h ys (by simp [hys])) (Nat.lt_of_succ_lt_succ hj)
          have hdrop : ((xs :: xss).flatten).drop ((j + 1) * n) = xss.flatten.drop (j * n) := by
            rw [List.flatten_cons, Nat.add_mul, Nat.one_mul, Nat.add_comm, ← List.drop_drop, ← hlen,
              List.drop_left]
          rw [slice, hdrop]
          exact htail

/-! ### Integers as bytes -/

/-- The `n` low bytes of a number, the least significant one first. -/
def leBytes : Nat → Nat → List (BitVec 8)
  | 0, _ => []
  | n + 1, x => BitVec.ofNat 8 x :: leBytes n (x / 256)

def ofLeBytes : List (BitVec 8) → Nat
  | [] => 0
  | b :: bs => b.toNat + 256 * ofLeBytes bs

@[simp] theorem length_leBytes (n x : Nat) : (leBytes n x).length = n := by
  induction n generalizing x with
  | zero => rfl
  | succ n ih => rw [leBytes, List.length_cons, ih]

theorem ofLeBytes_leBytes {n x : Nat} (h : x < 256 ^ n) : ofLeBytes (leBytes n x) = x := by
  induction n generalizing x with
  | zero => simp only [leBytes, ofLeBytes, Nat.lt_one_iff.mp h]
  | succ n ih =>
      have hdiv : x / 256 < 256 ^ n := Nat.div_lt_of_lt_mul (by rwa [pow_succ'] at h)
      rw [leBytes, ofLeBytes, ih hdiv, BitVec.toNat_ofNat]
      omega

end Unr.Logic
