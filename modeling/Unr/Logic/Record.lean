import Unr.Logic.Buffer

/-!
Records in memory: numbers stored in the fields of a record, and arrays of
records of one size.

Where the fields do not overlap, each is read back as it was stored, whatever
the record held before. A loop over the records of an array that changes one
record in each turn changes each of them once.
-/

namespace Unr.Logic

/-- A field of a record: where it begins and how many bytes it has. -/
structure Field where
  off : Nat
  len : Nat
  deriving Repr, DecidableEq

def Field.apart (f g : Field) : Prop := f.off + f.len ≤ g.off ∨ g.off + g.len ≤ f.off

instance (f g : Field) : Decidable (f.apart g) := inferInstanceAs (Decidable (_ ∨ _))

def storeField (f : Field) (x : Nat) (obj : List (BitVec 8)) : List (BitVec 8) :=
  splice obj f.off (leBytes f.len x)

def loadField (f : Field) (obj : List (BitVec 8)) : Nat := ofLeBytes (slice obj f.off f.len)

def storeAll (fields : List (Field × Nat)) (obj : List (BitVec 8)) : List (BitVec 8) :=
  fields.foldl (fun obj f => storeField f.1 f.2 obj) obj

section Fields

variable {f g : Field} {x : Nat} {obj xs : List (BitVec 8)} {fields : List (Field × Nat)}

@[simp] theorem length_storeField (h : f.off + f.len ≤ obj.length) :
    (storeField f x obj).length = obj.length :=
  length_splice (by rwa [length_leBytes])

theorem load_storeField (h : f.off + f.len ≤ obj.length) (hx : x < 256 ^ f.len) :
    loadField f (storeField f x obj) = x := by
  have hself := @slice_splice_self _ obj (leBytes f.len x) f.off (by rwa [length_leBytes])
  rw [length_leBytes] at hself
  rw [loadField, storeField, hself, ofLeBytes_leBytes hx]

theorem slice_storeField {o n : Nat} (h : f.off + f.len ≤ obj.length)
    (hapart : o + n ≤ f.off ∨ f.off + f.len ≤ o) :
    slice (storeField f x obj) o n = slice obj o n :=
  slice_splice_of_disjoint (by rwa [length_leBytes]) (by rwa [length_leBytes])

theorem load_storeField_apart (h : f.off + f.len ≤ obj.length) (hapart : f.apart g) :
    loadField g (storeField f x obj) = loadField g obj := by
  rw [loadField, slice_storeField h hapart.symm, loadField]

theorem length_storeAll (hin : ∀ f ∈ fields, f.1.off + f.1.len ≤ obj.length) :
    (storeAll fields obj).length = obj.length := by
  induction fields generalizing obj with
  | nil => rfl
  | cons f fields ih =>
      have hlen := @length_storeField f.1 f.2 obj (hin f (by simp))
      rw [storeAll, List.foldl_cons]
      exact (ih fun g hg => hlen ▸ hin g (by simp [hg])).trans hlen

theorem load_storeAll_apart (hin : ∀ f ∈ fields, f.1.off + f.1.len ≤ obj.length)
    (hapart : ∀ f ∈ fields, f.1.apart g) : loadField g (storeAll fields obj) = loadField g obj := by
  induction fields generalizing obj with
  | nil => rfl
  | cons f fields ih =>
      have hlen := @length_storeField f.1 f.2 obj (hin f (by simp))
      rw [storeAll, List.foldl_cons]
      exact (ih (fun g hg => hlen ▸ hin g (by simp [hg])) fun g hg => hapart g (by simp [hg])).trans
        (load_storeField_apart (hin f (by simp)) (hapart f (by simp)))

/-- Every field is read back as it was stored. -/
theorem load_storeAll (hin : ∀ f ∈ fields, f.1.off + f.1.len ≤ obj.length)
    (hapart : (fields.map (·.1)).Pairwise Field.apart) (hmem : (f, x) ∈ fields)
    (hx : x < 256 ^ f.len) : loadField f (storeAll fields obj) = x := by
  induction fields generalizing obj with
  | nil => exact absurd hmem List.not_mem_nil
  | cons g fields ih =>
      have hlen := @length_storeField g.1 g.2 obj (hin g (by simp))
      have hin' : ∀ f ∈ fields, f.1.off + f.1.len ≤ (storeField g.1 g.2 obj).length :=
        fun f hf => hlen ▸ hin f (by simp [hf])
      rw [List.map_cons, List.pairwise_cons] at hapart
      rw [storeAll, List.foldl_cons]
      rcases List.mem_cons.mp hmem with rfl | hmem
      · refine (load_storeAll_apart hin' fun f' hf' => ?_).trans
          (load_storeField (hin (f, x) (by simp)) hx)
        exact (hapart.1 f'.1 (List.mem_map_of_mem hf')).symm
      · exact ih hin' hapart.2 hmem

theorem loadField_slice {o n : Nat} (h : f.off + f.len ≤ n) :
    loadField f (slice obj o n) = loadField ⟨o + f.off, f.len⟩ obj := by
  refine congrArg ofLeBytes (slice_congr fun i hi => ?_)
  rw [getElem?_slice _ (by omega), Nat.add_assoc]

theorem loadField_splice {o : Nat} (h : o + xs.length ≤ obj.length)
    (hf : f.off + f.len ≤ xs.length) :
    loadField ⟨o + f.off, f.len⟩ (splice obj o xs) = loadField f xs := by
  rw [← loadField_slice hf, slice_splice_self h]

end Fields

/-! ### Arrays of records -/

/-- Record `j` of an array that begins at `base` is changed. -/
def changeRecord {β : Type} (base size : Nat) (g : List β → List β) (buf : List β) (j : Nat) :
    List β :=
  splice buf (base + j * size) (g (slice buf (base + j * size) size))

section Records

variable {β : Type} {base size n : Nat} {g : List β → List β} {buf : List β}

/-- A loop over the records changes each of them once, and nothing else. -/
theorem changeRecords (hg : ∀ xs, xs.length = size → (g xs).length = size)
    (h : base + n * size ≤ buf.length) :
    ((List.range n).foldl (changeRecord base size g) buf).length = buf.length ∧
      (∀ j < n, slice ((List.range n).foldl (changeRecord base size g) buf) (base + j * size) size =
        g (slice buf (base + j * size) size)) ∧
      ∀ o k, o + k ≤ base ∨ base + n * size ≤ o →
        slice ((List.range n).foldl (changeRecord base size g) buf) o k = slice buf o k := by
  induction n with
  | zero => exact ⟨rfl, fun j hj => absurd hj (Nat.not_lt_zero j), fun _ _ _ => rfl⟩
  | succ n ih =>
      have hsucc : (n + 1) * size = n * size + size := Nat.succ_mul n size
      obtain ⟨hlen, hdone, hrest⟩ := ih (by omega)
      rw [List.range_succ, List.foldl_append, List.foldl_cons, List.foldl_nil]
      generalize (List.range n).foldl (changeRecord base size g) buf = buf' at *
      have hnew : (g (slice buf' (base + n * size) size)).length = size :=
        hg _ (length_slice (by omega))
      have hin : base + n * size + (g (slice buf' (base + n * size) size)).length ≤
          buf'.length := by
        omega
      refine ⟨(length_splice hin).trans hlen, fun j hj => ?_, fun o k ho => ?_⟩
      · rcases Nat.lt_succ_iff_lt_or_eq.mp hj with hj | rfl
        · have hle : j * size + size ≤ n * size := by
            rw [← Nat.succ_mul]
            exact Nat.mul_le_mul_right _ hj
          rw [changeRecord, slice_splice_of_disjoint hin (by omega), hdone j hj]
        · have hself := slice_splice_self hin
          rw [hnew] at hself
          rw [changeRecord, hself, hrest _ _ (by omega)]
      · rw [changeRecord, slice_splice_of_disjoint hin (by omega), hrest o k (by omega)]

theorem mapM_range_ok {ε α : Type} {f : Nat → Except ε α} {xs : List α}
    (h : ∀ j (hj : j < xs.length), f j = .ok xs[j]) : (List.range xs.length).mapM f = .ok xs := by
  induction xs generalizing f with
  | nil => rfl
  | cons x xs ih =>
      have hrest := @ih (fun j => f (j + 1)) fun j hj => h (j + 1) (Nat.succ_lt_succ hj)
      rw [List.length_cons, List.range_succ_eq_map, List.mapM_cons, h 0 (Nat.succ_pos _)]
      simp only [List.mapM_map, Function.comp_def, Nat.succ_eq_add_one, hrest, bind, Except.bind]
      rfl

theorem mapM_range_map {ε α : Type} {n : Nat} {f : Nat → Except ε α} {g : Nat → α}
    (h : ∀ i < n, f i = .ok (g i)) : (List.range n).mapM f = .ok ((List.range n).map g) := by
  have hlength : ((List.range n).map g).length = n := by simp
  have hrange := @mapM_range_ok ε α f ((List.range n).map g) fun i hi => by
    rw [hlength] at hi
    simp [h i hi]
  rwa [hlength] at hrange

end Records

end Unr.Logic
