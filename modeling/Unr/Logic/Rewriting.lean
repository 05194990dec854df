import Mathlib

/-!
Systems seen as bags of items.

Whatever is under way in a system (a message in flight, an entry of a queue, a
call that has still to be made) is an item, and the state is looked at as the
bag of its items. A step takes some items out and puts others in, and leaves
the rest of the bag alone. A weight on items then turns a step into an
equation, and what holds of every item is checked on the new ones only.
-/

namespace Unr.Logic

variable {ι κ : Type}

/-- `m'` is `m` with the items `c` taken out and the items `d` put in. -/
def Rewrites (c d m m' : Multiset ι) : Prop :=
  ∃ rest, m = c + rest ∧ m' = d + rest

namespace Rewrites

variable {c d c' d' m m' n n' : Multiset ι}

theorem refl (m : Multiset ι) : Rewrites 0 0 m m :=
  ⟨m, (zero_add m).symm, (zero_add m).symm⟩

theorem add (h : Rewrites c d m m') (h' : Rewrites c' d' n n') :
    Rewrites (c + c') (d + d') (m + n) (m' + n') := by
  obtain ⟨rest, rfl, rfl⟩ := h
  obtain ⟨rest', rfl, rfl⟩ := h'
  exact ⟨rest + rest', add_add_add_comm _ _ _ _, add_add_add_comm _ _ _ _⟩

theorem map (f : ι → κ) (h : Rewrites c d m m') :
    Rewrites (c.map f) (d.map f) (m.map f) (m'.map f) := by
  obtain ⟨rest, rfl, rfl⟩ := h
  exact ⟨rest.map f, Multiset.map_add f c rest, Multiset.map_add f d rest⟩

theorem mem (h : Rewrites c d m m') {x : ι} (hx : x ∈ c) : x ∈ m := by
  obtain ⟨rest, rfl, -⟩ := h
  exact Multiset.mem_add.mpr (.inl hx)

/-- What holds of every item before and of every new item holds of every item
after. -/
theorem forall_mem {P : ι → Prop} (h : Rewrites c d m m') (hold : ∀ x ∈ m, P x)
    (hnew : ∀ x ∈ d, P x) : ∀ x ∈ m', P x := by
  obtain ⟨rest, rfl, rfl⟩ := h
  intro x hx
  rcases Multiset.mem_add.mp hx with hx | hx
  · exact hnew x hx
  · exact hold x (Multiset.mem_add.mpr (.inr hx))

/-! ### Lists -/

theorem append (l l' : List ι) : Rewrites 0 l' (l : Multiset ι) (l ++ l' : List ι) :=
  ⟨l, (zero_add _).symm, by rw [← Multiset.coe_add, add_comm]⟩

theorem eraseIdx {l : List ι} {i : Nat} {x : ι} (h : l[i]? = some x) :
    Rewrites {x} 0 (l : Multiset ι) (l.eraseIdx i : List ι) := by
  obtain ⟨hi, rfl⟩ := List.getElem?_eq_some_iff.mp h
  refine ⟨l.eraseIdx i, ?_, (zero_add _).symm⟩
  rw [Multiset.singleton_add, Multiset.cons_coe]
  exact Multiset.coe_eq_coe.mpr (List.getElem_cons_eraseIdx_perm hi).symm

/-! ### Components -/

/-- A step of one component of a system rewrites the bag of the system. -/
theorem sum_range {σ : Type} {f : Nat → σ → Multiset ι} {s : Nat → σ} {size p : Nat} {x : σ}
    (hp : p < size) (h : Rewrites c d (f p (s p)) (f p x)) :
    Rewrites c d (∑ q ∈ Finset.range size, f q (s q))
      (∑ q ∈ Finset.range size, f q (Function.update s p x q)) := by
  have hmem : p ∈ Finset.range size := Finset.mem_range.mpr hp
  have hothers : ∑ q ∈ (Finset.range size).erase p, f q (Function.update s p x q) =
      ∑ q ∈ (Finset.range size).erase p, f q (s q) := by
    refine Finset.sum_congr rfl fun q hq => ?_
    rw [Function.update_of_ne (Finset.ne_of_mem_erase hq)]
  rw [← Finset.add_sum_erase _ _ hmem, ← Finset.add_sum_erase _ _ hmem, hothers,
    Function.update_self]
  simpa using h.add (refl (∑ q ∈ (Finset.range size).erase p, f q (s q)))

end Rewrites

/-! ### Weights -/

def weigh (φ : ι → Nat) (m : Multiset ι) : Nat := (m.map φ).sum

section

variable {φ ψ : ι → Nat} {m m' c d : Multiset ι}

@[simp] theorem weigh_zero (φ : ι → Nat) : weigh φ 0 = 0 := rfl

@[simp] theorem weigh_singleton (φ : ι → Nat) (x : ι) : weigh φ {x} = φ x := by
  simp [weigh]

@[simp] theorem weigh_cons (φ : ι → Nat) (x : ι) (m : Multiset ι) :
    weigh φ (x ::ₘ m) = φ x + weigh φ m := by
  simp [weigh]

@[simp] theorem weigh_add (φ : ι → Nat) (m n : Multiset ι) :
    weigh φ (m + n) = weigh φ m + weigh φ n := by
  simp [weigh]

theorem weigh_sum {α : Type} (φ : ι → Nat) (s : Finset α) (f : α → Multiset ι) :
    weigh φ (∑ a ∈ s, f a) = ∑ a ∈ s, weigh φ (f a) :=
  map_sum (Multiset.sumAddMonoidHom.comp (Multiset.mapAddMonoidHom φ)) f s

/-- A step changes the weight of the bag by the difference between what it puts
in and what it takes out. -/
theorem Rewrites.weigh (φ : ι → Nat) (h : Rewrites c d m m') :
    weigh φ m' + weigh φ c = weigh φ m + weigh φ d := by
  obtain ⟨rest, rfl, rfl⟩ := h
  rw [weigh_add, weigh_add]
  omega

theorem weigh_le_weigh (hle : ∀ x ∈ m, φ x ≤ ψ x) : weigh φ m ≤ weigh ψ m :=
  Multiset.sum_map_le_sum_map φ ψ hle

end

end Unr.Logic
