import Mathlib

/-!
Copies between places of a memory, in any order.

A copy writes the places in its destination, each with what is at the place
it comes from. As long as no copy writes where another one reads, and copies
that write the same place read the same place, every order of them leaves
behind the same memory.
-/

namespace Unr.Logic

variable {κ β : Type}

/-- The places a copy writes, and the place each is read from. -/
structure Copy (κ : Type) where
  dst : κ → Bool
  src : κ → κ

def Copy.run (mem : κ → β) (c : Copy κ) : κ → β :=
  fun k => if c.dst k then mem (c.src k) else mem k

/-- The order of the copies does not matter. -/
structure Consistent (cs : List (Copy κ)) : Prop where
  same_source : ∀ c ∈ cs, ∀ d ∈ cs, ∀ k, c.dst k → d.dst k → c.src k = d.src k
  source_kept : ∀ c ∈ cs, ∀ d ∈ cs, ∀ k, c.dst k → d.dst (c.src k) = false

section

variable {cs cs' : List (Copy κ)} {mem : κ → β} {k s : κ}

theorem foldl_copy_of_not_mem (h : ∀ c ∈ cs, c.dst k = false) :
    cs.foldl Copy.run mem k = mem k := by
  induction cs generalizing mem with
  | nil => rfl
  | cons c cs ih =>
      rw [List.foldl_cons, ih fun d hd => h d (by simp [hd])]
      simp [Copy.run, h c (by simp)]

theorem foldl_copy_of_mem (hex : ∃ c ∈ cs, c.dst k) (hsrc : ∀ c ∈ cs, c.dst k → c.src k = s)
    (hkept : ∀ c ∈ cs, c.dst s = false) : cs.foldl Copy.run mem k = mem s := by
  induction cs generalizing mem with
  | nil => simp at hex
  | cons c cs ih =>
      rw [List.foldl_cons]
      by_cases hrest : ∃ d ∈ cs, d.dst k
      · rw [ih hrest (fun d hd => hsrc d (by simp [hd])) fun d hd => hkept d (by simp [hd])]
        simp [Copy.run, hkept c (by simp)]
      · have hnone : ∀ d ∈ cs, d.dst k = false := fun d hd => by
          simpa using fun hdst => hrest ⟨d, hd, hdst⟩
        have hc : c.dst k = true := by
          obtain ⟨d, hd, hdst⟩ := hex
          rcases List.mem_cons.mp hd with rfl | hd
          · exact hdst
          · exact absurd ⟨d, hd, hdst⟩ hrest
        rw [foldl_copy_of_not_mem hnone]
        simp [Copy.run, hc, hsrc c (by simp) hc]

theorem Consistent.foldl_perm (h : Consistent cs) (hperm : cs.Perm cs') :
    cs.foldl Copy.run mem = cs'.foldl Copy.run mem := by
  funext k
  by_cases hex : ∃ c ∈ cs, c.dst k
  · obtain ⟨c, hc, hdst⟩ := hex
    have hsrc : ∀ d ∈ cs, d.dst k → d.src k = c.src k := fun d hd hdst' =>
      h.same_source d hd c hc k hdst' hdst
    have hkept : ∀ d ∈ cs, d.dst (c.src k) = false := fun d hd => h.source_kept c hc d hd k hdst
    rw [foldl_copy_of_mem ⟨c, hc, hdst⟩ hsrc hkept,
      foldl_copy_of_mem ⟨c, hperm.mem_iff.mp hc, hdst⟩
        (fun d hd => hsrc d (hperm.mem_iff.mpr hd)) fun d hd => hkept d (hperm.mem_iff.mpr hd)]
  · have hnone : ∀ d ∈ cs, d.dst k = false := fun d hd => by
      simpa using fun hdst => hex ⟨d, hd, hdst⟩
    rw [foldl_copy_of_not_mem hnone,
      foldl_copy_of_not_mem fun d hd => hnone d (hperm.mem_iff.mpr hd)]

end

end Unr.Logic
