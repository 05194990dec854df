import Mathlib

/-!
Total correctness of loops that may stop.

A loop over a list in an error monad runs to its end and establishes its
invariant when every turn does. The invariant speaks about the elements
already visited, so a loop that accumulates one entry per element needs no
separate counting argument.
-/

namespace Unr.Logic

variable {ε α β : Type}

/-- The rule for a loop with an accumulator: `P visited acc` before each turn. -/
theorem foldlM_ok {f : β → α → Except ε β} {P : List α → β → Prop} {xs : List α}
    (hstep : ∀ visited x rest acc, xs = visited ++ x :: rest → P visited acc →
      ∃ acc', f acc x = .ok acc' ∧ P (visited ++ [x]) acc')
    {acc : β} (hstart : P [] acc) :
    ∃ acc', xs.foldlM f acc = .ok acc' ∧ P xs acc' := by
  have key : ∀ (rest visited : List α) (acc : β), xs = visited ++ rest → P visited acc →
      ∃ acc', rest.foldlM f acc = .ok acc' ∧ P xs acc' := by
    intro rest
    induction rest with
    | nil =>
        intro visited acc hxs hP
        refine ⟨acc, rfl, ?_⟩
        rwa [hxs, List.append_nil]
    | cons x rest ih =>
        intro visited acc hxs hP
        obtain ⟨next, hf, hnext⟩ := hstep visited x rest acc hxs hP
        obtain ⟨acc', hrest, hP'⟩ := ih (visited ++ [x]) next (by simpa using hxs) hnext
        refine ⟨acc', ?_, hP'⟩
        rw [List.foldlM_cons, hf]
        exact hrest
  exact key xs [] acc rfl hstart

/-- The rule for `for (j = 0; j < n; j++)`: `P j acc` before turn `j`. -/
theorem foldlM_range_ok {f : β → Nat → Except ε β} {P : Nat → β → Prop} {n : Nat}
    (hstep : ∀ j acc, j < n → P j acc → ∃ acc', f acc j = .ok acc' ∧ P (j + 1) acc')
    {acc : β} (hstart : P 0 acc) :
    ∃ acc', (List.range n).foldlM f acc = .ok acc' ∧ P n acc' := by
  induction n with
  | zero => exact ⟨acc, rfl, hstart⟩
  | succ n ih =>
      obtain ⟨mid, hrun, hmid⟩ := ih fun j acc hj => hstep j acc (by omega)
      obtain ⟨acc', hlast, hacc'⟩ := hstep n mid (by omega) hmid
      refine ⟨acc', ?_, hacc'⟩
      rw [List.range_succ, List.foldlM_append, hrun]
      simp [bind, Except.bind, pure, Except.pure, hlast]

/-- Every turn of a loop that has ended has ended, in a state that satisfies
what the turns preserve. -/
theorem foldlM_turn {f : β → α → Except ε β} {P : β → Prop}
    (hstep : ∀ acc x acc', P acc → f acc x = .ok acc' → P acc') {xs : List α} {acc acc' : β}
    (hstart : P acc) (hrun : xs.foldlM f acc = .ok acc') {x : α} (hx : x ∈ xs) :
    ∃ before after, P before ∧ f before x = .ok after := by
  induction xs generalizing acc with
  | nil => cases hx
  | cons y xs ih =>
      rw [List.foldlM_cons] at hrun
      cases hy : f acc y with
      | error e =>
          rw [hy] at hrun
          cases hrun
      | ok next =>
          rw [hy] at hrun
          rcases List.mem_cons.mp hx with rfl | hx
          · exact ⟨acc, next, hstart, hy⟩
          · exact ih (hstep acc y next hstart hy) hrun hx

theorem mapM_ok {f : α → Except ε β} {g : α → β} {xs : List α}
    (hall : ∀ x ∈ xs, f x = .ok (g x)) : xs.mapM f = .ok (xs.map g) := by
  induction xs with
  | nil => rfl
  | cons x xs ih =>
      rw [List.mapM_cons, hall x (by simp)]
      simp only [bind, Except.bind]
      rw [ih fun y hy => hall y (by simp [hy])]
      rfl

theorem eq_map_of_mapM {f : α → Except ε β} {g : α → β} {xs : List α} {ys : List β}
    (hall : ∀ x ∈ xs, ∀ y, f x = .ok y → y = g x) (h : xs.mapM f = .ok ys) : ys = xs.map g := by
  induction xs generalizing ys with
  | nil =>
      cases h
      rfl
  | cons x xs ih =>
      rw [List.mapM_cons] at h
      cases hx : f x with
      | error e =>
          rw [hx] at h
          cases h
      | ok y =>
          rw [hx] at h
          cases hrest : xs.mapM f with
          | error e =>
              simp only [bind, Except.bind, hrest] at h
              cases h
          | ok rest =>
              simp only [bind, Except.bind, hrest, pure, Except.pure, Except.ok.injEq] at h
              rw [← h, hall x (by simp) y hx, ih (fun z hz => hall z (by simp [hz])) hrest]
              rfl

theorem mapM_eq_ok_iff {f : α → Except ε β} {g : α → β} {xs : List α} {ys : List β}
    (hall : ∀ x ∈ xs, ∀ y, f x = .ok y → y = g x) :
    xs.mapM f = .ok ys ↔ (∀ x ∈ xs, ∃ y, f x = .ok y) ∧ ys = xs.map g := by
  constructor
  · intro h
    refine ⟨?_, eq_map_of_mapM hall h⟩
    clear hall
    induction xs generalizing ys with
    | nil => exact fun x hx => nomatch hx
    | cons x xs ih =>
        rw [List.mapM_cons] at h
        cases hx : f x with
        | error e =>
            rw [hx] at h
            cases h
        | ok y =>
            rw [hx] at h
            cases hrest : xs.mapM f with
            | error e =>
                simp only [bind, Except.bind, hrest] at h
                cases h
            | ok rest =>
                intro z hz
                rcases List.mem_cons.mp hz with rfl | hz
                · exact ⟨y, hx⟩
                · exact ih hrest z hz
  · rintro ⟨hok, rfl⟩
    refine mapM_ok fun x hx => ?_
    obtain ⟨y, hy⟩ := hok x hx
    rw [hy, hall x hx y hy]

/-! ### Two loops side by side -/

/-- Two loops whose turns correspond under a map of the states, also in how
they stop, correspond as a whole. -/
theorem foldlM_hom {γ : Type} {f : β → α → Except ε β} {g : γ → α → Except ε γ} {h : β → γ}
    {xs : List α} (hturn : ∀ acc, ∀ x ∈ xs, g (h acc) x = h <$> f acc x) (acc : β) :
    xs.foldlM g (h acc) = h <$> xs.foldlM f acc := by
  induction xs generalizing acc with
  | nil => rfl
  | cons x xs ih =>
      have ih := ih fun acc y hy => hturn acc y (by simp [hy])
      rw [List.foldlM_cons, List.foldlM_cons, hturn acc x (by simp)]
      cases f acc x with
      | error e => rfl
      | ok next => exact ih next

theorem mapM_hom {γ : Type} {f : α → Except ε β} {g : α → Except ε γ} {h : β → γ} {xs : List α}
    (hturn : ∀ x ∈ xs, g x = h <$> f x) : xs.mapM g = List.map h <$> xs.mapM f := by
  induction xs with
  | nil => rfl
  | cons x xs ih =>
      have ih := ih fun y hy => hturn y (by simp [hy])
      rw [List.mapM_cons, List.mapM_cons, hturn x (by simp), ih]
      cases f x with
      | error e => rfl
      | ok y =>
          cases xs.mapM f with
          | error e => rfl
          | ok ys => rfl

theorem mapM_congr {f g : α → Except ε β} {xs : List α} (h : ∀ x ∈ xs, f x = g x) :
    xs.mapM f = xs.mapM g := by
  induction xs with
  | nil => rfl
  | cons x xs ih =>
      rw [List.mapM_cons, List.mapM_cons, h x (by simp), ih fun y hy => h y (by simp [hy])]

end Unr.Logic
