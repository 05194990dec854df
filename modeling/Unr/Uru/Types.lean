import Mathlib

/-!
The scalar vocabulary every layer of the library shares: status codes,
transfer types, and the ways in which a call can fail to return. Sizes and
offsets (`size_t`) are natural numbers whose sums are reduced by `wrap64`;
flag counters (`int64_t`) are bit vectors.
-/

namespace Unr.Uru

/-- The members of `uru_status_t` that the modelled functions return or exit
with. -/
inductive UruStatus
  | statusOk | eventOverflow | signalTriggered | signalWaiting
  | errorExit | assertExit | mpiChannelErrorExit | verbsErrorExit
  deriving Repr, DecidableEq

inductive UruTransfer
  | unknown | dmaPut | dmaGet
  deriving Repr, DecidableEq

/-- The direction of a transfer as the other side sees it. -/
def UruTransfer.flip : UruTransfer → UruTransfer
  | .unknown => .unknown
  | .dmaPut => .dmaGet
  | .dmaGet => .dmaPut

theorem UruTransfer.flip_eq_dmaPut {t : UruTransfer} (h : t ≠ .unknown) :
    t.flip = .dmaPut ↔ t ≠ .dmaPut := by
  cases t with
  | unknown => exact absurd rfl h
  | dmaPut | dmaGet => decide

/-- Why a call does not return: the process exits with a status, or the call
runs into undefined behaviour (an access outside an array, a division by
zero), or it never ends. -/
inductive Stop
  | exit (status : UruStatus)
  | undefined
  | diverges
  deriving Repr, DecidableEq

abbrev Prog (α : Type) := Except Stop α

/-- `URU_ASSERT` and `URU_ASSERT_REASON` in a build with `URU_ENABLE_ASSERT`. -/
def uruAssert (condition : Prop) [Decidable condition] : Prog Unit :=
  if condition then .ok () else .error (.exit .assertExit)

def fetch {α : Type} (xs : List α) (i : Nat) : Prog α :=
  match xs[i]? with
  | some x => .ok x
  | none => .error .undefined

def store {α : Type} (xs : List α) (i : Nat) (x : α) : Prog (List α) :=
  if i < xs.length then .ok (xs.set i x) else .error .undefined

/-- `xs[i]` for an `int` index. -/
def fetchAt {α : Type} (xs : List α) (i : Int) : Prog α :=
  if i < 0 then .error .undefined else fetch xs i.toNat

/-- Unsigned 64-bit arithmetic keeps the residue modulo `2 ^ 64`. -/
def wrap64 (n : Nat) : Nat := n % 2 ^ 64

theorem wrap64_of_lt {n : Nat} (h : n < 2 ^ 64) : wrap64 n = n := Nat.mod_eq_of_lt h

/-! ### Reading a call off its definition

A call that asserts and then goes on is a conditional; a call that has
returned is the composition of calls that have returned. -/

theorem ok_bind {α β : Type} (a : α) (f : α → Prog β) : (Except.ok a >>= f) = f a := rfl

theorem error_bind {α β : Type} (e : Stop) (f : α → Prog β) :
    ((Except.error e : Prog α) >>= f) = .error e := rfl

theorem uruAssert_bind {β : Type} (condition : Prop) [Decidable condition]
    (f : Unit → Prog β) :
    (uruAssert condition >>= f) =
      if condition then f () else .error (.exit .assertExit) := by
  by_cases h : condition <;> simp [uruAssert, h, ok_bind, error_bind]

@[simp] theorem bind_eq_ok {α β : Type} {x : Prog α} {f : α → Prog β} {b : β} :
    (x >>= f) = .ok b ↔ ∃ a, x = .ok a ∧ f a = .ok b := by
  cases x <;> simp [bind, Except.bind]

@[simp] theorem pure_eq_ok {α : Type} {a b : α} :
    (pure a : Prog α) = .ok b ↔ a = b := by
  simp [pure, Except.pure]

@[simp] theorem throw_eq_ok {α : Type} {e : Stop} {a : α} :
    ¬ (throw e : Prog α) = .ok a := by
  simp [throw, throwThe, MonadExceptOf.throw]

@[simp] theorem uruAssert_eq_ok {condition : Prop} [Decidable condition] {u : Unit} :
    uruAssert condition = .ok u ↔ condition := by
  by_cases h : condition <;> simp [uruAssert, h]

@[simp] theorem throw_if_eq_ok {α β : Type} {condition : Prop} [Decidable condition] {e : Stop}
    {f : α → Prog β} {x : Prog β} {b : β} :
    (if condition then (throw e : Prog α) >>= f else x) = .ok b ↔ ¬ condition ∧ x = .ok b := by
  by_cases h : condition <;> simp [h]

@[simp] theorem fetch_eq_ok {α : Type} {xs : List α} {i : Nat} {x : α} :
    fetch xs i = .ok x ↔ xs[i]? = some x := by
  unfold fetch
  cases xs[i]? <;> simp

theorem fetch_of_lt {α : Type} {xs : List α} {i : Nat} (h : i < xs.length) :
    fetch xs i = .ok xs[i] := by
  rw [fetch_eq_ok, List.getElem?_eq_getElem h]

theorem store_of_lt {α : Type} {xs : List α} {i : Nat} {x : α} (h : i < xs.length) :
    store xs i x = .ok (xs.set i x) := if_pos h

@[simp] theorem store_eq_ok {α : Type} {xs ys : List α} {i : Nat} {x : α} :
    store xs i x = .ok ys ↔ i < xs.length ∧ xs.set i x = ys := by
  by_cases h : i < xs.length <;> simp [store, h]

theorem fetchAt_eq_ok {α : Type} {xs : List α} {i : Int} {x : α} :
    fetchAt xs i = .ok x ↔ 0 ≤ i ∧ xs[i.toNat]? = some x := by
  unfold fetchAt
  split
  · constructor
    · rintro ⟨⟩
    · rintro ⟨hnonneg, -⟩
      omega
  · rw [fetch_eq_ok]
    exact ⟨fun hx => ⟨by omega, hx⟩, And.right⟩

end Unr.Uru
