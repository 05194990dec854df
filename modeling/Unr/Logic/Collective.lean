import Unr.Logic.Progress

/-!
Parties that take part in collective calls.

A collective call of kind `κ` takes a contribution from every party and gives
all contributions to each of them. A party enters its next call when it likes
and leaves it when all others have entered a call of the same kind as their
call of that number; until then it waits. So some parties may be one call ahead
of others, and a party whose call does not match those of the others waits for
ever.

How the parties take turns makes no difference: they come through if and only
if their calls agree in lockstep, and then every order of steps comes to the
same end.
-/

namespace Unr.Logic

/-- What a party does: it has a result, it has failed, or it makes a call and
goes on with what all parties contribute. -/
inductive Party (ε κ α β : Type)
  | done (result : β)
  | fail (e : ε)
  | call (k : κ) (x : α) (next : List α → Party ε κ α β)

variable {ε κ α β γ : Type}

namespace Party

def bind : Party ε κ α β → (β → Party ε κ α γ) → Party ε κ α γ
  | .done result, f => f result
  | .fail e, _ => .fail e
  | .call k x next, f => .call k x fun xs => (next xs).bind f

instance : Monad (Party ε κ α) where
  pure := .done
  bind := .bind

def collect (k : κ) (x : α) : Party ε κ α (List α) := .call k x .done

def ofExcept : Except ε β → Party ε κ α β
  | .ok b => .done b
  | .error e => .fail e

@[simp] theorem ofExcept_ok (b : β) : (ofExcept (.ok b) : Party ε κ α β) = .done b := rfl

@[simp] theorem done_bind (b : β) (f : β → Party ε κ α γ) : (Party.done b >>= f) = f b := rfl

instance : LawfulMonad (Party ε κ α) := by
  have hassoc : ∀ {α' β' γ' : Type} (P : Party ε κ α α') (f : α' → Party ε κ α β')
      (g : β' → Party ε κ α γ'), (P.bind f).bind g = P.bind fun b => (f b).bind g := by
    intro α' β' γ' P f g
    induction P with
    | done | fail => rfl
    | call k x next ih => simp only [Party.bind, ih]
  refine LawfulMonad.mk' _ ?_ (fun _ _ => rfl) hassoc
  intro α' P
  change P.bind _ = P
  induction P with
  | done | fail => rfl
  | call k x next ih => simpa only [Party.bind] using congrArg _ (funext ih)

/-- Party `p` goes through these calls, each with what all have contributed,
and is then `P'`. -/
def Reach (p : Nat) : Party ε κ α β → List (κ × List α) → Party ε κ α β → Prop
  | P, [], P' => P = P'
  | .call k x next, (k', xs) :: rounds, P' =>
      k' = k ∧ xs[p]? = some x ∧ (next xs).Reach p rounds P'
  | .done _, _ :: _, _ => False
  | .fail _, _ :: _, _ => False

@[simp] theorem reach_nil {p : Nat} {P P' : Party ε κ α β} : P.Reach p [] P' ↔ P = P' := by
  cases P <;> rfl

@[simp] theorem reach_call_cons {p : Nat} {k k' : κ} {x : α} {next : List α → Party ε κ α β}
    {xs : List α} {rounds : List (κ × List α)} {P' : Party ε κ α β} :
    (Party.call k x next).Reach p ((k', xs) :: rounds) P' ↔
      k' = k ∧ xs[p]? = some x ∧ (next xs).Reach p rounds P' := Iff.rfl

theorem Reach.append {p : Nat} {P P' P'' : Party ε κ α β} {rounds rounds' : List (κ × List α)}
    (h : P.Reach p rounds P') (h' : P'.Reach p rounds' P'') :
    P.Reach p (rounds ++ rounds') P'' := by
  induction rounds generalizing P with
  | nil =>
      cases reach_nil.mp h
      exact h'
  | cons round rounds ih =>
      obtain ⟨k', xs⟩ := round
      cases P with
      | done | fail => exact h.elim
      | call k x next =>
          obtain ⟨hk, hx, hrest⟩ := h
          exact ⟨hk, hx, ih hrest⟩

theorem Reach.cons {p : Nat} {P P' : Party ε κ α β} {k : κ} {xs : List α}
    {rounds : List (κ × List α)} (h : P.Reach p ((k, xs) :: rounds) P') :
    ∃ x next, P = .call k x next ∧ xs[p]? = some x ∧ (next xs).Reach p rounds P' := by
  cases P with
  | done | fail => exact h.elim
  | call k' x next =>
      obtain ⟨rfl, hx, hrest⟩ := h
      exact ⟨x, next, rfl, hx, hrest⟩

end Party

/-! ### Lockstep -/

/-- All parties go through the same calls, and each comes to its result. -/
def Lockstep (size : Nat) (ps : Nat → Party ε κ α β) (res : Nat → β) : Prop :=
  ∃ rounds : List (κ × List α), (∀ round ∈ rounds, round.2.length = size) ∧
    ∀ p < size, (ps p).Reach p rounds (.done (res p))

variable {size : Nat} {ps : Nat → Party ε κ α β} {res : Nat → β}

theorem lockstep_done (h : ∀ p < size, ps p = .done (res p)) : Lockstep size ps res :=
  ⟨[], fun _ hmem => absurd hmem List.not_mem_nil, fun p hp => Party.reach_nil.mpr (h p hp)⟩

theorem lockstep_call (hpos : 0 < size) {k : κ} (x : Nat → α)
    (next : Nat → List α → Party ε κ α β) (h : ∀ p < size, ps p = .call k (x p) (next p)) :
    Lockstep size ps res ↔
      Lockstep size (fun p => next p ((List.range size).map x)) res := by
  constructor
  · rintro ⟨rounds, hlength, hreach⟩
    cases rounds with
    | nil =>
        have hdone := Party.reach_nil.mp (hreach 0 hpos)
        rw [h 0 hpos] at hdone
        cases hdone
    | cons round rounds =>
        obtain ⟨k', xs⟩ := round
        have hcontributed : ∀ p < size, xs[p]? = some (x p) ∧
            (next p xs).Reach p rounds (.done (res p)) := by
          intro p hp
          have hp' := hreach p hp
          rw [h p hp] at hp'
          exact hp'.2
        have hxs : xs = (List.range size).map x := by
          refine List.ext_getElem? fun p => ?_
          by_cases hp : p < size
          · rw [(hcontributed p hp).1]
            simp [hp]
          · rw [List.getElem?_eq_none (by rw [hlength _ List.mem_cons_self]; omega),
              List.getElem?_eq_none (by simpa using hp)]
        refine ⟨rounds, fun round hmem => hlength round (List.mem_cons_of_mem _ hmem), ?_⟩
        exact fun p hp => hxs ▸ (hcontributed p hp).2
  · rintro ⟨rounds, hlength, hreach⟩
    refine ⟨(k, (List.range size).map x) :: rounds, ?_, fun p hp => ?_⟩
    · intro round hmem
      obtain rfl | hmem := List.mem_cons.mp hmem
      · simp
      · exact hlength round hmem
    · rw [h p hp]
      exact ⟨rfl, by simp [hp], hreach p hp⟩

theorem lockstep_congr {ps' : Nat → Party ε κ α β} (h : ∀ p < size, ps p = ps' p) :
    Lockstep size ps res ↔ Lockstep size ps' res := by
  refine exists_congr fun rounds => and_congr_right fun _ => ?_
  exact forall₂_congr fun p hp => by rw [h p hp]

theorem lockstep_done_iff {b : Nat → β} (h : ∀ p < size, ps p = .done (b p)) :
    Lockstep size ps res ↔ ∀ p < size, b p = res p := by
  constructor
  · rintro ⟨rounds, -, hreach⟩ p hp
    have hp' := hreach p hp
    rw [h p hp] at hp'
    cases rounds with
    | nil => exact Party.done.inj (Party.reach_nil.mp hp')
    | cons => exact hp'.elim
  · exact fun heq => lockstep_done fun p hp => (h p hp).trans (congrArg _ (heq p hp))

theorem not_lockstep_of_kinds {p q : Nat} (hp : p < size) (hq : q < size) {k k' : κ} {x x' : α}
    {next next' : List α → Party ε κ α β} (hcall : ps p = .call k x next)
    (hcall' : ps q = .call k' x' next') (hne : k ≠ k') : ¬ Lockstep size ps res := by
  rintro ⟨rounds, -, hreach⟩
  have h := hreach p hp
  have h' := hreach q hq
  rw [hcall] at h
  rw [hcall'] at h'
  cases rounds with
  | nil => cases Party.reach_nil.mp h
  | cons round rounds => exact hne (h.1.symm.trans h'.1)

theorem not_lockstep_of_done {p q : Nat} (hp : p < size) (hq : q < size) {k : κ} {x : α}
    {next : List α → Party ε κ α β} {b : β} (hcall : ps p = .call k x next)
    (hdone : ps q = .done b) : ¬ Lockstep size ps res := by
  rintro ⟨rounds, -, hreach⟩
  have h := hreach p hp
  have h' := hreach q hq
  rw [hcall] at h
  rw [hdone] at h'
  cases rounds with
  | nil => cases Party.reach_nil.mp h
  | cons => exact h'.elim

theorem not_lockstep_of_fail {p : Nat} (hp : p < size) {e : ε} (hfail : ps p = .fail e) :
    ¬ Lockstep size ps res := by
  rintro ⟨rounds, -, hreach⟩
  have h := hreach p hp
  rw [hfail] at h
  cases rounds with
  | nil => cases Party.reach_nil.mp h
  | cons => exact h.elim

theorem ok_of_lockstep (h : Lockstep size ps res) {p : Nat} (hp : p < size) {r : Except ε γ}
    {g : γ → Party ε κ α β} (hparty : ps p = Party.ofExcept r >>= g) : ∃ c, r = .ok c := by
  cases r with
  | ok c => exact ⟨c, rfl⟩
  | error e => exact absurd h (not_lockstep_of_fail hp hparty)

/-! ### One party at a time -/

/-- The parties, the number of calls that each has left, and what each has
contributed to which call. -/
structure Meeting (ε κ α β : Type) where
  party : Nat → Party ε κ α β
  pos : Nat → Nat
  calls : Nat → Nat → Option (κ × α)

namespace Meeting

def init (ps : Nat → Party ε κ α β) : Meeting ε κ α β := ⟨ps, fun _ => 0, fun _ _ => none⟩

def enter (s : Meeting ε κ α β) (p : Nat) (k : κ) (x : α) : Meeting ε κ α β :=
  { s with calls := fun i q => if i = s.pos p ∧ q = p then some (k, x) else s.calls i q }

def leave (s : Meeting ε κ α β) (p : Nat) (P : Party ε κ α β) : Meeting ε κ α β :=
  { s with
    party := Function.update s.party p P
    pos := Function.update s.pos p (s.pos p + 1) }

section Updates

variable (s : Meeting ε κ α β) (p : Nat) (k : κ) (x : α) (P : Party ε κ α β)

@[simp] theorem enter_party : (s.enter p k x).party = s.party := rfl

@[simp] theorem enter_pos : (s.enter p k x).pos = s.pos := rfl

theorem enter_calls (i q : Nat) : (s.enter p k x).calls i q =
    if i = s.pos p ∧ q = p then some (k, x) else s.calls i q := rfl

@[simp] theorem leave_calls : (s.leave p P).calls = s.calls := rfl

@[simp] theorem leave_party : (s.leave p P).party p = P := Function.update_self ..

@[simp] theorem leave_pos : (s.leave p P).pos p = s.pos p + 1 := Function.update_self ..

theorem leave_party_of_ne {q : Nat} (h : q ≠ p) : (s.leave p P).party q = s.party q :=
  Function.update_of_ne h ..

theorem leave_pos_of_ne {q : Nat} (h : q ≠ p) : (s.leave p P).pos q = s.pos q :=
  Function.update_of_ne h ..

end Updates

variable {s s' t : Meeting ε κ α β} {p : Nat}

/-! ### Parties that agree -/

/-- The parties go through these calls: each has what is left of them before
it, and has contributed to those it has left and perhaps to the next one. -/
structure Follows (size : Nat) (rounds : List (κ × List α)) (res : Nat → β)
    (s : Meeting ε κ α β) : Prop where
  reach : ∀ p < size, (s.party p).Reach p (rounds.drop (s.pos p)) (.done (res p))
  pos_le : ∀ p < size, s.pos p ≤ rounds.length
  past : ∀ p < size, ∀ i < s.pos p, s.calls i p ≠ none
  contributed : ∀ p < size, ∀ i a, s.calls i p = some a →
    i ≤ s.pos p ∧ ∃ xs, rounds[i]? = some (a.1, xs) ∧ xs[p]? = some a.2

variable {rounds : List (κ × List α)} {res : Nat → β}

theorem Follows.next (h : s.Follows size rounds res) (hp : p < size) {k : κ} {x : α}
    {next : List α → Party ε κ α β} (hparty : s.party p = .call k x next) :
    s.pos p < rounds.length ∧ ∃ xs, rounds[s.pos p]? = some (k, xs) ∧ xs[p]? = some x ∧
      (next xs).Reach p (rounds.drop (s.pos p + 1)) (.done (res p)) := by
  have hreach := h.reach p hp
  rw [hparty] at hreach
  cases hrest : rounds.drop (s.pos p) with
  | nil =>
      rw [hrest] at hreach
      cases Party.reach_nil.mp hreach
  | cons round rest =>
      obtain ⟨k', xs⟩ := round
      rw [hrest] at hreach
      obtain ⟨rfl, hx, hreach⟩ := hreach
      have hget : rounds[s.pos p]? = some (k', xs) := by
        have hzero : (rounds.drop (s.pos p))[0]? = rounds[s.pos p]? := List.getElem?_drop
        rw [hrest] at hzero
        exact hzero.symm
      have htail : rounds.drop (s.pos p + 1) = rest := by
        rw [← List.drop_drop, hrest, List.drop_one, List.tail_cons]
      exact ⟨(List.getElem?_eq_some_iff.mp hget).1, xs, hget, hx, htail ▸ hreach⟩

theorem follows_init {ps : Nat → Party ε κ α β}
    (h : ∀ p < size, (ps p).Reach p rounds (.done (res p))) :
    (init ps).Follows size rounds res := by
  refine ⟨h, fun p _ => Nat.zero_le _, fun p _ i hi => absurd hi (Nat.not_lt_zero i), ?_⟩
  intro p _ i a ha
  cases ha

section Steps

variable [DecidableEq κ]

/-- What has been contributed to call number `i`, if all parties have entered
it with the kind `k`. -/
def gather (size : Nat) (s : Meeting ε κ α β) (i : Nat) (k : κ) : Option (List α) :=
  (List.range size).mapM fun q => (s.calls i q).bind fun x => if x.1 = k then some x.2 else none

/-- Party `p` enters its next call, or leaves it. -/
def step (size : Nat) (s : Meeting ε κ α β) (p : Nat) : Option (Meeting ε κ α β) :=
  if p < size then
    match s.party p with
    | .done _ | .fail _ => none
    | .call k x next =>
        match s.calls (s.pos p) p with
        | none => some (s.enter p k x)
        | some _ => (s.gather size (s.pos p) k).map fun xs => s.leave p (next xs)
  else none

theorem gather_eq_some {i : Nat} {k : κ} {xs : List α} :
    s.gather size i k = some xs ↔
      xs.length = size ∧ ∀ q < size, ∃ x, s.calls i q = some (k, x) ∧ xs[q]? = some x := by
  induction size generalizing xs with
  | zero =>
      simp only [gather, List.range_zero, List.mapM_nil, Option.pure_def, Option.some.injEq,
        Nat.not_lt_zero, false_implies, implies_true, and_true]
      exact ⟨fun h => h ▸ rfl, fun h => (List.eq_nil_of_length_eq_zero h).symm⟩
  | succ size ih =>
      have hsplit : s.gather (size + 1) i k = some xs ↔ ∃ ys x, s.gather size i k = some ys ∧
          s.calls i size = some (k, x) ∧ xs = ys ++ [x] := by
        rw [gather, List.range_succ, List.mapM_append]
        simp only [List.mapM_cons, List.mapM_nil, Option.bind_eq_bind, Option.pure_def,
          Option.bind_eq_some_iff, Option.some.injEq, Option.ite_none_right_eq_some, gather]
        constructor
        · rintro ⟨ys, hys, _, ⟨x, ⟨a, ha, rfl, rfl⟩, _, rfl, rfl⟩, rfl⟩
          exact ⟨ys, a.2, hys, ha, rfl⟩
        · rintro ⟨ys, x, hys, hx, rfl⟩
          exact ⟨ys, hys, _, ⟨x, ⟨(k, x), hx, rfl, rfl⟩, _, rfl, rfl⟩, rfl⟩
      rw [hsplit]
      constructor
      · rintro ⟨ys, x, hys, hx, rfl⟩
        obtain ⟨rfl, hys⟩ := ih.mp hys
        refine ⟨by simp, fun q hq => ?_⟩
        by_cases hlast : q = ys.length
        · exact ⟨x, hlast ▸ hx, by simp [hlast]⟩
        · have hlt : q < ys.length := by omega
          obtain ⟨y, hy, hget⟩ := hys q hlt
          exact ⟨y, hy, by rw [List.getElem?_append_left hlt, hget]⟩
      · rintro ⟨hlength, hall⟩
        obtain ⟨x, hx, hget⟩ := hall size (Nat.lt_succ_self _)
        refine ⟨xs.take size, x, ih.mpr ⟨by simp [hlength], fun q hq => ?_⟩, hx, ?_⟩
        · obtain ⟨y, hy, hget⟩ := hall q (Nat.lt_succ_of_lt hq)
          exact ⟨y, hy, by rw [List.getElem?_take_of_lt hq, hget]⟩
        · obtain ⟨hlt, rfl⟩ := List.getElem?_eq_some_iff.mp hget
          rw [List.take_append_getElem, List.take_of_length_le (by omega)]

inductive Move (size : Nat) (s : Meeting ε κ α β) (p : Nat) : Meeting ε κ α β → Prop
  | enter (k : κ) (x : α) (next : List α → Party ε κ α β) (hp : p < size)
      (party : s.party p = .call k x next) (fresh : s.calls (s.pos p) p = none) :
      Move size s p (s.enter p k x)
  | leave (k : κ) (x : α) (next : List α → Party ε κ α β) (xs : List α) (hp : p < size)
      (party : s.party p = .call k x next) (entered : s.calls (s.pos p) p ≠ none)
      (all : s.gather size (s.pos p) k = some xs) : Move size s p (s.leave p (next xs))

theorem move_of_step (h : s.step size p = some s') : Move size s p s' := by
  unfold step at h
  split at h
  · next hp =>
    cases hparty : s.party p with
    | done | fail => simp [hparty] at h
    | call k x next =>
        rw [hparty] at h
        dsimp only at h
        cases hcalls : s.calls (s.pos p) p with
        | none =>
            rw [hcalls, Option.some.injEq] at h
            subst h
            exact .enter k x next hp hparty hcalls
        | some =>
            rw [hcalls] at h
            obtain ⟨xs, hall, rfl⟩ := Option.map_eq_some_iff.mp h
            exact .leave k x next xs hp hparty (by simp [hcalls]) hall
  · cases h

theorem Follows.step (hlength : ∀ round ∈ rounds, round.2.length = size)
    (h : s.Follows size rounds res) (hs : s.step size p = some s') :
    s'.Follows size rounds res := by
  cases move_of_step hs with
  | enter k x next hp party fresh =>
      obtain ⟨hlt, xs, hround, hx, -⟩ := h.next hp party
      refine ⟨h.reach, h.pos_le, fun q hq i hi => ?_, fun q hq i a ha => ?_⟩
      · rw [enter_calls]
        split
        · exact Option.some_ne_none _
        · exact h.past q hq i hi
      · rw [enter_calls] at ha
        split at ha
        · next hqi =>
          obtain ⟨rfl, rfl⟩ := hqi
          cases ha
          exact ⟨Nat.le_refl _, xs, hround, hx⟩
        · exact h.contributed q hq i a ha
  | leave k x next xs' hp party entered all =>
      obtain ⟨hlt, xs, hround, hx, hreach⟩ := h.next hp party
      obtain ⟨hlength', hgathered⟩ := gather_eq_some.mp all
      have hxs : xs' = xs := by
        refine List.ext_getElem? fun q => ?_
        by_cases hq : q < size
        · obtain ⟨y, hy, hget⟩ := hgathered q hq
          obtain ⟨-, ys, hys, hget'⟩ := h.contributed q hq _ _ hy
          rw [hround, Option.some.injEq, Prod.mk.injEq] at hys
          rw [hget, hys.2, hget']
        · have hxs : xs.length = size := hlength _ (List.mem_of_getElem? hround)
          rw [List.getElem?_eq_none (by omega), List.getElem?_eq_none (by omega)]
      subst hxs
      refine ⟨fun q hq => ?_, fun q hq => ?_, fun q hq i hi => ?_, fun q hq i a ha => ?_⟩
      · by_cases hqp : q = p
        · subst hqp
          rw [leave_party, leave_pos]
          exact hreach
        · rw [leave_party_of_ne _ _ _ hqp, leave_pos_of_ne _ _ _ hqp]
          exact h.reach q hq
      · by_cases hqp : q = p
        · subst hqp
          rw [leave_pos]
          exact hlt
        · rw [leave_pos_of_ne _ _ _ hqp]
          exact h.pos_le q hq
      · by_cases hqp : q = p
        · subst hqp
          rw [leave_pos] at hi
          obtain hi | rfl := Nat.lt_succ_iff_lt_or_eq.mp hi
          · exact h.past q hq i hi
          · exact entered
        · rw [leave_pos_of_ne _ _ _ hqp] at hi
          exact h.past q hq i hi
      · obtain ⟨hle, hround⟩ := h.contributed q hq i a ha
        refine ⟨?_, hround⟩
        by_cases hqp : q = p
        · subst hqp
          rw [leave_pos]
          omega
        · rw [leave_pos_of_ne _ _ _ hqp]
          exact hle

def left (n : Nat) (s : Meeting ε κ α β) (p : Nat) : Nat :=
  2 * (n - s.pos p) + if s.calls (s.pos p) p = none then 1 else 0

theorem Follows.left_lt (h : s.Follows size rounds res) (hs : s.step size p = some s') :
    ∑ q ∈ Finset.range size, s'.left rounds.length q <
      ∑ q ∈ Finset.range size, s.left rounds.length q := by
  cases move_of_step hs with
  | enter k x next hp party fresh =>
      refine Finset.sum_lt_sum (fun q _ => ?_) ⟨p, Finset.mem_range.mpr hp, ?_⟩
      · simp only [left, enter_pos, enter_calls]
        split <;> split <;> simp_all
      · simp [left, enter_calls, fresh]
  | leave k x next xs hp party entered all =>
      obtain ⟨hlt, -⟩ := h.next hp party
      have hp' : (s.leave p (next xs)).left rounds.length p < s.left rounds.length p := by
        simp only [left, leave_pos, leave_calls, entered, if_false]
        split <;> omega
      refine Finset.sum_lt_sum (fun q _ => ?_) ⟨p, Finset.mem_range.mpr hp, hp'⟩
      by_cases hqp : q = p
      · subst hqp
        exact hp'.le
      · simp [left, leave_pos_of_ne _ _ _ hqp]

/-- Parties that agree are not stuck before they are done. -/
theorem Follows.done (h : s.Follows size rounds res)
    (hstuck : ∀ p, s.step size p = none) : ∀ p < size, s.party p = .done (res p) := by
  intro p hp
  -- one of those that are furthest behind
  obtain ⟨q, hq, hmin⟩ :=
    Finset.exists_min_image (Finset.range size) s.pos ⟨p, Finset.mem_range.mpr hp⟩
  rw [Finset.mem_range] at hq
  have hall : ∀ q' < size, s.pos q ≤ s.pos q' := fun q' hq' => hmin q' (Finset.mem_range.mpr hq')
  by_cases hend : rounds.length ≤ s.pos q
  · have hreach := h.reach p hp
    rw [List.drop_eq_nil_of_le (hend.trans (hall p hp))] at hreach
    exact Party.reach_nil.mp hreach
  · exfalso
    -- it makes a call that all others have entered
    have hreach := h.reach q hq
    rw [List.drop_eq_getElem_cons (by omega)] at hreach
    obtain ⟨x, next, hparty, -, -⟩ := hreach.cons
    have hentered : ∀ q' < size, ∃ y, s.calls (s.pos q) q' =
        some (rounds[s.pos q].1, y) := by
      intro q' hq'
      have hsome : s.calls (s.pos q) q' ≠ none := by
        obtain hlt | heq := (hall q' hq').lt_or_eq
        · exact h.past q' hq' _ hlt
        · intro hnone
          have hreach' := h.reach q' hq'
          rw [← heq, List.drop_eq_getElem_cons (by omega)] at hreach'
          obtain ⟨x', next', hparty', -, -⟩ := hreach'.cons
          rw [heq] at hnone
          have hstuck' := hstuck q'
          simp [Meeting.step, hq', hparty', hnone] at hstuck'
      obtain ⟨⟨k, y⟩, hy⟩ := Option.ne_none_iff_exists'.mp hsome
      obtain ⟨-, xs, hround, -⟩ := h.contributed q' hq' _ _ hy
      rw [List.getElem?_eq_getElem (by omega), Option.some.injEq] at hround
      exact ⟨y, by rw [hy, hround]⟩
    have : Nonempty α := ⟨x⟩
    choose! y hy using hentered
    have hgather : s.gather size (s.pos q) rounds[s.pos q].1 =
        some ((List.range size).map y) := by
      refine gather_eq_some.mpr ⟨by simp, fun q' hq' => ⟨y q', hy q' hq', by simp [hq']⟩⟩
    have hstuck' := hstuck q
    simp [Meeting.step, hq, hparty, hy q hq, hgather] at hstuck'

/-- Parties that agree in lockstep come to the same end in every order of
steps. -/
theorem lockstep_steps {ps : Nat → Party ε κ α β} (h : Lockstep size ps res) :
    ∃ n, ∀ m s, Steps (step size) (fun _ _ => True) (init ps) m s →
      m ≤ n ∧ (Stuck (step size) (fun _ _ => True) s → ∀ p < size, s.party p = .done (res p)) := by
  obtain ⟨rounds, hlength, hreach⟩ := h
  refine ⟨∑ p ∈ Finset.range size, (init ps).left rounds.length p, fun m s hsteps => ?_⟩
  obtain ⟨hfollows, hle⟩ := hsteps.measure (I := Follows size rounds res)
    (fun t p u ht _ hs => ⟨ht.step hlength hs, ht.left_lt hs⟩) (follows_init hreach)
  exact ⟨by omega, fun hstuck => hfollows.done fun p => hstuck p trivial⟩

theorem exists_run_of_lockstep {ps : Nat → Party ε κ α β} (h : Lockstep size ps res) :
    ∃ s, Run (step size) (fun _ _ => True) (init ps) s ∧ ∀ p < size, s.party p = .done (res p) := by
  obtain ⟨n, hn⟩ := lockstep_steps h
  obtain ⟨rounds, hlength, hreach⟩ := h
  obtain ⟨s, hrun, hstuck⟩ := exists_stuck (I := Follows size rounds res)
    (fun t p u ht _ hs => ⟨ht.step hlength hs, ht.left_lt hs⟩) (follows_init hreach)
  obtain ⟨m, hsteps⟩ := hrun.steps
  exact ⟨s, hrun, (hn m s hsteps).2 hstuck⟩

/-! ### Parties that come through -/

/-- Each party has come to where it is by calls that all have entered. -/
structure Traced (size : Nat) (ps : Nat → Party ε κ α β) (s : Meeting ε κ α β) : Prop where
  reach : ∀ p < size, ∃ rounds : List (κ × List α), rounds.length = s.pos p ∧
    (ps p).Reach p rounds (s.party p) ∧ ∀ i round, rounds[i]? = some round →
      round.2.length = size ∧
        ∀ q < size, ∃ x, s.calls i q = some (round.1, x) ∧ round.2[q]? = some x
  next : ∀ p < size, ∀ i a, s.calls i p = some a → s.pos p ≤ i →
    i = s.pos p ∧ ∃ next, s.party p = .call a.1 a.2 next

theorem Traced.step {ps : Nat → Party ε κ α β} (h : s.Traced size ps)
    (hs : s.step size p = some s') : s'.Traced size ps := by
  cases move_of_step hs with
  | enter k x next hp party fresh =>
      -- nothing that has been contributed is lost
      have hkeep : ∀ {i q a}, s.calls i q = some a → (s.enter p k x).calls i q = some a := by
        intro i q a ha
        rw [enter_calls, if_neg, ha]
        rintro ⟨rfl, rfl⟩
        cases fresh.symm.trans ha
      refine ⟨fun q hq => ?_, fun q hq i a ha hi => ?_⟩
      · obtain ⟨rounds, hlength, hreach, hall⟩ := h.reach q hq
        refine ⟨rounds, hlength, hreach, fun i round hround => ?_⟩
        obtain ⟨hxs, hcalls⟩ := hall i round hround
        refine ⟨hxs, fun q' hq' => ?_⟩
        obtain ⟨y, hy, hget⟩ := hcalls q' hq'
        exact ⟨y, hkeep hy, hget⟩
      · rw [enter_calls] at ha
        split at ha
        · next hqi =>
          obtain ⟨rfl, rfl⟩ := hqi
          cases ha
          exact ⟨rfl, next, party⟩
        · exact h.next q hq i a ha hi
  | leave k x next xs hp party entered all =>
      refine ⟨fun q hq => ?_, fun q hq i a ha hi => ?_⟩
      · by_cases hqp : q = p
        · subst hqp
          obtain ⟨rounds, hlength, hreach, hall⟩ := h.reach q hq
          obtain ⟨hxs, hcalls⟩ := gather_eq_some.mp all
          refine ⟨rounds ++ [(k, xs)], by simp [hlength], ?_, fun i round hround => ?_⟩
          · rw [leave_party]
            refine hreach.append ?_
            rw [party]
            -- its own contribution is the one it has entered with
            obtain ⟨y, hy, hget⟩ := hcalls q hq
            obtain ⟨-, next', hparty⟩ := h.next q hq _ _ hy (Nat.le_refl _)
            cases party.symm.trans hparty
            exact ⟨rfl, hget, Party.reach_nil.mpr rfl⟩
          · by_cases hi : i < rounds.length
            · rw [List.getElem?_append_left hi] at hround
              exact hall i round hround
            · obtain ⟨hi', -⟩ := List.getElem?_eq_some_iff.mp hround
              have hlast : i = rounds.length := by
                rw [List.length_append, List.length_singleton] at hi'
                omega
              subst hlast
              rw [List.getElem?_concat_length, Option.some.injEq] at hround
              subst hround
              exact ⟨hxs, fun q' hq' => by simpa [hlength] using hcalls q' hq'⟩
        · rw [leave_party_of_ne _ _ _ hqp, leave_pos_of_ne _ _ _ hqp]
          exact h.reach q hq
      · by_cases hqp : q = p
        · subst hqp
          rw [leave_pos] at hi
          have hi' := (h.next q hq i a ha (by omega)).1
          omega
        · rw [leave_pos_of_ne _ _ _ hqp] at hi ⊢
          rw [leave_party_of_ne _ _ _ hqp]
          exact h.next q hq i a ha hi

theorem lockstep_of_run {ps : Nat → Party ε κ α β}
    (hrun : Run (step size) (fun _ _ => True) (init ps) s)
    (hdone : ∀ p < size, s.party p = .done (res p)) : Lockstep size ps res := by
  have htraced : s.Traced size ps := by
    refine hrun.invariant (I := Traced size ps)
      ⟨fun p _ => ⟨[], rfl, Party.reach_nil.mpr rfl, ?_⟩, ?_⟩ fun _ _ _ _ h _ hs => h.step hs
    · intro i round hround
      cases hround
    · intro p _ i a ha
      cases ha
  by_cases hpos : 0 < size
  · choose! rounds hlength hreach hall using htraced.reach
    -- nobody has left more calls than another one
    have hle : ∀ p < size, ∀ q < size, s.pos p ≤ s.pos q := by
      intro p hp q hq
      by_contra hlt
      have hlt' : s.pos q < (rounds p).length := by
        rw [hlength p hp]
        omega
      obtain ⟨x, hx, -⟩ := (hall p hp (s.pos q) _ (List.getElem?_eq_getElem hlt')).2 q hq
      obtain ⟨-, next, hparty⟩ := htraced.next q hq _ _ hx (Nat.le_refl _)
      cases (hdone q hq).symm.trans hparty
    have hsame : ∀ p < size, rounds p = rounds 0 := by
      intro p hp
      have heq : (rounds p).length = (rounds 0).length := by
        rw [hlength p hp, hlength 0 hpos]
        exact Nat.le_antisymm (hle p hp 0 hpos) (hle 0 hpos p hp)
      refine List.ext_getElem heq fun i hi hi' => ?_
      obtain ⟨hxs, hcalls⟩ := hall p hp i _ (List.getElem?_eq_getElem hi)
      obtain ⟨hxs', hcalls'⟩ := hall 0 hpos i _ (List.getElem?_eq_getElem hi')
      have hentry : ∀ q < size, (rounds p)[i].1 = (rounds 0)[i].1 ∧
          (rounds p)[i].2[q]? = (rounds 0)[i].2[q]? := by
        intro q hq
        obtain ⟨x, hx, hget⟩ := hcalls q hq
        obtain ⟨x', hx', hget'⟩ := hcalls' q hq
        have heq := hx.symm.trans hx'
        rw [Option.some.injEq, Prod.mk.injEq] at heq
        exact ⟨heq.1, by rw [hget, hget', heq.2]⟩
      refine Prod.ext (hentry 0 hpos).1 (List.ext_getElem? fun q => ?_)
      by_cases hq : q < size
      · exact (hentry q hq).2
      · rw [List.getElem?_eq_none (by omega), List.getElem?_eq_none (by omega)]
    refine ⟨rounds 0, fun round hmem => ?_, fun p hp => ?_⟩
    · obtain ⟨i, hi, rfl⟩ := List.getElem_of_mem hmem
      exact (hall 0 hpos i _ (List.getElem?_eq_getElem hi)).1
    · rw [← hsame p hp, ← hdone p hp]
      exact hreach p hp
  · exact ⟨[], fun _ hmem => absurd hmem List.not_mem_nil, fun p hp => absurd hp (by omega)⟩

end Steps

end Meeting

end Unr.Logic
