import Unr.Core.SendParts
import Unr.Core.Signal

/-!
A signal over its whole life: rounds of sends whose parts arrive in any order,
separated by `unr_sig_reset`.

The counter is read as two packed counts. The low one is the number of
messages still to come; the high one is the number of sub-messages announced
by the first parts that have arrived and not yet delivered by the others. The
high count goes below zero when a later part overtakes the first part of its
send, and the word then borrows from the low half. Everything the three calls
and the daemon observe of the counter follows from these two counts.
-/

namespace Unr.Core

open Unr.Uru Unr.Logic

/-- The sends to a signal between two resets, and the order in which their
parts reach the counter. -/
structure Round where
  sends : List Send
  order : List Part
  perm : order.Perm (sends.flatMap Send.parts)

/-- A round that uses the signal as it was created: `N` sends, and fewer
sub-messages behind first parts than the high half of the counter can count. -/
structure Round.Fits (r : Round) (N : Nat) : Prop where
  num_sends : r.sends.length = N
  num_sub_messages : (r.sends.map fun s => s.non_zeros - 1).sum < 2 ^ 32

def applyParts (flag : UruFlag) (ps : List Part) : UruFlag :=
  ps.foldl (fun flag p => flag.add p.sig_add) flag

def playRounds (flag : UruFlag) : List Round → Prog UruFlag
  | [] => .ok flag
  | r :: rs => do
      let flag ← unrSigReset (applyParts flag r.order)
      playRounds flag rs

/-- How often the counter arrives at zero while the parts are added. -/
def triggers (flag : UruFlag) : List Part → Nat
  | [] => 0
  | p :: ps =>
      (if (flag.add p.sig_add).counter = 0#64 then 1 else 0) + triggers (flag.add p.sig_add) ps

/-- Parts whose completion the daemon observes one after the other. -/
def deliver (flag : UruFlag) : List Part → Prog UruFlag
  | [] => .ok flag
  | p :: ps => do
      let (flag, _) ← flag.progress p.sig_add
      deliver flag ps

/-! ### The counter of a signal -/

@[simp] theorem applyParts_nil (flag : UruFlag) : applyParts flag [] = flag := rfl

@[simp] theorem applyParts_cons (flag : UruFlag) (p : Part) (ps : List Part) :
    applyParts flag (p :: ps) = applyParts (flag.add p.sig_add) ps := rfl

@[simp] theorem applyParts_num_event (flag : UruFlag) (ps : List Part) :
    (applyParts flag ps).num_event = flag.num_event := by
  induction ps generalizing flag with
  | nil => rfl
  | cons p ps ih => rw [applyParts_cons, ih, UruFlag.add_num_event]

theorem send_eq_of_mem_parts {s : Send} {p : Part} (hp : p ∈ s.parts) : p.send = s := by
  obtain ⟨j, -, rfl⟩ := List.mem_map.mp hp
  rfl

theorem Round.mem_parts {r : Round} {p : Part} (hp : p ∈ r.order) : p ∈ p.send.parts := by
  obtain ⟨s, -, hs⟩ := List.mem_flatMap.mp (r.perm.mem_iff.mp hp)
  rwa [send_eq_of_mem_parts hs]

/-- Adding parts moves the two packed counts separately. -/
theorem applyParts_counter {flag : UruFlag} {lo hi : ℤ} {ps : List Part}
    (hcounter : flag.counter = packed 64 32 lo hi) (hmem : ∀ p ∈ ps, p ∈ p.send.parts) :
    (applyParts flag ps).counter =
      packed 64 32 (lo - messages ps) (hi + outstanding ps) := by
  induction ps generalizing flag lo hi with
  | nil => simpa using hcounter
  | cons p ps ih =>
      have hnext : (flag.add p.sig_add).counter =
          packed 64 32 (lo - p.messages) (hi + p.outstanding) := by
        rw [UruFlag.add_counter, hcounter, p.sig_add_eq (hmem p (by simp)), packed_add,
          ← sub_eq_add_neg]
      rw [applyParts_cons, ih hnext fun q hq => hmem q (by simp [hq]), messages_cons,
        outstanding_cons]
      congr 1 <;> ring

/-- A flag at the beginning of a round of a signal for `N` events. -/
structure Fresh (flag : UruFlag) (N : Nat) : Prop where
  counter : flag.counter = BitVec.ofNat 64 N
  num_event : flag.num_event = BitVec.ofNat 32 N

theorem fresh_of_create {N : Nat} {flag : UruFlag} (hpos : 0 < N) (hlt : N < 2 ^ 32)
    (hcreate : unrSigCreate (BitVec.ofNat 64 N) = .ok flag) : Fresh flag N := by
  rw [unrSigCreate_of_lt hpos hlt] at hcreate
  cases hcreate
  exact ⟨rfl, rfl⟩

theorem fresh_rearmed {N : Nat} {flag : UruFlag} (hlt : N < 2 ^ 32)
    (hnum : flag.num_event = BitVec.ofNat 32 N) :
    Fresh { flag with counter := flag.num_event.setWidth 64 } N := by
  refine ⟨?_, hnum⟩
  apply BitVec.eq_of_toNat_eq
  simp only [hnum, BitVec.toNat_setWidth, BitVec.toNat_ofNat]
  omega

theorem fresh_of_reset {N : Nat} {flag flag' : UruFlag} (hlt : N < 2 ^ 31)
    (hnum : flag.num_event = BitVec.ofNat 32 N) (hreset : unrSigReset flag = .ok flag') :
    Fresh flag' N := by
  obtain ⟨-, rfl⟩ := (unrSigReset_eq_ok_iff flag flag').mp hreset
  exact fresh_rearmed (by omega) hnum

theorem fresh_of_playRounds {N : Nat} {flag flag' : UruFlag} {rs : List Round}
    (hlt : N < 2 ^ 31) (hfresh : Fresh flag N) (hplay : playRounds flag rs = .ok flag') :
    Fresh flag' N := by
  induction rs generalizing flag with
  | nil =>
      cases hplay
      exact hfresh
  | cons r rs ih =>
      obtain ⟨next, hreset, hrest⟩ := bind_eq_ok.mp hplay
      exact ih (fresh_of_reset hlt (by simpa using hfresh.num_event) hreset) hrest

/-! ### One round

A prefix of the order splits the parts of the round into those applied and
those still to come. -/

section Prefix

variable {r : Round} {applied rest : List Part} (hsplit : applied ++ rest = r.order)

include hsplit in
theorem messages_split : messages applied + messages rest = r.sends.length := by
  rw [← messages_append, hsplit, messages_perm r.perm, messages_flatMap]

include hsplit in
theorem countP_rest_le :
    rest.countP (!Part.isFirst ·) ≤ (r.sends.map fun s => s.non_zeros - 1).sum := by
  rw [← countP_not_isFirst_flatMap, ← r.perm.countP_eq, ← hsplit, List.countP_append]
  exact Nat.le_add_left _ _

variable {N : Nat} {flag : UruFlag} (hfresh : Fresh flag N) (hlt : N < 2 ^ 31)
  (hsends : r.sends.length ≤ N)

include hsplit hfresh in
theorem counter_applied :
    (applyParts flag applied).counter =
      packed 64 32 (N - messages applied) (outstanding applied) := by
  have hstart : flag.counter = packed 64 32 N 0 := by
    rw [hfresh.counter, packed, mul_zero, add_zero, BitVec.ofInt_natCast]
  have hmem : ∀ p ∈ applied, p ∈ p.send.parts := fun p hp =>
    r.mem_parts (hsplit ▸ List.mem_append_left rest hp)
  rw [applyParts_counter hstart hmem, zero_add]

include hsplit hsends in
/-- The low count never borrows. -/
theorem low_nonneg : 0 ≤ (N : ℤ) - messages applied := by
  have hsum := messages_split hsplit
  have hrest := messages_nonneg rest
  omega

include hlt in
theorem low_lt (applied : List Part) : (N : ℤ) - messages applied < 2 ^ 31 := by
  have happ := messages_nonneg applied
  omega

include hsplit hfresh hlt hsends in
/-- `unr_sig_check` returns exactly while the high count is zero as a 32-bit
number. -/
theorem check_applied_iff :
    (unrSigCheck (applyParts flag applied) = .ok .signalTriggered ∨
      unrSigCheck (applyParts flag applied) = .ok .signalWaiting) ↔
      (2 : ℤ) ^ 32 ∣ outstanding applied := by
  have hmask : (applyParts flag applied).counter.toNat < 2 ^ 31 ↔
      (2 : ℤ) ^ 32 ∣ outstanding applied := by
    rw [counter_applied hsplit hfresh]
    exact packed_toNat_lt_iff (by omega) (low_nonneg hsplit hsends) _ (by omega)
      (low_lt hlt applied)
  rw [← hmask]
  constructor
  · intro hcheck
    by_contra hge
    rw [unrSigCheck_of_ge (not_lt.mp hge)] at hcheck
    rcases hcheck with hcheck | hcheck <;> cases hcheck
  · intro hbelow
    rw [unrSigCheck_of_lt hbelow]
    split
    · exact .inl rfl
    · exact .inr rfl

include hsplit hfresh hlt hsends in
/-- The daemon finds the counter non-negative exactly while the high count,
as a 32-bit number, has its top bit clear. -/
theorem toInt_applied_iff :
    0 ≤ (applyParts flag applied).counter.toInt ↔
      2 * (outstanding applied % 2 ^ 32) < 2 ^ 32 := by
  have hlow := low_lt hlt applied
  rw [counter_applied hsplit hfresh]
  exact packed_toInt_nonneg_iff (low_nonneg hsplit hsends) (by omega) _ (by omega)

end Prefix

/-- The two counts of the parts applied are those of a complete collection of
sends exactly when nothing is left to apply, as long as the high count cannot
have gone all the way around. -/
theorem rest_eq_nil_iff {sends : List Send} {applied rest : List Part}
    (hperm : (applied ++ rest).Perm (sends.flatMap Send.parts))
    (hfew : messages rest = 0 → rest.countP (!Part.isFirst ·) < 2 ^ 32) :
    ((sends.length : ℤ) - messages applied = 0 ∧ (2 : ℤ) ^ 32 ∣ outstanding applied) ↔
      rest = [] := by
  have hmsgs := messages_perm hperm
  have hout := outstanding_perm hperm
  rw [messages_append, messages_flatMap] at hmsgs
  rw [outstanding_append, outstanding_flatMap] at hout
  constructor
  · rintro ⟨hzero, hdvd⟩
    -- no first part is left, so every part still to come counts as outstanding
    have hmsgsRest : messages rest = 0 := by omega
    have hnone : rest.countP Part.isFirst = 0 := by
      rw [messages_eq] at hmsgsRest
      exact_mod_cast hmsgsRest
    have hfilter : rest.filter Part.isFirst = [] := by
      rwa [← List.length_eq_zero_iff, ← List.countP_eq_length_filter]
    have hrest := outstanding_eq rest
    rw [hfilter, List.map_nil, List.sum_nil, zero_sub] at hrest
    have hlt := hfew hmsgsRest
    have hzero' : rest.countP (!Part.isFirst ·) = 0 := by
      have hcount : outstanding applied = rest.countP (!Part.isFirst ·) := by omega
      rw [hcount] at hdvd
      have := Int.eq_zero_of_dvd_of_nonneg_of_lt (by omega) (by omega) hdvd
      omega
    apply List.eq_nil_iff_forall_not_mem.mpr
    intro p hp
    have h₁ := List.countP_eq_zero.mp hnone p hp
    have h₂ := List.countP_eq_zero.mp hzero' p hp
    simp_all
  · rintro rfl
    simp only [messages_nil, outstanding_nil, add_zero] at hmsgs hout
    rw [hmsgs, hout, sub_self]
    exact ⟨rfl, dvd_zero _⟩

theorem Fresh.counter_eq_zero_iff {N : Nat} {flag : UruFlag} {r : Round}
    {applied rest : List Part} (hfresh : Fresh flag N) (hlt : N < 2 ^ 31) (hfits : r.Fits N)
    (hsplit : applied ++ rest = r.order) :
    (applyParts flag applied).counter = 0#64 ↔ rest = [] := by
  have hsends := hfits.num_sends
  have hlow := low_lt hlt applied
  have hfew : rest.countP (!Part.isFirst ·) < 2 ^ 32 :=
    Nat.lt_of_le_of_lt (countP_rest_le hsplit) hfits.num_sub_messages
  rw [counter_applied hsplit hfresh,
    packed_eq_zero_iff (by omega) (low_nonneg hsplit hsends.le) (by omega), ← hsends]
  exact rest_eq_nil_iff (hsplit ▸ r.perm) fun _ => hfew

theorem Round.order_ne_nil {r : Round} {N : Nat} (hpos : 0 < N) (hfits : r.Fits N) :
    r.order ≠ [] := by
  intro hnil
  have hmsgs : messages [] + messages [] = (r.sends.length : ℤ) :=
    messages_split (by rw [hnil]; rfl)
  have hsends := hfits.num_sends
  simp only [messages_nil] at hmsgs
  omega

/-- While `ps` is still to come, the counter arrives at zero once, at the end. -/
theorem triggers_eq_one {flag : UruFlag} {ps : List Part} (hne : ps ≠ [])
    (hzero : ∀ applied rest, applied ++ rest = ps →
      ((applyParts flag applied).counter = 0#64 ↔ rest = [])) :
    triggers flag ps = 1 := by
  induction ps generalizing flag with
  | nil => exact absurd rfl hne
  | cons p ps ih =>
      have hfirst : (flag.add p.sig_add).counter = 0#64 ↔ ps = [] := hzero [p] ps rfl
      cases ps with
      | nil => rw [triggers, if_pos (hfirst.mpr rfl), triggers]
      | cons q qs =>
          have hnot : ¬ (flag.add p.sig_add).counter = 0#64 := fun h => by simpa using hfirst.mp h
          rw [triggers, if_neg hnot, zero_add]
          exact ih (by simp) fun applied rest happ =>
            hzero (p :: applied) rest (by rw [List.cons_append, happ])

theorem Fresh.reset_ok {N : Nat} {flag : UruFlag} {r : Round} (hfresh : Fresh flag N)
    (hlt : N < 2 ^ 31) (hfits : r.Fits N) :
    ∃ flag', unrSigReset (applyParts flag r.order) = .ok flag' := by
  have hzero := (hfresh.counter_eq_zero_iff hlt hfits (List.append_nil _)).mpr rfl
  exact ⟨_, (unrSigReset_eq_ok_iff _ _).mpr ⟨hzero, rfl⟩⟩

theorem Fresh.playRounds_ok {N : Nat} {flag : UruFlag} {rs : List Round}
    (hfresh : Fresh flag N) (hlt : N < 2 ^ 31) (hfits : ∀ r ∈ rs, r.Fits N) :
    ∃ flag', playRounds flag rs = .ok flag' := by
  induction rs generalizing flag with
  | nil => exact ⟨flag, rfl⟩
  | cons r rs ih =>
      obtain ⟨next, hreset⟩ := hfresh.reset_ok hlt (hfits r (by simp))
      have hnext := fresh_of_reset hlt (by simpa using hfresh.num_event) hreset
      obtain ⟨flag', hplay⟩ := ih hnext fun r' hr' => hfits r' (by simp [hr'])
      exact ⟨flag', bind_eq_ok.mpr ⟨next, hreset, hplay⟩⟩

/-! ### What the daemon observes -/

theorem deliver_cons_ok_iff {flag flag' : UruFlag} {p : Part} {ps : List Part} :
    deliver flag (p :: ps) = .ok flag' ↔
      0 ≤ (flag.add p.sig_add).counter.toInt ∧ deliver (flag.add p.sig_add) ps = .ok flag' := by
  simp [deliver, UruFlag.progress]

theorem deliver_ok_iff {flag flag' : UruFlag} {ps : List Part} :
    deliver flag ps = .ok flag' ↔ flag' = applyParts flag ps ∧
      ∀ applied rest, applied ≠ [] → applied ++ rest = ps →
        0 ≤ (applyParts flag applied).counter.toInt := by
  induction ps generalizing flag with
  | nil =>
      constructor
      · intro hok
        cases hok
        refine ⟨rfl, fun applied rest hne happ => ?_⟩
        exact absurd (List.append_eq_nil_iff.mp happ).1 hne
      · rintro ⟨rfl, -⟩
        rfl
  | cons p ps ih =>
      rw [deliver_cons_ok_iff, ih]
      constructor
      · rintro ⟨hnow, rfl, hlater⟩
        refine ⟨rfl, fun applied rest hne happ => ?_⟩
        obtain ⟨q, qs, rfl⟩ := List.exists_cons_of_ne_nil hne
        obtain ⟨rfl, htail⟩ := List.cons_eq_cons.mp happ
        cases qs with
        | nil => exact hnow
        | cons q' qs' => exact hlater (q' :: qs') rest (by simp) htail
      · rintro ⟨rfl, hall⟩
        refine ⟨hall [p] ps (by simp) rfl, rfl, fun applied rest _ happ => ?_⟩
        exact hall (p :: applied) rest (by simp) (by rw [List.cons_append, happ])

end Unr.Core
