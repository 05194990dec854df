import Unr.Core.SignalExact

/-!
More sends than a signal expects.

The sends since the last reset are numbered, and the completions of their
parts arrive in any order. A send takes one message off the signal when its
first part arrives, so the low count of the counter lies between `N` minus the
sends that have been touched and `N` minus those that are complete. Below zero
it keeps bit 31 of the counter set until it has come down by `2 ^ 31`, and
what the high count does in the meantime makes no difference.
-/

namespace Unr.Core

open Unr.Uru Unr.Logic

/-- What may have happened to a signal before: additions of any kind, and
calls of `unr_sig_reset`. -/
inductive SigOp
  | add (flag_add : BitVec 64)
  | reset
  deriving DecidableEq

def playOps (flag : UruFlag) : List SigOp → Prog UruFlag
  | [] => .ok flag
  | .add flag_add :: ops => playOps (flag.add flag_add) ops
  | .reset :: ops => do
      let flag ← unrSigReset flag
      playOps flag ops

/-- The signal has just been created or reset. -/
def JustReset (ops : List SigOp) : Prop := ops = [] ∨ ∃ before, ops = before ++ [.reset]

section

variable (sends : List Send)

/-- The part that a completion is about: a send, by its number since the last
reset, and a channel. -/
def partOf (d : Fin sends.length × Nat) : Part := ⟨sends.get d.1, d.2⟩

/-- Completions of parts of the sends, each at most once. -/
structure Deliveries (ds : List (Fin sends.length × Nat)) : Prop where
  nodup : ds.Nodup
  part : ∀ d ∈ ds, partOf sends d ∈ (sends.get d.1).parts

def Complete (ds : List (Fin sends.length × Nat)) (i : Fin sends.length) : Prop :=
  ∀ p ∈ (sends.get i).parts, (i, p.channel) ∈ ds

instance (ds : List (Fin sends.length × Nat)) : DecidablePred (Complete sends ds) :=
  fun _ => inferInstanceAs (Decidable (∀ _ ∈ _, _))

def completed (ds : List (Fin sends.length × Nat)) : Nat :=
  (List.finRange sends.length).countP fun i => Complete sends ds i

/-- How many sends have had any part delivered. -/
def touched (ds : List (Fin sends.length × Nat)) : Nat :=
  (List.finRange sends.length).countP fun i => ∃ d ∈ ds, d.1 = i

end

/-- A step of a run: the daemon observes a completion, or the signal is
checked. -/
inductive SigEvent (n : Nat)
  | part (d : Fin n × Nat)
  | check

def deliveredBy {n : Nat} : List (SigEvent n) → List (Fin n × Nat)
  | [] => []
  | .part d :: events => d :: deliveredBy events
  | .check :: events => deliveredBy events

/-- A run. It ends with the first call that does not return. -/
def runEvents (sends : List Send) (flag : UruFlag) : List (SigEvent sends.length) → Prog UruFlag
  | [] => .ok flag
  | .part d :: events => do
      let (flag, _) ← flag.progress (partOf sends d).sig_add
      runEvents sends flag events
  | .check :: events => do
      let _ ← unrSigCheck flag
      runEvents sends flag events

/-! ### The flag after a reset -/

theorem playOps_num_event {flag flag' : UruFlag} {ops : List SigOp}
    (hplay : playOps flag ops = .ok flag') : flag'.num_event = flag.num_event := by
  induction ops generalizing flag with
  | nil =>
      cases hplay
      rfl
  | cons op ops ih =>
      cases op with
      | add flag_add =>
          have hrest : flag'.num_event = (flag.add flag_add).num_event := ih hplay
          rw [hrest, UruFlag.add_num_event]
      | reset =>
          obtain ⟨next, hreset, hplay⟩ := bind_eq_ok.mp hplay
          obtain ⟨-, hnext⟩ := (unrSigReset_eq_ok_iff flag next).mp hreset
          rw [ih hplay, hnext]

theorem playOps_append {flag flag' : UruFlag} {ops ops' : List SigOp} :
    playOps flag (ops ++ ops') = .ok flag' ↔
      ∃ next, playOps flag ops = .ok next ∧ playOps next ops' = .ok flag' := by
  induction ops generalizing flag with
  | nil => simp [playOps]
  | cons op ops ih =>
      cases op with
      | add flag_add => exact ih
      | reset =>
          rw [List.cons_append, playOps, playOps, bind_eq_ok]
          simp only [bind_eq_ok, ih]
          constructor
          · rintro ⟨x, h, y, h', h''⟩
            exact ⟨y, ⟨x, h, h'⟩, h''⟩
          · rintro ⟨y, ⟨x, h, h'⟩, h''⟩
            exact ⟨x, h, y, h', h''⟩

/-- Whatever has happened before, a reset brings back the counter the signal
was created with. -/
theorem fresh_of_playOps {N : Nat} (hpos : 0 < N) (hlt : N < 2 ^ 31) {created flag : UruFlag}
    (hcreate : unrSigCreate (BitVec.ofNat 64 N) = .ok created) {ops : List SigOp}
    (hops : JustReset ops) (hplay : playOps created ops = .ok flag) : Fresh flag N := by
  have hstart := fresh_of_create hpos (by omega) hcreate
  rcases hops with rfl | ⟨before, rfl⟩
  · cases hplay
    exact hstart
  · obtain ⟨next, hbefore, hlast⟩ := playOps_append.mp hplay
    obtain ⟨flag', hreset, hnil⟩ := bind_eq_ok.mp hlast
    cases hnil
    exact fresh_of_reset hlt ((playOps_num_event hbefore).trans hstart.num_event) hreset

/-! ### First parts -/

section

variable {sends : List Send} {ds : List (Fin sends.length × Nat)}

theorem messages_deliveries :
    messages (ds.map (partOf sends)) =
      ((ds.filter fun d => (partOf sends d).isFirst).length : ℤ) := by
  rw [messages_eq, List.countP_map, List.countP_eq_length_filter]
  rfl

theorem completed_le_messages (sends : List Send) (ds : List (Fin sends.length × Nat)) :
    (completed sends ds : ℤ) ≤ messages (ds.map (partOf sends)) := by
  rw [messages_deliveries, completed, List.countP_eq_length_filter]
  let first : Fin sends.length → Fin sends.length × Nat := fun i =>
    (i, firstPart (sends.get i).group.num (sends.get i).div_plan_wrt_size)
  have hnodup : (((List.finRange sends.length).filter fun i => Complete sends ds i).map
      first).Nodup :=
    ((List.nodup_finRange _).filter _).map fun i j hij => (Prod.ext_iff.mp hij).1
  have hsub : (((List.finRange sends.length).filter fun i => Complete sends ds i).map first) ⊆
      ds.filter fun d => (partOf sends d).isFirst := by
    intro d hd
    obtain ⟨i, hi, rfl⟩ := List.mem_map.mp hd
    have hcomplete : Complete sends ds i := by simpa using (List.mem_filter.mp hi).2
    obtain ⟨hlt, hne⟩ := firstPart_spec (sends.get i).sum_pos
    have hpart : (⟨sends.get i, firstPart (sends.get i).group.num
        (sends.get i).div_plan_wrt_size⟩ : Part) ∈ (sends.get i).parts :=
      List.mem_map.mpr ⟨_, List.mem_filter.mpr ⟨List.mem_range.mpr hlt, by simpa using hne⟩, rfl⟩
    exact List.mem_filter.mpr ⟨hcomplete _ hpart, beq_self_eq_true _⟩
  have hle := (hnodup.subperm hsub).length_le
  rw [List.length_map] at hle
  exact_mod_cast hle

theorem messages_le_touched (hds : Deliveries sends ds) :
    messages (ds.map (partOf sends)) ≤ touched sends ds := by
  rw [messages_deliveries, touched, List.countP_eq_length_filter]
  have hnodup : ((ds.filter fun d => (partOf sends d).isFirst).map Prod.fst).Nodup := by
    refine List.Nodup.map_on ?_ (hds.nodup.filter _)
    rintro ⟨i, j⟩ hi ⟨i', j'⟩ hi' rfl
    have hj := (List.mem_filter.mp hi).2
    have hj' := (List.mem_filter.mp hi').2
    rw [Part.isFirst, beq_iff_eq] at hj hj'
    exact Prod.ext rfl (hj.trans hj'.symm)
  have hsub : ((ds.filter fun d => (partOf sends d).isFirst).map Prod.fst) ⊆
      (List.finRange sends.length).filter fun i => ∃ d ∈ ds, d.1 = i := by
    intro i hi
    obtain ⟨d, hd, rfl⟩ := List.mem_map.mp hi
    exact List.mem_filter.mpr ⟨List.mem_finRange _,
      by simpa using ⟨d.2, (List.mem_filter.mp hd).1⟩⟩
  have hle := (hnodup.subperm hsub).length_le
  rw [List.length_map] at hle
  exact_mod_cast hle

theorem completed_mono {more : List (Fin sends.length × Nat)} (hsub : ds ⊆ more) :
    completed sends ds ≤ completed sends more := by
  refine List.countP_mono_left fun i _ hi => ?_
  have hcomplete : Complete sends ds i := by simpa using hi
  exact decide_eq_true fun p hp => hsub (hcomplete p hp)

/-- Between the two bounds bit 31 of the counter, or one above it, is set. -/
theorem check_overflow {N : Nat} {flag : UruFlag} (hfresh : Fresh flag N)
    (hds : Deliveries sends ds) (hover : N < completed sends ds)
    (hbound : touched sends ds ≤ N + 2 ^ 31) :
    unrSigCheck (applyParts flag (ds.map (partOf sends))) = .error (.exit .eventOverflow) := by
  have hstart : flag.counter = packed 64 32 N 0 := by
    rw [hfresh.counter, packed, mul_zero, add_zero, BitVec.ofInt_natCast]
  have hmem : ∀ p ∈ ds.map (partOf sends), p ∈ p.send.parts := by
    intro p hp
    obtain ⟨d, hd, rfl⟩ := List.mem_map.mp hp
    exact hds.part d hd
  have hlow := completed_le_messages sends ds
  have hhigh := messages_le_touched hds
  refine unrSigCheck_of_ge ?_
  rw [applyParts_counter hstart hmem]
  exact le_packed_toNat_of_neg (by omega) (by omega) (by omega) _

end

/-! ### Runs -/

theorem runEvents_ok {sends : List Send} {flag flag' : UruFlag}
    {events : List (SigEvent sends.length)} (hrun : runEvents sends flag events = .ok flag') :
    flag' = applyParts flag ((deliveredBy events).map (partOf sends)) := by
  induction events generalizing flag with
  | nil =>
      cases hrun
      rfl
  | cons event events ih =>
      cases event with
      | part d =>
          obtain ⟨⟨next, _⟩, hprogress, hrun⟩ := bind_eq_ok.mp hrun
          simp only [UruFlag.progress, bind_eq_ok, uruAssert_eq_ok, pure_eq_ok] at hprogress
          obtain ⟨-, -, hprogress⟩ := hprogress
          have hnext : flag.add (partOf sends d).sig_add = next := (Prod.ext_iff.mp hprogress).1
          rw [ih hrun, deliveredBy, List.map_cons, applyParts_cons, hnext]
      | check =>
          obtain ⟨_, _, hrun⟩ := bind_eq_ok.mp hrun
          exact ih hrun

theorem runEvents_error {sends : List Send} {flag : UruFlag} {stop : Stop}
    {events : List (SigEvent sends.length)} (hrun : runEvents sends flag events = .error stop) :
    stop = .exit .eventOverflow ∨ stop = .exit .assertExit := by
  induction events generalizing flag with
  | nil => cases hrun
  | cons event events ih =>
      cases event with
      | part d =>
          rw [runEvents, UruFlag.progress] at hrun
          by_cases hnonneg : 0 ≤ (flag.add (partOf sends d).sig_add).counter.toInt
          · simp only [uruAssert, if_pos hnonneg, ok_bind] at hrun
            exact ih hrun
          · simp only [uruAssert, if_neg hnonneg] at hrun
            cases hrun
            exact .inr rfl
      | check =>
          rcases Nat.lt_or_ge flag.counter.toNat (2 ^ 31) with hlt | hge
          · rw [runEvents, unrSigCheck_of_lt hlt, ok_bind] at hrun
            exact ih hrun
          · rw [runEvents, unrSigCheck_of_ge hge] at hrun
            cases hrun
            exact .inl rfl

theorem runEvents_append {sends : List Send} {flag : UruFlag}
    {events events' : List (SigEvent sends.length)} :
    runEvents sends flag (events ++ events') =
      runEvents sends flag events >>= fun flag => runEvents sends flag events' := by
  induction events generalizing flag with
  | nil => rfl
  | cons event events ih =>
      cases event with
      | part d => simp only [List.cons_append, runEvents, ih, bind_assoc]
      | check => simp only [List.cons_append, runEvents, ih, bind_assoc]

/-- Once more than `N` sends are complete, every check reports an overflow for
the next `2 ^ 31` sends, and a run with such a check ends there or in an
assertion. -/
theorem overflow_never_missed {N : Nat} (hpos : 0 < N) (hlt : N < 2 ^ 31)
    {created flag : UruFlag} (hcreate : unrSigCreate (BitVec.ofNat 64 N) = .ok created)
    {ops : List SigOp} (hops : JustReset ops) (hplay : playOps created ops = .ok flag)
    {sends : List Send} {before ds : List (Fin sends.length × Nat)} (hbefore : before <+: ds)
    (hds : Deliveries sends ds) (hover : N < completed sends before)
    (hbound : touched sends ds ≤ N + 2 ^ 31) :
    unrSigCheck (applyParts flag (ds.map (partOf sends))) = .error (.exit .eventOverflow) ∧
      ∀ events later, deliveredBy events = ds →
        runEvents sends flag (events ++ .check :: later) = .error (.exit .eventOverflow) ∨
          runEvents sends flag (events ++ .check :: later) = .error (.exit .assertExit) := by
  have hfresh := fresh_of_playOps hpos hlt hcreate hops hplay
  have hcheck := check_overflow hfresh hds
    (Nat.lt_of_lt_of_le hover (completed_mono hbefore.subset)) hbound
  refine ⟨hcheck, fun events later hevents => ?_⟩
  have hends : ∃ stop, runEvents sends flag (events ++ .check :: later) = .error stop := by
    rw [runEvents_append]
    cases hrun : runEvents sends flag events with
    | error stop => exact ⟨stop, rfl⟩
    | ok flag' =>
        rw [ok_bind, runEvents, runEvents_ok hrun, hevents, hcheck]
        exact ⟨_, rfl⟩
  obtain ⟨stop, hstop⟩ := hends
  rw [hstop]
  rcases runEvents_error hstop with rfl | rfl
  · exact .inl rfl
  · exact .inr rfl

/-- Two sends of two parts each to a signal for one event. The last part to
arrive is the first of its send. -/
def twoSendsLate : List (Fin [twoBlocks, twoBlocks].length × Nat) :=
  [(0, 0), (1, 1), (0, 1), (1, 0)]

theorem overflow_never_missed_two_sends :
    unrSigCreate 1 = .ok oneEvent ∧
      unrSigCheck (applyParts oneEvent (twoSendsLate.map (partOf [twoBlocks, twoBlocks]))) =
        .error (.exit .eventOverflow) := by
  have hcreate : unrSigCreate 1 = .ok oneEvent := rfl
  have hplay : playOps oneEvent [] = .ok oneEvent := rfl
  have hdeliveries : Deliveries [twoBlocks, twoBlocks] twoSendsLate :=
    ⟨by decide, by
      have hparts : ∀ i : Fin 2, ([twoBlocks, twoBlocks].get i).parts =
          [⟨twoBlocks, 0⟩, ⟨twoBlocks, 1⟩] := by
        intro i
        match i with
        | 0 => exact twoBlocks_parts
        | 1 => exact twoBlocks_parts
      intro d hd
      rw [hparts d.1]
      simp only [twoSendsLate, List.mem_cons, List.not_mem_nil, or_false] at hd
      rcases hd with rfl | rfl | rfl | rfl
      · exact List.mem_cons_self
      · exact List.mem_cons_of_mem _ List.mem_cons_self
      · exact List.mem_cons_of_mem _ List.mem_cons_self
      · exact List.mem_cons_self⟩
  have hcompleted : completed [twoBlocks, twoBlocks] twoSendsLate = 2 := by decide +kernel
  have htouched : touched [twoBlocks, twoBlocks] twoSendsLate = 2 := by decide +kernel
  exact ⟨hcreate, (overflow_never_missed (N := 1) (by decide) (by decide) hcreate (.inl rfl) hplay
    (List.prefix_refl twoSendsLate) hdeliveries (by rw [hcompleted]; decide)
    (by rw [htouched]; decide)).1⟩

end Unr.Core
