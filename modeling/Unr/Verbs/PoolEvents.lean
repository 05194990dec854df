import Unr.Core.SigPoolRuns
import Unr.Verbs.Channel

/-!
A pool of signals whose events come from the verbs channel.

`uri_verbs_event_progress` subtracts one from a counter and pushes the index of
the signal when the counter becomes zero; it does not look whether the counter
was zero before. `unr_sig_pool_detect` pops an index and assigns the counter
instead of adding to it. Events that arrive between the two are counted below
zero, so that the assignment forgets them.
-/

namespace Unr.Verbs

open Unr.Uru Unr.Logic
open Unr.Core (UnrSig sigId sigId_injective sigId_nonneg toNat_sigId Fresh fresh_rearmed Entered
  entered_of_create unrSigPoolCreate)

/-- What `uri_verbs_event_progress` does to the flag of an event, and what it
pushes. -/
def flagEvent (flag : UruFlag) : UruFlag × Option (Nat × Int) :=
  let flag := flag.add (-1#64)
  (flag, if flag.counter = 0 then flag.queue.map (·, flag.idx) else none)

/-- It is what the daemon of the channel does for an event. -/
theorem Proc.eventProgress_eq (flag_pool : FlagPool) (rank : Nat) (proc : Proc)
    {event : BitVec 32} (hne : event ≠ 0) {base : Nat}
    (hbase : flag_pool.rmt_base[rank]? = some base) :
    proc.eventProgress flag_pool rank event = .ok { proc with
      flags := Function.update proc.flags (base + event.toNat)
        (flagEvent (proc.flags (base + event.toNat))).1
      pushed := proc.pushed ++ (flagEvent (proc.flags (base + event.toNat))).2.toList } := by
  rw [Proc.eventProgress, if_neg hne, fetch_eq_ok.mpr hbase, ok_bind]
  simp only [flagEvent]
  split <;> rfl

/-! ### The two threads -/

/-- The state the two threads share, with the two local variables that hold an
index. -/
structure EventPool (n : Nat) where
  flags : Nat → UruFlag
  queue : UruQueue
  /-- `flag_p->idx`, between the subtraction and the push. -/
  pushing : Option Int
  /-- `*sig_id`, between the pop and the assignment to the counter. -/
  detected : Option Int
  /-- Ghost: the events delivered since the pool was created. -/
  delivered : Fin n → Nat
  /-- Ghost: how often each signal has been returned by a detection. -/
  returned : Fin n → Nat

inductive EventAction (n : Nat)
  | event (i : Fin n)
  | push
  | pop
  | rearm
  deriving DecidableEq

def eventStart (n : Nat) (queue : UruQueue) (flags : Nat → UruFlag) : EventPool n where
  flags := flags
  queue := queue
  pushing := none
  detected := none
  delivered := fun _ => 0
  returned := fun _ => 0

section

variable (pool : List UnrSig)

namespace EventPool

variable (s : EventPool pool.length)

/-- `uri_verbs_event_progress` for an event of signal `i`, up to the test
whether to push. -/
def event (i : Fin pool.length) : Option (EventPool pool.length) :=
  match s.pushing, (pool.get i).flag_p with
  | none, some flag_p =>
      let result := flagEvent (s.flags flag_p)
      some { s with
        flags := Function.update s.flags flag_p result.1
        pushing := result.2.map (·.2)
        delivered := Function.update s.delivered i (s.delivered i + 1) }
  | _, _ => none

def push : Option (EventPool pool.length) :=
  match s.pushing with
  | some idx =>
      match uruQueuePush s.queue idx with
      | .ok queue => some { s with queue := queue, pushing := none }
      | .error _ => none
  | none => none

def pop : Option (EventPool pool.length) :=
  match s.detected, uruQueuePop s.queue with
  | none, .ok (sig_id, queue) => some { s with
      queue := queue
      detected := if sig_id < 0 then none else some sig_id }
  | _, _ => none

def rearm : Option (EventPool pool.length) :=
  match s.detected with
  | some sig_id =>
      if h : sig_id.toNat < pool.length then
        let i : Fin pool.length := ⟨sig_id.toNat, h⟩
        match (pool.get i).flag_p with
        | some flag_p => some { s with
            flags := Function.update s.flags flag_p
              { s.flags flag_p with counter := (s.flags flag_p).num_event.setWidth 64 }
            detected := none
            returned := Function.update s.returned i (s.returned i + 1) }
        | none => none
      else none
  | none => none

def step : EventAction pool.length → Option (EventPool pool.length)
  | .event i => s.event pool i
  | .push => s.push pool
  | .pop => s.pop pool
  | .rearm => s.rearm pool

/-- No event of signal `i` is lost: those delivered are those of the rounds
that have been returned, and those that are missing from the counter. -/
def Law (num_event : Nat) (i : Fin pool.length) : Prop :=
  ∀ flag_p, (pool.get i).flag_p = some flag_p →
    (s.delivered i : ℤ) - num_event * s.returned i =
      num_event - (s.flags flag_p).counter.toInt

/-- The counter of a signal is still zero when a detection sets it again. An
event does not find the least 64-bit number, below which a counter is not
defined. -/
def Timely : EventAction pool.length → Prop
  | .event i => ∀ flag_p ∈ (pool.get i).flag_p, (s.flags flag_p).counter.toInt ≠ -2 ^ 63
  | .rearm => ∀ i, s.detected = some (sigId i) → ∀ flag_p ∈ (pool.get i).flag_p,
      (s.flags flag_p).counter = 0#64
  | .push | .pop => True

instance (action : EventAction pool.length) : Decidable (s.Timely pool action) :=
  match action with
  | .event _ => inferInstanceAs (Decidable (∀ _ ∈ _, _))
  | .rearm => inferInstanceAs (Decidable (∀ _, _ → ∀ _ ∈ _, _))
  | .push | .pop => inferInstanceAs (Decidable True)

end EventPool

structure EventInv (num_event : Fin pool.length → Nat) (uru_queue : Nat)
    (s : EventPool pool.length) : Prop where
  sig : ∀ i, ∃ flag_p, (pool.get i).flag_p = some flag_p ∧
    (s.flags flag_p).num_event = BitVec.ofNat 32 (num_event i) ∧
    (s.flags flag_p).queue = some uru_queue ∧ (s.flags flag_p).idx = sigId i
  /-- Every index is that of a signal of the pool. -/
  indices : ∃ (u d : Option (Fin pool.length)) (xs : List (Fin pool.length)),
    s.queue.Holds (xs.map sigId) ∧ s.pushing = d.map sigId ∧ s.detected = u.map sigId

end

/-! ### The steps -/

section

variable {pool : List UnrSig} {num_event : Fin pool.length → Nat} {uru_queue : Nat}
  {s s' : EventPool pool.length}

theorem EventPool.event_eq_some {i : Fin pool.length} (h : s.event pool i = some s') :
    ∃ flag_p, (pool.get i).flag_p = some flag_p ∧ s.pushing = none ∧ s' = { s with
      flags := Function.update s.flags flag_p (flagEvent (s.flags flag_p)).1
      pushing := (flagEvent (s.flags flag_p)).2.map (·.2)
      delivered := Function.update s.delivered i (s.delivered i + 1) } := by
  unfold EventPool.event at h
  split at h
  · next flag_p hpushing hflag =>
    cases h
    exact ⟨flag_p, hflag, hpushing, rfl⟩
  · cases h

/-- The index that is popped is that of a signal of the pool. -/
theorem EventInv.rearm_eq_some (hinv : EventInv pool num_event uru_queue s)
    (h : s.rearm pool = some s') :
    ∃ i flag_p, s.detected = some (sigId i) ∧ (pool.get i).flag_p = some flag_p ∧ s' = { s with
      flags := Function.update s.flags flag_p
        { s.flags flag_p with counter := (s.flags flag_p).num_event.setWidth 64 }
      detected := none
      returned := Function.update s.returned i (s.returned i + 1) } := by
  obtain ⟨u, d, xs, -, -, hdetected⟩ := hinv.indices
  unfold EventPool.rearm at h
  rw [hdetected] at h
  cases u with
  | none => cases h
  | some i =>
      obtain ⟨flag_p, hflag, -⟩ := hinv.sig i
      simp only [Option.map_some, toNat_sigId, i.isLt, dif_pos, hflag, Option.some.injEq] at h
      exact ⟨i, flag_p, hdetected, hflag, h.symm⟩

/-- A subtraction is exact unless the counter is the least number. -/
theorem toInt_add_neg_one (c : BitVec 64) :
    (c + -1#64).toInt = c.toInt - 1 ↔ c.toInt ≠ -2 ^ 63 := by
  have hlow := c.le_toInt
  have hhigh := c.toInt_lt
  have hone : (-1#64).toInt = -1 := by decide
  rw [BitVec.toInt_add, hone, Int.bmod_def]
  omega

theorem EventInv.sig_update (h : EventInv pool num_event uru_queue s) {flag_p : Nat}
    {flag : UruFlag} (hflag : flag = { s.flags flag_p with counter := flag.counter })
    (i : Fin pool.length) : ∃ flag_p', (pool.get i).flag_p = some flag_p' ∧
      (Function.update s.flags flag_p flag flag_p').num_event = BitVec.ofNat 32 (num_event i) ∧
      (Function.update s.flags flag_p flag flag_p').queue = some uru_queue ∧
      (Function.update s.flags flag_p flag flag_p').idx = sigId i := by
  obtain ⟨flag_p', hflag', hrest⟩ := h.sig i
  refine ⟨flag_p', hflag', ?_⟩
  by_cases heq : flag_p' = flag_p
  · rw [heq, Function.update_self, hflag]
    exact heq ▸ hrest
  · rwa [Function.update_of_ne heq]

theorem EventInv.step (h : EventInv pool num_event uru_queue s) {action : EventAction pool.length}
    (hstep : s.step pool action = some s') : EventInv pool num_event uru_queue s' := by
  obtain ⟨u, d, xs, hholds, hpushing, hdetected⟩ := h.indices
  cases action with
  | event i =>
      obtain ⟨flag_p, hflag, -, rfl⟩ := EventPool.event_eq_some hstep
      obtain ⟨flag_p', hflag', -, hqueue, hidx⟩ := h.sig i
      obtain rfl : flag_p' = flag_p := Option.some.inj (hflag'.symm.trans hflag)
      -- the event that empties the counter is the one that is pushed
      by_cases hzero : (s.flags flag_p').counter + -1#64 = 0
      · refine ⟨h.sig_update rfl, u, some i, xs, hholds, ?_, hdetected⟩
        rw [flagEvent, UruFlag.add_counter, if_pos hzero, UruFlag.add_queue, hqueue,
          UruFlag.add_idx, hidx]
        rfl
      · refine ⟨h.sig_update rfl, u, none, xs, hholds, ?_, hdetected⟩
        rw [flagEvent, UruFlag.add_counter, if_neg hzero]
        rfl
  | push =>
      have hpush : s.push pool = some s' := hstep
      unfold EventPool.push at hpush
      rw [hpushing] at hpush
      cases d with
      | none => cases hpush
      | some i =>
          simp only [Option.map_some] at hpush
          split at hpush
          · next queue hqueue =>
            cases hpush
            refine ⟨h.sig, u, none, xs ++ [i], ?_, rfl, hdetected⟩
            rw [List.map_append, List.map_singleton]
            exact (hholds.of_push hqueue).1
          · cases hpush
  | pop =>
      have hpop : s.pop pool = some s' := hstep
      unfold EventPool.pop at hpop
      rw [hdetected] at hpop
      cases u with
      | some i => cases hpop
      | none =>
          cases xs with
          | nil =>
              simp only [Option.map_none, hholds.pop_nil, Option.some.injEq] at hpop
              subst hpop
              exact ⟨h.sig, none, d, [], hholds, hpushing, rfl⟩
          | cons i xs =>
              obtain ⟨queue, hqueue, hholds', -⟩ := hholds.pop_cons
              simp only [Option.map_none, hqueue,
                if_neg (sigId_nonneg i), Option.some.injEq] at hpop
              subst hpop
              exact ⟨h.sig, some i, d, xs, hholds', hpushing, rfl⟩
  | rearm =>
      obtain ⟨i, flag_p, -, -, rfl⟩ := h.rearm_eq_some hstep
      exact ⟨h.sig_update rfl, none, d, xs, hholds, hpushing, rfl⟩

/-- An event keeps the law exactly if it is subtracted. -/
theorem EventInv.law_event_iff (hlaw : ∀ i, s.Law pool (num_event i) i)
    (hdistinct : ∀ i j, (pool.get i).flag_p = (pool.get j).flag_p → i = j)
    {i : Fin pool.length} (hstep : s.event pool i = some s') :
    (∀ j, s'.Law pool (num_event j) j) ↔ s.Timely pool (.event i) := by
  obtain ⟨flag_p, hflag, -, rfl⟩ := EventPool.event_eq_some hstep
  have hi := hlaw i flag_p hflag
  have hiff := toInt_add_neg_one (s.flags flag_p).counter
  constructor
  · intro hnext flag_p' hflag'
    obtain rfl : flag_p' = flag_p := Option.some.inj (hflag'.symm.trans hflag)
    have hnow := hnext i flag_p' hflag
    simp only [Function.update_self, flagEvent, UruFlag.add_counter, Nat.cast_add,
      Nat.cast_one] at hnow
    refine hiff.mp ?_
    linarith
  · intro htimely j flag_p' hflag'
    by_cases hji : j = i
    · subst hji
      obtain rfl : flag_p' = flag_p := Option.some.inj (hflag'.symm.trans hflag)
      have hsub := hiff.mpr (htimely flag_p' hflag)
      simp only [Function.update_self, flagEvent, UruFlag.add_counter, hsub, Nat.cast_add,
        Nat.cast_one]
      linarith
    · have hne : flag_p' ≠ flag_p := by
        rintro rfl
        exact hji (hdistinct j i (hflag'.trans hflag.symm))
      simp only [Function.update_of_ne hne, Function.update_of_ne hji]
      exact hlaw j flag_p' hflag'

/-- A detection keeps the law exactly if the counter was still zero. -/
theorem EventInv.law_rearm_iff (hinv : EventInv pool num_event uru_queue s)
    (hlaw : ∀ i, s.Law pool (num_event i) i) (hlt : ∀ i, num_event i < 2 ^ 32)
    (hdistinct : ∀ i j, (pool.get i).flag_p = (pool.get j).flag_p → i = j)
    (hstep : s.rearm pool = some s') :
    (∀ j, s'.Law pool (num_event j) j) ↔ s.Timely pool .rearm := by
  obtain ⟨i, flag_p, hdetected, hflag, rfl⟩ := hinv.rearm_eq_some hstep
  have hi := hlaw i flag_p hflag
  obtain ⟨flag_p', hflag', hnum, -⟩ := hinv.sig i
  obtain rfl : flag_p' = flag_p := Option.some.inj (hflag'.symm.trans hflag)
  have hrearmed : ((s.flags flag_p').num_event.setWidth 64).toInt = num_event i := by
    have hcounter := (fresh_rearmed (hlt i) hnum).counter
    have hbound := hlt i
    rw [show (s.flags flag_p').num_event.setWidth 64 = _ from hcounter,
      BitVec.toInt_eq_toNat_of_lt] <;> rw [BitVec.toNat_ofNat] <;> omega
  constructor
  · intro hnext j hj f hf
    obtain rfl := sigId_injective (Option.some.inj (hdetected.symm.trans hj))
    obtain rfl : f = flag_p' := Option.some.inj (hf.symm.trans hflag)
    have hnow := hnext i f hflag
    simp only [Function.update_self, hrearmed] at hnow
    push_cast at hnow
    refine BitVec.eq_of_toInt_eq ?_
    rw [BitVec.toInt_zero]
    linarith
  · intro htimely j f hf
    by_cases hji : j = i
    · subst hji
      obtain rfl : f = flag_p' := Option.some.inj (hf.symm.trans hflag)
      rw [htimely j hdetected f hflag, BitVec.toInt_zero] at hi
      simp only [Function.update_self, hrearmed]
      push_cast
      linarith
    · have hne : f ≠ flag_p' := by
        rintro rfl
        exact hji (hdistinct j i (hf.trans hflag.symm))
      simp only [Function.update_of_ne hne, Function.update_of_ne hji]
      exact hlaw j f hf

/-- A step keeps the law exactly if it is timely. -/
theorem EventInv.law_step_iff (hinv : EventInv pool num_event uru_queue s)
    (hlaw : ∀ i, s.Law pool (num_event i) i) (hlt : ∀ i, num_event i < 2 ^ 32)
    (hdistinct : ∀ i j, (pool.get i).flag_p = (pool.get j).flag_p → i = j)
    {action : EventAction pool.length} (hstep : s.step pool action = some s') :
    (∀ j, s'.Law pool (num_event j) j) ↔ s.Timely pool action := by
  cases action with
  | event i => exact law_event_iff hlaw hdistinct hstep
  | rearm => exact hinv.law_rearm_iff hlaw hlt hdistinct hstep
  | push =>
      refine iff_of_true ?_ trivial
      have hpush : s.push pool = some s' := hstep
      unfold EventPool.push at hpush
      split at hpush
      · split at hpush <;> cases hpush
        exact hlaw
      · cases hpush
  | pop =>
      refine iff_of_true ?_ trivial
      have hpop : s.pop pool = some s' := hstep
      unfold EventPool.pop at hpop
      split at hpop <;> cases hpop
      exact hlaw

end

/-! ### Runs -/

/-- Detection loses no event as long as it is timely: in every run in which the
counter of a signal is still zero whenever a detection sets it again, the
events delivered to a signal are those of the rounds returned so far and those
missing from its counter; and the first step that is not timely breaks this. -/
theorem detection_loses_no_event_iff {rank : Int} {uru_queue : Nat} {flags flags' : Nat → UruFlag}
    {sig_h_arr : List UnrSig} {queue : UruQueue}
    (hcreate : unrSigPoolCreate rank uru_queue flags sig_h_arr = .ok (queue, flags'))
    {num_event : Fin sig_h_arr.length → Nat} (hlt : ∀ i, num_event i < 2 ^ 32)
    (hfresh : ∀ i flag_p, (sig_h_arr.get i).flag_p = some flag_p →
      Fresh (flags flag_p) (num_event i))
    {s : EventPool sig_h_arr.length}
    (hrun : Run (EventPool.step sig_h_arr) (fun s action => s.Timely sig_h_arr action)
      (eventStart sig_h_arr.length queue flags') s) :
    (∀ i, s.Law sig_h_arr (num_event i) i) ∧
      ∀ action s', s.step sig_h_arr action = some s' →
        ((∀ i, s'.Law sig_h_arr (num_event i) i) ↔ s.Timely sig_h_arr action) := by
  obtain ⟨hentered, hholds, -⟩ := entered_of_create hcreate
  have hdistinct : ∀ i j, (sig_h_arr.get i).flag_p = (sig_h_arr.get j).flag_p → i = j :=
    fun i j heq => Fin.ext (hentered.distinct i j i.isLt j.isLt heq)
  have hinit : EventInv sig_h_arr num_event uru_queue
        (eventStart sig_h_arr.length queue flags') ∧
      ∀ i, (eventStart sig_h_arr.length queue flags').Law sig_h_arr (num_event i) i := by
    have hset : ∀ i : Fin sig_h_arr.length, ∃ flag_p, (sig_h_arr.get i).flag_p = some flag_p ∧
        flags' flag_p = { flags flag_p with idx := sigId i, queue := some uru_queue } :=
      fun i => hentered.flag i i.isLt
    refine ⟨⟨fun i => ?_, none, none, [], hholds, rfl, rfl⟩, fun i f hf => ?_⟩
    · obtain ⟨flag_p, hflag, hflags⟩ := hset i
      refine ⟨flag_p, hflag, ?_⟩
      change (flags' flag_p).num_event = _ ∧ (flags' flag_p).queue = _ ∧ (flags' flag_p).idx = _
      rw [hflags]
      exact ⟨(hfresh i flag_p hflag).num_event, rfl, rfl⟩
    · obtain ⟨flag_p, hflag, hflags⟩ := hset i
      obtain rfl : f = flag_p := Option.some.inj (hf.symm.trans hflag)
      have hcounter : (flags f).counter.toInt = num_event i := by
        have hbound := hlt i
        rw [(hfresh i f hflag).counter, BitVec.toInt_eq_toNat_of_lt] <;>
          rw [BitVec.toNat_ofNat] <;> omega
      simp only [eventStart, hflags, hcounter]
      simp
  have hinv : EventInv sig_h_arr num_event uru_queue s ∧
      ∀ i, s.Law sig_h_arr (num_event i) i := by
    refine hrun.invariant (I := fun s => EventInv sig_h_arr num_event uru_queue s ∧
      ∀ i, s.Law sig_h_arr (num_event i) i) hinit ?_
    intro t action u _ ht htimely hstep
    exact ⟨ht.1.step hstep, (ht.1.law_step_iff ht.2 hlt hdistinct hstep).mpr htimely⟩
  exact ⟨hinv.2, fun action s' hstep => hinv.1.law_step_iff hinv.2 hlt hdistinct hstep⟩

/-! ### A signal for one event -/

def oneSignal : EventPool [(⟨0, some 3⟩ : UnrSig)].length :=
  eventStart 1 ⟨2, 0, 0, [none, none]⟩
    (Function.update (fun _ => Core.oneEvent) 3 { Core.oneEvent with idx := 0, queue := some 7 })

theorem create_oneSignal : unrSigPoolCreate 0 7 (fun _ => Core.oneEvent) [⟨0, some 3⟩] =
    .ok (oneSignal.queue, oneSignal.flags) := rfl

def twoRounds : List (EventAction [(⟨0, some 3⟩ : UnrSig)].length) :=
  [.event ⟨0, Nat.one_pos⟩, .push, .pop, .rearm, .event ⟨0, Nat.one_pos⟩, .push, .pop, .rearm]

/-- The event of the second round arrives before the first is detected. -/
def earlyArrival : List (EventAction [(⟨0, some 3⟩ : UnrSig)].length) :=
  [.event ⟨0, Nat.one_pos⟩, .push, .event ⟨0, Nat.one_pos⟩, .pop, .rearm]

theorem detection_loses_no_event_iff_two_rounds :
    ∃ s, exec (EventPool.step _) (fun s action => decide (s.Timely _ action)) oneSignal
        twoRounds = some s ∧
      s.returned (0 : Fin 1) = 2 ∧ s.Law _ 1 (0 : Fin 1) := by
  have hreached : (exec (EventPool.step _) (fun s action => decide (s.Timely _ action)) oneSignal
      twoRounds).map (fun s => s.returned (0 : Fin 1)) = some 2 := by decide
  obtain ⟨s, hexec, hreturned⟩ := Option.map_eq_some_iff.mp hreached
  have hrun := (Run.of_exec hexec).mono fun _ _ => of_decide_eq_true
  exact ⟨s, hexec, hreturned, (@detection_loses_no_event_iff _ _ _ _ _ _ create_oneSignal
    (fun _ => 1) (fun _ => by decide) (fun _ _ _ => ⟨rfl, rfl⟩) _ hrun).1 (0 : Fin 1)⟩

/-- Two events have been delivered and one has been returned, but the counter
is that of a round that has just begun. -/
theorem early_event_lost :
    ∃ s, exec (EventPool.step _) (fun _ _ => true) oneSignal earlyArrival = some s ∧
      s.delivered (0 : Fin 1) = 2 ∧ s.returned (0 : Fin 1) = 1 ∧ ¬ s.Law _ 1 (0 : Fin 1) := by
  have hreached : (exec (EventPool.step _) (fun _ _ => true) oneSignal earlyArrival).map
      (fun s => decide (s.delivered (0 : Fin 1) = 2 ∧ s.returned (0 : Fin 1) = 1 ∧
        (s.flags 3).counter = 1#64)) = some true := by decide
  obtain ⟨s, hexec, hs⟩ := Option.map_eq_some_iff.mp hreached
  obtain ⟨hdelivered, hreturned, hcounter⟩ := of_decide_eq_true hs
  refine ⟨s, hexec, hdelivered, hreturned, fun hlaw => ?_⟩
  have hbroken := hlaw 3 rfl
  rw [hdelivered, hreturned, hcounter] at hbroken
  exact absurd hbroken (by decide)

end Unr.Verbs
