import Unr.Core.SignalRuns
import Unr.Verbs.PoolEvents

/-!
The numbers of events that `unr_sig_create` accepts.

Four widths meet in a signal: the number is a `uint64_t`, the counter an
`int64_t`, the copy that resets it a `uint32_t`, and `1<<31` an `int`, both in
the range check and in the mask of `unr_sig_check`. The counter works for the
numbers below `2 ^ 31`. The range check compares with `1<<31` as a `uint64_t`,
which is `2 ^ 64 - 2 ^ 31`, and so accepts many more.
-/

namespace Unr.Uri

open Unr.Uru Unr.Core

/-! ### A signal and its pool -/

/-- A flag, and the queue of the pool that it is in. -/
structure Watched where
  flag : UruFlag
  queue : Option UruQueue
  deriving Repr, DecidableEq

/-- The place of a signal in a pool. The other signals of the pool are at
rest. -/
structure Member where
  queue : Nat
  num_sigs : Nat
  idx : Fin num_sigs

/-- The calls after which the next round begins. -/
inductive RoundEnd
  | sigReset | poolDetect
  deriving Repr, DecidableEq

namespace Watched

/-- A single-part event, as the daemon of a channel handles it. -/
def handle (flag : UruFlag) : ChannelType → Prog (UruFlag × Option (Nat × Int))
  | .mpi => flag.progress (-1#64)
  | .verbs => .ok (Verbs.flagEvent flag)

/-- The event, with the push that it may lead to. -/
def observe (s : Watched) (type : ChannelType) : Prog Watched := do
  let (flag, push) ← handle s.flag type
  match push, s.queue with
  | none, queue => return ⟨flag, queue⟩
  | some (_, idx), some queue => return ⟨flag, some (← uruQueuePush queue idx)⟩
  | some _, none => throw .undefined

/-- `unr_sig_reset`, or `unr_sig_pool_detect` on the pool of the signal. -/
def endRound (s : Watched) (call : RoundEnd) : Prog Watched :=
  match call, s.queue with
  | .sigReset, _ => do
      let flag ← unrSigReset s.flag
      return { s with flag := flag }
  | .poolDetect, some queue => do
      let (sig_id, queue) ← uruQueuePop queue
      if sig_id = s.flag.idx then
        return ⟨{ s.flag with counter := s.flag.num_event.setWidth 64 }, some queue⟩
      else
        return { s with queue := some queue }
  | .poolDetect, none => throw .undefined

def playRounds (s : Watched) : List (List ChannelType × RoundEnd) → Prog Watched
  | [] => .ok s
  | (events, call) :: rounds => do
      let s ← events.foldlM observe s
      let s ← s.endRound call
      playRounds s rounds

/-- A signal that has been created, and entered in a pool if it is in one. -/
def start (flag : UruFlag) : Option Member → Prog Watched
  | some member => do
      let queue ← uruQueueInit member.num_sigs
      return ⟨{ flag with queue := some member.queue, idx := member.idx.val }, some queue⟩
  | none => return ⟨flag, none⟩

end Watched

structure CountsDown (n : Nat) (s : Watched) : Prop where
  waiting : ∀ events : List ChannelType, 0 < events.length → events.length < n →
    ∃ s', events.foldlM Watched.observe s = .ok s' ∧
      unrSigCheck s'.flag = .ok .signalWaiting
  triggered : ∀ events : List ChannelType, events.length = n →
    ∃ s', events.foldlM Watched.observe s = .ok s' ∧
      unrSigCheck s'.flag = .ok .signalTriggered
  no_overflow : ∀ events : List ChannelType, events.length ≤ n →
    ∀ s', events.foldlM Watched.observe s = .ok s' →
      unrSigCheck s'.flag ≠ .error (.exit .eventOverflow)

/-- Rounds of `n` events. A signal in a pool is only detected, any other signal
is only checked and reset. -/
def Rounds (n : Nat) (pool : Option Member) (rounds : List (List ChannelType × RoundEnd)) :
    Prop :=
  ∀ r ∈ rounds, r.1.length = n ∧ (r.2 = .poolDetect ↔ pool.isSome)

/-- `num_event` is rejected, or the signal waits for that many events in every
round. -/
def ValidCount (num_event : BitVec 64) : Prop :=
  ∀ created, unrSigCreate num_event = .ok created → ∀ pool rounds s₀,
    Watched.start created pool = .ok s₀ → Rounds num_event.toNat pool rounds →
    ∃ s, s₀.playRounds rounds = .ok s ∧ CountsDown num_event.toNat s

/-- A signal at the beginning of a round. If it is in a pool, its index is not
in the queue. -/
structure AtRest (n : Nat) (pool : Option Member) (s : Watched) : Prop where
  fresh : Fresh s.flag n
  alone : pool = none → s.flag.queue = none
  pooled : ∀ member, pool = some member → s.flag.queue = some member.queue ∧
    s.flag.idx = member.idx.val ∧ ∃ queue, s.queue = some queue ∧ queue.Holds [] ∧
      queue.size = member.num_sigs + 1

/-! ### Counting down -/

section

variable {s : Watched} {n m : Nat}

theorem handle_ok {flag : UruFlag} (hcounter : flag.counter = BitVec.ofNat 64 (m + 1))
    (hm : m + 1 < 2 ^ 31) (type : ChannelType) :
    Watched.handle flag type = .ok ({ flag with counter := BitVec.ofNat 64 m },
      if m = 0 then flag.queue.map (·, flag.idx) else none) := by
  have hadd : flag.add (-1#64) = { flag with counter := BitVec.ofNat 64 m } := by
    rw [UruFlag.add, hcounter, BitVec.ofNat_add, BitVec.add_assoc, BitVec.add_neg_eq_sub,
      BitVec.sub_self, BitVec.add_zero]
  have hzero : BitVec.ofNat 64 m = 0#64 ↔ m = 0 := by
    rw [← BitVec.toNat_inj, BitVec.toNat_ofNat, Nat.mod_eq_of_lt (by omega)]
    exact Iff.rfl
  have hcomplete : flag.complete (-1#64) = ({ flag with counter := BitVec.ofNat 64 m },
      if m = 0 then flag.queue.map (·, flag.idx) else none) := by
    rw [UruFlag.complete, hadd]
    simp only [hzero]
  have hnonneg : 0 ≤ (flag.add (-1#64)).counter.toInt := by
    rw [hadd]
    change 0 ≤ (BitVec.ofNat 64 m).toInt
    rw [BitVec.toInt_eq_toNat_of_lt] <;> rw [BitVec.toNat_ofNat] <;> omega
  rw [← hcomplete]
  cases type with
  | mpi => exact UruFlag.progress_eq_ok.mpr ⟨hnonneg, rfl⟩
  | verbs => rfl

theorem observe_events (hcounter : s.flag.counter = BitVec.ofNat 64 m) (hm : m < 2 ^ 31)
    {events : List ChannelType} (hlen : events.length < m) :
    events.foldlM Watched.observe s =
      .ok { s with flag := { s.flag with counter := BitVec.ofNat 64 (m - events.length) } } := by
  induction events generalizing s m with
  | nil =>
      rw [List.length_nil, Nat.sub_zero, ← hcounter]
      rfl
  | cons type events ih =>
      rw [List.length_cons] at hlen
      obtain ⟨m, rfl⟩ : ∃ k, m = k + 1 := ⟨m - 1, by omega⟩
      have hevent := handle_ok hcounter hm type
      rw [if_neg (by omega : m ≠ 0)] at hevent
      have hfirst : s.observe type =
          .ok { s with flag := { s.flag with counter := BitVec.ofNat 64 m } } := by
        rw [Watched.observe, hevent, ok_bind]
        rfl
      rw [List.foldlM_cons, hfirst, ok_bind, ih rfl (by omega) (by omega), List.length_cons,
        Nat.add_sub_add_right]

variable {pool : Option Member}

/-- The last event of a round finds room in the queue of the pool. -/
theorem AtRest.observe_last (h : AtRest n pool s) (type : ChannelType) :
    ∃ queue, Watched.observe { s with flag := { s.flag with counter := BitVec.ofNat 64 1 } } type =
        .ok ⟨{ s.flag with counter := 0#64 }, queue⟩ ∧
      ∀ member, pool = some member → ∃ uru_queue, queue = some uru_queue ∧
        uru_queue.Holds [(member.idx.val : Int)] ∧ uru_queue.size = member.num_sigs + 1 := by
  have hevent : Watched.handle { s.flag with counter := BitVec.ofNat 64 1 } type = _ :=
    handle_ok (m := 0) rfl (by decide) type
  rw [if_pos rfl] at hevent
  rw [Watched.observe, hevent, ok_bind]
  cases pool with
  | none =>
      simp only [h.alone rfl, Option.map_none]
      exact ⟨_, rfl, fun member hmember => by cases hmember⟩
  | some member =>
      obtain ⟨hname, hidx, queue, hsome, hholds, hsize⟩ := h.pooled member rfl
      have hroom : ([] : List Int).length + 1 < queue.size := by
        have hpos : 0 < member.num_sigs := Nat.lt_of_le_of_lt (Nat.zero_le _) member.idx.isLt
        rw [List.length_nil, hsize]
        omega
      obtain ⟨queue', hpush, hholds', hsize'⟩ := hholds.push_ok hroom member.idx.val
      simp only [hname, hidx, hsome, Option.map_some, hpush]
      refine ⟨_, rfl, fun member' hmember => ?_⟩
      cases hmember
      exact ⟨queue', rfl, hholds', hsize'.trans hsize⟩

theorem AtRest.observe_round (h : AtRest n pool s) (hpos : 0 < n) (hn : n < 2 ^ 31)
    {events : List ChannelType} (hlen : events.length = n) :
    ∃ queue, events.foldlM Watched.observe s = .ok ⟨{ s.flag with counter := 0#64 }, queue⟩ ∧
      ∀ member, pool = some member → ∃ uru_queue, queue = some uru_queue ∧
        uru_queue.Holds [(member.idx.val : Int)] ∧ uru_queue.size = member.num_sigs + 1 := by
  obtain ⟨before, last, rfl⟩ : ∃ before last, events = before ++ [last] :=
    ⟨events.dropLast, events.getLast (by rintro rfl; simp at hlen; omega),
      (List.dropLast_append_getLast _).symm⟩
  rw [List.length_append, List.length_singleton] at hlen
  have hbefore := observe_events h.fresh.counter hn (by omega : before.length < n)
  rw [show n - before.length = 1 by omega] at hbefore
  obtain ⟨queue, hlast, hqueue⟩ := h.observe_last last
  refine ⟨queue, ?_, hqueue⟩
  rw [List.foldlM_append, hbefore, ok_bind, List.foldlM_cons, hlast, ok_bind]
  rfl

theorem AtRest.countsDown (h : AtRest n pool s) (hpos : 0 < n) (hn : n < 2 ^ 31) :
    CountsDown n s := by
  have hcheck : ∀ {k : Nat} (queue : Option UruQueue), k ≤ n →
      unrSigCheck (⟨{ s.flag with counter := BitVec.ofNat 64 (n - k) }, queue⟩ : Watched).flag =
        .ok (if k = n then .signalTriggered else .signalWaiting) := by
    intro k queue hk
    have hval : (BitVec.ofNat 64 (n - k)).toNat = n - k := by
      rw [BitVec.toNat_ofNat, Nat.mod_eq_of_lt (by omega)]
    have hzero : BitVec.ofNat 64 (n - k) = 0#64 ↔ k = n := by
      rw [← BitVec.toNat_inj, hval, BitVec.toNat_zero]
      omega
    rw [unrSigCheck_of_lt (by rw [hval]; omega)]
    simp only [hzero]
  have hwaiting : ∀ events : List ChannelType, events.length < n →
      ∃ s', events.foldlM Watched.observe s = .ok s' ∧
        unrSigCheck s'.flag = .ok .signalWaiting := by
    intro events hlen
    refine ⟨_, observe_events h.fresh.counter hn hlen, ?_⟩
    rw [hcheck s.queue hlen.le, if_neg hlen.ne]
  have htriggered : ∀ events : List ChannelType, events.length = n →
      ∃ s', events.foldlM Watched.observe s = .ok s' ∧
        unrSigCheck s'.flag = .ok .signalTriggered := by
    intro events hlen
    obtain ⟨queue, hrun, -⟩ := h.observe_round hpos hn hlen
    refine ⟨_, hrun, ?_⟩
    have hlast := hcheck (k := n) queue le_rfl
    rwa [Nat.sub_self, if_pos rfl] at hlast
  refine ⟨fun events _ hlen => hwaiting events hlen, htriggered, fun events hlen s' hrun => ?_⟩
  rcases Nat.lt_or_eq_of_le hlen with hless | hall
  · obtain ⟨s'', hrun', hstatus⟩ := hwaiting events hless
    cases hrun.symm.trans hrun'
    rw [hstatus]
    exact nofun
  · obtain ⟨s'', hrun', hstatus⟩ := htriggered events hall
    cases hrun.symm.trans hrun'
    rw [hstatus]
    exact nofun

/-! ### Rounds -/

theorem AtRest.round (h : AtRest n pool s) (hpos : 0 < n) (hn : n < 2 ^ 31)
    {events : List ChannelType} (hlen : events.length = n) {call : RoundEnd}
    (hcall : call = .poolDetect ↔ pool.isSome) :
    ∃ s₁ s₂, events.foldlM Watched.observe s = .ok s₁ ∧ s₁.endRound call = .ok s₂ ∧
      AtRest n pool s₂ := by
  obtain ⟨queue, hrun, hqueue⟩ := h.observe_round hpos hn hlen
  have hagain : Fresh { s.flag with counter := s.flag.num_event.setWidth 64 } n :=
    fresh_rearmed (by omega) h.fresh.num_event
  cases pool with
  | none =>
      obtain rfl : call = .sigReset := by cases call <;> simp_all
      refine ⟨_, ⟨{ s.flag with counter := s.flag.num_event.setWidth 64 }, queue⟩, hrun, ?_, hagain,
        fun _ => h.alone rfl, fun member hmember => by cases hmember⟩
      have hreset : unrSigReset { s.flag with counter := 0#64 } = .ok _ :=
        (unrSigReset_eq_ok_iff _ _).mpr ⟨rfl, rfl⟩
      rw [Watched.endRound, hreset]
      rfl
  | some member =>
      obtain rfl : call = .poolDetect := hcall.mpr rfl
      obtain ⟨hname, hidx, -⟩ := h.pooled member rfl
      obtain ⟨uru_queue, rfl, hholds, hsize⟩ := hqueue member rfl
      obtain ⟨queue', hpop, hholds', hsize'⟩ := hholds.pop_cons
      refine ⟨_, ⟨{ s.flag with counter := s.flag.num_event.setWidth 64 }, some queue'⟩, hrun, ?_,
        hagain, fun hnone => absurd hnone (Option.some_ne_none _), fun member' hmember => ?_⟩
      · simp only [Watched.endRound, hpop, ok_bind, hidx, if_true]
        rfl
      · cases hmember
        exact ⟨hname, hidx, queue', rfl, hholds', hsize'.trans hsize⟩

theorem AtRest.playRounds (h : AtRest n pool s) (hpos : 0 < n) (hn : n < 2 ^ 31)
    {rounds : List (List ChannelType × RoundEnd)} (hrounds : Rounds n pool rounds) :
    ∃ s', s.playRounds rounds = .ok s' ∧ AtRest n pool s' := by
  induction rounds generalizing s with
  | nil => exact ⟨s, rfl, h⟩
  | cons r rounds ih =>
      obtain ⟨events, call⟩ := r
      obtain ⟨hlen, hcall⟩ := hrounds (events, call) (by simp)
      obtain ⟨s₁, s₂, hrun, hend, hrest⟩ := h.round hpos hn hlen hcall
      obtain ⟨s', hplay, hrest'⟩ := ih hrest fun r hr => hrounds r (by simp [hr])
      refine ⟨s', ?_, hrest'⟩
      rw [Watched.playRounds, hrun, ok_bind, hend, ok_bind, hplay]

theorem atRest_of_start {flag : UruFlag} (hfresh : Fresh flag n) (hqueue : flag.queue = none)
    (hstart : Watched.start flag pool = .ok s) : AtRest n pool s := by
  cases pool with
  | none =>
      cases hstart
      exact ⟨hfresh, fun _ => hqueue, fun member hmember => by cases hmember⟩
  | some member =>
      obtain ⟨queue, hinit, hflag⟩ := bind_eq_ok.mp hstart
      cases hflag
      obtain ⟨hholds, hsize⟩ := holds_of_uruQueueInit hinit
      refine ⟨⟨hfresh.counter, hfresh.num_event⟩, fun hnone => absurd hnone (Option.some_ne_none _),
        fun member' hmember => ?_⟩
      cases hmember
      exact ⟨rfl, rfl, queue, rfl, hholds, hsize⟩

end

/-! ### The accepted numbers -/

/-- The range check as it is compiled. -/
theorem unrSigCreate_eq_ok_iff {num_event : BitVec 64} {flag : UruFlag} :
    unrSigCreate num_event = .ok flag ↔
      (0 < num_event.toNat ∧ num_event.toNat < 2 ^ 64 - 2 ^ 31) ∧
        flag = ⟨num_event, none, num_event.setWidth 32, -1⟩ := by
  have hshl : shl31.toNat = 2 ^ 64 - 2 ^ 31 := by decide
  simp only [unrSigCreate, bind_eq_ok, uruAssert_eq_ok, pure_eq_ok, BitVec.lt_def, hshl,
    BitVec.toNat_zero]
  constructor
  · rintro ⟨-, hpos, -, hlt, rfl⟩
    exact ⟨⟨hpos, hlt⟩, rfl⟩
  · rintro ⟨⟨hpos, hlt⟩, rfl⟩
    exact ⟨(), hpos, (), hlt, rfl⟩

/-- A number of events is rejected, or the signal keeps it through all rounds,
exactly if it is below `2 ^ 31` or so large that the converted bound rejects
it. -/
theorem valid_count_iff (num_event : BitVec 64) :
    ValidCount num_event ↔ num_event.toNat < 2 ^ 31 ∨ 2 ^ 64 - 2 ^ 31 ≤ num_event.toNat := by
  constructor
  · intro hvalid
    by_contra hbad
    rw [not_or, Nat.not_lt, Nat.not_le] at hbad
    obtain ⟨hlow, hhigh⟩ := hbad
    -- the signal that has just been created is reported as overflowed
    have hcreate := unrSigCreate_eq_ok_iff.mpr ⟨⟨by omega, hhigh⟩, rfl⟩
    obtain ⟨s, hplay, hcounts⟩ :=
      hvalid _ hcreate none [] _ rfl fun r hr => absurd hr List.not_mem_nil
    cases hplay
    exact hcounts.no_overflow [] (Nat.zero_le _) _ rfl (unrSigCheck_of_ge hlow)
  · intro hcond created hcreate pool rounds s₀ hstart hrounds
    obtain ⟨⟨hpos, hhigh⟩, rfl⟩ := unrSigCreate_eq_ok_iff.mp hcreate
    have hn : num_event.toNat < 2 ^ 31 := by omega
    have hfresh : Fresh ⟨num_event, none, num_event.setWidth 32, -1⟩ num_event.toNat :=
      ⟨by rw [BitVec.ofNat_toNat, BitVec.setWidth_eq], by rw [BitVec.ofNat_toNat]⟩
    have hrest := atRest_of_start hfresh rfl hstart
    obtain ⟨s, hplay, hrest'⟩ := hrest.playRounds hpos hn hrounds
    exact ⟨s, hplay, hrest'.countsDown hpos hn⟩

/-- A signal in a pool that is reset instead of being detected: its index stays
in the queue, and the next round finds the queue full. -/
example : (Watched.start ⟨1, none, 1, -1⟩ (some ⟨7, 1, 0⟩)).bind
    (·.playRounds [([.verbs], .sigReset), ([.verbs], .sigReset)]) =
      .error (.exit .assertExit) := rfl

/-- The number 2 ^ 32 + 1 is accepted. The check stops the process after the
first event, and the number that is kept for the next round is 1. -/
theorem large_count_accepted :
    ∃ flag s, unrSigCreate (BitVec.ofNat 64 (2 ^ 32 + 1)) = .ok flag ∧
      [ChannelType.verbs].foldlM Watched.observe ⟨flag, none⟩ = .ok s ∧
      unrSigCheck s.flag = .error (.exit .eventOverflow) ∧ flag.num_event = 1 ∧
      ¬ ValidCount (BitVec.ofNat 64 (2 ^ 32 + 1)) := by
  refine ⟨_, _, unrSigCreate_eq_ok_iff.mpr ⟨by decide, rfl⟩, rfl, unrSigCheck_of_ge (by decide),
    by decide, ?_⟩
  rw [valid_count_iff]
  decide

end Unr.Uri
