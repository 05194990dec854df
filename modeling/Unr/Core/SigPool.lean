import Unr.Core.Plan
import Unr.Core.SignalRuns
import Unr.Logic.Transition
import Unr.Uru.Queue

/-!
Pools of signals: `unr_sig_pool_create` and `unr_sig_pool_detect`.

Two threads work on a pool. The daemon adds the parts that have arrived to the
counters and pushes the index of a signal whose counter becomes zero; the user
pops an index and sets the counter of that signal again. The two halves of
either call are separate steps here, so that the threads may interleave
anywhere.
-/

namespace Unr.Core

open Unr.Uru Unr.Logic

/-! ### Creating a pool -/

/-- The turn of the loop of `unr_sig_pool_create` for signal `i`. -/
def unrSigPoolEnter (rank : Int) (queue : Nat) (flags : Nat → UruFlag) (entry : UnrSig × Nat) :
    Prog (Nat → UruFlag) := do
  let (sig, i) := entry
  uruAssert (sig.dst_rank = rank)
  match sig.flag_p with
  | none => throw .undefined
  | some flag_p =>
      uruAssert ((flags flag_p).idx = -1)
      return Function.update flags flag_p { flags flag_p with idx := i, queue := some queue }

/-- `unr_sig_pool_create`. The queue of the pool is named by a number. -/
def unrSigPoolCreate (rank : Int) (queue : Nat) (flags : Nat → UruFlag)
    (sig_h_arr : List UnrSig) : Prog (UruQueue × (Nat → UruFlag)) := do
  let uru_queue ← uruQueueInit sig_h_arr.length
  let flags ← sig_h_arr.zipIdx.foldlM (unrSigPoolEnter rank queue) flags
  return (uru_queue, flags)

structure Entered (queue : Nat) (sig_arr : List UnrSig) (flags flags' : Nat → UruFlag) :
    Prop where
  flag : ∀ i, (hi : i < sig_arr.length) → ∃ flag_p, sig_arr[i].flag_p = some flag_p ∧
    flags' flag_p = { flags flag_p with idx := i, queue := some queue }
  /-- No two signals have the same flag. -/
  distinct : ∀ i j, (hi : i < sig_arr.length) → (hj : j < sig_arr.length) →
    sig_arr[i].flag_p = sig_arr[j].flag_p → i = j
  frame : ∀ flag_p, (∀ sig ∈ sig_arr, sig.flag_p ≠ some flag_p) → flags' flag_p = flags flag_p

theorem entered_nil (queue : Nat) (flags : Nat → UruFlag) : Entered queue [] flags flags where
  flag := fun _ hi => absurd hi (Nat.not_lt_zero _)
  distinct := fun _ _ hi => absurd hi (Nat.not_lt_zero _)
  frame := fun _ _ => rfl

/-- One more signal is entered. Its flag cannot be one of those before: their
indices are not -1 any more. -/
theorem Entered.snoc {queue : Nat} {sig_arr : List UnrSig} {flags flags' flags'' : Nat → UruFlag}
    (h : Entered queue sig_arr flags flags') {rank : Int} {sig : UnrSig}
    (hstep : unrSigPoolEnter rank queue flags' (sig, sig_arr.length) = .ok flags'') :
    Entered queue (sig_arr ++ [sig]) flags flags'' := by
  simp only [unrSigPoolEnter, bind_eq_ok] at hstep
  obtain ⟨-, -, hstep⟩ := hstep
  cases hflag : sig.flag_p with
  | none =>
      rw [hflag] at hstep
      cases hstep
  | some flag_p =>
      rw [hflag] at hstep
      obtain ⟨_, hidx, hstep⟩ := bind_eq_ok.mp hstep
      rw [uruAssert_eq_ok] at hidx
      cases hstep
      -- the flag still has index -1, the flags entered before have not
      have hnew : ∀ i, (hi : i < sig_arr.length) → sig_arr[i].flag_p ≠ some flag_p := by
        intro i hi heq
        obtain ⟨flag_p', hflag', hset⟩ := h.flag i hi
        cases heq.symm.trans hflag'
        rw [hset] at hidx
        have : (i : ℤ) = -1 := hidx
        omega
      -- so no earlier turn has written to it
      have hold : flags' flag_p = flags flag_p := by
        refine h.frame flag_p fun s hs => ?_
        obtain ⟨i, hi, rfl⟩ := List.getElem_of_mem hs
        exact hnew i hi
      constructor
      · intro i hi
        rw [List.length_append, List.length_singleton] at hi
        by_cases hlast : i = sig_arr.length
        · subst hlast
          refine ⟨flag_p, by simpa using hflag, ?_⟩
          rw [Function.update_self, hold]
        · have hlt : i < sig_arr.length := by omega
          obtain ⟨flag_p', hflag', hset⟩ := h.flag i hlt
          refine ⟨flag_p', by rwa [List.getElem_append_left hlt], ?_⟩
          rw [Function.update_of_ne, hset]
          rintro rfl
          exact hnew i hlt hflag'
      · intro i j hi hj heq
        rw [List.length_append, List.length_singleton] at hi hj
        by_cases hilast : i = sig_arr.length
        · by_cases hjlast : j = sig_arr.length
          · rw [hilast, hjlast]
          · have hjlt : j < sig_arr.length := by omega
            subst hilast
            rw [List.getElem_append_left hjlt] at heq
            exact absurd (heq.symm.trans (by simpa using hflag)) (hnew j hjlt)
        · have hilt : i < sig_arr.length := by omega
          by_cases hjlast : j = sig_arr.length
          · subst hjlast
            rw [List.getElem_append_left hilt] at heq
            exact absurd (heq.trans (by simpa using hflag)) (hnew i hilt)
          · have hjlt : j < sig_arr.length := by omega
            rw [List.getElem_append_left hilt, List.getElem_append_left hjlt] at heq
            exact h.distinct i j hilt hjlt heq
      · intro flag_p' hnone
        have hne : flag_p' ≠ flag_p := by
          rintro rfl
          exact hnone sig (by simp) hflag
        rw [Function.update_of_ne hne]
        exact h.frame flag_p' fun s hs => hnone s (by simp [hs])

theorem entered_of_create {rank : Int} {queue : Nat} {flags flags' : Nat → UruFlag}
    {sig_h_arr : List UnrSig} {uru_queue : UruQueue}
    (h : unrSigPoolCreate rank queue flags sig_h_arr = .ok (uru_queue, flags')) :
    Entered queue sig_h_arr flags flags' ∧ uru_queue.Holds [] ∧
      uru_queue.size = sig_h_arr.length + 1 := by
  simp only [unrSigPoolCreate, bind_eq_ok, pure_eq_ok] at h
  obtain ⟨q, hinit, fs, hloop, heq⟩ := h
  cases heq
  refine ⟨?_, holds_of_uruQueueInit hinit⟩
  have key : ∀ (rest before : List UnrSig) {fs fs' : Nat → UruFlag},
      Entered queue before flags fs →
      (rest.zipIdx before.length).foldlM (unrSigPoolEnter rank queue) fs = .ok fs' →
      Entered queue (before ++ rest) flags fs' := by
    intro rest
    induction rest with
    | nil =>
        intro before fs fs' hbefore hrun
        cases hrun
        rwa [List.append_nil]
    | cons sig rest ih =>
        intro before fs fs' hbefore hrun
        rw [List.zipIdx_cons, List.foldlM_cons] at hrun
        obtain ⟨next, hstep, hrun⟩ := bind_eq_ok.mp hrun
        have hnext := hbefore.snoc hstep
        rw [← List.singleton_append, ← List.append_assoc]
        refine ih (before ++ [sig]) hnext ?_
        rwa [List.length_append, List.length_singleton]
  exact key sig_h_arr [] (entered_nil queue flags) hloop

/-! ### A signal of a pool -/

/-- Fewer parts come behind the first parts of these sends than the high half
of the counter can count. -/
def FewLater (sends : List Send) : Prop := (sends.map fun s => s.non_zeros - 1).sum < 2 ^ 32

instance (sends : List Send) : Decidable (FewLater sends) := inferInstanceAs (Decidable (_ < _))

/-- A signal in a round of `N` sends, with the parts that are still to come.
The groups of channels are those of a configuration, which has fewer than 256
channels. -/
structure InRound (N : Nat) (flag : UruFlag) (sends : List Send) (todo : List Part) : Prop where
  num_sends : sends.length = N
  num_channels : ∀ s ∈ sends, s.group.num < 256
  num_event : flag.num_event = BitVec.ofNat 32 N
  /-- The daemon has gone through the parts that have arrived. Its assertion has
  held for each of them, unless the high count is too small to go around. -/
  counts : ∃ applied, (applied ++ todo).Perm (sends.flatMap Send.parts) ∧
    flag.counter = packed 64 32 (N - messages applied) (outstanding applied) ∧
    (0 ≤ outstanding applied ∧ outstanding applied < 2 ^ 31 ∨ FewLater sends)

theorem Part.outstanding_bounds {s : Send} {p : Part} (hp : p ∈ s.parts)
    (hchannels : s.group.num < 256) : -1 ≤ p.outstanding ∧ p.outstanding < 255 := by
  have hsend := send_eq_of_mem_parts hp
  have hpos := s.non_zeros_pos
  have hle : s.non_zeros ≤ s.group.num := by
    rw [← s.parts_length, Send.parts, List.length_map]
    exact (List.length_filter_le _ _).trans_eq List.length_range
  unfold Part.outstanding
  rw [hsend]
  split <;> omega

namespace InRound

variable {N : Nat} {flag flag' : UruFlag} {sends : List Send} {todo : List Part}

/-- Only the counter and `num_event` of the flag matter. -/
theorem of_flag (h : InRound N flag sends todo) (hcounter : flag'.counter = flag.counter)
    (hnum : flag'.num_event = flag.num_event) : InRound N flag' sends todo :=
  ⟨h.num_sends, h.num_channels, hnum.trans h.num_event, by rw [hcounter]; exact h.counts⟩

theorem start (hsends : sends.length = N) (hchannels : ∀ s ∈ sends, s.group.num < 256)
    (hfresh : Fresh flag N) : InRound N flag sends (sends.flatMap Send.parts) where
  num_sends := hsends
  num_channels := hchannels
  num_event := hfresh.num_event
  counts := by
    refine ⟨[], by rw [List.nil_append], ?_, .inl ⟨by simp, by simp⟩⟩
    rw [hfresh.counter, messages_nil, outstanding_nil, packed, mul_zero, add_zero, sub_zero,
      BitVec.ofInt_natCast]

theorem counter_eq_zero_iff (h : InRound N flag sends todo) (hlt : N < 2 ^ 32) :
    flag.counter = 0#64 ↔ todo = [] := by
  obtain ⟨applied, hperm, hcounter, hbound⟩ := h.counts
  have hmsgs := messages_perm hperm
  rw [messages_append, messages_flatMap, h.num_sends] at hmsgs
  have hout := outstanding_perm hperm
  rw [outstanding_append, outstanding_flatMap] at hout
  have happlied := messages_nonneg applied
  have hrest := messages_nonneg todo
  rw [hcounter, packed_eq_zero_iff (by omega) (by omega) (by omega), ← h.num_sends]
  refine rest_eq_nil_iff hperm fun hzero => ?_
  rcases hbound with ⟨hnonneg, hless⟩ | hfew
  · have hnone : todo.filter Part.isFirst = [] := by
      rw [messages_eq] at hzero
      rw [← List.length_eq_zero_iff, ← List.countP_eq_length_filter]
      exact_mod_cast hzero
    have hcount := outstanding_eq todo
    rw [hnone, List.map_nil, List.sum_nil, zero_sub] at hcount
    omega
  · refine Nat.lt_of_le_of_lt ?_ hfew
    rw [← countP_not_isFirst_flatMap, ← hperm.countP_eq, List.countP_append]
    exact Nat.le_add_left _ _

/-- The daemon adds a part. The high count has moved by less than its assertion
would let it skip. -/
theorem add (h : InRound N flag sends todo) (hlt : N < 2 ^ 32) {k : Nat} {p : Part}
    (hp : todo[k]? = some p)
    (hkept : 0 ≤ (flag.add p.sig_add).counter.toInt ∨ FewLater sends) :
    InRound N (flag.add p.sig_add) sends (todo.eraseIdx k) := by
  obtain ⟨applied, hperm, hcounter, hbound⟩ := h.counts
  have hmem : p ∈ todo := List.mem_of_getElem? hp
  obtain ⟨s, hs, hpart⟩ : ∃ s ∈ sends, p ∈ s.parts :=
    List.mem_flatMap.mp (hperm.mem_iff.mp (List.mem_append_right applied hmem))
  obtain ⟨hlow, hhigh⟩ := Part.outstanding_bounds hpart (h.num_channels s hs)
  have hperm' : ((p :: applied) ++ todo.eraseIdx k).Perm (sends.flatMap Send.parts) := by
    refine List.Perm.trans ?_ hperm
    have hk : k < todo.length := (List.getElem?_eq_some_iff.mp hp).1
    have hget : todo[k] = p := (List.getElem?_eq_some_iff.mp hp).2
    have htodo : (p :: todo.eraseIdx k).Perm todo := hget ▸ List.getElem_cons_eraseIdx_perm hk
    exact List.perm_middle.symm.trans (htodo.append_left applied)
  have hnext : (flag.add p.sig_add).counter =
      packed 64 32 (N - messages (p :: applied)) (outstanding (p :: applied)) := by
    rw [UruFlag.add_counter, hcounter, Part.sig_add_eq hpart, packed_add, messages_cons,
      outstanding_cons]
    congr 1 <;> ring
  have hmsgs := messages_perm hperm'
  rw [messages_append, messages_flatMap, h.num_sends] at hmsgs
  have happlied := messages_nonneg (p :: applied)
  have hrest := messages_nonneg (todo.eraseIdx k)
  refine ⟨h.num_sends, h.num_channels, h.num_event, p :: applied, hperm', hnext, ?_⟩
  rcases hbound with ⟨hnonneg, hless⟩ | hfew
  · refine hkept.imp_left fun hassert => ?_
    rw [hnext, packed_toInt_nonneg_iff (by omega) (by omega) _ (by omega)] at hassert
    rw [outstanding_cons] at hassert ⊢
    omega
  · exact .inr hfew

theorem progress (h : InRound N flag sends todo) (hlt : N < 2 ^ 32) {k : Nat} {p : Part}
    (hp : todo[k]? = some p) {push : Option (Nat × Int)}
    (hprogress : flag.progress p.sig_add = .ok (flag', push)) :
    InRound N flag' sends (todo.eraseIdx k) ∧
      flag'.queue = flag.queue ∧ flag'.idx = flag.idx ∧
      push = if flag'.counter = 0#64 then flag.queue.map (·, flag.idx) else none := by
  obtain ⟨hassert, hresult⟩ := UruFlag.progress_eq_ok.mp hprogress
  cases hresult
  exact ⟨h.add hlt hp (.inl hassert), rfl, rfl, rfl⟩

/-- A daemon that has gone through some parts since the reset leaves the signal
in its round. -/
theorem of_arrived {start : UruFlag} (hstart : Fresh start N) (hlt : N < 2 ^ 32)
    (hsends : sends.length = N) (hchannels : ∀ s ∈ sends, s.group.num < 256)
    {arrived : List Part} (hperm : (arrived ++ todo).Perm (sends.flatMap Send.parts))
    (hdeliver : deliver start arrived = .ok (applyParts start arrived) ∨ FewLater sends) :
    InRound N (applyParts start arrived) sends todo := by
  have key : ∀ (arrived : List Part) {flag₀ : UruFlag} {todo₀ : List Part},
      InRound N flag₀ sends todo₀ → (arrived ++ todo).Perm todo₀ →
      (deliver flag₀ arrived = .ok (applyParts flag₀ arrived) ∨ FewLater sends) →
      InRound N (applyParts flag₀ arrived) sends todo := by
    intro arrived
    induction arrived with
    | nil =>
        intro flag₀ todo₀ h hperm _
        obtain ⟨applied, hperm₀, hcounts⟩ := h.counts
        exact ⟨h.num_sends, h.num_channels, h.num_event, applied,
          (hperm.append_left applied).trans hperm₀, hcounts⟩
    | cons p arrived ih =>
        intro flag₀ todo₀ h hperm hdeliver
        rw [deliver_cons_ok_iff] at hdeliver
        have hmem : p ∈ todo₀ := hperm.mem_iff.mp (by simp)
        obtain ⟨k, hk, hget⟩ := List.getElem_of_mem hmem
        have hp : todo₀[k]? = some p := by rw [List.getElem?_eq_getElem hk, hget]
        refine ih (h.add hlt hp (hdeliver.imp_left And.left)) ?_ (hdeliver.imp_left And.right)
        have htodo : (p :: todo₀.eraseIdx k).Perm todo₀ := hget ▸ List.getElem_cons_eraseIdx_perm hk
        exact (List.perm_cons p).mp (hperm.trans htodo.symm)
  exact key arrived (InRound.start hsends hchannels hstart) hperm hdeliver

end InRound

end Unr.Core
