import Unr.Core.SigPool
import Unr.Core.SignalExact

/-!
A pool of signals over any run of the daemon and the user.

At any moment a completed round waits in one of three places: the daemon is
about to push its index, the index is in the queue, or the user has popped it
and is about to set the counter again. The queue has room for every signal of
the pool once, and no signal can be in two of these places.
-/

namespace Unr.Core

open Unr.Uru Unr.Logic

/-- The state the two threads share, with the two local variables that hold an
index, the sends of the round of every signal and the parts still to come. The
logs say which rounds have been completed and which have been detected. -/
structure PoolState (n : Nat) where
  flags : Nat → UruFlag
  queue : UruQueue
  /-- `op->flag_p->idx`, between the addition and the push. -/
  pushing : Option Int
  /-- `*sig_id`, between the pop and the assignment to the counter. -/
  detected : Option Int
  sends : Fin n → List Send
  todo : Fin n → List Part
  completed : List (Fin n)
  reported : List (Fin n)

inductive PoolAction (n : Nat)
  /-- The daemon adds the part with number `k` of those to come. -/
  | add (i : Fin n) (k : Nat)
  | push
  | pop
  /-- The user sets the counter again, for a round of the given sends. -/
  | rearm (sends : List Send)

def sigId {n : Nat} (i : Fin n) : Int := i.val

section

variable (pool : List UnrSig) (num_event : Fin pool.length → Nat)

namespace PoolState

variable (s : PoolState pool.length)

/-- The daemon, up to the test whether to push. Its assertion is not part of
the step: a build with assertions ends at a step that is not `Asserted`. -/
def add (i : Fin pool.length) (k : Nat) : Option (PoolState pool.length) :=
  match s.pushing, (s.todo i)[k]?, (pool.get i).flag_p with
  | none, some p, some flag_p =>
      let (flag, push) := (s.flags flag_p).complete p.sig_add
      some { s with
        flags := Function.update s.flags flag_p flag
        pushing := push.map (·.2)
        todo := Function.update s.todo i ((s.todo i).eraseIdx k)
        completed :=
          if ((s.todo i).eraseIdx k).isEmpty then s.completed ++ [i] else s.completed }
  | _, _, _ => none

def push : Option (PoolState pool.length) :=
  match s.pushing with
  | some idx =>
      match uruQueuePush s.queue idx with
      | .ok queue => some { s with queue := queue, pushing := none }
      | .error _ => none
  | none => none

/-- `unr_sig_pool_detect`, up to the test of the index. -/
def pop : Option (PoolState pool.length) :=
  match s.detected, uruQueuePop s.queue with
  | none, .ok (sig_id, queue) => some { s with
      queue := queue
      detected := if sig_id < 0 then none else some sig_id }
  | _, _ => none

/-- The rest of `unr_sig_pool_detect`. The next round of the signal begins. -/
def rearm (sends : List Send) : Option (PoolState pool.length) :=
  match s.detected with
  | some sig_id =>
      if h : sig_id.toNat < pool.length then
        let i : Fin pool.length := ⟨sig_id.toNat, h⟩
        match (pool.get i).flag_p with
        | some flag_p =>
            if sends.length = num_event i ∧ ∀ s ∈ sends, s.group.num < 256 then
              some { s with
                flags := Function.update s.flags flag_p
                  { s.flags flag_p with counter := (s.flags flag_p).num_event.setWidth 64 }
                detected := none
                sends := Function.update s.sends i sends
                todo := Function.update s.todo i (sends.flatMap Send.parts)
                reported := s.reported ++ [i] }
            else none
        | none => none
      else none
  | none => none

def step : PoolAction pool.length → Option (PoolState pool.length)
  | .add i k => s.add pool i k
  | .push => s.push pool
  | .pop => s.pop pool
  | .rearm sends => s.rearm pool num_event sends

/-- `URU_ASSERT(op->flag_p->counter >= 0)` of the daemon holds. -/
def Asserted : PoolAction pool.length → Prop
  | .add i k => ∀ p flag_p, (s.todo i)[k]? = some p → (pool.get i).flag_p = some flag_p →
      0 ≤ ((s.flags flag_p).add p.sig_add).counter.toInt
  | .push | .pop | .rearm _ => True

/-- A part that arrives belongs to a round with few parts. -/
def Few : PoolAction pool.length → Prop
  | .add i _ => FewLater (s.sends i)
  | .push | .pop | .rearm _ => True

instance (action : PoolAction pool.length) : Decidable (s.Few pool action) :=
  match action with
  | .add i _ => inferInstanceAs (Decidable (FewLater (s.sends i)))
  | .push | .pop | .rearm _ => inferInstanceAs (Decidable True)

end PoolState

/-- A pool right after its creation, with signals that may be in the middle of
a round. -/
def poolStart (queue : UruQueue) (flags : Nat → UruFlag) (sends : Fin pool.length → List Send)
    (todo : Fin pool.length → List Part) : PoolState pool.length where
  flags := flags
  queue := queue
  pushing := none
  detected := none
  sends := sends
  todo := todo
  completed := []
  reported := []

/-- Where the completed rounds wait: at the user, in the queue, at the
daemon. -/
structure Waiting (s : PoolState pool.length) (u : Option (Fin pool.length))
    (xs : List (Fin pool.length)) (d : Option (Fin pool.length)) : Prop where
  queue : s.queue.Holds (xs.map sigId)
  pushing : s.pushing = d.map sigId
  detected : s.detected = u.map sigId
  nodup : (u.toList ++ xs ++ d.toList).Nodup
  mem : ∀ i, i ∈ u.toList ++ xs ++ d.toList ↔ s.todo i = []
  completed : s.completed = s.reported ++ (u.toList ++ xs ++ d.toList)

structure PoolInv (uru_queue : Nat) (s : PoolState pool.length) : Prop where
  sig : ∀ i, ∃ flag_p, (pool.get i).flag_p = some flag_p ∧
    InRound (num_event i) (s.flags flag_p) (s.sends i) (s.todo i) ∧
    (s.flags flag_p).queue = some uru_queue ∧ (s.flags flag_p).idx = sigId i
  size : s.queue.size = pool.length + 1
  waiting : ∃ u xs d, Waiting pool s u xs d

end

theorem sigId_injective {n : Nat} : Function.Injective (sigId (n := n)) :=
  fun _ _ h => Fin.ext (Int.ofNat.inj h)

theorem sigId_nonneg {n : Nat} (i : Fin n) : ¬ sigId i < 0 :=
  Int.not_lt.mpr (Int.natCast_nonneg i.val)

@[simp] theorem toNat_sigId {n : Nat} (i : Fin n) : (sigId i).toNat = i := by
  rw [sigId, Int.toNat_natCast]

/-! ### The steps -/

section

variable {pool : List UnrSig} {num_event : Fin pool.length → Nat} {uru_queue : Nat}
  {s s' : PoolState pool.length}

/-- A change of one signal leaves the other signals alone, since they have
other flags. -/
theorem PoolInv.sig_update (h : PoolInv pool num_event uru_queue s)
    (hdistinct : ∀ i j, (pool.get i).flag_p = (pool.get j).flag_p → i = j)
    {i : Fin pool.length} {flag_p : Nat} (hflag : (pool.get i).flag_p = some flag_p)
    {flag : UruFlag} {sends : List Send} {todo : List Part}
    (hround : InRound (num_event i) flag sends todo) (hqueue : flag.queue = some uru_queue)
    (hidx : flag.idx = sigId i) (j : Fin pool.length) :
    ∃ flag_p', (pool.get j).flag_p = some flag_p' ∧
      InRound (num_event j) (Function.update s.flags flag_p flag flag_p')
        (Function.update s.sends i sends j) (Function.update s.todo i todo j) ∧
      (Function.update s.flags flag_p flag flag_p').queue = some uru_queue ∧
      (Function.update s.flags flag_p flag flag_p').idx = sigId j := by
  by_cases hji : j = i
  · subst hji
    refine ⟨flag_p, hflag, ?_⟩
    simp only [Function.update_self]
    exact ⟨hround, hqueue, hidx⟩
  · obtain ⟨flag_p', hflag', hrest⟩ := h.sig j
    have hne : flag_p' ≠ flag_p := by
      rintro rfl
      exact hji (hdistinct j i (hflag'.trans hflag.symm))
    refine ⟨flag_p', hflag', ?_⟩
    simp only [Function.update_of_ne hne, Function.update_of_ne hji]
    exact hrest

theorem PoolState.add_eq_some {i : Fin pool.length} {k : Nat} (h : s.add pool i k = some s') :
    ∃ p flag_p, s.pushing = none ∧ (s.todo i)[k]? = some p ∧
      (pool.get i).flag_p = some flag_p ∧ s' = { s with
        flags := Function.update s.flags flag_p ((s.flags flag_p).add p.sig_add)
        pushing := ((s.flags flag_p).complete p.sig_add).2.map (·.2)
        todo := Function.update s.todo i ((s.todo i).eraseIdx k)
        completed :=
          if ((s.todo i).eraseIdx k).isEmpty then s.completed ++ [i] else s.completed } := by
  unfold PoolState.add at h
  split at h
  · next p flag_p hpushing hp hflag =>
    cases h
    exact ⟨p, flag_p, hpushing, hp, hflag, rfl⟩
  · cases h

theorem PoolInv.add (h : PoolInv pool num_event uru_queue s)
    (hdistinct : ∀ i j, (pool.get i).flag_p = (pool.get j).flag_p → i = j)
    (hlt : ∀ i, num_event i < 2 ^ 32) {i : Fin pool.length} {k : Nat}
    (hkept : s.Asserted pool (.add i k) ∨ s.Few pool (.add i k))
    (hstep : s.add pool i k = some s') : PoolInv pool num_event uru_queue s' := by
  obtain ⟨u, xs, d, hwaiting⟩ := h.waiting
  obtain ⟨p, flag_p, hpushing, hp, hflag, rfl⟩ := PoolState.add_eq_some hstep
  obtain ⟨flag_p', hflag', hround, hqueue, hidx⟩ := h.sig i
  obtain rfl : flag_p' = flag_p := Option.some.inj (hflag'.symm.trans hflag)
  have hround' := hround.add (hlt i) hp (hkept.imp_left fun hassert => hassert p _ hp hflag)
  have hzero := hround'.counter_eq_zero_iff (hlt i)
  have hpush : ((s.flags flag_p').complete p.sig_add).2 =
      if ((s.flags flag_p').add p.sig_add).counter = 0#64 then some (uru_queue, sigId i)
      else none := by
    rw [UruFlag.complete, UruFlag.add_queue, UruFlag.add_idx, hqueue, hidx, Option.map_some]
  obtain rfl : d = none := Option.map_eq_none_iff.mp (hwaiting.pushing.symm.trans hpushing)
  -- the signal was not waiting, since it had a part to come
  have hnot : i ∉ u.toList ++ xs ++ (none : Option (Fin pool.length)).toList := by
    rw [hwaiting.mem]
    intro hnil
    rw [hnil] at hp
    cases hp
  have hmem := hwaiting.mem
  have hnodup := hwaiting.nodup
  have hcompleted := hwaiting.completed
  simp only [Option.toList_none, List.append_nil] at hnot hmem hnodup hcompleted
  refine ⟨fun j => ?_, h.size, ?_⟩
  · have hj := h.sig_update hdistinct hflag hround' hqueue hidx j
    rwa [Function.update_eq_self] at hj
  · by_cases hlast : (s.todo i).eraseIdx k = []
    · rw [if_pos (hzero.mpr hlast)] at hpush
      refine ⟨u, xs, some i, hwaiting.queue, by rw [hpush]; rfl, hwaiting.detected, ?_,
        fun j => ?_, ?_⟩
      · exact hnodup.append (List.nodup_singleton i) (List.disjoint_singleton.mpr hnot)
      · by_cases hji : j = i
        · subst hji
          simp [hlast]
        · simp only [Option.toList_some, List.mem_append, List.mem_singleton, hji, or_false,
            Function.update_of_ne hji, ← hmem]
      · simp [hlast, hcompleted]
    · rw [if_neg (fun hz => hlast (hzero.mp hz))] at hpush
      refine ⟨u, xs, none, hwaiting.queue, by rw [hpush]; rfl, hwaiting.detected,
        hwaiting.nodup, fun j => ?_, ?_⟩
      · by_cases hji : j = i
        · subst hji
          simp only [Function.update_self, hlast, iff_false]
          simpa using hnot
        · simp only [Function.update_of_ne hji]
          exact hwaiting.mem j
      · simp [hlast, hcompleted]

theorem Waiting.push_ok {u d : Option (Fin pool.length)} {xs : List (Fin pool.length)}
    (h : Waiting pool s u xs d) (hsize : s.queue.size = pool.length + 1) {i : Fin pool.length}
    (hd : d = some i) :
    ∃ queue, uruQueuePush s.queue (sigId i) = .ok queue ∧
      queue.Holds ((xs ++ [i]).map sigId) ∧ queue.size = pool.length + 1 := by
  have hroom : (xs.map sigId).length + 1 < s.queue.size := by
    have hle := h.nodup.length_le_card
    rw [Fintype.card_fin, hd] at hle
    simp only [List.length_append, Option.toList_some, List.length_singleton] at hle
    rw [List.length_map, hsize]
    omega
  obtain ⟨queue, hpush, hholds, hsize'⟩ := h.queue.push_ok hroom (sigId i)
  exact ⟨queue, hpush, by rwa [List.map_append, List.map_singleton], hsize'.trans hsize⟩

theorem PoolInv.push (h : PoolInv pool num_event uru_queue s) (hstep : s.push pool = some s') :
    PoolInv pool num_event uru_queue s' := by
  obtain ⟨u, xs, d, hwaiting⟩ := h.waiting
  unfold PoolState.push at hstep
  rw [hwaiting.pushing] at hstep
  cases d with
  | none => cases hstep
  | some i =>
      obtain ⟨queue, hpush, hholds, hsize⟩ := hwaiting.push_ok h.size rfl
      simp only [Option.map_some, hpush, Option.some.injEq] at hstep
      subst hstep
      refine ⟨h.sig, hsize, u, xs ++ [i], none, hholds, rfl, hwaiting.detected, ?_, ?_, ?_⟩
      · simpa using hwaiting.nodup
      · simpa using hwaiting.mem
      · simpa using hwaiting.completed

theorem PoolInv.pop (h : PoolInv pool num_event uru_queue s) (hstep : s.pop pool = some s') :
    PoolInv pool num_event uru_queue s' := by
  obtain ⟨u, xs, d, hwaiting⟩ := h.waiting
  unfold PoolState.pop at hstep
  rw [hwaiting.detected] at hstep
  cases u with
  | some i => cases hstep
  | none =>
      cases xs with
      | nil =>
          have hpop := hwaiting.queue.pop_nil
          simp only [Option.map_none, hpop, Option.some.injEq] at hstep
          subst hstep
          exact ⟨h.sig, h.size, none, [], d, hwaiting.queue, hwaiting.pushing, rfl,
            hwaiting.nodup, hwaiting.mem, hwaiting.completed⟩
      | cons i xs =>
          obtain ⟨queue, hpop, hholds, hsize⟩ := hwaiting.queue.pop_cons
          simp only [Option.map_none, hpop, if_neg (sigId_nonneg i), Option.some.injEq] at hstep
          subst hstep
          exact ⟨h.sig, hsize.trans h.size, some i, xs, d, hholds, hwaiting.pushing, rfl,
            hwaiting.nodup, hwaiting.mem, hwaiting.completed⟩

theorem flatMap_parts_ne_nil {sends : List Send} (hpos : 0 < sends.length) :
    sends.flatMap Send.parts ≠ [] := by
  obtain ⟨s, hs⟩ := List.exists_mem_of_length_pos hpos
  have hparts : s.parts ≠ [] := by
    rw [← List.length_pos_iff, s.parts_length]
    exact s.non_zeros_pos
  obtain ⟨p, hp⟩ := List.exists_mem_of_ne_nil _ hparts
  exact List.ne_nil_of_mem (List.mem_flatMap.mpr ⟨s, hs, hp⟩)

theorem PoolInv.rearm (h : PoolInv pool num_event uru_queue s)
    (hdistinct : ∀ i j, (pool.get i).flag_p = (pool.get j).flag_p → i = j)
    (hpos : ∀ i, 0 < num_event i) (hlt : ∀ i, num_event i < 2 ^ 32) {sends : List Send}
    (hstep : s.rearm pool num_event sends = some s') : PoolInv pool num_event uru_queue s' := by
  obtain ⟨u, xs, d, hwaiting⟩ := h.waiting
  unfold PoolState.rearm at hstep
  rw [hwaiting.detected] at hstep
  cases u with
  | none => cases hstep
  | some i =>
      obtain ⟨flag_p, hflag, hround, hqueue, hidx⟩ := h.sig i
      simp only [Option.map_some, toNat_sigId, i.isLt, dif_pos, hflag] at hstep
      split at hstep
      · rename_i hsends
        cases hstep
        have hfresh := fresh_rearmed (hlt i) hround.num_event
        have hnil := flatMap_parts_ne_nil (by rw [hsends.1]; exact hpos i : 0 < sends.length)
        have hnodup := hwaiting.nodup
        simp only [Option.toList_some, List.cons_append, List.nil_append, List.nodup_cons] at hnodup
        refine ⟨h.sig_update hdistinct hflag (InRound.start hsends.1 hsends.2 hfresh) hqueue hidx,
          h.size, none, xs, d, hwaiting.queue, hwaiting.pushing, rfl, by simpa using hnodup.2,
          fun j => ?_, ?_⟩
        · by_cases hji : j = i
          · subst hji
            simp only [Function.update_self, hnil, iff_false]
            simpa using hnodup.1
          · have hmem := hwaiting.mem j
            simp only [Option.toList_some, List.cons_append, List.nil_append, List.mem_cons, hji,
              false_or] at hmem
            simp only [Function.update_of_ne hji]
            simpa using hmem
        · have hcompleted := hwaiting.completed
          simp only [Option.toList_some, List.cons_append, List.nil_append] at hcompleted
          simp [hcompleted]
      · cases hstep

theorem PoolInv.step (h : PoolInv pool num_event uru_queue s)
    (hdistinct : ∀ i j, (pool.get i).flag_p = (pool.get j).flag_p → i = j)
    (hpos : ∀ i, 0 < num_event i) (hlt : ∀ i, num_event i < 2 ^ 32)
    {action : PoolAction pool.length} (hkept : s.Asserted pool action ∨ s.Few pool action)
    (hstep : s.step pool num_event action = some s') : PoolInv pool num_event uru_queue s' := by
  cases action with
  | add i k => exact h.add hdistinct hlt hkept hstep
  | push => exact h.push hstep
  | pop => exact h.pop hstep
  | rearm sends => exact h.rearm hdistinct hpos hlt hstep

end

/-! ### Runs -/

/-- The signal was created or reset, and since then the daemon has gone through
all parts of the given sends but `todo`. -/
def SinceReset (N : Nat) (flag : UruFlag) (sends : List Send) (todo : List Part) : Prop :=
  ∃ start arrived, Fresh start N ∧ flag = applyParts start arrived ∧
    (deliver start arrived = .ok flag ∨ FewLater sends) ∧
    (arrived ++ todo).Perm (sends.flatMap Send.parts)

/-- What may be relied on at any moment of a run. In a state where neither
thread is in the middle of a call, `once` says that an index is in the queue
exactly once if the counter is zero, and not at all otherwise. -/
structure PoolOk (pool : List UnrSig) (s : PoolState pool.length) : Prop where
  once : ∀ i flag_p, (pool.get i).flag_p = some flag_p →
    s.queue.contents.count (some (sigId i)) + (if s.pushing = some (sigId i) then 1 else 0) +
      (if s.detected = some (sigId i) then 1 else 0) =
      if (s.flags flag_p).counter = 0#64 then 1 else 0
  /-- The counter is zero exactly if all parts of the round have arrived. -/
  round : ∀ i flag_p, (pool.get i).flag_p = some flag_p →
    ((s.flags flag_p).counter = 0#64 ↔ s.todo i = [])
  /-- A push never finds the queue full. -/
  room : ∀ idx, s.pushing = some idx → ∃ queue, uruQueuePush s.queue idx = .ok queue
  /-- The rounds are reported once each, in the order they were completed. -/
  order : s.completed.map (some ∘ sigId) = s.reported.map (some ∘ sigId) ++
    (s.detected.toList.map some ++ s.queue.contents ++ s.pushing.toList.map some)
  /-- A detection returns, and with -1 only if no completed round is left but
  the one the daemon is about to push. -/
  detect : ∃ sig_id queue, uruQueuePop s.queue = .ok (sig_id, queue) ∧
    (s.detected = none → sig_id < 0 → s.completed.map sigId =
      s.reported.map sigId ++ s.pushing.toList)

theorem count_toList_map {n : Nat} (o : Option (Fin n)) (i : Fin n) :
    o.toList.count i = if o.map sigId = some (sigId i) then 1 else 0 := by
  cases o with
  | none => rfl
  | some j =>
      rw [Option.toList_some, List.count_singleton, Option.map_some]
      by_cases hji : j = i
      · simp [hji]
      · have hne : sigId j ≠ sigId i := fun h => hji (sigId_injective h)
        simp [hji, hne]

theorem PoolInv.ok {pool : List UnrSig} {num_event : Fin pool.length → Nat} {uru_queue : Nat}
    {s : PoolState pool.length} (h : PoolInv pool num_event uru_queue s)
    (hlt : ∀ i, num_event i < 2 ^ 32) : PoolOk pool s := by
  obtain ⟨u, xs, d, hwaiting⟩ := h.waiting
  have hround : ∀ i flag_p, (pool.get i).flag_p = some flag_p →
      ((s.flags flag_p).counter = 0#64 ↔ s.todo i = []) := by
    intro i flag_p hflag
    obtain ⟨flag_p', hflag', hin, -⟩ := h.sig i
    cases hflag.symm.trans hflag'
    exact hin.counter_eq_zero_iff (hlt i)
  have hcontents : s.queue.contents = (xs.map sigId).map some := hwaiting.queue.contents
  refine ⟨fun i flag_p hflag => ?_, hround, fun idx hidx => ?_, ?_, ?_⟩
  · have hcount : s.queue.contents.count (some (sigId i)) = xs.count i := by
      rw [hcontents, List.map_map]
      exact List.count_map_of_injective xs _ ((Option.some_injective _).comp sigId_injective) i
    rw [hcount, hwaiting.pushing, hwaiting.detected, ← count_toList_map, ← count_toList_map]
    -- a signal waits once if its counter is zero, else not at all
    have htotal : (u.toList ++ xs ++ d.toList).count i =
        if (s.flags flag_p).counter = 0#64 then 1 else 0 := by
      by_cases hzero : (s.flags flag_p).counter = 0#64
      · rw [if_pos hzero]
        exact List.count_eq_one_of_mem hwaiting.nodup
          ((hwaiting.mem i).mpr ((hround i flag_p hflag).mp hzero))
      · rw [if_neg hzero]
        exact List.count_eq_zero.mpr fun hmem =>
          hzero ((hround i flag_p hflag).mpr ((hwaiting.mem i).mp hmem))
    rw [List.count_append, List.count_append] at htotal
    omega
  · rw [hwaiting.pushing] at hidx
    obtain ⟨i, hd, rfl⟩ := Option.map_eq_some_iff.mp hidx
    obtain ⟨queue, hpush, -⟩ := hwaiting.push_ok h.size hd
    exact ⟨queue, hpush⟩
  · rw [hwaiting.completed, hcontents, hwaiting.pushing, hwaiting.detected]
    cases u <;> cases d <;> simp
  · cases xs with
    | nil =>
        refine ⟨-1, s.queue, hwaiting.queue.pop_nil, fun hnone _ => ?_⟩
        have hu : u = none := by
          rw [hwaiting.detected] at hnone
          exact Option.map_eq_none_iff.mp hnone
        rw [hwaiting.completed, hwaiting.pushing, hu]
        cases d <;> simp
    | cons i xs =>
        obtain ⟨queue, hpop, -⟩ := hwaiting.queue.pop_cons
        exact ⟨sigId i, queue, hpop, fun _ hneg => (sigId_nonneg i hneg).elim⟩

/-- In every run of a pool whose signals were not triggered when it was
created, an index is in the queue while its signal is triggered, once, and
every completed round is detected, in order. The parts may arrive in any order
in which the assertion of the daemon holds, and in a build without assertions
in any order at all as long as the rounds have few parts. -/
theorem sig_pool_exact {rank : Int} {uru_queue : Nat} {flags flags' : Nat → UruFlag}
    {sig_h_arr : List UnrSig} {queue : UruQueue}
    (hcreate : unrSigPoolCreate rank uru_queue flags sig_h_arr = .ok (queue, flags'))
    {num_event : Fin sig_h_arr.length → Nat} (hpos : ∀ i, 0 < num_event i)
    (hlt : ∀ i, num_event i < 2 ^ 32) {sends : Fin sig_h_arr.length → List Send}
    {todo : Fin sig_h_arr.length → List Part} (hnum : ∀ i, (sends i).length = num_event i)
    (hchannels : ∀ i, ∀ s ∈ sends i, s.group.num < 256)
    (hstart : ∀ i flag_p, (sig_h_arr.get i).flag_p = some flag_p →
      SinceReset (num_event i) (flags flag_p) (sends i) (todo i) ∧
        (flags flag_p).counter ≠ 0#64)
    {s : PoolState sig_h_arr.length}
    (hrun : Run (PoolState.step sig_h_arr num_event)
      (fun s action => s.Asserted sig_h_arr action ∨ s.Few sig_h_arr action)
      (poolStart sig_h_arr queue flags' sends todo) s) : PoolOk sig_h_arr s := by
  obtain ⟨hentered, hholds, hsize⟩ := entered_of_create hcreate
  have hdistinct : ∀ i j, (sig_h_arr.get i).flag_p = (sig_h_arr.get j).flag_p → i = j :=
    fun i j heq => Fin.ext (hentered.distinct i j i.isLt j.isLt heq)
  have hinit : PoolInv sig_h_arr num_event uru_queue
      (poolStart sig_h_arr queue flags' sends todo) := by
    have hround : ∀ i flag_p, (sig_h_arr.get i).flag_p = some flag_p →
        InRound (num_event i) (flags flag_p) (sends i) (todo i) ∧ todo i ≠ [] := by
      intro i flag_p hflag
      obtain ⟨⟨start, arrived, hfresh, heq, hdeliver, hperm⟩, hwaiting⟩ := hstart i flag_p hflag
      rw [heq] at hdeliver hwaiting ⊢
      have hin := InRound.of_arrived hfresh (hlt i) (hnum i) (hchannels i) hperm hdeliver
      exact ⟨hin, fun hnil => hwaiting ((hin.counter_eq_zero_iff (hlt i)).mpr hnil)⟩
    refine ⟨fun i => ?_, hsize, none, [], none, hholds, rfl, rfl, List.nodup_nil, fun i => ?_, rfl⟩
    · obtain ⟨flag_p, hflag, hset⟩ := hentered.flag i i.isLt
      refine ⟨flag_p, hflag, ?_⟩
      change InRound (num_event i) (flags' flag_p) (sends i) (todo i) ∧
        (flags' flag_p).queue = some uru_queue ∧ (flags' flag_p).idx = sigId i
      rw [hset]
      exact ⟨(hround i flag_p hflag).1.of_flag rfl rfl, rfl, rfl⟩
    · obtain ⟨flag_p, hflag, -⟩ := hentered.flag i i.isLt
      have hne := (hround i flag_p hflag).2
      exact ⟨fun hmem => absurd hmem List.not_mem_nil, fun hnil => absurd hnil hne⟩
  have hinv : PoolInv sig_h_arr num_event uru_queue s :=
    hrun.invariant hinit fun _ _ _ _ h hkept hstep => h.step hdistinct hpos hlt hkept hstep
  exact hinv.ok hlt

def detectTwoBlocks : List (PoolAction [(⟨0, some 3⟩ : UnrSig)].length) :=
  [.add (0 : Fin 1) 0, .pop, .add (0 : Fin 1) 0, .push, .pop, .rearm [twoBlocks]]

theorem sig_pool_exact_two_blocks :
    ∃ queue flags' s,
      unrSigPoolCreate 0 7 (fun _ => oneEvent) [⟨0, some 3⟩] = .ok (queue, flags') ∧
      exec (PoolState.step [⟨0, some 3⟩] fun _ => 1) (fun s action => decide (s.Few _ action))
        (poolStart [⟨0, some 3⟩] queue flags' (fun _ => [twoBlocks])
          fun _ => [⟨twoBlocks, 0⟩, ⟨twoBlocks, 1⟩]) detectTwoBlocks = some s ∧
      s.reported = [(0 : Fin 1)] ∧ PoolOk [⟨0, some 3⟩] s := by
  have hcreate : unrSigPoolCreate 0 7 (fun _ => oneEvent) [⟨0, some 3⟩] =
      .ok (⟨2, 0, 0, [none, none]⟩,
        Function.update (fun _ => oneEvent) 3 { oneEvent with idx := 0, queue := some 7 }) := rfl
  have hreported : (exec (PoolState.step [⟨0, some 3⟩] fun _ => 1)
      (fun s action => decide (s.Few _ action))
      (poolStart [⟨0, some 3⟩] ⟨2, 0, 0, [none, none]⟩
        (Function.update (fun _ => oneEvent) 3 { oneEvent with idx := 0, queue := some 7 })
        (fun _ => [twoBlocks]) fun _ => [⟨twoBlocks, 0⟩, ⟨twoBlocks, 1⟩])
      detectTwoBlocks).map (·.reported) = some [(0 : Fin 1)] := by decide +kernel
  obtain ⟨s, hexec, hreported⟩ := Option.map_eq_some_iff.mp hreported
  refine ⟨_, _, s, hcreate, hexec, hreported, ?_⟩
  refine sig_pool_exact hcreate ?_ ?_ ?_ ?_ ?_
    ((Run.of_exec hexec).mono fun _ _ hfew => .inr (of_decide_eq_true hfew))
  · exact fun _ => by decide
  · exact fun _ => by decide
  · exact fun _ => rfl
  · intro _ s hs
    rw [List.mem_singleton.mp hs]
    decide
  · intro _ _ _
    refine ⟨⟨oneEvent, [], ⟨rfl, rfl⟩, rfl, .inl rfl, ?_⟩, by decide⟩
    rw [List.flatMap_singleton, twoBlocks_parts, List.nil_append]

/-! ### Runs outside the conditions -/

/-- The flag of a signal for 2 ^ 32 events. The number kept for the next round
is 0. -/
def manyEvents : UruFlag := ⟨BitVec.ofNat 64 (2 ^ 32), none, 0, -1⟩

def manyFlags : Nat → UruFlag :=
  Function.update (fun _ => manyEvents) 3 { manyEvents with idx := 0, queue := some 7 }

/-- A pool of one such signal. Its first message is `twoBlocks`. -/
def manyPool (sends : List Send) (rest : List Part) : PoolState [(⟨0, some 3⟩ : UnrSig)].length :=
  poolStart _ ⟨2, 0, 0, [none, none]⟩ manyFlags (fun _ => sends)
    fun _ => ⟨twoBlocks, 0⟩ :: ⟨twoBlocks, 1⟩ :: rest

/-- The second part of the message has taken the counter from 2 ^ 32 to 0. -/
def manyAdded (sends : List Send) (rest : List Part) : PoolState [(⟨0, some 3⟩ : UnrSig)].length :=
  { manyPool sends rest with
    flags := Function.update manyFlags 3 ⟨0, some 7, 0, 0⟩
    pushing := some 0
    todo := Function.update (manyPool sends rest).todo (0 : Fin 1) (⟨twoBlocks, 0⟩ :: rest) }

theorem manyPool_add (sends : List Send) (rest : List Part) :
    (manyPool sends rest).add _ (0 : Fin 1) 1 = some (manyAdded sends rest) := by
  have hpart : (manyFlags 3).complete (Part.sig_add ⟨twoBlocks, 1⟩) =
      (⟨0, some 7, 0, 0⟩, some (7, 0)) := by decide
  have hflag : ([(⟨0, some 3⟩ : UnrSig)].get (0 : Fin 1)).flag_p = some 3 := rfl
  have htodo : ((manyPool sends rest).todo (0 : Fin 1))[1]? = some ⟨twoBlocks, 1⟩ := rfl
  have hflags : (manyPool sends rest).flags = manyFlags := rfl
  have hpushing : (manyPool sends rest).pushing = none := rfl
  unfold PoolState.add
  simp only [hpushing, htodo, hflag, hflags, hpart]
  rfl

/-- The signal is detected although none of its rounds is complete. -/
theorem detected_early (num_event : Nat) (sends : List Send) (rest : List Part) :
    ∃ s, Run (PoolState.step [⟨0, some 3⟩] fun _ => num_event) (fun s action => s.Asserted _ action)
        (manyPool sends rest) s ∧
      s.detected = some 0 ∧ s.completed = [] ∧ ¬ PoolOk [⟨0, some 3⟩] s := by
  have hassert : (manyPool sends rest).Asserted _ (.add (0 : Fin 1) 1) := by
    intro p flag_p hp hflag
    cases hp
    cases hflag
    change 0 ≤ ((manyFlags 3).add (Part.sig_add ⟨twoBlocks, 1⟩)).counter.toInt
    decide
  have hadd : Run (PoolState.step [⟨0, some 3⟩] fun _ => num_event)
      (fun s action => s.Asserted _ action) (manyPool sends rest) (manyAdded sends rest) :=
    .snoc .nil hassert (manyPool_add sends rest)
  have hpush := Run.snoc (a := PoolAction.push) hadd trivial rfl
  have hpop := Run.snoc (a := PoolAction.pop) hpush trivial rfl
  refine ⟨_, hpop, rfl, rfl, fun hok => ?_⟩
  have := (hok.round (0 : Fin 1) 3 rfl).mp rfl
  cases this
def oneEventPool : PoolState [(⟨0, some 3⟩ : UnrSig)].length :=
  poolStart _ ⟨2, 0, 0, [none, none]⟩
    (Function.update (fun _ => oneEvent) 3 { oneEvent with idx := 0, queue := some 7 })
    (fun _ => [twoBlocks]) fun _ => twoBlocks.parts

/-- With 2 ^ 32 messages in a round, a part that comes before the first part of
its message can empty the counter: the signal is detected before a message has
arrived, in a run in which the assertion of the daemon always holds. With one
message in a round, such a part ends a build with assertions. -/
theorem sig_pool_inexact :
    (∃ flag queue flags' s, unrSigCreate (BitVec.ofNat 64 (2 ^ 32)) = .ok flag ∧
      unrSigPoolCreate 0 7 (fun _ => flag) [⟨0, some 3⟩] = .ok (queue, flags') ∧
      Run (PoolState.step [⟨0, some 3⟩] fun _ => 2 ^ 32) (fun s action => s.Asserted _ action)
        (poolStart _ queue flags' (fun _ => List.replicate (2 ^ 32) twoBlocks)
          fun _ => (List.replicate (2 ^ 32) twoBlocks).flatMap Send.parts) s ∧
      s.detected = some 0 ∧ s.completed = [] ∧ ¬ PoolOk _ s) ∧
    ∃ s, oneEventPool.step _ (fun _ => 1) (.add (0 : Fin 1) 1) = some s ∧
      ¬ oneEventPool.Asserted _ (.add (0 : Fin 1) 1) := by
  constructor
  · have hcreate : unrSigCreate (BitVec.ofNat 64 (2 ^ 32)) = .ok manyEvents := rfl
    obtain ⟨n, hn⟩ : ∃ n, 2 ^ 32 = n + 1 := ⟨2 ^ 32 - 1, rfl⟩
    refine ⟨manyEvents, ⟨2, 0, 0, [none, none]⟩, manyFlags, ?_⟩
    have hparts : (List.replicate (2 ^ 32) twoBlocks).flatMap Send.parts =
        ⟨twoBlocks, 0⟩ :: ⟨twoBlocks, 1⟩ :: (List.replicate n twoBlocks).flatMap Send.parts := by
      rw [hn, List.replicate_succ, List.flatMap_cons, twoBlocks_parts]
      rfl
    obtain ⟨s, hrun, hrest⟩ := detected_early (2 ^ 32) (List.replicate (2 ^ 32) twoBlocks)
      ((List.replicate n twoBlocks).flatMap Send.parts)
    refine ⟨s, hcreate, rfl, ?_, hrest⟩
    rw [hparts]
    exact hrun
  · refine ⟨_, rfl, fun hassert => ?_⟩
    exact absurd (hassert ⟨twoBlocks, 1⟩ 3 rfl rfl) (by decide)

end Unr.Core
