import Unr.Verbs.PoolEvents

/-!
The creation of a pool while events arrive.

`unr_sig_pool_create` sets the index and then the queue of one signal after the
other. A daemon pushes the index of a signal at the moment its counter becomes
zero, and only if the queue is set. So a signal is detected if its last part
arrives after its queue has been set; nobody looks for signals that have been
triggered before.
-/

namespace Unr.Uri

open Unr.Uru Unr.Logic
open Unr.Core

structure CreateState (n : Nat) where
  flags : Nat → UruFlag
  queue : UruQueue
  /-- The index `i` of the loop of `unr_sig_pool_create`. The call has returned
  when it is `n`. -/
  next : Nat
  /-- The index of the signal has been set, its queue has not. -/
  indexed : Bool
  /-- `flag_p->idx`, between the addition and the push. -/
  pushing : Option Int
  /-- `*sig_id`, between the pop and the assignment to the counter. -/
  detected : Option Int
  /-- The parts of the messages to each signal that are still to come. -/
  todo : Fin n → List Part
  /-- Ghost: the signals that have been returned by a detection. -/
  reported : List (Fin n)

inductive CreateAction (n : Nat)
  /-- The next assignment of `unr_sig_pool_create`. -/
  | create
  /-- The daemon of the MPI channel adds part `k` of those to come. -/
  | add (i : Fin n) (k : Nat)
  /-- The daemon of the verbs channel does. -/
  | event (i : Fin n) (k : Nat)
  | push
  | pop
  | rearm
  deriving DecidableEq

/-- No signal has been entered into the pool. All messages are still to
come. -/
def createStart {n : Nat} (queue : UruQueue) (flags : Nat → UruFlag)
    (sends : Fin n → List Send) : CreateState n where
  flags := flags
  queue := queue
  next := 0
  indexed := false
  pushing := none
  detected := none
  todo := fun i => (sends i).flatMap Send.parts
  reported := []

section

variable (pool : List UnrSig) (rank : Int) (uru_queue : Nat)

namespace CreateState

variable (s : CreateState pool.length)

/-- A turn of the loop, in two steps: the two assertions with the assignment to
the index, and the assignment to the queue. -/
def create : Option (CreateState pool.length) :=
  match pool[s.next]? with
  | some sig =>
      match sig.flag_p with
      | some flag_p =>
          if s.indexed then
            some { s with
              flags := Function.update s.flags flag_p
                { s.flags flag_p with queue := some uru_queue }
              next := s.next + 1
              indexed := false }
          else if sig.dst_rank = rank ∧ (s.flags flag_p).idx = -1 then
            some { s with
              flags := Function.update s.flags flag_p { s.flags flag_p with idx := s.next }
              indexed := true }
          else none
      | none => none
  | none => none

def handled (i : Fin pool.length) (k flag_p : Nat) (result : UruFlag × Option (Nat × Int)) :
    CreateState pool.length :=
  { s with
    flags := Function.update s.flags flag_p result.1
    pushing := result.2.map (·.2)
    todo := Function.update s.todo i ((s.todo i).eraseIdx k) }

/-- The daemon of the MPI channel, up to the test whether to push. The runs are
those of a build with assertions. -/
def add (i : Fin pool.length) (k : Nat) : Option (CreateState pool.length) :=
  match s.pushing, (s.todo i)[k]?, (pool.get i).flag_p with
  | none, some p, some flag_p =>
      match (s.flags flag_p).progress p.sig_add with
      | .ok result => some (s.handled pool i k flag_p result)
      | .error _ => none
  | _, _, _ => none

/-- The daemon of the verbs channel, up to the test whether to push. The events
of this channel subtract one. -/
def event (i : Fin pool.length) (k : Nat) : Option (CreateState pool.length) :=
  match s.pushing, (s.todo i)[k]?, (pool.get i).flag_p with
  | none, some p, some flag_p =>
      if p.sig_add = -1#64 then
        some (s.handled pool i k flag_p (Verbs.flagEvent (s.flags flag_p)))
      else none
  | _, _, _ => none

def push : Option (CreateState pool.length) :=
  match s.pushing with
  | some idx =>
      match uruQueuePush s.queue idx with
      | .ok queue => some { s with queue := queue, pushing := none }
      | .error _ => none
  | none => none

/-- `unr_sig_pool_detect`, up to the test of the index. The handle of the pool
is there when the creation has returned. -/
def pop : Option (CreateState pool.length) :=
  match decide (s.next = pool.length), s.detected, uruQueuePop s.queue with
  | true, none, .ok (sig_id, queue) => some { s with
      queue := queue
      detected := if sig_id < 0 then none else some sig_id }
  | _, _, _ => none

def rearm : Option (CreateState pool.length) :=
  match s.detected with
  | some sig_id =>
      if h : sig_id.toNat < pool.length then
        let i : Fin pool.length := ⟨sig_id.toNat, h⟩
        match (pool.get i).flag_p with
        | some flag_p => some { s with
            flags := Function.update s.flags flag_p
              { s.flags flag_p with counter := (s.flags flag_p).num_event.setWidth 64 }
            detected := none
            reported := s.reported ++ [i] }
        | none => none
      else none
  | none => none

def step : CreateAction pool.length → Option (CreateState pool.length)
  | .create => s.create pool rank uru_queue
  | .add i k => s.add pool i k
  | .event i k => s.event pool i k
  | .push => s.push pool
  | .pop => s.pop pool
  | .rearm => s.rearm pool

/-- A whole call of `unr_sig_pool_detect`, with the index it returns. -/
def detect : Option (Int × CreateState pool.length) := do
  let next ← s.pop pool
  match next.detected with
  | none => return (-1, next)
  | some sig_id => return (sig_id, ← next.rearm pool)

def detects : Nat → CreateState pool.length → Option (List Int × CreateState pool.length)
  | 0, s => some ([], s)
  | k + 1, s => do
      let (sig_id, s) ← s.detect pool
      let (sig_ids, s) ← detects k s
      return (sig_id :: sig_ids, s)

/-- A signal whose last part arrives has been entered into the pool. -/
def Linked : CreateAction pool.length → Prop
  | .add i k | .event i k => (s.todo i).eraseIdx k = [] → i.val < s.next
  | .create | .push | .pop | .rearm => True

instance (action : CreateAction pool.length) : Decidable (s.Linked pool action) :=
  match action with
  | .add _ _ | .event _ _ => inferInstanceAs (Decidable (_ → _))
  | .create | .push | .pop | .rearm => inferInstanceAs (Decidable True)

end CreateState

end

/-! ### Different signals have different flags -/

section

variable {pool : List UnrSig} {rank : Int} {uru_queue : Nat} {s s' : CreateState pool.length}

theorem CreateState.create_eq_some (h : s.create pool rank uru_queue = some s') :
    ∃ (hnext : s.next < pool.length) (flag_p : Nat),
      (pool.get ⟨s.next, hnext⟩).flag_p = some flag_p ∧
      ((s.indexed = true ∧ s' = { s with
          flags := Function.update s.flags flag_p { s.flags flag_p with queue := some uru_queue }
          next := s.next + 1
          indexed := false }) ∨
        (s.indexed = false ∧ (s.flags flag_p).idx = -1 ∧ s' = { s with
          flags := Function.update s.flags flag_p { s.flags flag_p with idx := s.next }
          indexed := true })) := by
  unfold CreateState.create at h
  split at h
  · next sig hsig =>
    obtain ⟨hnext, hget⟩ := List.getElem?_eq_some_iff.mp hsig
    split at h
    · next flag_p hflag =>
      refine ⟨hnext, flag_p, by rw [List.get_eq_getElem, hget, hflag], ?_⟩
      split at h
      · next hindexed =>
        cases h
        exact .inl ⟨hindexed, rfl⟩
      · next hindexed =>
        split at h
        · next hassert =>
          cases h
          exact .inr ⟨by simpa using hindexed, hassert.2, rfl⟩
        · cases h
    · cases h
  · cases h

theorem CreateState.add_eq_some {i : Fin pool.length} {k : Nat} (h : s.add pool i k = some s') :
    ∃ p flag_p result, s.pushing = none ∧ (s.todo i)[k]? = some p ∧
      (pool.get i).flag_p = some flag_p ∧
      (s.flags flag_p).progress p.sig_add = .ok result ∧
      s' = s.handled pool i k flag_p result := by
  unfold CreateState.add at h
  split at h
  · next p flag_p hpushing hp hflag =>
    split at h
    · next result hresult =>
      cases h
      exact ⟨p, flag_p, result, hpushing, hp, hflag, hresult, rfl⟩
    · cases h
  · cases h

theorem CreateState.event_eq_some {i : Fin pool.length} {k : Nat}
    (h : s.event pool i k = some s') :
    ∃ p flag_p, s.pushing = none ∧ (s.todo i)[k]? = some p ∧
      (pool.get i).flag_p = some flag_p ∧ p.sig_add = -1#64 ∧
      s' = s.handled pool i k flag_p (Verbs.flagEvent (s.flags flag_p)) := by
  unfold CreateState.event at h
  split at h
  · next p flag_p hpushing hp hflag =>
    split at h
    · next hadd =>
      cases h
      exact ⟨p, flag_p, hpushing, hp, hflag, hadd, rfl⟩
    · cases h
  · cases h

theorem CreateState.push_eq_some (h : s.push pool = some s') :
    ∃ idx queue, s.pushing = some idx ∧ uruQueuePush s.queue idx = .ok queue ∧
      s' = { s with queue := queue, pushing := none } := by
  unfold CreateState.push at h
  split at h
  · next idx hidx =>
    split at h
    · next queue hqueue =>
      cases h
      exact ⟨idx, queue, hidx, hqueue, rfl⟩
    · cases h
  · cases h

theorem CreateState.pop_eq_some (h : s.pop pool = some s') :
    ∃ sig_id queue, s.next = pool.length ∧ s.detected = none ∧
      uruQueuePop s.queue = .ok (sig_id, queue) ∧ s' = { s with
        queue := queue
        detected := if sig_id < 0 then none else some sig_id } := by
  unfold CreateState.pop at h
  split at h
  · next sig_id queue hnext hdetected hqueue =>
    cases h
    exact ⟨sig_id, queue, of_decide_eq_true hnext, hdetected, hqueue, rfl⟩
  · cases h

theorem CreateState.rearm_eq_some (h : s.rearm pool = some s') :
    ∃ (i : Fin pool.length) (flag_p : Nat), s.detected.map Int.toNat = some i.val ∧
      (pool.get i).flag_p = some flag_p ∧ s' = { s with
        flags := Function.update s.flags flag_p
          { s.flags flag_p with counter := (s.flags flag_p).num_event.setWidth 64 }
        detected := none
        reported := s.reported ++ [i] } := by
  unfold CreateState.rearm at h
  split at h
  · next sig_id hsig =>
    split at h
    · next hlt =>
      dsimp only at h
      split at h
      · next flag_p hflag =>
        cases h
        exact ⟨⟨sig_id.toNat, hlt⟩, flag_p, by rw [hsig]; rfl, hflag, rfl⟩
      · cases h
    · cases h
  · cases h

/-- The signals that the creation has gone through, with the one whose index
has been set. -/
def CreateState.entered (s : CreateState pool.length) : Nat :=
  s.next + if s.indexed then 1 else 0

def CreateState.Indexed (s : CreateState pool.length) : Prop :=
  s.entered ≤ pool.length ∧ ∀ i : Fin pool.length, i.val < s.entered →
    ∃ flag_p, (pool.get i).flag_p = some flag_p ∧ (s.flags flag_p).idx = sigId i

theorem CreateState.Indexed.of_idx (h : s.Indexed)
    (hidx : ∀ f, (s'.flags f).idx = (s.flags f).idx) (hnext : s'.next = s.next)
    (hindexed : s'.indexed = s.indexed) : s'.Indexed := by
  have hentered : s'.entered = s.entered := by
    rw [CreateState.entered, CreateState.entered, hnext, hindexed]
  refine ⟨hentered ▸ h.1, fun i hi => ?_⟩
  obtain ⟨flag_p, hflag, hval⟩ := h.2 i (hentered ▸ hi)
  exact ⟨flag_p, hflag, (hidx flag_p).trans hval⟩

/-- The index of the flag that changes stays. -/
theorem idx_update {flags : Nat → UruFlag} {flag_p : Nat} {flag : UruFlag}
    (hidx : flag.idx = (flags flag_p).idx) (f : Nat) :
    (Function.update flags flag_p flag f).idx = (flags f).idx := by
  by_cases hf : f = flag_p
  · rw [hf, Function.update_self, hidx]
  · rw [Function.update_of_ne hf]

theorem CreateState.Indexed.handled (h : s.Indexed) {i : Fin pool.length} {k flag_p : Nat}
    {result : UruFlag × Option (Nat × Int)} (hidx : result.1.idx = (s.flags flag_p).idx) :
    (s.handled pool i k flag_p result).Indexed :=
  h.of_idx (idx_update hidx) rfl rfl

/-- The daemon and the user leave indices alone, and the creation gives an
index to a signal that has none. -/
theorem CreateState.Indexed.step (h : s.Indexed) {action : CreateAction pool.length}
    (hstep : s.step pool rank uru_queue action = some s') : s'.Indexed := by
  cases action with
  | create =>
      obtain ⟨hnext, flag_p, hflag, ⟨hindexed, rfl⟩ | ⟨hindexed, hfree, rfl⟩⟩ :=
        CreateState.create_eq_some hstep
      · have hentered : s.entered = s.next + 1 := by simp [CreateState.entered, hindexed]
        refine ⟨by simpa [CreateState.entered] using Nat.succ_le_of_lt hnext, fun i hi => ?_⟩
        obtain ⟨flag_p', hflag', hval⟩ := h.2 i (by
          rw [hentered]
          simpa [CreateState.entered] using hi)
        exact ⟨flag_p', hflag', (idx_update (by rfl) flag_p').trans hval⟩
      · have hentered : s.entered = s.next := by simp [CreateState.entered, hindexed]
        refine ⟨by simpa [CreateState.entered] using Nat.succ_le_of_lt hnext, fun i hi => ?_⟩
        have hle : i.val < s.next + 1 := by simpa [CreateState.entered] using hi
        by_cases hlast : i.val = s.next
        · obtain rfl : i = ⟨s.next, hnext⟩ := Fin.ext hlast
          refine ⟨flag_p, hflag, ?_⟩
          simp only [Function.update_self, sigId]
        · obtain ⟨flag_p', hflag', hval⟩ := h.2 i (by omega)
          have hne : flag_p' ≠ flag_p := by
            rintro rfl
            rw [hval, sigId] at hfree
            omega
          refine ⟨flag_p', hflag', ?_⟩
          simp only [Function.update_of_ne hne, hval]
  | add i k =>
      obtain ⟨p, flag_p, result, -, -, -, hprogress, rfl⟩ := CreateState.add_eq_some hstep
      refine h.handled ?_
      simp only [UruFlag.progress, bind_eq_ok, pure_eq_ok] at hprogress
      obtain ⟨-, -, rfl⟩ := hprogress
      rfl
  | event i k =>
      obtain ⟨p, flag_p, -, -, -, -, hs'⟩ := CreateState.event_eq_some hstep
      rw [hs']
      exact h.handled (UruFlag.add_idx ..)
  | push =>
      obtain ⟨idx, queue, -, -, rfl⟩ := CreateState.push_eq_some hstep
      exact h
  | pop =>
      obtain ⟨sig_id, queue, -, -, -, rfl⟩ := CreateState.pop_eq_some hstep
      exact h
  | rearm =>
      obtain ⟨i, flag_p, -, -, rfl⟩ := CreateState.rearm_eq_some hstep
      exact h.of_idx (idx_update rfl) rfl rfl

theorem CreateState.Indexed.distinct (h : s.Indexed) (hreturned : s.next = pool.length)
    (i j : Fin pool.length) (heq : (pool.get i).flag_p = (pool.get j).flag_p) : i = j := by
  have hall : ∀ i : Fin pool.length, i.val < s.entered := fun i =>
    Nat.lt_of_lt_of_le (i.isLt.trans_eq hreturned.symm) (Nat.le_add_right _ _)
  obtain ⟨flag_p, hflag, hidx⟩ := h.2 i (hall i)
  obtain ⟨flag_p', hflag', hidx'⟩ := h.2 j (hall j)
  obtain rfl : flag_p = flag_p' := Option.some.inj (hflag.symm.trans (heq.trans hflag'))
  exact sigId_injective (hidx.symm.trans hidx')

end

/-! ### The invariant -/

/-- An event leaves the daemon of the MPI channel nothing to complain about. -/
theorem flagEvent_eq_progress {N : Nat} {flag : UruFlag} {sends : List Send} {todo : List Part}
    (h : InRound N flag sends todo) (hnonneg : 0 ≤ flag.counter.toInt) (hlt : N < 2 ^ 32)
    (hne : todo ≠ []) : flag.progress (-1#64) = .ok (Verbs.flagEvent flag) := by
  have hzero : flag.counter ≠ 0#64 := fun hz => hne ((h.counter_eq_zero_iff hlt).mp hz)
  have hpos : flag.counter.toInt ≠ 0 := fun hz => hzero (BitVec.eq_of_toInt_eq hz)
  have hsub := (Verbs.toInt_add_neg_one flag.counter).mpr (by omega)
  have hassert : 0 ≤ (flag.add (-1#64)).counter.toInt := by
    rw [UruFlag.add_counter, hsub]
    omega
  exact UruFlag.progress_eq_ok.mpr ⟨hassert, rfl⟩

section

variable {pool : List UnrSig} (num_event : Fin pool.length → Nat)
  (sends : Fin pool.length → List Send) (uru_queue : Nat)

/-- Where the signals wait whose last part has arrived: at the user, in the
queue, at the daemon. -/
structure CreateWaiting (s : CreateState pool.length) (u : Option (Fin pool.length))
    (xs : List (Fin pool.length)) (d : Option (Fin pool.length)) : Prop where
  queue : s.queue.Holds (xs.map sigId)
  pushing : s.pushing = d.map sigId
  detected : s.detected = u.map sigId
  nodup : (s.reported ++ (u.toList ++ xs ++ d.toList)).Nodup
  /-- All the others have been returned. -/
  mem : ∀ i, i ∈ s.reported ++ (u.toList ++ xs ++ d.toList) ↔ s.todo i = []

/-- What holds in every run in which no last part arrives before its signal has
been entered. -/
structure CreateInv (s : CreateState pool.length) : Prop where
  sig : ∀ i, ∃ flag_p, (pool.get i).flag_p = some flag_p ∧
    (i ∉ s.reported → InRound (num_event i) (s.flags flag_p) (sends i) (s.todo i) ∧
      0 ≤ (s.flags flag_p).counter.toInt) ∧
    (s.flags flag_p).queue = if i.val < s.next then some uru_queue else none
  size : s.queue.size = pool.length + 1
  waiting : ∃ u xs d, CreateWaiting s u xs d

end

section

variable {pool : List UnrSig} {rank : Int} {uru_queue : Nat} {num_event : Fin pool.length → Nat}
  {sends : Fin pool.length → List Send} {s s' : CreateState pool.length}

/-- A change of one flag leaves the other signals alone. -/
theorem CreateInv.sig_update (h : CreateInv num_event sends uru_queue s)
    (hdistinct : ∀ i j, (pool.get i).flag_p = (pool.get j).flag_p → i = j)
    {i : Fin pool.length} {flag_p : Nat} (hflag : (pool.get i).flag_p = some flag_p)
    {flag : UruFlag} {next : Nat} {todo : Fin pool.length → List Part}
    {reported : List (Fin pool.length)}
    (hround : i ∉ reported → InRound (num_event i) flag (sends i) (todo i) ∧
      0 ≤ flag.counter.toInt)
    (hqueue : flag.queue = if i.val < next then some uru_queue else none)
    (htodo : ∀ j ≠ i, todo j = s.todo j) (hreported : ∀ j ≠ i, j ∈ s.reported → j ∈ reported)
    (hnext : ∀ j ≠ i, j.val < next ↔ j.val < s.next) (j : Fin pool.length) :
    ∃ flag_p', (pool.get j).flag_p = some flag_p' ∧
      (j ∉ reported → InRound (num_event j) (Function.update s.flags flag_p flag flag_p')
        (sends j) (todo j) ∧
        0 ≤ (Function.update s.flags flag_p flag flag_p').counter.toInt) ∧
      (Function.update s.flags flag_p flag flag_p').queue =
        if j.val < next then some uru_queue else none := by
  by_cases hji : j = i
  · subst hji
    refine ⟨flag_p, hflag, ?_⟩
    rw [Function.update_self]
    exact ⟨hround, hqueue⟩
  · obtain ⟨flag_p', hflag', hround', hqueue'⟩ := h.sig j
    have hne : flag_p' ≠ flag_p := by
      rintro rfl
      exact hji (hdistinct j i (hflag'.trans hflag.symm))
    refine ⟨flag_p', hflag', ?_⟩
    rw [Function.update_of_ne hne, htodo j hji, hqueue']
    exact ⟨fun hnot => hround' fun hmem => hnot (hreported j hji hmem),
      if_congr (hnext j hji).symm rfl rfl⟩

theorem CreateInv.create (h : CreateInv num_event sends uru_queue s)
    (hdistinct : ∀ i j, (pool.get i).flag_p = (pool.get j).flag_p → i = j)
    (hstep : s.create pool rank uru_queue = some s') :
    CreateInv num_event sends uru_queue s' := by
  obtain ⟨u, xs, d, hwaiting⟩ := h.waiting
  obtain ⟨hnext, flag_p, hflag, ⟨-, rfl⟩ | ⟨-, -, rfl⟩⟩ := CreateState.create_eq_some hstep
  · obtain ⟨flag_p', hflag', hround, -⟩ := h.sig ⟨s.next, hnext⟩
    obtain rfl : flag_p' = flag_p := Option.some.inj (hflag'.symm.trans hflag)
    refine ⟨h.sig_update hdistinct hflag (fun hnot => (hround hnot).imp_left (·.of_flag rfl rfl)) ?_
      (fun _ _ => rfl) (fun _ _ hmem => hmem) (fun j hj => ?_), h.size, u, xs, d, ?_⟩
    · rw [if_pos (Nat.lt_succ_self _)]
    · have hne : j.val ≠ s.next := fun heq => hj (Fin.ext heq)
      dsimp only
      omega
    · exact ⟨hwaiting.queue, hwaiting.pushing, hwaiting.detected, hwaiting.nodup, hwaiting.mem⟩
  · obtain ⟨flag_p', hflag', hround, hqueue⟩ := h.sig ⟨s.next, hnext⟩
    obtain rfl : flag_p' = flag_p := Option.some.inj (hflag'.symm.trans hflag)
    refine ⟨h.sig_update hdistinct hflag
      (fun hnot => (hround hnot).imp_left (·.of_flag rfl rfl)) hqueue
      (fun _ _ => rfl) (fun _ _ hmem => hmem) (fun _ _ => Iff.rfl), h.size, u, xs, d, ?_⟩
    exact ⟨hwaiting.queue, hwaiting.pushing, hwaiting.detected, hwaiting.nodup, hwaiting.mem⟩

/-- The daemon handles a part. If it is the last one, its signal has been
entered, so that the daemon goes on to push its index. -/
theorem CreateInv.handled (h : CreateInv num_event sends uru_queue s) (hindexed : s.Indexed)
    (hdistinct : ∀ i j, (pool.get i).flag_p = (pool.get j).flag_p → i = j)
    (hlt : ∀ i, num_event i < 2 ^ 32) {i : Fin pool.length} {k flag_p : Nat} {p : Part}
    {result : UruFlag × Option (Nat × Int)} (hpushing : s.pushing = none)
    (hp : (s.todo i)[k]? = some p) (hflag : (pool.get i).flag_p = some flag_p)
    (hprogress : (s.flags flag_p).progress p.sig_add = .ok result)
    (hlinked : (s.todo i).eraseIdx k = [] → i.val < s.next) :
    CreateInv num_event sends uru_queue (s.handled pool i k flag_p result) := by
  obtain ⟨u, xs, d, hwaiting⟩ := h.waiting
  obtain ⟨flag, push⟩ := result
  -- nothing waits at the daemon, and the signal waits nowhere
  obtain rfl : d = none := Option.map_eq_none_iff.mp (hwaiting.pushing.symm.trans hpushing)
  have hnot : i ∉ s.reported ++ (u.toList ++ xs ++ (none : Option (Fin pool.length)).toList) := by
    rw [hwaiting.mem]
    intro hnil
    rw [hnil] at hp
    cases hp
  have hunreported : i ∉ s.reported := fun hmem => hnot (List.mem_append_left _ hmem)
  obtain ⟨flag_p', hflag', hround, hqueue⟩ := h.sig i
  obtain rfl : flag_p' = flag_p := Option.some.inj (hflag'.symm.trans hflag)
  obtain ⟨hassert, hresult⟩ := UruFlag.progress_eq_ok.mp hprogress
  obtain ⟨hround', hqueue', hidx', hpush⟩ := (hround hunreported).1.progress (hlt i) hp hprogress
  have hsame : flag = (s.flags flag_p').add p.sig_add := congrArg Prod.fst hresult
  have hnonneg : 0 ≤ flag.counter.toInt := by rwa [hsame]
  have hzero := hround'.counter_eq_zero_iff (hlt i)
  refine ⟨h.sig_update hdistinct hflag (fun _ => ?_) (hqueue'.trans hqueue) (fun j hj => ?_)
    (fun _ _ hmem => hmem) (fun _ _ => Iff.rfl), h.size, ?_⟩
  · simpa [CreateState.handled] using ⟨hround', hnonneg⟩
  · exact Function.update_of_ne hj ..
  · have hmem := hwaiting.mem
    have hnodup := hwaiting.nodup
    simp only [Option.toList_none, List.append_nil] at hnot hmem hnodup
    -- the last part empties the counter and pushes the signal
    by_cases hlast : (s.todo i).eraseIdx k = []
    · obtain ⟨flag_p, hflag'', hidx⟩ := hindexed.2 i
        (Nat.lt_of_lt_of_le (hlinked hlast) (Nat.le_add_right _ _))
      obtain rfl : flag_p = flag_p' := Option.some.inj (hflag''.symm.trans hflag)
      rw [if_pos (hzero.mpr hlast), hqueue, if_pos (hlinked hlast), hidx] at hpush
      refine ⟨u, xs, some i, hwaiting.queue, ?_, hwaiting.detected, ?_, fun j => ?_⟩
      · simp only [CreateState.handled, hpush]
        rfl
      · rw [Option.toList_some, ← List.append_assoc]
        exact hnodup.append (List.nodup_singleton i) (List.disjoint_singleton.mpr hnot)
      · by_cases hji : j = i
        · subst hji
          simp [CreateState.handled, hlast]
        · simp only [CreateState.handled, Function.update_of_ne hji, ← hmem j]
          simp [hji]
    · rw [if_neg (fun hz => hlast (hzero.mp hz))] at hpush
      refine ⟨u, xs, none, hwaiting.queue, ?_, hwaiting.detected, hwaiting.nodup, fun j => ?_⟩
      · simp only [CreateState.handled, hpush]
        rfl
      · by_cases hji : j = i
        · subst hji
          simp only [CreateState.handled, Function.update_self, hlast, iff_false]
          simpa using hnot
        · simp only [CreateState.handled, Function.update_of_ne hji]
          exact hwaiting.mem j

theorem CreateInv.push (h : CreateInv num_event sends uru_queue s)
    (hstep : s.push pool = some s') : CreateInv num_event sends uru_queue s' := by
  obtain ⟨u, xs, d, hwaiting⟩ := h.waiting
  obtain ⟨idx, queue, hidx, hqueue, rfl⟩ := CreateState.push_eq_some hstep
  have hpushing := hwaiting.pushing
  rw [hidx] at hpushing
  cases d with
  | none => cases hpushing
  | some i =>
      obtain rfl : idx = sigId i := Option.some.inj hpushing
      obtain ⟨hholds, hsize⟩ := hwaiting.queue.of_push hqueue
      refine ⟨h.sig, hsize.trans h.size, u, xs ++ [i], none, ?_, rfl, hwaiting.detected, ?_, ?_⟩
      · rwa [List.map_append, List.map_singleton]
      · simpa using hwaiting.nodup
      · simpa using hwaiting.mem

theorem CreateWaiting.pop {xs : List (Fin pool.length)} {d : Option (Fin pool.length)}
    (hwaiting : CreateWaiting s none xs d) (hreturned : s.next = pool.length) :
    ∃ queue, s.pop pool = some { s with queue := queue, detected := xs.head?.map sigId } ∧
      queue.size = s.queue.size ∧
      CreateWaiting { s with queue := queue, detected := xs.head?.map sigId }
        xs.head? xs.tail d := by
  have hnodup := hwaiting.nodup
  have hmem := hwaiting.mem
  unfold CreateState.pop
  rw [hwaiting.detected, Option.map_none, decide_eq_true hreturned]
  cases xs with
  | nil =>
      refine ⟨s.queue, ?_, rfl, hwaiting.queue, hwaiting.pushing, rfl, hnodup, hmem⟩
      rw [hwaiting.queue.pop_nil]
      rfl
  | cons i xs =>
      obtain ⟨queue, hpop, hholds, hsize⟩ := hwaiting.queue.pop_cons
      refine ⟨queue, ?_, hsize, hholds, hwaiting.pushing, rfl, by simpa using hnodup,
        by simpa using hmem⟩
      rw [hpop]
      simp only [if_neg (sigId_nonneg i), List.head?_cons, Option.map_some]

theorem CreateWaiting.rearm {i : Fin pool.length} {xs : List (Fin pool.length)}
    {d : Option (Fin pool.length)} (hwaiting : CreateWaiting s (some i) xs d) {flag_p : Nat}
    (hflag : (pool.get i).flag_p = some flag_p) :
    ∃ flag : UruFlag, flag.queue = (s.flags flag_p).queue ∧
      s.rearm pool = some { s with
        flags := Function.update s.flags flag_p flag
        detected := none
        reported := s.reported ++ [i] } ∧
      CreateWaiting { s with
        flags := Function.update s.flags flag_p flag
        detected := none
        reported := s.reported ++ [i] } none xs d := by
  refine ⟨{ s.flags flag_p with counter := (s.flags flag_p).num_event.setWidth 64 }, rfl, ?_,
    hwaiting.queue, hwaiting.pushing, rfl, ?_, ?_⟩
  · unfold CreateState.rearm
    rw [hwaiting.detected]
    simp only [Option.map_some, toNat_sigId, i.isLt, dif_pos, hflag]
  · simpa using hwaiting.nodup
  · simpa using hwaiting.mem

theorem CreateInv.pop (h : CreateInv num_event sends uru_queue s)
    (hstep : s.pop pool = some s') : CreateInv num_event sends uru_queue s' := by
  obtain ⟨u, xs, d, hwaiting⟩ := h.waiting
  obtain ⟨-, -, hreturned, hdetected, -⟩ := CreateState.pop_eq_some hstep
  obtain rfl : u = none := Option.map_eq_none_iff.mp (hwaiting.detected.symm.trans hdetected)
  obtain ⟨queue, hpop, hsize, hwaiting'⟩ := hwaiting.pop hreturned
  cases hstep.symm.trans hpop
  exact ⟨h.sig, hsize.trans h.size, xs.head?, xs.tail, d, hwaiting'⟩

theorem CreateInv.rearm (h : CreateInv num_event sends uru_queue s)
    (hdistinct : ∀ i j, (pool.get i).flag_p = (pool.get j).flag_p → i = j)
    (hstep : s.rearm pool = some s') : CreateInv num_event sends uru_queue s' := by
  obtain ⟨u, xs, d, hwaiting⟩ := h.waiting
  cases u with
  | none =>
      have hnone := hwaiting.detected
      unfold CreateState.rearm at hstep
      rw [hnone] at hstep
      cases hstep
  | some i =>
      obtain ⟨flag_p, hflag, -, hqueue⟩ := h.sig i
      obtain ⟨flag, hsame, hrearm, hwaiting'⟩ := hwaiting.rearm hflag
      cases hstep.symm.trans hrearm
      exact ⟨h.sig_update hdistinct hflag (fun hnot => absurd (by simp) hnot)
        (hsame.trans hqueue) (fun _ _ => rfl) (fun _ _ hmem => List.mem_append_left _ hmem)
        (fun _ _ => Iff.rfl), h.size, none, xs, d, hwaiting'⟩

theorem CreateInv.step (h : CreateInv num_event sends uru_queue s) (hindexed : s.Indexed)
    (hdistinct : ∀ i j, (pool.get i).flag_p = (pool.get j).flag_p → i = j)
    (hlt : ∀ i, num_event i < 2 ^ 32) {action : CreateAction pool.length}
    (hlinked : s.Linked pool action) (hstep : s.step pool rank uru_queue action = some s') :
    CreateInv num_event sends uru_queue s' := by
  cases action with
  | create => exact h.create hdistinct hstep
  | add i k =>
      obtain ⟨p, flag_p, result, hpushing, hp, hflag, hprogress, rfl⟩ :=
        CreateState.add_eq_some hstep
      exact h.handled hindexed hdistinct hlt hpushing hp hflag hprogress hlinked
  | event i k =>
      obtain ⟨p, flag_p, hpushing, hp, hflag, hadd, hs'⟩ := CreateState.event_eq_some hstep
      rw [hs']
      refine h.handled hindexed hdistinct hlt hpushing hp hflag ?_ hlinked
      obtain ⟨u, xs, d, hwaiting⟩ := h.waiting
      obtain ⟨flag_p', hflag', hround, -⟩ := h.sig i
      obtain rfl : flag_p' = flag_p := Option.some.inj (hflag'.symm.trans hflag)
      have hne : s.todo i ≠ [] := by
        intro hnil
        rw [hnil] at hp
        cases hp
      have hunreported : i ∉ s.reported := fun hmem =>
        hne ((hwaiting.mem i).mp (List.mem_append_left _ hmem))
      rw [hadd]
      obtain ⟨hin, hnonneg⟩ := hround hunreported
      exact flagEvent_eq_progress hin hnonneg (hlt i) hne
  | push => exact h.push hstep
  | pop => exact h.pop hstep
  | rearm => exact h.rearm hdistinct hstep

/-- A call returns the first signal in the queue. -/
theorem CreateWaiting.detect {i : Fin pool.length} {xs : List (Fin pool.length)}
    {d : Option (Fin pool.length)} (hflags : ∀ i, ∃ flag_p, (pool.get i).flag_p = some flag_p)
    (hwaiting : CreateWaiting s none (i :: xs) d) (hreturned : s.next = pool.length) :
    ∃ s', s.detect pool = some (sigId i, s') ∧ s'.next = pool.length ∧
      CreateWaiting s' none xs d := by
  obtain ⟨queue, hpop, -, hwaiting'⟩ := hwaiting.pop hreturned
  obtain ⟨flag_p, hflag⟩ := hflags i
  obtain ⟨flag, -, hrearm, hwaiting''⟩ := hwaiting'.rearm hflag
  refine ⟨_, ?_, ?_, hwaiting''⟩
  · rw [CreateState.detect, hpop, Option.bind_eq_bind, Option.bind_some]
    simp only [List.head?_cons, Option.map_some] at hrearm ⊢
    rw [hrearm]
    rfl
  · exact hreturned

/-- Calls that find the queue and the user at rest return the signals in the
queue, and the next call returns none. -/
theorem CreateWaiting.detects {xs : List (Fin pool.length)}
    (hflags : ∀ i, ∃ flag_p, (pool.get i).flag_p = some flag_p)
    (hwaiting : CreateWaiting s none xs none) (hreturned : s.next = pool.length) :
    ∃ s', s.detects pool xs.length = some (xs.map sigId, s') ∧
      ∃ s'', s'.detect pool = some (-1, s'') := by
  induction xs generalizing s with
  | nil =>
      obtain ⟨queue, hpop, -⟩ := hwaiting.pop hreturned
      refine ⟨s, rfl, { s with queue := queue, detected := none }, ?_⟩
      simp only [CreateState.detect, hpop]
      rfl
  | cons i xs ih =>
      obtain ⟨s₂, hdetect, hreturned', hwaiting'⟩ := hwaiting.detect hflags hreturned
      obtain ⟨s', hdetects, hlast⟩ := ih hwaiting' hreturned'
      refine ⟨s', ?_, hlast⟩
      rw [List.length_cons, CreateState.detects, hdetect, Option.bind_eq_bind, Option.bind_some]
      dsimp only
      rw [hdetects]
      rfl

end

/-! ### Runs -/

section

variable {pool : List UnrSig} {rank : Int} {uru_queue : Nat} {queue : UruQueue}
  {flags : Nat → UruFlag} {num_event : Fin pool.length → Nat}
  {sends : Fin pool.length → List Send} {s : CreateState pool.length}

theorem CreateState.indexed_run {C : CreateState pool.length → CreateAction pool.length → Prop}
    (hrun : Run (CreateState.step pool rank uru_queue) C (createStart queue flags sends) s) :
    s.Indexed :=
  hrun.invariant ⟨Nat.zero_le _, fun _ hi => absurd hi (Nat.not_lt_zero _)⟩
    fun _ _ _ _ h _ hstep => h.step hstep

/-- No trigger is lost around the creation of a pool, as long as the last part
of no signal arrives before the queue of the signal has been set: once the
creation has returned and all messages have been delivered, calls of
`unr_sig_pool_detect` return every signal once, and then none. -/
theorem creation_loses_no_trigger (hinit : uruQueueInit pool.length = .ok queue)
    (hpos : ∀ i, 0 < num_event i) (hlt : ∀ i, num_event i < 2 ^ 32)
    (hcreated : ∀ i, ∃ flag_p, (pool.get i).flag_p = some flag_p ∧
      unrSigCreate (BitVec.ofNat 64 (num_event i)) = .ok (flags flag_p))
    (hnum : ∀ i, (sends i).length = num_event i)
    (hchannels : ∀ i, ∀ send ∈ sends i, send.group.num < 256)
    (hrun : Run (CreateState.step pool rank uru_queue)
      (fun s action => s.Linked pool action) (createStart queue flags sends) s)
    (hreturned : s.next = pool.length) (hdelivered : ∀ i, s.todo i = [])
    (hdaemon : s.pushing = none) (huser : s.detected = none) :
    ∃ sigs, (s.reported ++ sigs).Perm (List.finRange pool.length) ∧
      ∃ s', s.detects pool sigs.length = some (sigs.map sigId, s') ∧
        ∃ s'', s'.detect pool = some (-1, s'') := by
  have hdistinct := (CreateState.indexed_run hrun).distinct hreturned
  have hstart : CreateInv num_event sends uru_queue (createStart queue flags sends) := by
    obtain ⟨hholds, hsize⟩ := holds_of_uruQueueInit hinit
    have hne : ∀ i, (sends i).flatMap Send.parts ≠ [] := fun i =>
      flatMap_parts_ne_nil (hnum i ▸ hpos i)
    refine ⟨fun i => ?_, hsize, none, [], none, hholds, rfl, rfl, List.nodup_nil, fun i => ?_⟩
    · obtain ⟨flag_p, hflag, hcreate⟩ := hcreated i
      refine ⟨flag_p, hflag, fun _ => ?_, ?_⟩
      · have hfresh := fresh_of_create (hpos i) (hlt i) hcreate
        refine ⟨InRound.start (hnum i) (hchannels i) hfresh, ?_⟩
        change 0 ≤ (flags flag_p).counter.toInt
        have hbound := hlt i
        rw [hfresh.counter, BitVec.toInt_eq_toNat_of_lt] <;> rw [BitVec.toNat_ofNat] <;> omega
      · rw [unrSigCreate_of_lt (hpos i) (hlt i)] at hcreate
        exact (congrArg UruFlag.queue (Except.ok.inj hcreate)).symm.trans
          (if_neg (Nat.not_lt_zero _)).symm
    · exact ⟨fun hmem => absurd hmem List.not_mem_nil, fun hnil => absurd hnil (hne i)⟩
  have hinv : CreateInv num_event sends uru_queue s :=
    hrun.invariant hstart fun _ _ _ hbefore h hlinked hstep =>
      h.step (CreateState.indexed_run hbefore) hdistinct hlt hlinked hstep
  obtain ⟨u, xs, d, hwaiting⟩ := hinv.waiting
  -- the user and the daemon hold nothing, so all that waits is in the queue
  have hu : u = none := by
    have hnone := hwaiting.detected
    rw [huser] at hnone
    exact Option.map_eq_none_iff.mp hnone.symm
  have hd : d = none := by
    have hnone := hwaiting.pushing
    rw [hdaemon] at hnone
    exact Option.map_eq_none_iff.mp hnone.symm
  subst hu hd
  refine ⟨xs, ?_, hwaiting.detects (fun i => ?_) hreturned⟩
  · have hnodup := hwaiting.nodup
    have hmem := hwaiting.mem
    simp only [Option.toList_none, List.nil_append, List.append_nil] at hnodup hmem
    refine (List.perm_ext_iff_of_nodup hnodup (List.nodup_finRange _)).mpr fun i => ?_
    exact ⟨fun _ => List.mem_finRange i, fun _ => (hmem i).mpr (hdelivered i)⟩
  · obtain ⟨flag_p, hflag, -⟩ := hinv.sig i
    exact ⟨flag_p, hflag⟩

end

/-! ### A pool of one signal -/

def beforeCreation : CreateState [(⟨0, some 3⟩ : UnrSig)].length :=
  createStart ⟨2, 0, 0, [none, none]⟩ (fun _ => oneEvent) fun _ => [twoBlocks]

/-- The first part of the message arrives before the creation, the second one
during it, after the queue has been set. -/
def aroundCreation : List (CreateAction [(⟨0, some 3⟩ : UnrSig)].length) :=
  [.add ⟨0, Nat.one_pos⟩ 0, .create, .create, .add ⟨0, Nat.one_pos⟩ 0, .push]

/-- Both parts arrive before the queue has been set. -/
def beforeQueue : List (CreateAction [(⟨0, some 3⟩ : UnrSig)].length) :=
  [.add ⟨0, Nat.one_pos⟩ 0, .create, .add ⟨0, Nat.one_pos⟩ 0, .create]

theorem creation_loses_no_trigger_one_signal :
    ∃ s, exec (CreateState.step _ 0 7) (fun s action => decide (s.Linked _ action)) beforeCreation
        aroundCreation = some s ∧ s.reported = [] ∧
      ∃ sigs : List (Fin 1), sigs.Perm (List.finRange 1) ∧
        ∃ s', s.detects _ sigs.length = some (sigs.map sigId, s') ∧
          ∃ s'', s'.detect _ = some (-1, s'') := by
  have hreached : (exec (CreateState.step _ 0 7) (fun s action => decide (s.Linked _ action))
      beforeCreation aroundCreation).map (fun s => decide (s.next = 1 ∧ s.todo (0 : Fin 1) = [] ∧
        s.pushing = none ∧ s.detected = none ∧ s.reported = [])) = some true := by decide +kernel
  obtain ⟨s, hexec, hs⟩ := Option.map_eq_some_iff.mp hreached
  obtain ⟨hreturned, hdelivered, hdaemon, huser, hreported⟩ := of_decide_eq_true hs
  have hrun := (Run.of_exec hexec).mono fun _ _ => of_decide_eq_true
  obtain ⟨sigs, hperm, hdetects⟩ := @creation_loses_no_trigger _ _ _ _ _ (fun _ => 1) _ _ rfl
    (fun _ => by decide) (fun _ => by decide)
    (fun i => ⟨3, by rw [Fin.fin_one_eq_zero i]; rfl, rfl⟩)
    (fun _ => rfl) (fun _ send hsend => by rw [List.mem_singleton.mp hsend]; decide) hrun hreturned
    (fun i => by rw [Fin.fin_one_eq_zero i]; exact hdelivered) hdaemon huser
  rw [hreported] at hperm
  exact ⟨s, hexec, hreported, sigs, hperm, hdetects⟩

/-- Calls that find the queue empty return nothing, however often they are
repeated. -/
theorem detects_of_empty {pool : List UnrSig} {s : CreateState pool.length}
    (hreturned : s.next = pool.length) (huser : s.detected = none)
    (hempty : s.queue.head = s.queue.tail) (k : Nat) :
    s.detects pool k = some (List.replicate k (-1), s) := by
  have hdetect : s.detect pool = some (-1, s) := by
    have hpop : s.pop pool = some s := by
      unfold CreateState.pop
      rw [decide_eq_true hreturned, huser, uruQueuePop, if_pos hempty]
      simp [← huser]
    rw [CreateState.detect, hpop, Option.bind_eq_bind, Option.bind_some, huser]
    rfl
  induction k with
  | zero => rfl
  | succ k ih =>
      rw [CreateState.detects, hdetect, Option.bind_eq_bind, Option.bind_some]
      dsimp only
      rw [ih]
      rfl

/-- All messages have been delivered and the creation has returned, but no call
returns the signal. -/
theorem trigger_lost_before_queue :
    ∃ s, exec (CreateState.step _ 0 7) (fun _ _ => true) beforeCreation beforeQueue = some s ∧
      s.next = 1 ∧ s.todo (0 : Fin 1) = [] ∧ s.pushing = none ∧ s.reported = [] ∧
      ∀ k, s.detects _ k = some (List.replicate k (-1), s) := by
  have hreached : (exec (CreateState.step _ 0 7) (fun _ _ => true) beforeCreation
      beforeQueue).map (fun s => decide (s.next = 1 ∧ s.todo (0 : Fin 1) = [] ∧
        s.pushing = none ∧ s.reported = [] ∧ s.detected = none ∧
        s.queue.head = s.queue.tail)) = some true := by decide +kernel
  obtain ⟨s, hexec, hs⟩ := Option.map_eq_some_iff.mp hreached
  obtain ⟨hreturned, hdelivered, hdaemon, hreported, huser, hempty⟩ := of_decide_eq_true hs
  exact ⟨s, hexec, hreturned, hdelivered, hdaemon, hreported,
    detects_of_empty hreturned huser hempty⟩

end Unr.Uri
