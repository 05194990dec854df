import Unr.Mpi.ReqQueue

/-!
Every operation appended to the request queue completes once.

The daemon and the calls of `uri_mpi_req_que_app` take their steps in any
order, except that an append holds the lock from its first entry to its last
and excludes the copy and the removal. Entries are only added at the end while
an iteration is under way, so a position of the copy is the same position of
the queue when it is removed.
-/

namespace Unr.Mpi

open Unr.Uru Unr.Logic

/-- Where an iteration of `uri_mpi_channel_daemon` is. -/
inductive QuePhase
  /-- Between two iterations. -/
  | idle
  /-- The tail has been read. -/
  | sized (req_arr_tail_copy : Nat)
  /-- The arrays have been copied. -/
  | copied (req_arr_copy : List (Option Nat)) (op_arr_copy : List (Option QueOp))
  /-- `MPI_Testsome` has returned `idx`; the effects of `rest` are to come. -/
  | completed (op_arr_copy : List (Option QueOp)) (idx rest : List Nat)
  deriving Repr, DecidableEq

/-- The queue of a process with everything the completion of an operation
changes. The last four fields are ghost: what has been appended, and with the
number of the iteration what has been reported as complete, what has had its
effects, and what has left the queue. -/
structure QueState where
  que : ReqQue
  /-- The loop counter and the remaining operations of the append that holds
  the lock. -/
  appending : Option (Nat × List QueOp)
  daemon : QuePhase
  flags : Nat → UruFlag
  pushed : List (Nat × Int)
  mpi_tag : Nat → IntPool
  halted : Option Stop
  iteration : Nat
  appended : List QueOp
  reported : List (Nat × QueOp)
  applied : List (Nat × QueOp)
  removed : List (Nat × QueOp)

def QueState.init (flags : Nat → UruFlag) (mpi_tag : Nat → IntPool) : QueState where
  que := .init
  appending := none
  daemon := .idle
  flags := flags
  pushed := []
  mpi_tag := mpi_tag
  halted := none
  iteration := 0
  appended := []
  reported := []
  applied := []
  removed := []

/-- The steps of the queue. `append` takes the lock, and `enter` gives it back
when nothing is left to enter. -/
inductive QueAct
  | append (mpi_op : List QueOp)
  | enter
  | readTail
  | copy
  | testSome (idx : List Nat)
  | progress
  | remove
  deriving Repr, DecidableEq

namespace QueState

def orHalt (s : QueState) (result : Prog QueState) : QueState :=
  match result with
  | .ok s' => s'
  | .error stop => { s with halted := some stop }

def progressFlag (s : QueState) (op : MpiOp) : Prog QueState :=
  match op.flag_p with
  | none => .ok s
  | some f => do
      let (flag, push) ← (s.flags f).progress op.flag_add
      return { s with
        flags := Function.update s.flags f flag
        pushed := s.pushed ++ push.toList }

def progressOp (size rank : Nat) (s : QueState) (op : MpiOp) : Prog QueState := do
  let s ← s.progressFlag op
  uruAssert (hasBit op.flag freeAddr → hasBit op.flag keepAddr = false)
  uruAssert (hasBit op.flag freeReq → hasBit op.flag keepReq = false)
  uruAssert (hasBit op.flag freeTag → hasBit op.flag keepTag = false)
  uruAssert (hasBit op.flag freeOp → hasBit op.flag keepOp = false)
  if hasBit op.flag freeTag then
    let pool ← (s.mpi_tag op.rank).put size rank op.tag
    return { s with mpi_tag := Function.update s.mpi_tag op.rank pool }
  else
    return s

/-- The effects of the entry at position `k` of the copy. -/
def progressAt (size rank : Nat) (s : QueState) (op_arr_copy : List (Option QueOp))
    (idx : List Nat) (k : Nat) (rest : List Nat) : Prog QueState := do
  let slot ← fetch op_arr_copy k
  match slot with
  | none => throw (.exit .assertExit)
  | some op => do
      let s ← s.progressOp size rank op.op
      return { s with
        daemon := .completed op_arr_copy idx rest
        applied := s.applied ++ [(s.iteration, op)] }

/-- The operation `op` is entered in turn `i` of the loop, whose counter is an
`int`. -/
def enter (s : QueState) (i : Nat) (op : QueOp) (rest : List QueOp) : Prog QueState := do
  let que ← s.que.push op
  if i + 1 < 2 ^ 31 then
    return { s with que := que, appending := some (i + 1, rest) }
  else
    throw .undefined

def copy (s : QueState) (n : Nat) : Prog QueState := do
  let reqs ← copyFirst s.que.req_arr n
  let ops ← copyFirst s.que.op_arr n
  return { s with daemon := .copied reqs ops }

/-- The operations at positions of the copy, as completions of this
iteration. -/
def completions (s : QueState) (op_arr_copy : List (Option QueOp)) (idx : List Nat) :
    List (Nat × QueOp) :=
  (entriesAt op_arr_copy idx).reduceOption.map (s.iteration, ·)

def remove (s : QueState) (idx : List Nat) : Prog QueState := do
  let que ← s.que.removeDone idx
  return { s with
    que := que
    daemon := .idle
    removed := s.removed ++ (s.que.contents.diff que.contents).map (s.iteration, ·) }

def next (size rank : Nat) (s : QueState) : QueAct → Option QueState
  | .append mpi_op =>
      if s.appending = none then
        some { s with
          que := s.que.grow mpi_op.length
          appending := some (0, mpi_op)
          appended := s.appended ++ mpi_op }
      else none
  | .enter =>
      match s.appending with
      | some (i, op :: rest) => some (s.orHalt (s.enter i op rest))
      | some (_, []) => some { s with appending := none }
      | none => none
  | .readTail =>
      if s.daemon = .idle then
        some { s with daemon := .sized s.que.arr_tail, iteration := s.iteration + 1 }
      else none
  | .copy =>
      match s.daemon with
      | .sized 0 => some { s with daemon := .completed [] [] [] }
      | .sized (n + 1) => if s.appending = none then some (s.orHalt (s.copy (n + 1))) else none
      | _ => none
  | .testSome idx =>
      match s.daemon with
      | .copied reqs ops =>
          if idx.Pairwise (· < ·) ∧ ∀ k ∈ idx, k < reqs.length then
            -- the number of requests is passed as an `int`
            if reqs.length < 2 ^ 31 then
              some { s with
                daemon := .completed ops idx idx
                reported := s.reported ++ s.completions ops idx }
            else some { s with halted := some .undefined }
          else none
      | _ => none
  | .progress =>
      match s.daemon with
      | .completed ops idx (k :: rest) => some (s.orHalt (s.progressAt size rank ops idx k rest))
      | _ => none
  | .remove =>
      match s.daemon with
      | .completed _ [] [] => some { s with daemon := .idle }
      | .completed _ (k :: idx) [] =>
          if s.appending = none then some (s.orHalt (s.remove (k :: idx))) else none
      | _ => none

def step (size rank : Nat) (s : QueState) (a : QueAct) : Option QueState :=
  if s.halted = none then s.next size rank a else none

/-- The operations that the append in progress has still to enter. -/
def toEnter (s : QueState) : List QueOp := (s.appending.map (·.2)).getD []

/-- The completions whose operations are still in the queue, and those whose
effects are still to come. -/
def toRemove (s : QueState) : List (Nat × QueOp) :=
  match s.daemon with
  | .completed ops idx _ => s.completions ops idx
  | _ => []

def toApply (s : QueState) : List (Nat × QueOp) :=
  match s.daemon with
  | .completed ops _ rest => s.completions ops rest
  | _ => []

/-- The copy is what the first entries of the queue still are. -/
structure CopyOk (que : ReqQue) (op_arr_copy : List (Option QueOp)) : Prop where
  length_le : op_arr_copy.length ≤ que.arr_tail
  same : que.op_arr.take op_arr_copy.length = op_arr_copy

/-- What the daemon remembers of the queue is still true. -/
def PhaseOk (que : ReqQue) : QuePhase → Prop
  | .idle => True
  | .sized n => n ≤ que.arr_tail
  | .copied reqs ops => reqs.length = ops.length ∧ CopyOk que ops
  | .completed ops idx rest => CopyOk que ops ∧ idx.Pairwise (· < ·) ∧
      (∀ k ∈ idx, k < ops.length) ∧ rest <:+ idx

def addedTo (f : Nat) (completions : List (Nat × QueOp)) : BitVec 64 :=
  ((completions.filter fun c => c.2.op.flag_p = some f).map fun c => c.2.op.flag_add).sum

structure Ok (flags : Nat → UruFlag) (s : QueState) : Prop where
  que : s.que.Ok
  room : s.que.arr_tail + s.toEnter.length ≤ s.que.arr_len
  phase : PhaseOk s.que s.daemon
  /-- What has been appended is in the queue, to be entered, or removed. -/
  appended : (s.que.contents ++ s.toEnter ++ s.removed.map Prod.snd).Perm s.appended
  removed : (s.removed ++ s.toRemove).Perm s.reported
  applied : s.applied ++ s.toApply = s.reported
  flags : ∀ f, (s.flags f).counter = (flags f).counter + addedTo f s.applied

theorem ok_init (flags : Nat → UruFlag) (mpi_tag : Nat → IntPool) :
    Ok flags (.init flags mpi_tag) where
  que := ReqQue.ok_init
  room := Nat.zero_le _
  phase := trivial
  appended := List.Perm.refl _
  removed := List.Perm.refl _
  applied := rfl
  flags _ := (BitVec.add_zero _).symm

section Steps

variable {flags : Nat → UruFlag} {s s' : QueState} {size rank : Nat}

theorem Ok.halt (h : Ok flags s) (stop : Stop) : Ok flags { s with halted := some stop } :=
  ⟨h.que, h.room, h.phase, h.appended, h.removed, h.applied, h.flags⟩

theorem Ok.orHalt (h : Ok flags s) {result : Prog QueState}
    (hok : ∀ s', result = .ok s' → Ok flags s') : Ok flags (s.orHalt result) := by
  match result with
  | .ok s' => exact hok s' rfl
  | .error stop => exact h.halt stop

theorem CopyOk.extend {que que' : ReqQue} {ops : List (Option QueOp)} (h : CopyOk que ops)
    (htail : que.arr_tail ≤ que'.arr_tail)
    (htake : ∀ n ≤ que.arr_tail, que'.op_arr.take n = que.op_arr.take n) : CopyOk que' ops :=
  ⟨Nat.le_trans h.length_le htail, (htake _ h.length_le).trans h.same⟩

theorem phaseOk_extend {que que' : ReqQue} (htail : que.arr_tail ≤ que'.arr_tail)
    (htake : ∀ n ≤ que.arr_tail, que'.op_arr.take n = que.op_arr.take n) {daemon : QuePhase}
    (h : PhaseOk que daemon) : PhaseOk que' daemon := by
  match daemon with
  | .idle => exact trivial
  | .sized n => exact Nat.le_trans h htail
  | .copied _ _ => exact ⟨h.1, h.2.extend htail htake⟩
  | .completed _ _ _ => exact ⟨h.1.extend htail htake, h.2⟩

/-- A position of the copy is the same position of the queue. -/
theorem CopyOk.entriesAt {que : ReqQue} {ops : List (Option QueOp)} (h : CopyOk que ops)
    {idx : List Nat} (hidx : ∀ k ∈ idx, k < ops.length) :
    Logic.entriesAt que.op_arr idx = Logic.entriesAt ops idx := by
  refine entriesAt_congr fun k hk => ?_
  conv_rhs => rw [← h.same]
  exact (List.getElem?_take_of_lt (hidx k hk)).symm

theorem Ok.append (h : Ok flags s) (hfree : s.appending = none) (mpi_op : List QueOp) :
    Ok flags { s with
      que := s.que.grow mpi_op.length
      appending := some (0, mpi_op)
      appended := s.appended ++ mpi_op } := by
  obtain ⟨hque, htail, hcontents, hroom, htake⟩ := h.que.grow mpi_op.length
  refine ⟨hque, ?_, phaseOk_extend (Nat.le_of_eq htail.symm) htake h.phase, ?_, h.removed,
    h.applied, h.flags⟩
  · simp only [htail]
    exact hroom
  · have hold := h.appended
    simp only [toEnter, hfree, Option.map_none, Option.getD_none, List.append_nil] at hold
    simp only [toEnter, hcontents, Option.map_some, Option.getD_some]
    refine List.Perm.trans ?_ (hold.append_right mpi_op)
    rw [List.append_assoc, List.append_assoc]
    exact List.perm_append_comm.append_left _

theorem Ok.enter (h : Ok flags s) {i : Nat} {op : QueOp} {rest : List QueOp}
    (happending : s.appending = some (i, op :: rest)) (henter : s.enter i op rest = .ok s') :
    Ok flags s' := by
  have hroom := h.room
  simp only [toEnter, happending, Option.map_some, Option.getD_some, List.length_cons] at hroom
  obtain ⟨que, hpush, hque, htail, hlen, hcontents, htake⟩ := h.que.push (by omega) op
  simp only [QueState.enter, hpush, ok_bind] at henter
  split at henter
  · cases henter
    refine ⟨hque, ?_, phaseOk_extend (by omega) htake h.phase, ?_, h.removed, h.applied, h.flags⟩
    · simp only [toEnter, htail, hlen, Option.map_some, Option.getD_some]
      omega
    · have hold := h.appended
      simp only [toEnter, happending, Option.map_some, Option.getD_some] at hold
      simp only [toEnter, hcontents, Option.map_some, Option.getD_some]
      simpa only [List.append_assoc, List.singleton_append] using hold
  · cases henter

theorem Ok.unlock (h : Ok flags s) {i : Nat} (happending : s.appending = some (i, [])) :
    Ok flags { s with appending := none } := by
  have hsame : s.toEnter = [] := by simp [toEnter, happending]
  have hroom := h.room
  have hold := h.appended
  rw [hsame] at hroom hold
  exact ⟨h.que, hroom, h.phase, hold, h.removed, h.applied, h.flags⟩

theorem Ok.readTail (h : Ok flags s) (hidle : s.daemon = .idle) :
    Ok flags { s with daemon := .sized s.que.arr_tail, iteration := s.iteration + 1 } := by
  have hremoved := h.removed
  have happlied := h.applied
  simp only [toRemove, toApply, hidle] at hremoved happlied
  exact ⟨h.que, h.room, Nat.le_refl _, h.appended, hremoved, happlied, h.flags⟩

theorem Ok.copyNothing (h : Ok flags s) (hsized : s.daemon = .sized 0) :
    Ok flags { s with daemon := .completed [] [] [] } := by
  have hremoved := h.removed
  have happlied := h.applied
  simp only [toRemove, toApply, hsized] at hremoved happlied
  exact ⟨h.que, h.room, ⟨⟨Nat.zero_le _, rfl⟩, List.Pairwise.nil, fun _ hk => (nomatch hk),
    List.suffix_refl _⟩, h.appended, hremoved, happlied, h.flags⟩

theorem copyFirst_eq_ok {α : Type} {xs ys : List α} {n : Nat} (h : copyFirst xs n = .ok ys) :
    n ≤ xs.length ∧ ys = xs.take n := by
  unfold copyFirst at h
  split at h
  · cases h
    exact ⟨‹_›, rfl⟩
  · cases h

theorem Ok.copy (h : Ok flags s) {n : Nat} (hsized : s.daemon = .sized n)
    (hcopy : s.copy n = .ok s') : Ok flags s' := by
  simp only [QueState.copy, bind_eq_ok, pure_eq_ok] at hcopy
  obtain ⟨reqs, hreqs, ops, hops, rfl⟩ := hcopy
  obtain ⟨hreqlen, rfl⟩ := copyFirst_eq_ok hreqs
  obtain ⟨hoplen, rfl⟩ := copyFirst_eq_ok hops
  have hphase := h.phase
  have hremoved := h.removed
  have happlied := h.applied
  simp only [hsized, PhaseOk, toRemove, toApply] at hphase hremoved happlied
  refine ⟨h.que, h.room, ⟨?_, ?_, ?_⟩, h.appended, hremoved, happlied, h.flags⟩
  · rw [List.length_take_of_le hreqlen, List.length_take_of_le hoplen]
  · rw [List.length_take_of_le hoplen]
    exact hphase
  · rw [List.length_take_of_le hoplen]

theorem Ok.testSome (h : Ok flags s) {reqs : List (Option Nat)} {ops : List (Option QueOp)}
    {idx : List Nat} (hcopied : s.daemon = .copied reqs ops) (hsorted : idx.Pairwise (· < ·))
    (hidx : ∀ k ∈ idx, k < reqs.length) :
    Ok flags { s with
      daemon := .completed ops idx idx
      reported := s.reported ++ s.completions ops idx } := by
  have hphase := h.phase
  have hremoved := h.removed
  have happlied := h.applied
  simp only [hcopied, PhaseOk, toRemove, toApply, List.append_nil] at hphase hremoved happlied
  refine ⟨h.que, h.room, ⟨hphase.2, hsorted, fun k hk => hphase.1 ▸ hidx k hk,
    List.suffix_refl _⟩, h.appended, hremoved.append_right _, ?_, h.flags⟩
  rw [← happlied]
  rfl

theorem addedTo_append (f : Nat) (cs cs' : List (Nat × QueOp)) :
    addedTo f (cs ++ cs') = addedTo f cs + addedTo f cs' := by
  simp [addedTo]

theorem addedTo_singleton (f k : Nat) (op : QueOp) :
    addedTo f [(k, op)] = if op.op.flag_p = some f then op.op.flag_add else 0 := by
  unfold addedTo
  split
  · rename_i hflag
    simp [hflag]
  · rename_i hflag
    simp [hflag]

theorem progressFlag_eq_ok {op : MpiOp} (h : s.progressFlag op = .ok s') :
    ∃ flags' pushed', s' = { s with flags := flags', pushed := pushed' } ∧
      ∀ f, (flags' f).counter =
        (s.flags f).counter + if op.flag_p = some f then op.flag_add else 0 := by
  unfold progressFlag at h
  match hflag : op.flag_p with
  | none =>
      rw [hflag] at h
      cases h
      exact ⟨s.flags, s.pushed, rfl, fun f => by simp⟩
  | some g =>
      rw [hflag] at h
      simp only [UruFlag.progress, bind_eq_ok, pure_eq_ok, Prod.exists, Prod.mk.injEq] at h
      obtain ⟨flag, push, ⟨-, -, rfl, rfl⟩, rfl⟩ := h
      refine ⟨_, _, rfl, fun f => ?_⟩
      by_cases hf : f = g
      · subst hf
        simp
      · simp [Function.update_of_ne hf, Ne.symm hf]

theorem progressOp_eq_ok {op : MpiOp} (h : s.progressOp size rank op = .ok s') :
    ∃ flags' pushed' mpi_tag',
      s' = { s with flags := flags', pushed := pushed', mpi_tag := mpi_tag' } ∧
      ∀ f, (flags' f).counter =
        (s.flags f).counter + if op.flag_p = some f then op.flag_add else 0 := by
  simp only [progressOp, bind_eq_ok] at h
  obtain ⟨mid, hflag, -, -, -, -, -, -, -, -, h⟩ := h
  obtain ⟨flags', pushed', rfl, hcounter⟩ := progressFlag_eq_ok hflag
  split at h
  · simp only [bind_eq_ok, pure_eq_ok] at h
    obtain ⟨pool, -, rfl⟩ := h
    exact ⟨flags', pushed', _, rfl, hcounter⟩
  · cases h
    exact ⟨flags', pushed', s.mpi_tag, rfl, hcounter⟩

theorem Ok.progress (h : Ok flags s) {ops : List (Option QueOp)} {idx rest : List Nat} {k : Nat}
    (hdaemon : s.daemon = .completed ops idx (k :: rest))
    (hprogress : s.progressAt size rank ops idx k rest = .ok s') : Ok flags s' := by
  simp only [progressAt, bind_eq_ok, fetch_eq_ok] at hprogress
  obtain ⟨slot, hslot, hprogress⟩ := hprogress
  cases slot with
  | none => simp at hprogress
  | some op =>
      simp only [bind_eq_ok, pure_eq_ok] at hprogress
      obtain ⟨mid, hop, rfl⟩ := hprogress
      obtain ⟨flags', pushed', mpi_tag', rfl, hcounter⟩ := progressOp_eq_ok hop
      have hphase := h.phase
      have hremoved := h.removed
      have happlied := h.applied
      simp only [hdaemon, PhaseOk, toRemove, toApply] at hphase hremoved happlied
      obtain ⟨hcopy, hsorted, hidx, hrest⟩ := hphase
      have hfirst : s.completions ops (k :: rest) =
          (s.iteration, op) :: s.completions ops rest := by
        simp [completions, entriesAt, hslot]
      refine ⟨h.que, h.room, ⟨hcopy, hsorted, hidx, ?_⟩, h.appended, hremoved, ?_, fun f => ?_⟩
      · exact (List.suffix_cons k rest).trans hrest
      · rw [← happlied, hfirst, ← List.append_cons]
        rfl
      · rw [hcounter, h.flags, addedTo_append, addedTo_singleton, BitVec.add_assoc]

theorem Ok.removeNothing (h : Ok flags s) {ops : List (Option QueOp)}
    (hdaemon : s.daemon = .completed ops [] []) : Ok flags { s with daemon := .idle } := by
  have hremoved := h.removed
  have happlied := h.applied
  simp only [hdaemon, toRemove, toApply] at hremoved happlied
  exact ⟨h.que, h.room, trivial, h.appended, hremoved, happlied, h.flags⟩

theorem diff_perm {xs ys zs : List QueOp} (h : xs.Perm (ys ++ zs)) : (xs.diff zs).Perm ys := by
  rw [← Multiset.coe_eq_coe, ← Multiset.coe_sub, Multiset.coe_eq_coe.mpr h, ← Multiset.coe_add,
    Multiset.add_sub_cancel_right]

theorem Ok.remove (h : Ok flags s) (hfree : s.appending = none) {ops : List (Option QueOp)}
    {idx : List Nat} (hdaemon : s.daemon = .completed ops idx [])
    (hremove : s.remove idx = .ok s') : Ok flags s' := by
  have hphase := h.phase
  have hremoved := h.removed
  have happlied := h.applied
  simp only [hdaemon, PhaseOk, toRemove, toApply] at hphase hremoved happlied
  obtain ⟨hcopy, hsorted, hidx, -⟩ := hphase
  obtain ⟨que, hque, hok, hperm⟩ := h.que.removeDone hsorted fun k hk =>
    Nat.lt_of_lt_of_le (hidx k hk) hcopy.length_le
  -- what was appended since the copy is behind it
  rw [hcopy.entriesAt hidx] at hperm
  have hdiff := diff_perm hperm
  simp only [QueState.remove, hque, ok_bind] at hremove
  cases hremove
  have hnone : s.toEnter = [] := by simp [toEnter, hfree]
  refine ⟨hok, ?_, trivial, ?_, ?_, happlied, h.flags⟩
  · have hroom : ({ s with
        que := que
        daemon := .idle
        removed := s.removed ++ (s.que.contents.diff que.contents).map (s.iteration, ·) } :
          QueState).toEnter = [] := by simp [toEnter, hfree]
    rw [hroom]
    exact hok.tail_le
  · have hold := h.appended
    rw [hnone] at hold
    refine List.Perm.trans ?_ hold
    have htags : ((s.que.contents.diff que.contents).map (s.iteration, ·)).map Prod.snd =
        s.que.contents.diff que.contents := by
      rw [List.map_map]
      exact List.map_id _
    simp only [toEnter, hfree, Option.map_none, Option.getD_none, List.append_nil,
      List.map_append, htags]
    calc
      (que.contents ++ (s.removed.map Prod.snd ++ s.que.contents.diff que.contents)).Perm
          (que.contents ++ (s.que.contents.diff que.contents ++ s.removed.map Prod.snd)) :=
        List.perm_append_comm.append_left _
      _ = que.contents ++ s.que.contents.diff que.contents ++ s.removed.map Prod.snd :=
        (List.append_assoc ..).symm
      _ |>.Perm (s.que.contents ++ s.removed.map Prod.snd) := by
        refine List.Perm.append_right _ ?_
        exact (List.perm_append_comm.trans (hdiff.append_right _)).trans hperm.symm
  · simp only [toRemove, List.append_nil]
    exact ((hdiff.map _).append_left _).trans hremoved

theorem Ok.next (h : Ok flags s) {a : QueAct} (hnext : s.next size rank a = some s') :
    Ok flags s' := by
  cases a with
  | append mpi_op =>
      simp only [QueState.next, Option.ite_none_right_eq_some, Option.some.injEq] at hnext
      obtain ⟨hfree, rfl⟩ := hnext
      exact h.append hfree mpi_op
  | enter =>
      match happending : s.appending with
      | none => simp [QueState.next, happending] at hnext
      | some (i, op :: rest) =>
          simp only [QueState.next, happending, Option.some.injEq] at hnext
          subst hnext
          exact h.orHalt fun _ henter => h.enter happending henter
      | some (i, []) =>
          simp only [QueState.next, happending, Option.some.injEq] at hnext
          subst hnext
          exact h.unlock happending
  | readTail =>
      simp only [QueState.next, Option.ite_none_right_eq_some, Option.some.injEq] at hnext
      obtain ⟨hidle, rfl⟩ := hnext
      exact h.readTail hidle
  | copy =>
      match hdaemon : s.daemon with
      | .sized 0 =>
          simp only [QueState.next, hdaemon, Option.some.injEq] at hnext
          subst hnext
          exact h.copyNothing hdaemon
      | .sized (n + 1) =>
          simp only [QueState.next, hdaemon, Option.ite_none_right_eq_some, Option.some.injEq]
            at hnext
          obtain ⟨-, rfl⟩ := hnext
          exact h.orHalt fun _ hcopy => h.copy hdaemon hcopy
      | .idle | .copied _ _ | .completed _ _ _ => simp [QueState.next, hdaemon] at hnext
  | testSome idx =>
      match hdaemon : s.daemon with
      | .copied reqs ops =>
          simp only [QueState.next, hdaemon, Option.ite_none_right_eq_some] at hnext
          obtain ⟨⟨hsorted, hidx⟩, hnext⟩ := hnext
          split at hnext
          · cases hnext
            exact h.testSome hdaemon hsorted hidx
          · cases hnext
            exact hdaemon ▸ h.halt .undefined
      | .idle | .sized _ | .completed _ _ _ => simp [QueState.next, hdaemon] at hnext
  | progress =>
      match hdaemon : s.daemon with
      | .completed ops idx (k :: rest) =>
          simp only [QueState.next, hdaemon, Option.some.injEq] at hnext
          subst hnext
          exact h.orHalt fun _ hprogress => h.progress hdaemon hprogress
      | .idle | .sized _ | .copied _ _ | .completed _ _ [] =>
          simp [QueState.next, hdaemon] at hnext
  | remove =>
      match hdaemon : s.daemon with
      | .completed ops [] [] =>
          simp only [QueState.next, hdaemon, Option.some.injEq] at hnext
          subst hnext
          exact h.removeNothing hdaemon
      | .completed ops (k :: idx) [] =>
          simp only [QueState.next, hdaemon, Option.ite_none_right_eq_some, Option.some.injEq]
            at hnext
          obtain ⟨hfree, rfl⟩ := hnext
          exact h.orHalt fun _ hremove => h.remove hfree hdaemon hremove
      | .idle | .sized _ | .copied _ _ | .completed _ _ (_ :: _) =>
          simp [QueState.next, hdaemon] at hnext

end Steps

theorem ok_run {size rank : Nat} {flags : Nat → UruFlag} {mpi_tag : Nat → IntPool}
    {s : QueState}
    (hrun : Run (step size rank) (fun _ _ => True) (.init flags mpi_tag) s) : Ok flags s := by
  refine hrun.invariant (ok_init flags mpi_tag) fun t a u _ h _ hstep => ?_
  simp only [step, Option.ite_none_right_eq_some] at hstep
  exact h.next hstep.2

end QueState

/-- Between two iterations of the daemon, while no append holds the lock, the
queue holds the operations that are appended and not reported as complete,
each with its request. Every reported operation has had its effects once, has
been removed once, and both in the iteration that has reported it. -/
theorem queue_exactly_once {size rank : Nat} {flags : Nat → UruFlag} {mpi_tag : Nat → IntPool}
    {s : QueState}
    (hrun : Run (QueState.step size rank) (fun _ _ => True) (.init flags mpi_tag) s)
    (hidle : s.daemon = .idle) (hfree : s.appending = none) :
    (∀ p < s.que.arr_tail, ∃ op : QueOp,
        s.que.op_arr[p]? = some (some op) ∧ s.que.req_arr[p]? = some (some op.mpi_req)) ∧
      (s.que.contents ++ s.reported.map Prod.snd).Perm s.appended ∧
      s.applied = s.reported ∧ s.removed.Perm s.reported ∧
      ∀ f, (s.flags f).counter = (flags f).counter + QueState.addedTo f s.reported := by
  have h := QueState.ok_run hrun
  have hremoved := h.removed
  have happlied := h.applied
  have happended := h.appended
  simp only [QueState.toRemove, QueState.toApply, QueState.toEnter, hidle, hfree,
    List.append_nil, Option.map_none, Option.getD_none] at hremoved happlied happended
  refine ⟨h.que.entry, ?_, happlied, hremoved, fun f => ?_⟩
  · exact ((hremoved.map Prod.snd).symm.append_left _).trans happended
  · rw [← happlied]
    exact h.flags f

def countedOp (mpi_req : Nat) : QueOp where
  op := { addr := 0, size := 8, flag_p := some 0, flag_add := -1, rank := 1, tag := 1,
          flag := keepOp ||| keepReq, op_type := .opSend, plan := 0, index := mpi_req }
  mpi_req := mpi_req

/-- Three operations are in the copy when a fourth is appended; the first and
the third complete. -/
def lateAppend : List QueAct :=
  [.append [countedOp 0, countedOp 1, countedOp 2], .enter, .enter, .enter, .enter, .readTail,
    .copy, .append [countedOp 3], .enter, .enter, .testSome [0, 2], .progress, .progress, .remove]

/-- The queue after these steps, with a flag that waits for four
operations. -/
def lateAppended : QueState :=
  (exec (QueState.step 2 0) (fun _ _ => true)
    (.init (fun _ => ⟨4, none, 4, 0⟩) fun _ => .init) lateAppend).getD
      (.init (fun _ => ⟨4, none, 4, 0⟩) fun _ => .init)

theorem queue_exactly_once_late_append :
    lateAppended.que.contents = [countedOp 3, countedOp 1] ∧
    (lateAppended.que.contents ++ lateAppended.reported.map Prod.snd).Perm
      lateAppended.appended ∧
    lateAppended.applied = lateAppended.reported := by
  have hrun : Run (QueState.step 2 0) (fun _ _ => True)
      (.init (fun _ => ⟨4, none, 4, 0⟩) fun _ => .init) lateAppended := by
    have hsome : (exec (QueState.step 2 0) (fun _ _ => true)
        (.init (fun _ => ⟨4, none, 4, 0⟩) fun _ => .init) lateAppend).isSome = true := by
      decide +kernel
    obtain ⟨s, hs⟩ := Option.isSome_iff_exists.mp hsome
    have hs' : lateAppended = s := by rw [lateAppended, hs, Option.getD_some]
    exact hs' ▸ (Run.of_exec hs).mono fun _ _ _ => trivial
  have h := queue_exactly_once hrun (by decide +kernel) (by decide +kernel)
  exact ⟨by decide +kernel, h.2.1, h.2.2.1⟩

end Unr.Mpi
