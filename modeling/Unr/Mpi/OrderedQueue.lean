import Unr.Mpi.Channel
import Unr.Mpi.QueueRuns

/-!
The queue of a process against the arrays it stands for.

`Proc.queue` keeps the order of the appends. An append is one step there, and
what `MPI_Testsome` reports leaves at once. In the arrays an append enters one
operation after the other, the report is about a copy, and the removal comes
later and changes the order. Up to the order the arrays do what the queue does.
-/

namespace Unr.Mpi

open Unr.Uru Unr.Logic

/-! ### Reports of an unordered queue -/

/-- What is reported of a rearranged queue is reported of the queue by a mask. -/
theorem exists_pick {α β : Type} (f : α → β) {xs : List α} {ys zs : List β}
    (h : (xs.map f).Perm (ys ++ zs)) :
    ∃ done : List Bool, done.length = xs.length ∧ ((pick true done xs).map f).Perm ys ∧
      ((pick false done xs).map f).Perm zs := by
  induction xs generalizing ys zs with
  | nil =>
      obtain ⟨rfl, rfl⟩ := List.append_eq_nil_iff.mp h.nil_eq.symm
      exact ⟨[], rfl, .refl _, .refl _⟩
  | cons x xs ih =>
      rw [List.map_cons] at h
      rcases List.mem_append.mp (h.mem_iff.mp (List.mem_cons_self ..)) with hmem | hmem
      · obtain ⟨s, t, rfl⟩ := List.append_of_mem hmem
        have hrest : (xs.map f).Perm (s ++ t ++ zs) := by
          refine (h.trans ?_).cons_inv
          rw [List.append_assoc, List.append_assoc, List.cons_append]
          exact List.perm_middle
        obtain ⟨done, hlength, htrue, hfalse⟩ := ih hrest
        refine ⟨true :: done, by rw [List.length_cons, List.length_cons, hlength], ?_, ?_⟩
        · simpa [pick] using (htrue.cons (f x)).trans List.perm_middle.symm
        · simpa [pick] using hfalse
      · obtain ⟨s, t, rfl⟩ := List.append_of_mem hmem
        have hrest : (xs.map f).Perm (ys ++ (s ++ t)) := by
          refine (h.trans ?_).cons_inv
          rw [← List.append_assoc, ← List.append_assoc]
          exact List.perm_middle
        obtain ⟨done, hlength, htrue, hfalse⟩ := ih hrest
        refine ⟨false :: done, by rw [List.length_cons, List.length_cons, hlength], ?_, ?_⟩
        · simpa [pick] using htrue
        · simpa [pick] using (hfalse.cons (f x)).trans List.perm_middle.symm

/-! ### The steps -/

def Entry.queOp (mpi_req : Entry → Nat) (e : Entry) : QueOp := ⟨e.op, mpi_req e⟩

/-- What a step of the arrays is for the queue of the process. -/
def QueAct.Moves (mpi_req : Entry → Nat) : QueAct → Proc → Proc → Prop
  | .append mpi_op, proc, proc' =>
      ∃ entries : List Entry, entries.map (Entry.queOp mpi_req) = mpi_op ∧
        proc' = proc.append entries
  | .testSome _, proc, proc' =>
      ∃ done : List Bool, done.length = proc.queue.length ∧ proc' = proc.testSome done
  | _, proc, proc' => proc' = proc

def QueAct.OfEntries (mpi_req : Entry → Nat) : QueAct → Prop
  | .append mpi_op => ∃ entries : List Entry, entries.map (Entry.queOp mpi_req) = mpi_op
  | _ => True

namespace QueState

variable {size rank : Nat} {flags : Nat → UruFlag} {mpi_tag : Nat → IntPool}
variable {mpi_req : Entry → Nat} {s s' : QueState} {proc : Proc}

/-- The queue of the process has the operations that are appended and not
reported. -/
def Holds (mpi_req : Entry → Nat) (s : QueState) (proc : Proc) : Prop :=
  (proc.queue.map (Entry.queOp mpi_req) ++ s.reported.map Prod.snd).Perm s.appended

/-- What the arrays hold: the queue of the process, and what is reported and not
yet removed. -/
theorem Holds.contents (h : Ok flags s) (hholds : Holds mpi_req s proc) :
    (s.que.contents ++ s.toEnter).Perm
      (proc.queue.map (Entry.queOp mpi_req) ++ s.toRemove.map Prod.snd) := by
  have hreported := (h.removed.map Prod.snd).symm
  rw [List.map_append] at hreported
  rw [← List.perm_append_right_iff (s.removed.map Prod.snd)]
  refine h.appended.trans (hholds.symm.trans ((hreported.append_left _).trans ?_))
  rw [List.append_assoc]
  exact List.perm_append_comm.append_left _

/-- The copy is a part of the arrays, so that what is reported is in the
queue. -/
theorem Holds.split (h : Ok flags s) (hholds : Holds mpi_req s proc)
    {reqs : List (Option Nat)} {ops : List (Option QueOp)} {idx : List Nat}
    (hcopied : s.daemon = .copied reqs ops) (hsorted : idx.Pairwise (· < ·))
    (hidx : ∀ k ∈ idx, k < reqs.length) :
    (proc.queue.map (Entry.queOp mpi_req)).Perm
      ((Logic.entriesAt ops idx).reduceOption ++
        ((remaining s.que.op_arr s.que.arr_tail idx).reduceOption ++ s.toEnter)) := by
  have hphase := h.phase
  rw [hcopied] at hphase
  obtain ⟨hlength, hcopy⟩ := hphase
  have hidx' : ∀ k ∈ idx, k < ops.length := fun k hk => hlength ▸ hidx k hk
  have hcontents := hholds.contents h
  have hnone : s.toRemove = [] := by rw [toRemove, hcopied]
  rw [hnone, List.map_nil, List.append_nil] at hcontents
  have hall : s.que.contents.Perm ((Logic.entriesAt s.que.op_arr idx ++
      remaining s.que.op_arr s.que.arr_tail idx).reduceOption) :=
    (take_perm_remaining (hsorted.imp Nat.ne_of_lt) fun k hk =>
      Nat.lt_of_lt_of_le (hidx' k hk) hcopy.length_le).filterMap _
  rw [hcopy.entriesAt hidx', List.reduceOption_append] at hall
  refine hcontents.symm.trans ?_
  rw [← List.append_assoc]
  exact hall.append_right _

theorem Holds.testSome (h : Ok flags s) (hholds : Holds mpi_req s proc)
    {reqs : List (Option Nat)} {ops : List (Option QueOp)} {idx : List Nat}
    (hcopied : s.daemon = .copied reqs ops) (hsorted : idx.Pairwise (· < ·))
    (hidx : ∀ k ∈ idx, k < reqs.length) :
    ∃ done, done.length = proc.queue.length ∧
      ((pick true done proc.queue).map (Entry.queOp mpi_req)).Perm
        (Logic.entriesAt ops idx).reduceOption ∧
      Holds mpi_req { s with
        daemon := .completed ops idx idx
        reported := s.reported ++ s.completions ops idx } (proc.testSome done) := by
  have hsplit := hholds.split h hcopied hsorted hidx
  obtain ⟨done, hdone, htrue, hfalse⟩ := exists_pick (Entry.queOp mpi_req) hsplit
  refine ⟨done, hdone, htrue, ?_⟩
  have hnew : (s.completions ops idx).map Prod.snd = (Logic.entriesAt ops idx).reduceOption := by
    rw [completions, List.map_map]
    exact List.map_id _
  rw [Holds]
  dsimp only [Proc.testSome]
  rw [List.map_append, hnew]
  have hwhole : (proc.queue.map (Entry.queOp mpi_req)).Perm
      ((pick false done proc.queue).map (Entry.queOp mpi_req) ++
        (Logic.entriesAt ops idx).reduceOption) :=
    hsplit.trans (List.perm_append_comm.trans (hfalse.symm.append_right _))
  refine List.Perm.trans ?_ ((hwhole.append_right _).symm.trans hholds)
  rw [List.append_assoc]
  exact List.perm_append_comm.append_left _

theorem progressAt_frame {ops : List (Option QueOp)} {idx rest : List Nat} {k : Nat}
    (h : s.progressAt size rank ops idx k rest = .ok s') :
    s'.appended = s.appended ∧ s'.reported = s.reported := by
  simp only [progressAt, bind_eq_ok, fetch_eq_ok] at h
  obtain ⟨slot, -, h⟩ := h
  cases slot with
  | none => simp at h
  | some op =>
      simp only [bind_eq_ok, pure_eq_ok] at h
      obtain ⟨mid, hop, rfl⟩ := h
      obtain ⟨_, _, _, rfl, -⟩ := progressOp_eq_ok hop
      exact ⟨rfl, rfl⟩

/-- Only an append and a report change what is appended and reported. -/
theorem next_frame {a : QueAct} (hnext : s.next size rank a = some s')
    (happend : ∀ mpi_op, a ≠ .append mpi_op) (htest : ∀ idx, a ≠ .testSome idx) :
    s'.appended = s.appended ∧ s'.reported = s.reported := by
  have horHalt : ∀ result : Prog QueState,
      (∀ t, result = .ok t → t.appended = s.appended ∧ t.reported = s.reported) →
      (s.orHalt result).appended = s.appended ∧ (s.orHalt result).reported = s.reported := by
    intro result hok
    cases result with
    | ok t => exact hok t rfl
    | error stop => exact ⟨rfl, rfl⟩
  cases a with
  | append mpi_op => exact absurd rfl (happend mpi_op)
  | testSome idx => exact absurd rfl (htest idx)
  | enter =>
      rcases happending : s.appending with _ | ⟨i, _ | ⟨op, rest⟩⟩
      · simp [QueState.next, happending] at hnext
      · simp only [QueState.next, happending, Option.some.injEq] at hnext
        subst hnext
        exact ⟨rfl, rfl⟩
      · simp only [QueState.next, happending, Option.some.injEq] at hnext
        subst hnext
        refine horHalt _ fun t henter => ?_
        simp only [QueState.enter, bind_eq_ok] at henter
        obtain ⟨que, -, henter⟩ := henter
        split at henter <;> cases henter
        exact ⟨rfl, rfl⟩
  | readTail =>
      simp only [QueState.next, Option.ite_none_right_eq_some, Option.some.injEq] at hnext
      obtain ⟨-, rfl⟩ := hnext
      exact ⟨rfl, rfl⟩
  | copy =>
      cases hdaemon : s.daemon with
      | sized n =>
          cases n with
          | zero =>
              simp only [QueState.next, hdaemon, Option.some.injEq] at hnext
              subst hnext
              exact ⟨rfl, rfl⟩
          | succ n =>
              simp only [QueState.next, hdaemon, Option.ite_none_right_eq_some,
                Option.some.injEq] at hnext
              obtain ⟨-, rfl⟩ := hnext
              refine horHalt _ fun t hcopy => ?_
              simp only [QueState.copy, bind_eq_ok, pure_eq_ok] at hcopy
              obtain ⟨_, -, _, -, rfl⟩ := hcopy
              exact ⟨rfl, rfl⟩
      | idle | copied _ _ | completed _ _ _ => simp [QueState.next, hdaemon] at hnext
  | progress =>
      cases hdaemon : s.daemon with
      | completed ops idx rest =>
          cases rest with
          | nil => simp [QueState.next, hdaemon] at hnext
          | cons k rest =>
              simp only [QueState.next, hdaemon, Option.some.injEq] at hnext
              subst hnext
              exact horHalt _ fun t hprogress => progressAt_frame hprogress
      | idle | sized _ | copied _ _ => simp [QueState.next, hdaemon] at hnext
  | remove =>
      cases hdaemon : s.daemon with
      | completed ops idx rest =>
          rcases rest with _ | ⟨k, rest⟩ <;> rcases idx with _ | ⟨j, idx⟩
          · simp only [QueState.next, hdaemon, Option.some.injEq] at hnext
            subst hnext
            exact ⟨rfl, rfl⟩
          · simp only [QueState.next, hdaemon, Option.ite_none_right_eq_some,
              Option.some.injEq] at hnext
            obtain ⟨-, rfl⟩ := hnext
            refine horHalt _ fun t hremove => ?_
            simp only [QueState.remove, bind_eq_ok, pure_eq_ok] at hremove
            obtain ⟨_, -, rfl⟩ := hremove
            exact ⟨rfl, rfl⟩
          all_goals simp [QueState.next, hdaemon] at hnext
      | idle | sized _ | copied _ _ => simp [QueState.next, hdaemon] at hnext

/-- Each step of the arrays is a move of the queue, or none. -/
theorem Holds.next (h : Ok flags s) (hholds : Holds mpi_req s proc) {a : QueAct}
    (hentries : a.OfEntries mpi_req) (hnext : s.next size rank a = some s')
    (hhalted : s'.halted = none) :
    ∃ proc', a.Moves mpi_req proc proc' ∧ Holds mpi_req s' proc' := by
  have hframe : (∀ mpi_op, a ≠ .append mpi_op) → (∀ idx, a ≠ .testSome idx) →
      Holds mpi_req s' proc := by
    intro happend htest
    obtain ⟨happended, hreported⟩ := next_frame hnext happend htest
    rw [Holds, happended, hreported]
    exact hholds
  cases a with
  | append mpi_op =>
      obtain ⟨entries, rfl⟩ := hentries
      simp only [QueState.next, Option.ite_none_right_eq_some, Option.some.injEq] at hnext
      obtain ⟨-, rfl⟩ := hnext
      refine ⟨proc.append entries, ⟨entries, rfl, rfl⟩, ?_⟩
      rw [Holds]
      dsimp only [Proc.append]
      rw [List.map_append]
      refine List.Perm.trans ?_ (hholds.append_right _)
      rw [List.append_assoc, List.append_assoc]
      exact List.perm_append_comm.append_left _
  | testSome idx =>
      cases hdaemon : s.daemon with
      | copied reqs ops =>
          simp only [QueState.next, hdaemon, Option.ite_none_right_eq_some] at hnext
          obtain ⟨⟨hsorted, hidx⟩, hnext⟩ := hnext
          split at hnext
          · cases hnext
            obtain ⟨done, hdone, -, hreported⟩ := hholds.testSome h hdaemon hsorted hidx
            exact ⟨proc.testSome done, ⟨done, hdone, rfl⟩, hreported⟩
          · cases hnext
            cases hhalted
      | idle | sized _ | completed _ _ _ => simp [QueState.next, hdaemon] at hnext
  | enter | readTail | copy | progress | remove =>
      exact ⟨proc, rfl, hframe (fun _ heq => by cases heq) fun _ heq => by cases heq⟩

/-- The arrays refine the queue of the process: whatever they have gone through,
moves of an empty queue lead to one that has what the arrays hold, apart from
what is reported and still to be removed. -/
theorem queue_of_run
    (hrun : Run (step size rank) (fun _ a => a.OfEntries mpi_req) (.init flags mpi_tag) s)
    (hhalted : s.halted = none) (hempty : proc.queue = []) :
    ∃ proc', Relation.ReflTransGen (fun p p' => ∃ a : QueAct, a.Moves mpi_req p p') proc proc' ∧
      (s.que.contents ++ s.toEnter).Perm
        (proc'.queue.map (Entry.queOp mpi_req) ++ s.toRemove.map Prod.snd) := by
  have hok : Ok flags s := ok_run (hrun.mono fun _ _ _ => trivial)
  suffices hmoves : s.halted = none → ∃ proc',
      Relation.ReflTransGen (fun p p' => ∃ a : QueAct, a.Moves mpi_req p p') proc proc' ∧
        Holds mpi_req s proc' by
    obtain ⟨proc', hmoves, hholds⟩ := hmoves hhalted
    exact ⟨proc', hmoves, hholds.contents hok⟩
  refine Run.invariant (I := fun t => t.halted = none → ∃ proc',
    Relation.ReflTransGen (fun p p' => ∃ a : QueAct, a.Moves mpi_req p p') proc proc' ∧
      Holds mpi_req t proc') (fun _ => ⟨proc, .refl, ?_⟩) ?_ hrun
  · rw [Holds, hempty]
    exact .refl _
  · intro t a u hrun' ih hentries hstep hu
    simp only [step, Option.ite_none_right_eq_some] at hstep
    obtain ⟨mid, hmid, hholds⟩ := ih hstep.1
    have hok' : Ok flags t := ok_run (hrun'.mono fun _ _ _ => trivial)
    obtain ⟨proc', hmove, hholds'⟩ := hholds.next hok' hentries hstep.2 hu
    exact ⟨proc', hmid.tail ⟨a, hmove⟩, hholds'⟩

end QueState

end Unr.Mpi
