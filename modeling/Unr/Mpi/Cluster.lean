import Unr.Mpi.Placed

/-!
Several MPI channels of the same processes.

The channels share the processes, and with them the memory, the flags and the
fate of every process. A step is a step of one of them; the others see that
the memory or the flags of a process have changed. A run of all channels is
therefore a run of each of them, in which the rest of the process includes the
other channels.
-/

namespace Unr.Mpi

open Unr.Uru Unr.Logic

/-- The process whose memory or flags a step can change. -/
def MemAct.affects : MemAct → Option Nat
  | .chan (.proc rank _) => some rank
  | .writeByte m _ => some m.dst
  | .env p _ _ => some p
  | .chan .barrier | .chan .allreduce | .readByte _ _ | .take _ _ => none

/-- The channels, each with its view of memory and flags. -/
structure Cluster where
  chan : Nat → MemWorld

namespace Cluster

def seen (a : MemAct) (t : MemWorld) : Option MemAct :=
  a.affects.map fun p => .env p (t.mem p) (t.world.procs p).flags

def follow (s : MemWorld) : Option MemAct → MemWorld
  | some (.env p mem flags) =>
      { s with
        world := MemWorld.setFlags s.world p flags
        mem := Function.update s.mem p mem }
  | _ => s

/-- A process that has stopped takes no step on any of the `n` channels. -/
def runs (n : Nat) (s : Cluster) : MemAct → Bool
  | .chan (.proc rank _) => decide (∀ c < n, ((s.chan c).world.procs rank).halted = none)
  | _ => true

def step (n : Nat) (s : Cluster) (a : Nat × MemAct) : Option Cluster :=
  if a.1 < n ∧ s.runs n a.2 then
    ((s.chan a.1).step a.2).map fun t =>
      ⟨fun c => if c = a.1 then t else follow (s.chan c) (seen a.2 t)⟩
  else none

/-- No channel writes into a buffer that is in use on another one. -/
def undisturbed (n : Nat) (s : Cluster) (a : Nat × MemAct) : Bool :=
  (s.chan a.1).undisturbed a.2 &&
    match (s.chan a.1).step a.2 with
    | some t => decide (∀ c < n, c ≠ a.1 → ∀ b ∈ seen a.2 t, (s.chan c).undisturbed b)
    | none => true

def init (size : Nat) (flags : Nat → Nat → UruFlag) (mem : Nat → Nat → UInt8) : Cluster where
  chan := fun _ => .init size flags mem

end Cluster

/-! ### One channel among others -/

section Frame

variable {s t : MemWorld} {a : MemAct} {p : Nat}

def MemWorld.reports (s : MemWorld) : MemAct → List (Nat × Event)
  | .chan a => s.world.events a
  | _ => []

theorem MemWorld.step_events (hstep : s.step a = some t) : t.events = s.events ++ s.reports a := by
  cases a with
  | chan a => exact (MemWorld.chanStep hstep).events
  | readByte m i =>
      simp only [step] at hstep
      split at hstep
      · simp only [Option.ite_none_right_eq_some, Option.some.injEq] at hstep
        obtain ⟨-, rfl⟩ := hstep
        exact (List.append_nil _).symm
      · cases hstep
  | writeByte m i =>
      simp only [step] at hstep
      split at hstep
      · simp only [Option.ite_none_right_eq_some, Option.some.injEq] at hstep
        obtain ⟨-, rfl⟩ := hstep
        exact (List.append_nil _).symm
      · cases hstep
  | env | take =>
      cases hstep
      exact (List.append_nil _).symm

theorem MemWorld.step_frame (hstep : s.step a = some t) (hp : a.affects ≠ some p) :
    t.mem p = s.mem p ∧ (t.world.procs p).flags = (s.world.procs p).flags := by
  cases a with
  | chan a =>
      have c := MemWorld.chanStep hstep
      refine ⟨by rw [c.mem], ?_⟩
      rcases step_cases c.step with ⟨rank, pa, proc', rfl, -, -, -, hw⟩ | ⟨-, -, hw⟩ | ⟨-, -, hw⟩
      · have hne : p ≠ rank := fun h => hp (by rw [h]; rfl)
        simp only [hw, Function.update_of_ne hne]
      · simp only [hw, World.setUser]
        split <;> rfl
      · simp only [hw, World.setUser]
        split <;> rfl
  | readByte m i =>
      simp only [step] at hstep
      split at hstep
      · simp only [Option.ite_none_right_eq_some, Option.some.injEq] at hstep
        obtain ⟨-, rfl⟩ := hstep
        exact ⟨rfl, rfl⟩
      · cases hstep
  | writeByte m i =>
      simp only [step] at hstep
      split at hstep
      · simp only [Option.ite_none_right_eq_some, Option.some.injEq] at hstep
        obtain ⟨-, rfl⟩ := hstep
        have hne : p ≠ m.dst := fun h => hp (by rw [h]; rfl)
        exact ⟨Function.update_of_ne hne _ _, rfl⟩
      · cases hstep
  | env q mem flags =>
      cases hstep
      have hne : p ≠ q := fun h => hp (by rw [h]; rfl)
      exact ⟨Function.update_of_ne hne _ _, by simp only [setFlags, Function.update_of_ne hne]⟩
  | take q e =>
      cases hstep
      exact ⟨rfl, rfl⟩

/-- What the steps of a channel do to a flag. -/
theorem MemWorld.step_counter (hstep : s.step a = some t)
    (hlive : (t.world.procs p).halted = none) (f : Nat)
    (henv : ∀ mem flags, a = .env p mem flags → flags f = (s.world.procs p).flags f) :
    ((t.world.procs p).flags f).counter =
      ((s.world.procs p).flags f).counter + addedBy f (applied p (s.reports a)) := by
  have hnone : ((s.world.procs p).flags f).counter =
      ((s.world.procs p).flags f).counter + addedBy f (applied p []) := by
    simp [applied, eventsAt, addedBy]
  by_cases hp : a.affects = some p
  · cases a with
    | chan a =>
        have c := MemWorld.chanStep hstep
        rcases step_cases c.step with ⟨rank, pa, proc', rfl, -, -, hmove, hw⟩ | ⟨rfl, -, -⟩ |
          ⟨rfl, -, -⟩
        · obtain rfl := Option.some.inj hp
          simp only [hw, Function.update_self] at hlive ⊢
          rw [hmove.counter_events hlive f, reports, applied_self]
        · cases hp
        · cases hp
    | readByte | take => cases hp
    | writeByte m i =>
        simp only [step] at hstep
        split at hstep
        · simp only [Option.ite_none_right_eq_some, Option.some.injEq] at hstep
          obtain ⟨-, rfl⟩ := hstep
          exact hnone
        · cases hstep
    | env q mem flags =>
        obtain rfl := Option.some.inj hp
        cases hstep
        simp only [setFlags, Function.update_self]
        rw [henv mem flags rfl]
        exact hnone
  · have hreports : applied p (s.reports a) = [] := by
      cases a with
      | chan a =>
          cases a with
          | barrier | allreduce => rfl
          | proc rank pa => exact applied_of_ne _ (fun h => hp (by rw [h]; rfl)) pa
      | readByte | writeByte | env | take => rfl
    rw [(MemWorld.step_frame hstep hp).2, hreports]
    exact hnone

end Frame

/-! ### All channels -/

namespace Cluster

variable {n size : Nat} {flags : Nat → Nat → UruFlag} {mem : Nat → Nat → UInt8} {s s' : Cluster}
  {a : Nat × MemAct} {c : Nat} {C : Cluster → Nat × MemAct → Prop}

theorem step_eq_some (hstep : s.step n a = some s') : a.1 < n ∧ ∃ t,
    (s.chan a.1).step a.2 = some t ∧ s'.chan a.1 = t ∧
      ∀ c, c ≠ a.1 → s'.chan c = follow (s.chan c) (seen a.2 t) := by
  simp only [step, Option.ite_none_right_eq_some, Option.map_eq_some_iff] at hstep
  obtain ⟨⟨hlt, -⟩, t, ht, rfl⟩ := hstep
  exact ⟨hlt, t, ht, if_pos rfl, fun c hc => if_neg hc⟩

theorem follow_step (s t : MemWorld) (a : MemAct) :
    follow s (seen a t) = s ∨ ∃ p, a.affects = some p ∧
      s.step (.env p (t.mem p) (t.world.procs p).flags) = some (follow s (seen a t)) := by
  unfold seen
  cases ha : a.affects with
  | none => exact .inl rfl
  | some p => exact .inr ⟨p, rfl, rfl⟩

theorem chan_run (hrun : Run (step n) (fun s a => s.undisturbed n a = true)
    (init size flags mem) s) (hc : c < n) :
    Run MemWorld.step (fun s a => s.undisturbed a = true) (.init size flags mem) (s.chan c) := by
  refine hrun.invariant (I := fun s => Run MemWorld.step (fun s a => s.undisturbed a = true)
    (.init size flags mem) (s.chan c)) .nil ?_
  intro s a s' _ ih hrule hstep
  obtain ⟨-, t, ht, hself, hother⟩ := step_eq_some hstep
  rw [undisturbed, ht, Bool.and_eq_true, decide_eq_true_eq] at hrule
  by_cases heq : c = a.1
  · rw [heq] at ih ⊢
    rw [hself]
    exact .snoc ih hrule.1 ht
  · rw [hother c heq]
    rcases follow_step (s.chan c) t a.2 with hsame | ⟨p, hp, hfollow⟩
    · rwa [hsame]
    · refine .snoc ih (hrule.2 c hc heq _ ?_) hfollow
      simp [seen, hp]

theorem agree_run (hrun : Run (step n) C (init size flags mem) s) (c c' p : Nat) :
    (s.chan c).mem p = (s.chan c').mem p ∧
      ((s.chan c).world.procs p).flags = ((s.chan c').world.procs p).flags := by
  have hview : ∀ c c', (s.chan c).mem p = (s.chan c').mem p ∧
      ((s.chan c).world.procs p).flags = ((s.chan c').world.procs p).flags := by
    refine hrun.invariant (I := fun s => ∀ c c', (s.chan c).mem p = (s.chan c').mem p ∧
      ((s.chan c).world.procs p).flags = ((s.chan c').world.procs p).flags)
      (fun _ _ => ⟨rfl, rfl⟩) ?_
    intro s a s' _ ih _ hstep
    obtain ⟨-, t, ht, hself, hother⟩ := step_eq_some hstep
    -- every channel has what the channel of the step has
    have hall : ∀ c, (s'.chan c).mem p = t.mem p ∧
        ((s'.chan c).world.procs p).flags = (t.world.procs p).flags := by
      intro c
      by_cases heq : c = a.1
      · rw [heq, hself]
        exact ⟨rfl, rfl⟩
      · rw [hother c heq, seen]
        by_cases ha : a.2.affects = some p
        · simp only [ha, Option.map_some, follow, MemWorld.setFlags, Function.update_self]
          exact ⟨trivial, trivial⟩
        · have hframe := MemWorld.step_frame ht ha
          have hold := ih c a.1
          cases haff : a.2.affects with
          | none => exact ⟨hold.1.trans hframe.1.symm, hold.2.trans hframe.2.symm⟩
          | some q =>
              have hne : p ≠ q := fun h => ha (by rw [haff, h])
              simp only [Option.map_some, follow, MemWorld.setFlags, Function.update_of_ne hne]
              exact ⟨hold.1.trans hframe.1.symm, hold.2.trans hframe.2.symm⟩
    exact fun c c' => ⟨(hall c).1.trans (hall c').1.symm, (hall c).2.trans (hall c').2.symm⟩
  exact hview c c'

end Cluster

end Unr.Mpi
