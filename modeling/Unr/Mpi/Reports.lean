import Unr.Mpi.WorldInv

/-!
Runs in which every step of a process reports something.

What holds of a process and of its own reports is shown for one step of the
process and carries over to runs, as long as the process has not stopped.
-/

namespace Unr.Mpi

open Unr.Uru Unr.Logic

section

variable {ε : Type}

/-- What a step of the system reports, if a step of process `rank` among
`size` reports `f size rank`. Collective calls report nothing. -/
def World.report (f : Nat → Nat → Proc → ProcAct → List ε) (w : World) : Act → List (Nat × ε)
  | .proc rank a => (f w.size rank (w.procs rank) a).map (rank, ·)
  | .barrier | .allreduce => []

variable {f : Nat → Nat → Proc → ProcAct → List ε}

/-- A property of a process and its reports that holds as long as the process
runs: it holds at the start, every step of the process keeps it, and so do the
collective calls. -/
theorem World.report_induct {size : Nat} {flags : Nat → Nat → UruFlag}
    {I : Nat → List ε → Proc → Prop} (hinit : ∀ p, I p [] (.init (flags p)))
    (hmove : ∀ (w : World) (es : List (Nat × ε)) (rank : Nat) (evs : List ε) (a : ProcAct)
      (proc' : Proc), Recorded World.step (World.report f) (World.init size flags) es w →
        w.Inv → rank < w.size → evs = located rank es → (w.procs rank).halted = none →
        proc'.halted = none → I rank evs (w.procs rank) → Move w rank (w.procs rank) a proc' →
        I rank (evs ++ f w.size rank (w.procs rank) a) proc')
    (huser : ∀ p evs proc user, proc.user.Resting → user.Resting → I p evs proc →
      I p evs { proc with user := user })
    {es : List (Nat × ε)} {w : World}
    (h : Recorded World.step (World.report f) (World.init size flags) es w) (p : Nat) :
    (w.procs p).halted = none → I p (located p es) (w.procs p) := by
  refine Recorded.invariant (I := fun es w => ∀ p, (w.procs p).halted = none →
    I p (located p es) (w.procs p)) ?_ ?_ h p
  · exact fun p _ => hinit p
  intro es w a w' hrun ih hstep p hlive
  have hinv := World.inv_run hrun.run
  -- a collective call moves every process from one resting phase to another
  have hset : ∀ user : UserPhase, user.Resting → (∀ p < w.size, (w.procs p).user.Resting) →
      ((w.setUser user).procs p).halted = none →
      I p (located p es) ((w.setUser user).procs p) := by
    intro user hrest hall hlive
    by_cases hp : p < w.size
    · simp only [World.setUser, hp, if_true] at hlive ⊢
      exact huser p _ _ user (hall p hp) hrest (ih p hlive)
    · simp only [World.setUser, hp, if_false] at hlive ⊢
      exact ih p hlive
  rcases step_cases hstep with ⟨rank, pa, proc', rfl, hrank, hold, hmoved, rfl⟩ | ⟨rfl, hall, rfl⟩ |
    ⟨rfl, hall, rfl⟩
  · by_cases hp : p = rank
    · subst hp
      simp only [Function.update_self, located_append, World.report, located_map_self] at hlive ⊢
      exact hmove w es p _ pa proc' hrun hinv hrank rfl hold hlive (ih p hold) hmoved
    · simp only [Function.update_of_ne hp, located_append, World.report,
        located_map_of_ne (Ne.symm hp), List.append_nil] at hlive ⊢
      exact ih p hlive
  · rw [World.report, List.append_nil]
    exact hset _ trivial (fun p hp => (hall p hp).1 ▸ trivial) hlive
  · rw [World.report, List.append_nil]
    exact hset _ trivial (fun p hp => resting_of_contribution (hall p hp).1) hlive

end

end Unr.Mpi
