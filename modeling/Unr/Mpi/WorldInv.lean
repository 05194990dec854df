import Unr.Mpi.InitiatorRuns
import Unr.Mpi.Target
import Unr.Logic.Transition

/-!
The invariants of single processes and of pairs of processes, over all runs of
the system.
-/

namespace Unr.Mpi

open Unr.Uru Unr.Logic

/-- What the daemon is about to post comes from the messages of a process. -/
def Proc.DaemonFrom (size : Nat) (proc : Proc) : Prop :=
  ∀ src start rest mpi_op, proc.daemon = .posting src start rest mpi_op →
    ∀ op ∈ rest, ∃ plan, op.From size src plan

theorem Proc.DaemonFrom.tagFree {size : Nat} {proc : Proc} (h : proc.DaemonFrom size) :
    ∀ op ∈ proc.daemon.ops, op.TagFree := by
  match hdaemon : proc.daemon with
  | .posting src start rest mpi_op =>
      intro op hop
      obtain ⟨plan, hfrom⟩ := h src start rest mpi_op hdaemon op hop
      exact hfrom.tagFree
  | .drain | .effects _ => exact fun op hop => nomatch hop

section Moves

variable {w : World} {rank : Nat} {proc proc' : Proc} {a : ProcAct}

theorem Move.sent (hmove : Move w rank proc a proc') (j : Nat) :
    ∃ msgs, proc'.ctrl_sent j = proc.ctrl_sent j ++ msgs := by
  have hsend : ∀ dst msg, ∃ msgs, (proc.send dst msg).ctrl_sent j = proc.ctrl_sent j ++ msgs := by
    intro dst msg
    by_cases hj : j = dst
    · subst hj
      exact ⟨[msg], Function.update_self ..⟩
    · exact ⟨[], by simp [Proc.send, Function.update_of_ne hj]⟩
  have hnone : ∃ msgs, proc.ctrl_sent j = proc.ctrl_sent j ++ msgs := ⟨[], by simp⟩
  cases hmove with
  | announceOnce | announceKept | startBatch | destroyBatch => exact hsend _ _
  | beginCreate | sortOps | beginStart | beginDestroy | beginClose | drawTag | writeOnce
  | writeKept | startOp | finishStart | finishCreate | destroyOp | finishDestroy | closeLoop
  | userHalt | daemonHalt | recvCreate | recvDestroy | recvStart | recvExecute | recvHalt
  | testSome | postStarted | postOnce | postHalt | finishPosting | keepTag | returnTag
  | finishEffects => exact hnone

theorem Move.daemonFrom (hmove : Move w rank proc a proc') (h : proc.DaemonFrom w.size)
    (hlive : proc.halted = none) (hlink : ∀ i, Link i ((w.procs i).ctrl_sent rank) proc)
    (hfrom : ∀ i, AllFrom w.size i ((w.procs i).ctrl_sent rank)) : proc'.DaemonFrom w.size := by
  have hsame : ∀ {proc' : Proc}, proc'.daemon = proc.daemon → proc'.DaemonFrom w.size := by
    intro proc' hdaemon src start rest mpi_op hposting
    exact h src start rest mpi_op (hdaemon ▸ hposting)
  cases hmove with
  | @recvStart src batch_id plan start batch hdaemon _ _ hmsg hslot =>
      have hview : tableMap (proc.recv_batch src) batch_id = some batch := by
        rw [tableMap, hslot]
        rfl
      rw [((hlink src).live hlive).1] at hview
      rintro _ _ _ _ ⟨⟩
      exact fun op hop => ⟨batch.plan,
        final_batch (fun msg hmem => hfrom src msg (List.mem_of_mem_take hmem)) hview op hop⟩
  | @recvExecute src batch _ _ _ hmsg =>
      rintro _ _ _ _ ⟨⟩
      exact fun op hop => ⟨batch.plan, hfrom src _ (List.mem_of_getElem? hmsg) batch rfl op hop⟩
  | postStarted hdaemon | postOnce hdaemon | postHalt hdaemon =>
      rintro _ _ _ _ ⟨⟩
      exact fun op' hop' => h _ _ _ _ hdaemon op' (List.mem_cons_of_mem _ hop')
  | testSome | finishPosting | keepTag | returnTag | finishEffects =>
      intro src start rest mpi_op hposting
      cases hposting
  | beginCreate | sortOps | beginStart | beginDestroy | beginClose | drawTag | writeOnce
  | writeKept | announceOnce | announceKept | finishCreate | startBatch | startOp | finishStart
  | destroyOp | destroyBatch | finishDestroy | closeLoop | userHalt | daemonHalt | recvCreate
  | recvDestroy | recvHalt => exact hsame rfl

end Moves

/-- The user thread is in none of the calls on plans. -/
def UserPhase.Resting : UserPhase → Prop
  | creating .. | announcing .. | starting .. | destroying .. => False
  | _ => True

theorem UserPhase.Resting.quiet {user : UserPhase} (h : user.Resting) : Proc.Quiet user := by
  cases user with
  | idle => exact Proc.quiet_idle
  | finalizing => exact Proc.quiet_finalizing
  | reducing n => exact Proc.quiet_reducing n
  | calling n tested => exact Proc.quiet_calling n tested
  | closed => exact Proc.quiet_closed
  | creating | announcing | starting | destroying => exact h.elim

/-- A process in `MPI_Allreduce` is in no call on plans. -/
theorem resting_of_contribution {user : UserPhase} (h : user.contribution.isSome) :
    user.Resting := by
  cases user <;> first | exact trivial | cases h

structure World.Inv (w : World) : Prop where
  ini : ∀ p, (w.procs p).Ini w.size p
  link : ∀ i j, Link i ((w.procs i).ctrl_sent j) (w.procs j)
  daemon : ∀ p, (w.procs p).DaemonFrom w.size

namespace World

variable {w w' : World}

theorem Inv.init (size : Nat) (flags : Nat → Nat → UruFlag) : (World.init size flags).Inv where
  ini p := Proc.ini_init (flags p)
  link _ j := Link.init (flags j)
  daemon _ _ _ _ _ h := nomatch h

theorem Inv.move (h : w.Inv) {rank : Nat} {a : ProcAct} {proc' : Proc} (hrank : rank < w.size)
    (hlive : (w.procs rank).halted = none) (hmove : Move w rank (w.procs rank) a proc') :
    { w with procs := Function.update w.procs rank proc' }.Inv where
  ini p := by
    change (Function.update w.procs rank proc' p).Ini w.size p
    by_cases hp : p = rank
    · subst hp
      rw [Function.update_self]
      exact (h.ini p).move hrank (h.daemon p).tagFree hmove
    · rw [Function.update_of_ne hp]
      exact h.ini p
  link i j := by
    have hold : Link i ((w.procs i).ctrl_sent j) (Function.update w.procs rank proc' j) := by
      by_cases hj : j = rank
      · subst hj
        rw [Function.update_self]
        exact (h.link i j).move hlive hmove
      · rw [Function.update_of_ne hj]
        exact h.link i j
    by_cases hi : i = rank
    · subst hi
      obtain ⟨msgs, hmsgs⟩ := hmove.sent j
      simp only [Function.update_self, hmsgs]
      exact hold.extend msgs
    · simp only [Function.update_of_ne hi]
      exact hold
  daemon p := by
    change (Function.update w.procs rank proc' p).DaemonFrom w.size
    by_cases hp : p = rank
    · subst hp
      rw [Function.update_self]
      exact hmove.daemonFrom (h.daemon p) hlive (fun i => h.link i p)
        fun i => (h.ini i).sent p
    · rw [Function.update_of_ne hp]
      exact h.daemon p

theorem Inv.setUser (h : w.Inv) {user : UserPhase} (hquiet : Proc.Quiet user)
    (hall : ∀ p < w.size, Proc.Quiet (w.procs p).user) : (w.setUser user).Inv where
  ini p := by
    by_cases hp : p < w.size
    · simp only [World.setUser, hp, if_true]
      exact (h.ini p).quiet (hall p hp) hquiet
    · simp only [World.setUser, hp, if_false]
      exact h.ini p
  link i j := by
    have hsent : (((w.setUser user).procs i).ctrl_sent j) = (w.procs i).ctrl_sent j := by
      simp only [World.setUser]
      split <;> rfl
    rw [hsent]
    simp only [World.setUser]
    split
    · exact (h.link i j).same rfl rfl rfl rfl id
    · exact h.link i j
  daemon p := by
    simp only [World.setUser]
    split
    · exact h.daemon p
    · exact h.daemon p

theorem Inv.step (h : w.Inv) {a : Act} (hstep : w.step a = some w') : w'.Inv := by
  rcases step_cases hstep with ⟨rank, pa, proc', -, hrank, hlive, hmove, rfl⟩ | ⟨-, hall, rfl⟩ |
    ⟨-, hall, rfl⟩
  · exact h.move hrank hlive hmove
  · exact h.setUser Proc.quiet_finalizing fun p hp => (hall p hp).1 ▸ Proc.quiet_idle
  · exact h.setUser (Proc.quiet_calling _ _) fun p hp =>
      (resting_of_contribution (hall p hp).1).quiet

theorem size_step {a : Act} (hstep : w.step a = some w') : w'.size = w.size := by
  rcases step_cases hstep with ⟨rank, pa, proc', -, -, -, -, rfl⟩ | ⟨-, -, rfl⟩ | ⟨-, -, rfl⟩
  all_goals rfl

variable {C : World → Act → Prop} {size : Nat} {flags : Nat → Nat → UruFlag}

theorem inv_run (hrun : Run World.step C (World.init size flags) w) : w.Inv :=
  hrun.invariant (Inv.init size flags) fun _ _ _ _ h _ hstep => h.step hstep

theorem size_run (hrun : Run World.step C (World.init size flags) w) : w.size = size :=
  hrun.invariant (I := fun w => w.size = size) rfl fun _ _ _ _ h _ hstep =>
    (size_step hstep).trans h

/-- The state after a list of steps, if all of them can be taken and meet the
condition. -/
def after (C : World → Act → Bool) (size : Nat) (acts : List Act) : World :=
  (exec World.step C (World.init size fun _ _ => ⟨0, none, 0, 0⟩) acts).getD
    (World.init size fun _ _ => ⟨0, none, 0, 0⟩)

theorem run_after {C : World → Act → Bool} {acts : List Act}
    (h : (exec World.step C (World.init size fun _ _ => ⟨0, none, 0, 0⟩) acts).isSome = true) :
    Run World.step (fun w a => C w a = true) (World.init size fun _ _ => ⟨0, none, 0, 0⟩)
      (after C size acts) := by
  obtain ⟨w, hw⟩ := Option.isSome_iff_exists.mp h
  rw [after, hw]
  exact Run.of_exec hw

end World

/-- A transfer of 8 bytes between process `rank` and process `rmt_rank`. -/
def sampleWrite (dma_type : UruTransfer) (rank rmt_rank : Nat) : Write where
  dma_type := dma_type
  loc_mem := ⟨0, 64, rank⟩
  loc_offset := 0
  loc_flag_p := none
  loc_flag_add := 0
  dma_size := 8
  rmt_mem := ⟨64, 64, rmt_rank⟩
  rmt_offset := 0
  rmt_flag_p := none
  rmt_flag_add := 0

end Unr.Mpi
