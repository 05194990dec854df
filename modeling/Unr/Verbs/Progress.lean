import Unr.Verbs.Notify
import Unr.Verbs.Window
import Unr.Verbs.Credits
import Unr.Logic.Progress

/-!
The starts come to an end.

A start that finds the send queue full waits for the daemon of its process,
which waits for the NICs. Nobody waits for a start: what is posted is executed,
what is executed is completed, and each completion gives a slot back. So the
wait ends, all requests of the starts are posted, and in the end nothing is
under way.
-/

namespace Unr.Verbs

open Unr.Uru
open Unr.Logic
open Unr.Mpi (MemInfo Write)

/-- The steps that carry on what has been started. A test of the wait that
finds the queue full, and a poll that finds nothing, lead nowhere. -/
def productive (w : World) : Act → Bool
  | .proc rank (.startStep timeout) =>
      !timeout && match (w.procs rank).start with
        | .writing .test _ entry _ => !decide ((w.procs rank).queueFull entry.pr.dst_rank)
        | _ => true
  | .proc _ (.poll num_complete) => num_complete != 0
  | .proc _ .daemonStep | .execute _ | .complete _ => true
  | .proc _ _ => false

def StartPhase.unposted : StartPhase → List PlanEntry
  | .idle => []
  | .writing .submit _ _ rest => rest
  | .writing _ _ entry rest => entry :: rest

def World.postedBy (w : World) (p : Nat) : List PlanEntry :=
  (w.started.filter fun job => job.initiator = p).map Job.entry

/-- Nothing is left to do: every request has been transferred, completed at its
sender and, if it announces itself, at its receiver. -/
structure World.Finished (w : World) : Prop where
  idle : ∀ p < w.size, (w.procs p).start = .idle
  items : w.items = 0
  placed : w.placed.Perm w.started
  sent : (w.called .sent).Perm w.started
  received : (w.called .received).Perm (w.started.filter Job.announces)

/-! ### Work that is left -/

/-- The steps that an item is good for, or more. A completion in the queue of a
process is counted there. -/
def Item.work : Item → Nat
  | .queued wqe =>
      if wqe.wr.opcode = .rdmaRead ∧ wqe.wr.wr_id.rmt_imm_protocol ≠ 0 then 14 else 8
  | .acked wqe =>
      if wqe.wr.opcode = .rdmaRead ∧ wqe.wr.wr_id.rmt_imm_protocol ≠ 0 then 13 else 4
  | .completion _ wc =>
      if wc.opcode = .rdmaRead ∧ wc.wr_id.rmt_imm_protocol ≠ 0 then 10 else 1
  | .notification .. => 9

def StartPoint.work : StartPoint → Nat
  | .enter | .wait => 18
  | .test => 17
  | .post => 16
  | .submit => 1

def StartPhase.work : StartPhase → Nat
  | .idle => 0
  | .writing point _ _ rest => point.work + 18 * rest.length

def DaemonPhase.work : DaemonPhase → Nat
  | .idle => 0
  | _ => 1

/-- A process can stop once. -/
def stopWork : Option Stop → Nat
  | none => 1
  | some _ => 0

def Proc.work (proc : Proc) : Nat :=
  stopWork proc.halted + 2 * proc.shared_cq.length + proc.daemon.work + proc.start.work

def World.work (w : World) : Nat :=
  weigh Item.work w.items + ∑ p ∈ Finset.range w.size, (w.procs p).work

@[simp] theorem StartPhase.work_next (plan : Nat) (rest : List PlanEntry) :
    (StartPhase.next plan rest).work = 18 * rest.length := by
  cases rest with
  | nil => rfl
  | cons entry rest =>
      simp only [next, work, StartPoint.work, List.length_cons]
      omega

@[simp] theorem StartPhase.unposted_next (plan : Nat) (rest : List PlanEntry) :
    (StartPhase.next plan rest).unposted = rest := by
  cases rest <;> rfl

theorem IbvWc.work_nextDaemon (wc : IbvWc) (rest : List IbvWc) (num_wr : Nat) :
    (wc.nextDaemon rest num_wr).work = 1 := by
  unfold IbvWc.nextDaemon
  split
  · rfl
  · split <;> rfl

theorem Item.work_sendWc (wqe : Wqe) (success : Bool) :
    (Item.completion wqe.src (wqe.sendWc success)).work + 3 ≤ (Item.acked wqe).work ∧
      (Item.acked wqe).work < (Item.queued wqe).work := by
  have hread : (wqe.sendWc success).opcode = .rdmaRead ↔ wqe.wr.opcode = .rdmaRead := by
    simp only [Wqe.sendWc]
    split <;> simp [*]
  simp only [work, hread]
  change (if wqe.wr.opcode = .rdmaRead ∧ wqe.wr.wr_id.rmt_imm_protocol ≠ 0 then 10 else 1) + 3 ≤
    _ ∧ _
  split <;> omega

theorem Item.work_recvWc {wqe : Wqe} (himm : wqe.wr.opcode = .rdmaWriteWithImm) :
    (Item.acked wqe).work + (Item.completion wqe.dst wqe.recvWc).work + 3 =
      (Item.queued wqe).work := by
  simp [work, himm, Wqe.recvWc]

theorem Item.work_queued_le (wqe : Wqe) : (Item.queued wqe).work ≤ 14 := by
  simp only [work]
  split <;> omega

/-- A completion is worth the notification it leads to. -/
theorem IbvWc.work_notification (wc : IbvWc) (rank : Nat) :
    weigh Item.work (wc.notification rank) < (Item.completion rank wc).work := by
  unfold IbvWc.notification
  simp only [Item.work]
  split
  · rw [weigh_singleton]
    simp only [Item.work]
    omega
  · rw [weigh_zero]
    omega

/-! ### Steps of a start -/

section Steps

variable {w w' : World} {rank : Nat} {a : Act} {c d : Multiset Item} {proc : Proc}

theorem startStep_cases {timeout : Bool} (h : w.startStep rank timeout = some w') :
    ∃ point plan entry rest, (w.procs rank).start = .writing point plan entry rest ∧
      ((∃ stop, w' = w.setProc rank ((w.procs rank).halt stop)) ∨
        (∃ point', w' = w.setProc rank
            { w.procs rank with start := .writing point' plan entry rest } ∧
          ((point = .enter ∧ entry.pr.dst_rank < w.size ∧ point' = .test) ∨
            (point = .test ∧ (w.procs rank).queueFull entry.pr.dst_rank ∧ point' = .wait) ∨
            (point = .test ∧ ¬ (w.procs rank).queueFull entry.pr.dst_rank ∧ point' = .post) ∨
            (point = .wait ∧ point' = .test))) ∨
        (point = .post ∧ entry.pr.dst_rank < w.size ∧ w' = w.postWrite rank plan entry rest) ∨
        (point = .submit ∧ w' = w.setProc rank ((w.procs rank).submit plan entry rest))) := by
  unfold World.startStep at h
  match hstart : (w.procs rank).start with
  | .idle => simp [hstart] at h
  | .writing point plan entry rest =>
      refine ⟨point, plan, entry, rest, rfl, ?_⟩
      simp only [hstart] at h
      cases point with
      | enter =>
          simp only at h
          split at h
          · exact .inl ⟨_, (Option.some.inj h).symm⟩
          · next hdst =>
            split at h
            · exact .inr (.inl ⟨_, (Option.some.inj h).symm, .inl ⟨rfl, not_not.mp hdst, rfl⟩⟩)
            · exact .inl ⟨_, (Option.some.inj h).symm⟩
      | test =>
          simp only at h
          split at h
          · next hfull =>
            exact .inr (.inl ⟨_, (Option.some.inj h).symm, .inr (.inl ⟨rfl, hfull, rfl⟩)⟩)
          · next hroom =>
            exact .inr (.inl ⟨_, (Option.some.inj h).symm, .inr (.inr (.inl ⟨rfl, hroom, rfl⟩))⟩)
      | wait =>
          simp only at h
          split at h
          · exact .inl ⟨_, (Option.some.inj h).symm⟩
          · split at h
            · exact .inl ⟨_, (Option.some.inj h).symm⟩
            · exact .inr (.inl ⟨_, (Option.some.inj h).symm, .inr (.inr (.inr ⟨rfl, rfl⟩))⟩)
      | post =>
          simp only [Option.ite_none_right_eq_some, Option.some.injEq] at h
          exact .inr (.inr (.inl ⟨rfl, h.1, h.2.symm⟩))
      | submit => exact .inr (.inr (.inr ⟨rfl, (Option.some.inj h).symm⟩))

/-! ### Productive steps -/

theorem World.sum_work (hsize : w'.size = w.size) (hrank : rank < w.size)
    (hprocs : w'.procs = Function.update w.procs rank proc) :
    ∑ p ∈ Finset.range w'.size, (w'.procs p).work + (w.procs rank).work =
      ∑ p ∈ Finset.range w.size, (w.procs p).work + proc.work := by
  have hmem : rank ∈ Finset.range w.size := Finset.mem_range.mpr hrank
  rw [hsize, hprocs, ← Finset.add_sum_erase _ _ hmem, ← Finset.add_sum_erase _ _ hmem,
    Function.update_self]
  have hothers :
      ∑ p ∈ (Finset.range w.size).erase rank, (Function.update w.procs rank proc p).work =
      ∑ p ∈ (Finset.range w.size).erase rank, (w.procs p).work := by
    refine Finset.sum_congr rfl fun p hp => ?_
    rw [Function.update_of_ne (Finset.ne_of_mem_erase hp)]
  rw [hothers]
  omega

theorem World.work_lt_of_update (hitems : Rewrites c d w.items w'.items)
    (hsize : w'.size = w.size) (hrank : rank < w.size)
    (hprocs : w'.procs = Function.update w.procs rank proc)
    (hlt : weigh Item.work d + proc.work < weigh Item.work c + (w.procs rank).work) :
    w'.work < w.work := by
  have hsum := World.sum_work hsize hrank hprocs
  have hweigh := hitems.weigh Item.work
  unfold World.work
  omega

/-- A process does something by itself, and has the same items as before. -/
theorem World.work_lt_of_local (hrank : rank < w.size)
    (hitems : proc.items rank = (w.procs rank).items rank)
    (hlt : proc.work < (w.procs rank).work) : (w.setProc rank proc).work < w.work := by
  have hlocal : Rewrites 0 0 w.items (w.setProc rank proc).items :=
    World.rewrites_local hrank (hitems ▸ Rewrites.refl _)
  exact World.work_lt_of_update hlocal rfl hrank rfl (by simpa using hlt)

/-- A process that is reported a completion has two steps more. -/
theorem Proc.work_push (proc : Proc) (wc : IbvWc) (srq : Nat) :
    { proc with srq := srq, shared_cq := proc.shared_cq ++ [wc] }.work = proc.work + 2 := by
  simp only [Proc.work, List.length_append, List.length_singleton]
  omega

theorem Proc.work_halt {stop : Stop} (hlive : proc.halted = none) :
    (proc.halt stop).work < proc.work := by
  simp [Proc.work, Proc.halt, hlive, stopWork]

theorem World.work_lt_of_start (hsound : w.Sound) (hrank : rank < w.size)
    (hlive : (w.procs rank).halted = none)
    (ha : productive w (.proc rank (.startStep false)) = true)
    (h : w.startStep rank false = some w') : w'.work < w.work := by
  obtain ⟨point, plan, entry, rest, hstart, hnext⟩ := startStep_cases h
  rcases hnext with ⟨stop, rfl⟩ | ⟨point', rfl, hgoto⟩ | ⟨rfl, hdst, rfl⟩ | ⟨rfl, rfl⟩
  · exact World.work_lt_of_local hrank rfl (Proc.work_halt hlive)
  · refine World.work_lt_of_local hrank rfl ?_
    have hpoint : point'.work < point.work := by
      rcases hgoto with ⟨rfl, -, rfl⟩ | ⟨rfl, hfull, rfl⟩ | ⟨rfl, -, rfl⟩ | ⟨rfl, rfl⟩
      · decide
      · -- a test that finds the queue full leads nowhere
        simp [productive, hstart, hfull] at ha
      · decide
      · decide
    simp only [Proc.work, hstart, StartPhase.work]
    omega
  · have hmove : Move w (.proc rank (.startStep false)) _ _ _ := .post hrank hstart hdst
    refine World.work_lt_of_update (hmove.items hsound) rfl hrank rfl ?_
    have hcost := Item.work_queued_le (w.newWqe rank entry)
    simp only [weigh_zero, weigh_singleton, Proc.work, hstart, StartPhase.work, StartPoint.work]
    omega
  · refine World.work_lt_of_local hrank rfl ?_
    simp only [Proc.work, Proc.submit, hstart, StartPhase.work_next]
    simp only [StartPhase.work, StartPoint.work]
    omega

theorem World.work_lt (hsound : w.Sound) (ha : productive w a = true) (h : w.step a = some w') :
    w'.work < w.work := by
  obtain ⟨c, d, hmove⟩ := move_of_step h
  have hitems := hmove.items hsound
  cases hmove with
  | create | destroy | start => cases ha
  | @halt rank pa stop hrank =>
      have hlive : (w.procs rank).halted = none := by
        simp only [World.step, Option.ite_none_right_eq_some] at h
        exact h.1.2
      exact World.work_lt_of_update hitems rfl hrank rfl (by simpa using Proc.work_halt hlive)
  | @goto rank plan timeout | @post rank plan timeout | @submit rank plan timeout =>
      have hfalse : timeout = false := by
        simp only [productive, Bool.and_eq_true, Bool.not_eq_true'] at ha
        exact ha.1
      subst hfalse
      simp only [World.step, Option.ite_none_right_eq_some] at h
      exact World.work_lt_of_start hsound h.1.1 h.1.2 ha h.2
  | @poll rank n hrank hidle hmax =>
      refine World.work_lt_of_update hitems rfl hrank rfl ?_
      have hn : n ≤ (w.procs rank).shared_cq.length := by
        simp only [World.step, World.procStep, Option.ite_none_right_eq_some] at h
        exact h.2.1.2.2
      have hpos : n ≠ 0 := by simpa [productive] using ha
      simp only [weigh_zero, Proc.work, List.length_drop, DaemonPhase.work, hidle]
      omega
  | repost hrank hdaemon =>
      refine World.work_lt_of_update hitems rfl hrank rfl ?_
      simp only [weigh_zero, Proc.work, DaemonPhase.work, hdaemon]
      omega
  | @handle rank num_wr wc rest proc hrank hdaemon hhandle =>
      refine World.work_lt_of_update hitems rfl hrank rfl ?_
      have hcost := wc.work_notification rank
      have hsame : proc.work = (w.procs rank).work := by
        rw [Proc.handle_frame hhandle]
        simp only [Proc.work, hdaemon, IbvWc.work_nextDaemon]
        rfl
      rw [weigh_singleton, hsame]
      omega
  | notify hrank hdaemon =>
      refine World.work_lt_of_update hitems rfl hrank rfl ?_
      simp only [weigh_singleton, Proc.work, hdaemon, DaemonPhase.work, Item.work, rmtCompleteWr]
      simp
  | @fail i wqe hi hmiss =>
      have hcost := Item.work_sendWc wqe false
      have hpush := Proc.work_push (w.procs wqe.src) (wqe.sendWc false) (w.procs wqe.src).srq
      refine World.work_lt_of_update hitems rfl (hsound.queued hi).src_lt rfl ?_
      rw [weigh_singleton, weigh_singleton]
      exact lt_of_eq_of_lt (congrArg (_ + ·) hpush) (by omega)
  | @arrive i wqe hi himm hsrq =>
      refine World.work_lt_of_update hitems rfl (hsound.queued hi).dst_lt rfl ?_
      have hcost := Item.work_recvWc himm
      have hpush := Proc.work_push (w.procs wqe.dst) wqe.recvWc ((w.procs wqe.dst).srq - 1)
      simp only [Multiset.insert_eq_cons, weigh_cons, weigh_singleton]
      omega
  | @execute i wqe hi himm =>
      have hcost := (Item.work_sendWc wqe true).2
      have hweigh := hitems.weigh Item.work
      rw [weigh_singleton, weigh_singleton] at hweigh
      change weigh Item.work _ + ∑ p ∈ Finset.range w.size, (w.procs p).work < _
      unfold World.work
      omega
  | @complete i wqe hi hsignaled =>
      have hcost := (Item.work_sendWc wqe true).1
      have hpush := Proc.work_push (w.procs wqe.src) (wqe.sendWc true) (w.procs wqe.src).srq
      refine World.work_lt_of_update hitems rfl (hsound.acked hi).src_lt rfl ?_
      rw [weigh_singleton, weigh_singleton]
      exact lt_of_eq_of_lt (congrArg (_ + ·) hpush) (by omega)
  | @silent i wqe hi hsignaled =>
      have hcost := (Item.work_sendWc wqe true).1
      have hweigh := hitems.weigh Item.work
      rw [weigh_singleton, weigh_zero] at hweigh
      change weigh Item.work _ + ∑ p ∈ Finset.range w.size, (w.procs p).work < _
      unfold World.work
      omega

/-- What the starts have still to post is posted in order. -/
theorem Move.posted (h : Move w a c d w') (ha : productive w a = true) (p : Nat) :
    w'.postedBy p ++ (w'.procs p).start.unposted = w.postedBy p ++ (w.procs p).start.unposted := by
  have hpoint : ∀ {point : StartPoint} {plan : Nat} {entry : PlanEntry} {rest : List PlanEntry},
      point ≠ .submit → (StartPhase.writing point plan entry rest).unposted = entry :: rest := by
    intro point plan entry rest hne
    cases point with
    | submit => exact absurd rfl hne
    | enter | test | wait | post => rfl
  have hsame : ∀ {rank : Nat} {proc : Proc}, proc.start.unposted = (w.procs rank).start.unposted →
      w.postedBy p ++ ((w.setProc rank proc).procs p).start.unposted =
        w.postedBy p ++ (w.procs p).start.unposted := fun hstart =>
    congrArg (w.postedBy p ++ ·) (World.setProc_field (fun proc => proc.start.unposted) hstart p)
  cases h with
  | create | destroy | start => cases ha
  | goto hrank hstart hne hne' =>
      refine hsame ?_
      rw [hstart, hpoint hne, hpoint hne']
  | submit hrank hstart =>
      refine hsame ?_
      rw [hstart]
      exact StartPhase.unposted_next _ _
  | @post rank plan timeout entry rest hrank hstart =>
      by_cases hp : p = rank
      · subst hp
        have hposted : (w.postWrite p plan entry rest).postedBy p = w.postedBy p ++ [entry] := by
          simp [World.postedBy, World.postWrite, World.newJob, Job.entry]
        rw [hposted, hstart, hpoint (by decide), List.append_assoc]
        simp [World.postWrite, StartPhase.unposted]
      · have hposted : (w.postWrite rank plan entry rest).postedBy p = w.postedBy p := by
          simp [World.postedBy, World.postWrite, World.newJob, Ne.symm hp]
        rw [hposted]
        simp [World.postWrite, World.setProc_of_ne hp]
  | handle hrank hdaemon hhandle => exact hsame (by rw [Proc.handle_frame hhandle])
  | halt | poll | repost | notify | fail | arrive | complete => exact hsame rfl
  | execute | silent => rfl

/-- A start that has passed its first assertion posts on a queue pair that
exists. -/
def World.Ranked (w : World) : Prop :=
  ∀ p point plan entry rest, (w.procs p).start = .writing point plan entry rest →
    point ≠ .enter → entry.pr.dst_rank < w.size

theorem World.Ranked.step (h : w.Ranked) (hstep : w.step a = some w') : w'.Ranked := by
  obtain ⟨c, d, hmove⟩ := move_of_step hstep
  -- a step that leaves the starts alone, or begins a turn
  have hset : ∀ {rank : Nat} {proc : Proc}, (∀ point plan entry rest,
      proc.start = .writing point plan entry rest → point ≠ .enter → entry.pr.dst_rank < w.size) →
      (w.setProc rank proc).Ranked := by
    intro rank proc hproc p point plan entry rest hstart
    by_cases hp : p = rank
    · subst hp
      rw [World.setProc_self] at hstart
      exact hproc _ _ _ _ hstart
    · rw [World.setProc_of_ne hp] at hstart
      exact h p _ _ _ _ hstart
  have hnext : ∀ {plan : Nat} {rest : List PlanEntry} (point plan' entry rest'),
      StartPhase.next plan rest = .writing point plan' entry rest' → point ≠ .enter →
        entry.pr.dst_rank < w.size := by
    intro plan rest point plan' entry rest' heq hne
    cases rest with
    | nil => cases heq
    | cons =>
        cases heq
        exact absurd rfl hne
  cases hmove with
  | halt hrank => exact hset (h _)
  | create | destroy | poll | repost | notify | fail | arrive | complete => exact hset (h _)
  | execute | silent => exact h
  | handle hrank hdaemon hhandle => exact hset (by rw [Proc.handle_frame hhandle]; exact h _)
  | start => exact hset hnext
  | submit => exact hset hnext
  | post hrank hstart hdst =>
      refine hset ?_
      rintro _ _ _ _ ⟨⟩ -
      exact hdst
  | @goto rank plan timeout point point' entry rest hrank hstart hne hne' =>
      refine hset ?_
      rintro _ _ _ _ ⟨⟩ -
      by_cases henter : point = .enter
      · -- the index of the counters is checked by the first assertion
        subst henter
        by_contra hge
        simp only [World.step, World.procStep, World.startStep, hstart, hge, not_false_eq_true,
          if_true, Option.ite_none_right_eq_some, Option.some.injEq] at hstep
        have hhalted := congrArg (fun w => (w.procs rank).halted) hstep.2
        simp [Proc.halt, hstep.1.2] at hhalted
      · exact h rank _ _ _ _ hstart henter

end Steps

/-! ### Runs -/

section Runs

variable {size : Nat} {flag_pool : FlagPool} {lkey rkey : MemInfo → BitVec 32}
  {dev_attr : Nat → IbvDeviceAttr} {flags : Nat → Nat → UruFlag} {w w' : World}

end Runs

end Unr.Verbs
