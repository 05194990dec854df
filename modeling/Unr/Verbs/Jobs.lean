import Unr.Verbs.Traffic

/-!
Where the traffic comes from.

Every request under way belongs to a job, which was posted for an entry of a
plan, which was made from a write. What the caller of
`uri_verbs_rdma_plan_create` guarantees for the writes therefore holds for the
writes of all jobs. The guarantee is a parameter of this file.
-/

namespace Unr.Verbs

open Unr.Uru
open Unr.Logic
open Unr.Mpi (MemInfo Write)

def Item.job : Item → Job
  | .queued wqe | .acked wqe => wqe.job
  | .completion _ wc => wc.job
  | .notification _ _ _ job => job

def Job.entry (job : Job) : PlanEntry := ⟨job.pr, job.write⟩

/-- The entries that a start has still to go through, the present one
included. -/
def StartPhase.entries : StartPhase → List PlanEntry
  | .idle => []
  | .writing _ _ entry rest => entry :: rest

@[simp] theorem StartPhase.entries_next (plan : Nat) (rest : List PlanEntry) :
    (StartPhase.next plan rest).entries = rest := by
  cases rest <;> rfl

/-- The writes that are handed to process `rank` satisfy `R rank`. -/
def Act.Creates (R : Nat → Write → Prop) : Act → Prop
  | .proc rank (.create writes) => ∀ write ∈ writes, R rank write
  | _ => True

/-- An entry of a plan of process `rank` is what the channel makes of its
write. -/
structure PlanEntry.Planned (R : Nat → Write → Prop) (w : World) (rank : Nat)
    (entry : PlanEntry) : Prop where
  made : planWr w.size w.flag_pool w.lkey w.rkey entry.write = .ok entry.pr
  write : R rank entry.write

structure Proc.Planned (R : Nat → Write → Prop) (w : World) (rank : Nat) (proc : Proc) :
    Prop where
  plans : ∀ p ∈ proc.plans, ∀ entry ∈ p.wr, entry.Planned R w rank
  start : ∀ entry ∈ proc.start.entries, entry.Planned R w rank

structure World.Jobs (R : Nat → Write → Prop) (w : World) : Prop where
  procs : ∀ p, (w.procs p).Planned R w p
  planned : ∀ job ∈ w.started, job.entry.Planned R w job.initiator
  /-- Everything under way belongs to one of them. -/
  known : ∀ x ∈ w.items, x.job ∈ w.started
  /-- The numbers of a process are given in order. -/
  numbered : ∀ job ∈ w.started, job.number < (w.procs job.initiator).next_job
  nodup : w.started.Nodup

theorem planned_of_create {R : Nat → Write → Prop} {w : World} {rank : Nat}
    {writes : List Write} {wr : List PlanWr}
    (hwr : uriVerbsRdmaPlanCreate w.size w.flag_pool w.lkey w.rkey writes = .ok wr)
    (hR : ∀ write ∈ writes, R rank write) :
    ∀ entry ∈ List.zipWith PlanEntry.mk wr writes, entry.Planned R w rank := by
  unfold uriVerbsRdmaPlanCreate at hwr
  induction writes generalizing wr with
  | nil => simp
  | cons write writes ih =>
      rw [List.mapM_cons] at hwr
      obtain ⟨pr, hpr, hwr⟩ := bind_eq_ok.mp hwr
      obtain ⟨prs, hprs, hwr⟩ := bind_eq_ok.mp hwr
      cases hwr
      intro entry hentry
      rcases List.mem_cons.mp hentry with rfl | hentry
      · exact ⟨hpr, hR write List.mem_cons_self⟩
      · exact ih hprs (fun write hwrite => hR write (List.mem_cons_of_mem _ hwrite)) entry hentry

section Steps

variable {R : Nat → Write → Prop} {w w' : World} {rank : Nat} {a : Act} {c d : Multiset Item}
  {proc : Proc}

/-- What the plans are made with does not change. -/
theorem Move.planned (h : Move w a c d w') {p : Nat} {entry : PlanEntry}
    (hentry : entry.Planned R w p) : entry.Planned R w' p := by
  cases h <;> exact ⟨hentry.made, hentry.write⟩

theorem Proc.Planned.of_same (h : (w.procs rank).Planned R w rank)
    (hplans : proc.plans = (w.procs rank).plans)
    (hstart : proc.start = (w.procs rank).start) : proc.Planned R w rank :=
  ⟨hplans ▸ h.plans, hstart ▸ h.start⟩

theorem Move.procs_planned (hcreates : a.Creates R) (hold : ∀ p, (w.procs p).Planned R w p)
    (h : Move w a c d w') : ∀ p, (w'.procs p).Planned R w p := by
  cases h with
  | @halt rank | @poll rank | @repost rank | @notify rank =>
      exact World.forall_update (P := Proc.Planned R w) rfl hold ((hold rank).of_same rfl rfl)
  | @create rank writes wr hrank hwr =>
      refine World.forall_update (P := Proc.Planned R w) rfl hold ⟨?_, (hold rank).start⟩
      intro pl hpl
      rcases List.mem_append.mp hpl with hpl | hpl
      · exact (hold rank).plans pl hpl
      · cases List.mem_singleton.mp hpl
        exact planned_of_create hwr hcreates
  | @destroy rank plan hrank =>
      refine World.forall_update (P := Proc.Planned R w) rfl hold ⟨?_, (hold rank).start⟩
      exact fun pl hpl => (hold rank).plans pl (List.mem_filter.mp hpl).1
  | @start rank plan pl hrank hidle hpl =>
      refine World.forall_update (P := Proc.Planned R w) rfl hold ⟨(hold rank).plans, ?_⟩
      simpa using (hold rank).plans pl hpl
  | @goto rank plan timeout point point' entry rest hrank hstart =>
      have hentries := (hold rank).start
      rw [hstart] at hentries
      exact World.forall_update (P := Proc.Planned R w) rfl hold ⟨(hold rank).plans, hentries⟩
  | @post rank plan timeout entry rest hrank hstart =>
      have hentries := (hold rank).start
      rw [hstart] at hentries
      exact World.forall_update (P := Proc.Planned R w) rfl hold ⟨(hold rank).plans, hentries⟩
  | @submit rank plan timeout entry rest hrank hstart =>
      have hentries := (hold rank).start
      rw [hstart] at hentries
      refine World.forall_update (P := Proc.Planned R w) rfl hold ⟨(hold rank).plans, ?_⟩
      simpa [Proc.submit] using fun entry hentry => hentries entry (List.mem_cons_of_mem _ hentry)
  | @handle rank num_wr wc rest proc hrank hdaemon hhandle =>
      have hframe := Proc.handle_frame hhandle
      exact World.forall_update (P := Proc.Planned R w) rfl hold
        ((hold rank).of_same (by rw [hframe]) (by rw [hframe]))
  | @fail i wqe | @complete i wqe =>
      exact World.forall_update (P := Proc.Planned R w) rfl hold ((hold wqe.src).of_same rfl rfl)
  | @arrive i wqe =>
      exact World.forall_update (P := Proc.Planned R w) rfl hold ((hold wqe.dst).of_same rfl rfl)
  | execute | silent => exact hold

/-- A step posts no request of a write, or one. -/
theorem Move.numbers (h : Move w a c d w') :
    (w'.started = w.started ∧ ∀ p, (w'.procs p).next_job = (w.procs p).next_job) ∨
      ∃ rank entry, entry ∈ (w.procs rank).start.entries ∧
        w'.started = w.started ++ [w.newJob rank entry] ∧
        ∀ p, (w'.procs p).next_job = (w.procs p).next_job + if p = rank then 1 else 0 := by
  cases h with
  | halt | create | destroy | start | goto | submit | poll | repost | notify =>
      exact .inl ⟨rfl, World.setProc_field (·.next_job) rfl⟩
  | @post rank plan timeout entry rest hrank hstart =>
      refine .inr ⟨rank, entry, by simp [hstart, StartPhase.entries], rfl, fun p => ?_⟩
      by_cases hp : p = rank
      · simp [World.postWrite, World.setProc, hp]
      · simp [World.postWrite, World.setProc, hp]
  | handle hrank hdaemon hhandle =>
      exact .inl ⟨rfl, World.setProc_field (·.next_job) (by rw [Proc.handle_frame hhandle])⟩
  | fail | arrive | complete => exact .inl ⟨rfl, World.setProc_field (·.next_job) rfl⟩
  | execute | silent => exact .inl ⟨rfl, fun _ => rfl⟩

/-- What a step puts into the traffic belongs to the job of what it takes out,
or to the job it posts. -/
theorem Move.new_known (hsound : w.Sound) (hknown : ∀ x ∈ w.items, x.job ∈ w.started)
    (h : Move w a c d w') : ∀ x ∈ d, x.job ∈ w'.started := by
  have hitems := h.items hsound
  cases h with
  | halt | create | destroy | start | goto | submit | poll | repost | silent => simp
  | post => simp [Item.job, World.newWqe, World.postWrite]
  | @handle rank num_wr wc rest proc hrank hdaemon hhandle =>
      have hjob := hknown _ (hitems.mem (Multiset.mem_singleton_self _))
      unfold IbvWc.notification
      split
      · simpa [Item.job] using hjob
      · simp
  | notify | fail | arrive | execute | complete =>
      have hjob := hknown _ (hitems.mem (Multiset.mem_singleton_self _))
      simpa [Item.job] using hjob

theorem Move.jobs (hsound : w.Sound) (hcreates : a.Creates R) (hjobs : w.Jobs R)
    (h : Move w a c d w') : w'.Jobs R := by
  have hprocs := h.procs_planned hcreates hjobs.procs
  have hnew := h.new_known hsound hjobs.known
  have hkeep : ∀ p, (w'.procs p).Planned R w' p := fun p =>
    ⟨fun pl hpl entry hentry => h.planned ((hprocs p).plans pl hpl entry hentry),
      fun entry hentry => h.planned ((hprocs p).start entry hentry)⟩
  rcases h.numbers with ⟨hstarted, hnext⟩ | ⟨rank, entry, hentry, hstarted, hnext⟩
  · refine ⟨hkeep, ?_, ?_, ?_, hstarted ▸ hjobs.nodup⟩
    · rw [hstarted]
      exact fun job hjob => h.planned (hjobs.planned job hjob)
    · exact (h.items hsound).forall_mem (hstarted ▸ hjobs.known) hnew
    · rw [hstarted]
      exact fun job hjob => (hnext _).symm ▸ hjobs.numbered job hjob
  -- the number of the new job is above those started before
  · have hfresh : w.newJob rank entry ∉ w.started := fun hmem =>
      Nat.lt_irrefl _ (hjobs.numbered _ hmem)
    refine ⟨hkeep, ?_, ?_, ?_, ?_⟩
    · rw [hstarted]
      intro job hjob
      rcases List.mem_append.mp hjob with hjob | hjob
      · exact h.planned (hjobs.planned job hjob)
      · cases List.mem_singleton.mp hjob
        exact h.planned ((hjobs.procs rank).start entry hentry)
    · refine (h.items hsound).forall_mem (fun x hx => ?_) hnew
      rw [hstarted]
      exact List.mem_append_left _ (hjobs.known x hx)
    · rw [hstarted]
      intro job hjob
      rw [hnext]
      rcases List.mem_append.mp hjob with hjob | hjob
      · exact Nat.lt_add_right _ (hjobs.numbered job hjob)
      · cases List.mem_singleton.mp hjob
        simp [World.newJob]
    · rw [hstarted]
      exact List.nodup_append.mpr ⟨hjobs.nodup, List.nodup_singleton _, by
        intro job hjob job' hjob' heq
        cases List.mem_singleton.mp hjob'
        exact hfresh (heq ▸ hjob)⟩

end Steps

section Runs

variable {R : Nat → Write → Prop} {size : Nat} {flag_pool : FlagPool}
  {lkey rkey : MemInfo → BitVec 32} {dev_attr : Nat → IbvDeviceAttr}
  {flags : Nat → Nat → UruFlag} {w : World}

theorem World.jobs_init : (World.init size flag_pool lkey rkey dev_attr flags).Jobs R where
  procs := fun _ => ⟨fun _ h => (nomatch h), fun _ h => (nomatch h)⟩
  planned := fun _ h => (nomatch h)
  known := by simp
  numbered := fun _ h => (nomatch h)
  nodup := .nil

theorem World.jobs_run
    (hrun : Run World.step (fun _ a => a.Creates R)
      (World.init size flag_pool lkey rkey dev_attr flags) w) : w.Jobs R :=
  World.invariant (I := World.Jobs R) World.jobs_init
    (fun _ _ _ _ _ hsound hjobs hcreates hmove => hmove.jobs hsound hcreates hjobs) hrun

/-- Every request under way reports its completion. -/
theorem World.Jobs.signaled (hjobs : w.Jobs R) (hsound : w.Sound) {i : Nat} {wqe : Wqe}
    (hi : w.acked[i]? = some wqe) : wqe.wr.signaled = true := by
  have hwqe := hsound.acked hi
  cases hnote : wqe.note with
  | true =>
      rw [(hwqe.note hnote).1]
      rfl
  | false =>
      have hmem : Item.acked wqe ∈ w.items := by
        simp only [World.items, Multiset.mem_add, Multiset.mem_map]
        exact .inl (.inr ⟨wqe, List.mem_of_getElem? hi, rfl⟩)
      rw [hwqe.write hnote]
      exact (wrOf_planWr (hjobs.planned _ (hjobs.known _ hmem)).made).signaled

end Runs

end Unr.Verbs
