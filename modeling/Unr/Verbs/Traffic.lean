import Unr.Logic.Rewriting
import Unr.Logic.Transition
import Unr.Verbs.Channel

/-!
The traffic of the verbs channel: requests, completions and notifications that
are under way, as one bag.

`Move` lists what a step of the system can do, with the items it takes out of
the bag and the items it puts in. The invariants of the later files are proved
by cases on this list; where they count items, they weigh the bag.
-/

namespace Unr.Verbs

open Unr.Uru
open Unr.Logic
open Unr.Mpi (Write)

inductive Item
  /-- A posted request that has not been executed. -/
  | queued (wqe : Wqe)
  /-- An executed request whose completion has not arrived. -/
  | acked (wqe : Wqe)
  /-- A completion at a process that has not been handled, polled or not. -/
  | completion (rank : Nat) (wc : IbvWc)
  /-- A notification that a process is about to post. -/
  | notification (rank dst_rank : Nat) (rmt_imm_protocol : BitVec 32) (job : Job)
  deriving DecidableEq

def DaemonPhase.items (rank : Nat) : DaemonPhase → Multiset Item
  | .idle => 0
  | .handling rest _ => Multiset.map (.completion rank) rest
  | .notifying dst_rank rmt_imm_protocol job rest _ =>
      {.notification rank dst_rank rmt_imm_protocol job} + Multiset.map (.completion rank) rest

def Proc.items (rank : Nat) (proc : Proc) : Multiset Item :=
  Multiset.map (.completion rank) proc.shared_cq + proc.daemon.items rank

def World.items (w : World) : Multiset Item :=
  Multiset.map .queued w.sq + Multiset.map .acked w.acked +
    ∑ p ∈ Finset.range w.size, (w.procs p).items p

/-! ### What the items carry -/

/-- A request carries what the plan or the completed get says. -/
structure Wqe.Sound (size : Nat) (wqe : Wqe) : Prop where
  src : wqe.src = wqe.job.initiator
  dst : wqe.dst = wqe.job.pr.dst_rank
  src_lt : wqe.src < size
  dst_lt : wqe.dst < size
  write : wqe.note = false → wqe.wr = wqe.job.pr.wr
  note : wqe.note = true →
    wqe.wr = rmtCompleteWr wqe.job.pr.wr.wr_id.rmt_imm_protocol ∧
      wqe.job.pr.wr.opcode = .rdmaRead ∧ wqe.job.pr.wr.wr_id.rmt_imm_protocol ≠ 0

/-- A completion is that of a request, at its sender or at its receiver. -/
def IbvWc.Sound (size rank : Nat) (wc : IbvWc) : Prop :=
  ∃ wqe : Wqe, wqe.Sound size ∧
    ((rank = wqe.src ∧ ∃ success, wc = wqe.sendWc success) ∨
      (rank = wqe.dst ∧ wqe.wr.opcode = .rdmaWriteWithImm ∧ wc = wqe.recvWc))

def Item.Sound (size : Nat) : Item → Prop
  | .queued wqe => wqe.Sound size
  | .acked wqe => wqe.Sound size
  | .completion rank wc => wc.Sound size rank
  | .notification rank dst_rank rmt_imm_protocol job =>
      (⟨rank, dst_rank, rmtCompleteWr rmt_imm_protocol, job, true⟩ : Wqe).Sound size

def World.Sound (w : World) : Prop := ∀ x ∈ w.items, x.Sound w.size

section

variable {w : World} {wqe : Wqe} {i : Nat}

theorem World.Sound.queued (h : w.Sound) (hi : w.sq[i]? = some wqe) : wqe.Sound w.size := by
  refine h (.queued wqe) ?_
  simp only [World.items, Multiset.mem_add, Multiset.mem_map]
  exact .inl (.inl ⟨wqe, List.mem_of_getElem? hi, rfl⟩)

theorem World.Sound.acked (h : w.Sound) (hi : w.acked[i]? = some wqe) : wqe.Sound w.size := by
  refine h (.acked wqe) ?_
  simp only [World.items, Multiset.mem_add, Multiset.mem_map]
  exact .inl (.inr ⟨wqe, List.mem_of_getElem? hi, rfl⟩)

end

/-! ### The steps -/

/-- The notification that follows a completion. -/
def IbvWc.notification (wc : IbvWc) (rank : Nat) : Multiset Item :=
  if wc.opcode = .rdmaRead ∧ wc.wr_id.rmt_imm_protocol ≠ 0 then
    {.notification rank wc.dst_rank wc.wr_id.rmt_imm_protocol wc.job}
  else 0

def World.newWqe (w : World) (rank : Nat) (entry : PlanEntry) : Wqe :=
  ⟨rank, entry.pr.dst_rank, entry.pr.wr, w.newJob rank entry, false⟩

/-- A step, the items it takes out and the items it puts in. -/
inductive Move (w : World) : Act → Multiset Item → Multiset Item → World → Prop
  | halt {rank : Nat} {a : ProcAct} {stop : Stop} (hrank : rank < w.size) :
      Move w (.proc rank a) 0 0 (w.setProc rank ((w.procs rank).halt stop))
  | create {rank : Nat} {writes : List Write} {wr : List PlanWr} (hrank : rank < w.size)
      (hwr : uriVerbsRdmaPlanCreate w.size w.flag_pool w.lkey w.rkey writes = .ok wr) :
      Move w (.proc rank (.create writes)) 0 0
        (w.setProc rank ((w.procs rank).addPlan writes wr))
  | destroy {rank plan : Nat} (hrank : rank < w.size) :
      Move w (.proc rank (.destroy plan)) 0 0
        (w.setProc rank { w.procs rank with
          plans := (w.procs rank).plans.filter (·.plan != plan) })
  | start {rank plan : Nat} {p : VerbsPlan} (hrank : rank < w.size)
      (hidle : (w.procs rank).start = .idle) (hp : p ∈ (w.procs rank).plans) :
      Move w (.proc rank (.start plan)) 0 0
        (w.setProc rank { w.procs rank with start := .next plan p.wr })
  | goto {rank plan : Nat} {timeout : Bool} {point point' : StartPoint} {entry : PlanEntry}
      {rest : List PlanEntry} (hrank : rank < w.size)
      (hstart : (w.procs rank).start = .writing point plan entry rest)
      (hpoint : point ≠ .submit) (hpoint' : point' ≠ .submit)
      (hroom : point' = .post → ¬ (w.procs rank).queueFull entry.pr.dst_rank) :
      Move w (.proc rank (.startStep timeout)) 0 0
        (w.setProc rank { w.procs rank with start := .writing point' plan entry rest })
  | post {rank plan : Nat} {timeout : Bool} {entry : PlanEntry} {rest : List PlanEntry}
      (hrank : rank < w.size) (hstart : (w.procs rank).start = .writing .post plan entry rest)
      (hdst : entry.pr.dst_rank < w.size) :
      Move w (.proc rank (.startStep timeout)) 0 {.queued (w.newWqe rank entry)}
        (w.postWrite rank plan entry rest)
  | submit {rank plan : Nat} {timeout : Bool} {entry : PlanEntry} {rest : List PlanEntry}
      (hrank : rank < w.size)
      (hstart : (w.procs rank).start = .writing .submit plan entry rest) :
      Move w (.proc rank (.startStep timeout)) 0 0
        (w.setProc rank ((w.procs rank).submit plan entry rest))
  | poll {rank num_complete : Nat} (hrank : rank < w.size)
      (hidle : (w.procs rank).daemon = .idle)
      (hmax : num_complete ≤ (w.procs rank).dev_attr.max_cqe) :
      Move w (.proc rank (.poll num_complete)) 0 0
        (w.setProc rank { w.procs rank with
          shared_cq := (w.procs rank).shared_cq.drop num_complete
          daemon := .handling ((w.procs rank).shared_cq.take num_complete) 0 })
  | repost {rank num_wr : Nat} (hrank : rank < w.size)
      (hdaemon : (w.procs rank).daemon = .handling [] num_wr) :
      Move w (.proc rank .daemonStep) 0 0
        (w.setProc rank { w.procs rank with
          srq := (w.procs rank).srq + num_wr, daemon := .idle })
  | handle {rank num_wr : Nat} {wc : IbvWc} {rest : List IbvWc} {proc : Proc}
      (hrank : rank < w.size) (hdaemon : (w.procs rank).daemon = .handling (wc :: rest) num_wr)
      (hhandle : (w.procs rank).handle w.flag_pool rank wc rest num_wr = .ok proc) :
      Move w (.proc rank .daemonStep) {.completion rank wc} (wc.notification rank)
        (w.handled rank wc proc)
  | notify {rank dst_rank num_wr : Nat} {rmt_imm_protocol : BitVec 32} {job : Job}
      {rest : List IbvWc} (hrank : rank < w.size)
      (hdaemon : (w.procs rank).daemon = .notifying dst_rank rmt_imm_protocol job rest num_wr) :
      Move w (.proc rank .daemonStep) {.notification rank dst_rank rmt_imm_protocol job}
        {.queued ⟨rank, dst_rank, rmtCompleteWr rmt_imm_protocol, job, true⟩}
        (w.postNote rank dst_rank rmt_imm_protocol job rest num_wr)
  | fail {i : Nat} {wqe : Wqe} (hi : w.sq[i]? = some wqe)
      (hmiss : (wqe.src, wqe.dst) ∈ w.broken ∨ w.misses wqe) :
      Move w (.execute i) {.queued wqe} {.completion wqe.src (wqe.sendWc false)}
        { { w with sq := w.sq.eraseIdx i }.pushWc wqe.src (wqe.sendWc false) with
          broken := (wqe.src, wqe.dst) :: w.broken }
  | arrive {i : Nat} {wqe : Wqe} (hi : w.sq[i]? = some wqe)
      (himm : wqe.wr.opcode = .rdmaWriteWithImm) (hsrq : (w.procs wqe.dst).srq ≠ 0) :
      Move w (.execute i) {.queued wqe} {.acked wqe, .completion wqe.dst wqe.recvWc}
        ({ w with
          sq := w.sq.eraseIdx i
          acked := w.acked ++ [wqe]
          placed := if wqe.note then w.placed else w.placed ++ [wqe.job] }.setProc wqe.dst
            { w.procs wqe.dst with
              srq := (w.procs wqe.dst).srq - 1
              shared_cq := (w.procs wqe.dst).shared_cq ++ [wqe.recvWc] })
  | execute {i : Nat} {wqe : Wqe} (hi : w.sq[i]? = some wqe)
      (himm : wqe.wr.opcode ≠ .rdmaWriteWithImm) :
      Move w (.execute i) {.queued wqe} {.acked wqe}
        { w with
          sq := w.sq.eraseIdx i
          acked := w.acked ++ [wqe]
          placed := if wqe.note then w.placed else w.placed ++ [wqe.job] }
  | complete {i : Nat} {wqe : Wqe} (hi : w.acked[i]? = some wqe)
      (hsignaled : wqe.wr.signaled = true) :
      Move w (.complete i) {.acked wqe} {.completion wqe.src (wqe.sendWc true)}
        ({ w with acked := w.acked.eraseIdx i }.pushWc wqe.src (wqe.sendWc true))
  | silent {i : Nat} {wqe : Wqe} (hi : w.acked[i]? = some wqe)
      (hsignaled : wqe.wr.signaled = false) :
      Move w (.complete i) {.acked wqe} 0 { w with acked := w.acked.eraseIdx i }

section Step

variable {w w' : World} {rank : Nat}

/-- A request that misses, or whose queue pair is in the error state. -/
theorem World.execute_of_miss {i : Nat} {wqe : Wqe}
    (hmiss : (wqe.src, wqe.dst) ∈ w.broken ∨ w.misses wqe) :
    w.execute i wqe = { { w with sq := w.sq.eraseIdx i }.pushWc wqe.src (wqe.sendWc false) with
      broken := (wqe.src, wqe.dst) :: w.broken } :=
  if_pos hmiss

theorem World.execute_of_receive {i : Nat} {wqe : Wqe} (hbroken : (wqe.src, wqe.dst) ∉ w.broken)
    (himm : wqe.wr.opcode = .rdmaWriteWithImm) (hsrq : (w.procs wqe.dst).srq ≠ 0) :
    w.execute i wqe = { w with
        sq := w.sq.eraseIdx i
        acked := w.acked ++ [wqe]
        placed := if wqe.note then w.placed else w.placed ++ [wqe.job] }.setProc wqe.dst
      { w.procs wqe.dst with
        srq := (w.procs wqe.dst).srq - 1
        shared_cq := (w.procs wqe.dst).shared_cq ++ [wqe.recvWc] } :=
  (if_neg fun h => h.elim hbroken fun hmiss => hsrq hmiss.2).trans (if_pos himm)

theorem move_of_startStep {timeout : Bool} (hrank : rank < w.size)
    (h : w.startStep rank timeout = some w') :
    ∃ c d, Move w (.proc rank (.startStep timeout)) c d w' := by
  unfold World.startStep at h
  match hstart : (w.procs rank).start with
  | .idle => simp [hstart] at h
  | .writing .enter plan entry rest =>
      simp only [hstart] at h
      split at h
      · cases h
        exact ⟨0, 0, .halt hrank⟩
      · split at h
        · cases h
          exact ⟨0, 0, .goto hrank hstart (by simp) (by simp) (by simp)⟩
        · cases h
          exact ⟨0, 0, .halt hrank⟩
  | .writing .test plan entry rest =>
      simp only [hstart] at h
      split at h
      · cases h
        exact ⟨0, 0, .goto hrank hstart (by simp) (by simp) (by simp)⟩
      · next hroom =>
        cases h
        exact ⟨0, 0, .goto hrank hstart (by simp) (by simp) fun _ => hroom⟩
  | .writing .wait plan entry rest =>
      simp only [hstart] at h
      split at h
      · cases h
        exact ⟨0, 0, .halt hrank⟩
      · split at h
        · cases h
          exact ⟨0, 0, .halt hrank⟩
        · cases h
          exact ⟨0, 0, .goto hrank hstart (by simp) (by simp) (by simp)⟩
  | .writing .post plan entry rest =>
      simp only [hstart] at h
      split at h
      · next hdst =>
        cases h
        exact ⟨0, _, .post hrank hstart hdst⟩
      · cases h
  | .writing .submit plan entry rest =>
      simp only [hstart] at h
      cases h
      exact ⟨0, 0, .submit hrank hstart⟩

theorem move_of_daemonStep (hrank : rank < w.size) (h : w.daemonStep rank = some w') :
    ∃ c d, Move w (.proc rank .daemonStep) c d w' := by
  unfold World.daemonStep at h
  match hdaemon : (w.procs rank).daemon with
  | .idle => simp [hdaemon] at h
  | .handling [] num_wr =>
      simp only [hdaemon] at h
      cases h
      exact ⟨0, 0, .repost hrank hdaemon⟩
  | .handling (wc :: rest) num_wr =>
      simp only [hdaemon] at h
      cases h
      unfold World.handle
      cases hhandle : (w.procs rank).handle w.flag_pool rank wc rest num_wr with
      | ok proc => exact ⟨_, _, .handle hrank hdaemon hhandle⟩
      | error stop => exact ⟨0, 0, .halt hrank⟩
  | .notifying dst_rank rmt_imm_protocol job rest num_wr =>
      simp only [hdaemon] at h
      cases h
      exact ⟨_, _, .notify hrank hdaemon⟩

theorem move_of_step {a : Act} (h : w.step a = some w') : ∃ c d, Move w a c d w' := by
  cases a with
  | proc rank a =>
      simp only [World.step, Option.ite_none_right_eq_some] at h
      obtain ⟨⟨hrank, -⟩, h⟩ := h
      cases a with
      | create writes =>
          simp only [World.procStep, Option.some.injEq] at h
          subst h
          cases hwr : uriVerbsRdmaPlanCreate w.size w.flag_pool w.lkey w.rkey writes with
          | ok wr => exact ⟨0, 0, .create hrank hwr⟩
          | error stop => exact ⟨0, 0, .halt hrank⟩
      | destroy plan =>
          simp only [World.procStep, Option.ite_none_left_eq_some] at h
          obtain ⟨-, h⟩ := h
          cases h
          exact ⟨0, 0, .destroy hrank⟩
      | start plan =>
          simp only [World.procStep] at h
          split at h
          · next p hidle hp =>
            cases h
            exact ⟨0, 0, .start hrank hidle (List.mem_of_find?_eq_some hp)⟩
          · cases h
      | startStep timeout => exact move_of_startStep hrank h
      | poll num_complete =>
          simp only [World.procStep, Option.ite_none_right_eq_some] at h
          obtain ⟨⟨hidle, hmax, -⟩, h⟩ := h
          cases h
          exact ⟨0, 0, .poll hrank hidle hmax⟩
      | daemonStep => exact move_of_daemonStep hrank h
  | execute i =>
      obtain ⟨wqe, hi, h⟩ := Option.map_eq_some_iff.mp h
      subst h
      by_cases hmiss : (wqe.src, wqe.dst) ∈ w.broken ∨ w.misses wqe
      · rw [World.execute_of_miss hmiss]
        exact ⟨_, _, .fail hi hmiss⟩
      · have hhit := not_or.mp hmiss
        by_cases himm : wqe.wr.opcode = .rdmaWriteWithImm
        · have hsrq : (w.procs wqe.dst).srq ≠ 0 := fun hsrq => hhit.2 ⟨himm, hsrq⟩
          rw [World.execute_of_receive hhit.1 himm hsrq]
          exact ⟨_, _, .arrive hi himm hsrq⟩
        · have hexecute : w.execute i wqe = _ := (if_neg hmiss).trans (if_neg himm)
          rw [hexecute]
          exact ⟨_, _, .execute hi himm⟩
  | complete i =>
      obtain ⟨wqe, hi, h⟩ := Option.map_eq_some_iff.mp h
      subst h
      simp only [World.complete]
      cases hsignaled : wqe.wr.signaled with
      | true => exact ⟨_, _, .complete hi hsignaled⟩
      | false => exact ⟨_, _, .silent hi hsignaled⟩

end Step

/-! ### One process changes -/

section SetProc

variable {w : World} {rank p : Nat} {proc : Proc}

@[simp] theorem World.setProc_self : (w.setProc rank proc).procs rank = proc :=
  Function.update_self ..

theorem World.setProc_of_ne (hp : p ≠ rank) : (w.setProc rank proc).procs p = w.procs p :=
  Function.update_of_ne hp ..

@[simp] theorem World.setProc_started : (w.setProc rank proc).started = w.started := rfl

@[simp] theorem World.pushWc_started {wc : IbvWc} : (w.pushWc rank wc).started = w.started := rfl

@[simp] theorem World.handled_started {wc : IbvWc} :
    (w.handled rank wc proc).started = w.started := rfl

@[simp] theorem World.postNote_started {dst_rank num_wr : Nat} {rmt_imm_protocol : BitVec 32}
    {job : Job} {rest : List IbvWc} :
    (w.postNote rank dst_rank rmt_imm_protocol job rest num_wr).started = w.started := rfl

@[simp] theorem Wqe.sendWc_job (wqe : Wqe) (success : Bool) : (wqe.sendWc success).job = wqe.job :=
  rfl

@[simp] theorem Wqe.recvWc_job (wqe : Wqe) : wqe.recvWc.job = wqe.job := rfl

/-- What holds of every process before, and of the one that changes after, holds
of every process after. -/
theorem World.forall_update {w' : World} {P : Nat → Proc → Prop}
    (hprocs : w'.procs = Function.update w.procs rank proc) (hold : ∀ p, P p (w.procs p))
    (hnew : P rank proc) (p : Nat) : P p (w'.procs p) := by
  rw [hprocs]
  by_cases hp : p = rank
  · rw [hp, Function.update_self]
    exact hnew
  · rw [Function.update_of_ne hp]
    exact hold p

/-- What the step leaves alone in the process, it leaves alone everywhere. -/
theorem World.setProc_field {β : Type} (f : Proc → β) (hsame : f proc = f (w.procs rank))
    (p : Nat) : f ((w.setProc rank proc).procs p) = f (w.procs p) := by
  by_cases hp : p = rank
  · rw [hp, World.setProc_self, hsame]
  · rw [World.setProc_of_ne hp]

end SetProc

/-! ### Handling a completion -/

def IbvWc.nextDaemon (wc : IbvWc) (rest : List IbvWc) (num_wr : Nat) : DaemonPhase :=
  if wc.opcode = .recvRdmaWithImm then .handling rest (num_wr + 1)
  else if wc.opcode = .rdmaRead ∧ wc.wr_id.rmt_imm_protocol ≠ 0 then
    .notifying wc.dst_rank wc.wr_id.rmt_imm_protocol wc.job rest num_wr
  else .handling rest num_wr

/-- The counters after a completion: that of a receive is not counted. -/
def Proc.finished (proc : Proc) (wc : IbvWc) : Proc :=
  if wc.opcode = .recvRdmaWithImm then proc else proc.finish wc.dst_rank

section Handle

variable {flag_pool : FlagPool} {rank num_wr : Nat} {proc proc' : Proc} {event : BitVec 32}
  {wc : IbvWc} {rest : List IbvWc}

/-- An event touches the flags and the pools of signals only. -/
theorem Proc.eventProgress_frame (h : proc.eventProgress flag_pool rank event = .ok proc') :
    proc' = { proc with flags := proc'.flags, pushed := proc'.pushed } := by
  unfold Proc.eventProgress at h
  split at h
  · cases h
    rfl
  · obtain ⟨base, -, h⟩ := bind_eq_ok.mp h
    cases h
    rfl

/-- A completion that does not stop the process is counted, its event is
filled in, and the daemon goes on. -/
theorem Proc.handle_eq_ok (h : proc.handle flag_pool rank wc rest num_wr = .ok proc') :
    wc.success = true ∧ ∃ flagged,
      (proc.finished wc).eventProgress flag_pool rank (wc.progress rank).event = .ok flagged ∧
        proc' = { flagged with daemon := wc.nextDaemon rest num_wr } := by
  unfold Proc.handle at h
  split at h
  · next hsuccess =>
    refine ⟨hsuccess, ?_⟩
    simp only [Proc.finished, IbvWc.nextDaemon, IbvWc.progress]
    match hopcode : wc.opcode with
    | .rdmaWrite | .recvRdmaWithImm =>
        simp only [hopcode] at h
        obtain ⟨flagged, hflagged, h⟩ := bind_eq_ok.mp h
        cases h
        exact ⟨flagged, by simpa using hflagged, by simp⟩
    | .rdmaRead =>
        simp only [hopcode] at h
        obtain ⟨flagged, hflagged, h⟩ := bind_eq_ok.mp h
        cases h
        refine ⟨flagged, by simpa using hflagged, ?_⟩
        by_cases hzero : wc.wr_id.rmt_imm_protocol = 0 <;> simp [hzero]
    | .other => simp [hopcode] at h
  · exact absurd h throw_eq_ok

theorem Proc.finished_frame (proc : Proc) (wc : IbvWc) :
    proc.finished wc = { proc with req_finish := (proc.finished wc).req_finish } := by
  unfold Proc.finished
  split <;> rfl

/-- What the handling of a completion leaves of the process. -/
theorem Proc.handle_frame (h : proc.handle flag_pool rank wc rest num_wr = .ok proc') :
    proc' = { proc with
      req_finish := (proc.finished wc).req_finish
      flags := proc'.flags, pushed := proc'.pushed, daemon := wc.nextDaemon rest num_wr } := by
  obtain ⟨-, flagged, hflagged, rfl⟩ := Proc.handle_eq_ok h
  rw [Proc.eventProgress_frame hflagged, Proc.finished_frame proc wc]

end Handle

/-! ### The bag of a step -/

section Bag

variable {w w' : World} {rank : Nat} {a : Act} {c d : Multiset Item} {proc : Proc}

theorem Move.size (h : Move w a c d w') : w'.size = w.size := by
  cases h <;> rfl

/-- The parts of the traffic are rewritten one by one. -/
theorem World.rewrites {cq dq ca da : Multiset Wqe} {cp dp : Multiset Item}
    (hsize : w'.size = w.size)
    (hsq : Rewrites cq dq (w.sq : Multiset Wqe) w'.sq)
    (hacked : Rewrites ca da (w.acked : Multiset Wqe) w'.acked)
    (hprocs : Rewrites cp dp (∑ p ∈ Finset.range w.size, (w.procs p).items p)
      (∑ p ∈ Finset.range w.size, (w'.procs p).items p))
    (hc : c = cq.map .queued + ca.map .acked + cp)
    (hd : d = dq.map .queued + da.map .acked + dp) : Rewrites c d w.items w'.items := by
  rw [hc, hd, World.items, World.items, hsize]
  exact ((hsq.map _).add (hacked.map _)).add hprocs

/-- One process takes part in the step. -/
theorem World.rewrites_update {cq dq ca da : Multiset Wqe} {cp dp : Multiset Item}
    (hsize : w'.size = w.size) (hrank : rank < w.size)
    (hprocs : w'.procs = Function.update w.procs rank proc)
    (hsq : Rewrites cq dq (w.sq : Multiset Wqe) w'.sq)
    (hacked : Rewrites ca da (w.acked : Multiset Wqe) w'.acked)
    (hproc : Rewrites cp dp ((w.procs rank).items rank) (proc.items rank))
    (hc : c = cq.map .queued + ca.map .acked + cp)
    (hd : d = dq.map .queued + da.map .acked + dp) : Rewrites c d w.items w'.items := by
  refine World.rewrites hsize hsq hacked ?_ hc hd
  rw [hprocs]
  exact Rewrites.sum_range (f := Proc.items) hrank hproc

/-- A step of one process that leaves the NICs alone. -/
theorem World.rewrites_local (hrank : rank < w.size)
    (hproc : Rewrites c d ((w.procs rank).items rank) (proc.items rank)) :
    Rewrites c d w.items (w.setProc rank proc).items :=
  World.rewrites_update rfl hrank rfl (.refl _) (.refl _) hproc (by simp) (by simp)

theorem Proc.rewrites_push (proc : Proc) (rank : Nat) (wc : IbvWc) :
    Rewrites 0 {.completion rank wc} (proc.items rank)
      ({ proc with shared_cq := proc.shared_cq ++ [wc] }.items rank) := by
  have h := ((Rewrites.append proc.shared_cq [wc]).map (Item.completion rank)).add
    (Rewrites.refl (proc.daemon.items rank))
  simpa [Proc.items] using h

/-- Polling moves completions from the queue to the array of the daemon. -/
theorem Proc.items_poll (proc : Proc) (rank n : Nat) (hidle : proc.daemon = .idle) :
    { proc with
      shared_cq := proc.shared_cq.drop n
      daemon := .handling (proc.shared_cq.take n) 0 }.items rank = proc.items rank := by
  simp only [Proc.items, DaemonPhase.items, hidle, add_zero]
  rw [add_comm, ← Multiset.map_add, Multiset.coe_add, List.take_append_drop]

/-- What is left of the items of a process after a completion. -/
theorem Proc.rewrites_handle {flag_pool : FlagPool} {num_wr : Nat} {proc proc' : Proc}
    {wc : IbvWc} {rest : List IbvWc} (hdaemon : proc.daemon = .handling (wc :: rest) num_wr)
    (hhandle : proc.handle flag_pool rank wc rest num_wr = .ok proc') :
    Rewrites {.completion rank wc} (wc.notification rank) (proc.items rank)
      (proc'.items rank) := by
  have hnext : (wc.nextDaemon rest num_wr).items rank =
      wc.notification rank + Multiset.map (Item.completion rank) rest := by
    unfold IbvWc.nextDaemon IbvWc.notification
    by_cases hrecv : wc.opcode = .recvRdmaWithImm
    · simp [hrecv, DaemonPhase.items]
    · by_cases hread : wc.opcode = .rdmaRead ∧ wc.wr_id.rmt_imm_protocol ≠ 0
      · simp only [hrecv, if_false, if_pos hread, DaemonPhase.items]
      · simp only [hrecv, if_false, if_neg hread, DaemonPhase.items, zero_add]
  rw [Proc.handle_frame hhandle]
  refine ⟨Multiset.map (.completion rank) proc.shared_cq + Multiset.map (.completion rank) rest,
    ?_, ?_⟩
  · simp only [Proc.items, DaemonPhase.items, hdaemon, ← Multiset.cons_coe, Multiset.map_cons]
    rw [← Multiset.singleton_add, add_left_comm]
  · simp only [Proc.items, hnext]
    rw [add_left_comm]

theorem Move.items (hsound : w.Sound) (h : Move w a c d w') : Rewrites c d w.items w'.items := by
  cases h with
  | halt hrank | create hrank | destroy hrank | start hrank | goto hrank | submit hrank =>
      exact World.rewrites_local hrank (.refl _)
  | post hrank hstart hdst =>
      exact World.rewrites_update rfl hrank rfl (.append _ _) (.refl _) (.refl _)
        (by simp) (by simp [World.newWqe])
  | poll hrank hidle =>
      refine World.rewrites_local hrank ?_
      rw [Proc.items_poll _ _ _ hidle]
      exact .refl _
  | repost hrank hdaemon =>
      refine World.rewrites_local hrank ?_
      simpa [Proc.items, DaemonPhase.items, hdaemon] using Rewrites.refl _
  | handle hrank hdaemon hhandle =>
      exact World.rewrites_update rfl hrank rfl (.refl _) (.refl _)
        (Proc.rewrites_handle hdaemon hhandle) (by simp) (by simp)
  | @notify rank dst_rank num_wr rmt_imm_protocol job rest hrank hdaemon =>
      have hproc : Rewrites {.notification rank dst_rank rmt_imm_protocol job} 0
          ((w.procs rank).items rank)
          ({ w.procs rank with daemon := .handling rest num_wr }.items rank) := by
        refine ⟨_, ?_, (zero_add _).symm⟩
        simp only [Proc.items, DaemonPhase.items, hdaemon]
        rw [add_left_comm]
      exact World.rewrites_update rfl hrank rfl (.append _ _) (.refl _) hproc (by simp) (by simp)
  | fail hi hmiss =>
      exact World.rewrites_update rfl (hsound.queued hi).src_lt rfl (.eraseIdx hi) (.refl _)
        (Proc.rewrites_push _ _ _) (by simp) (by simp)
  | arrive hi himm hsrq =>
      exact World.rewrites_update rfl (hsound.queued hi).dst_lt rfl (.eraseIdx hi) (.append _ _)
        (Proc.rewrites_push _ _ _) (by simp) (by simp)
  | execute hi himm =>
      exact World.rewrites rfl (.eraseIdx hi) (.append _ _) (.refl _) (by simp) (by simp)
  | complete hi hsignaled =>
      exact World.rewrites_update rfl (hsound.acked hi).src_lt rfl (.refl _) (.eraseIdx hi)
        (Proc.rewrites_push _ _ _) (by simp) (by simp)
  | silent hi hsignaled =>
      exact World.rewrites rfl (.refl _) (.eraseIdx hi) (.refl _) (by simp) (by simp)

theorem IbvWc.Sound.notification {size : Nat} {wc : IbvWc} (h : wc.Sound size rank)
    (hread : wc.opcode = .rdmaRead) (himm : wc.wr_id.rmt_imm_protocol ≠ 0) :
    (Item.notification rank wc.dst_rank wc.wr_id.rmt_imm_protocol wc.job).Sound size := by
  obtain ⟨wqe, hwqe, ⟨rfl, success, rfl⟩ | ⟨-, -, rfl⟩⟩ := h
  · have hopcode : wqe.wr.opcode = .rdmaRead := by
      by_contra hne
      simp [Wqe.sendWc, hne] at hread
    have hnote : wqe.note = false := by
      by_contra hne
      rw [(hwqe.note (by simpa using hne)).1] at hopcode
      cases hopcode
    have hwr := hwqe.write hnote
    have hsame : wqe.wr.wr_id.rmt_imm_protocol = wqe.job.pr.wr.wr_id.rmt_imm_protocol := by
      rw [hwr]
    exact ⟨hwqe.src, hwqe.dst, hwqe.src_lt, hwqe.dst_lt, fun hfalse => (nomatch hfalse),
      fun _ => ⟨congrArg rmtCompleteWr hsame, hwr ▸ hopcode, fun hzero => himm (hsame.trans hzero)⟩⟩
  · cases hread

theorem Move.new_sound (hsound : w.Sound) (h : Move w a c d w') : ∀ x ∈ d, x.Sound w.size := by
  have hitems := h.items hsound
  cases h with
  | halt | create | destroy | start | goto | submit | poll | repost | silent => simp
  | post hrank hstart hdst =>
      simpa using ⟨rfl, rfl, hrank, hdst, fun _ => rfl, fun h => (nomatch h)⟩
  | @handle rank num_wr wc rest proc hrank hdaemon hhandle =>
      have hwc : wc.Sound w.size rank :=
        hsound (.completion rank wc) (hitems.mem (Multiset.mem_singleton_self _))
      unfold IbvWc.notification
      split
      · next hread => simpa using hwc.notification hread.1 hread.2
      · simp
  | notify hrank hdaemon =>
      have hnote := hsound _ (hitems.mem (Multiset.mem_singleton_self _))
      simpa [Item.Sound] using hnote
  | fail hi => simpa using ⟨_, hsound.queued hi, .inl ⟨rfl, false, rfl⟩⟩
  | arrive hi himm =>
      simpa using ⟨hsound.queued hi, ⟨_, hsound.queued hi, .inr ⟨rfl, himm, rfl⟩⟩⟩
  | execute hi => simpa [Item.Sound] using hsound.queued hi
  | complete hi => simpa using ⟨_, hsound.acked hi, .inl ⟨rfl, true, rfl⟩⟩

theorem Move.sound (hsound : w.Sound) (h : Move w a c d w') : w'.Sound := by
  unfold World.Sound
  rw [h.size]
  exact (h.items hsound).forall_mem hsound (h.new_sound hsound)

end Bag

/-! ### Runs -/

section Runs

variable {size : Nat} {flag_pool : FlagPool} {lkey rkey : Mpi.MemInfo → BitVec 32}
  {dev_attr : Nat → IbvDeviceAttr} {flags : Nat → Nat → UruFlag} {w : World}
  {C : World → Act → Prop}

@[simp] theorem World.items_init :
    (World.init size flag_pool lkey rkey dev_attr flags).items = 0 := by
  simp [World.items, World.init, Proc.init, Proc.items, DaemonPhase.items]

theorem World.sound_run
    (hrun : Run World.step C (World.init size flag_pool lkey rkey dev_attr flags) w) :
    w.Sound := by
  refine hrun.invariant (I := World.Sound) (by simp [World.Sound]) ?_
  intro t a u _ hsound _ hstep
  obtain ⟨c, d, hmove⟩ := move_of_step hstep
  exact hmove.sound hsound

/-- The rule for invariants: they may use that the items are sound, and are
checked on the list of steps. -/
theorem World.invariant {I : World → Prop}
    (hinit : I (World.init size flag_pool lkey rkey dev_attr flags))
    (hmove : ∀ t a c d u, t.Sound → I t → C t a → Move t a c d u → I u)
    (hrun : Run World.step C (World.init size flag_pool lkey rkey dev_attr flags) w) : I w := by
  refine hrun.invariant hinit ?_
  intro t a u ht hI hC hstep
  obtain ⟨c, d, h⟩ := move_of_step hstep
  exact hmove t a c d u (World.sound_run ht) hI hC h

theorem World.size_run
    (hrun : Run World.step C (World.init size flag_pool lkey rkey dev_attr flags) w) :
    w.size = size :=
  World.invariant (I := fun w => w.size = size) rfl
    (fun _ _ _ _ _ _ hI _ hmove => hmove.size.trans hI) hrun

end Runs

end Unr.Verbs
