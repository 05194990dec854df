import Unr.Verbs.Traffic

/-!
Rounds of a put.

Process 0 of two starts a plan with one put to process 1, again and again, and
handles the completion of each before it starts the next; process 1 does
nothing. A round can always be added while process 1 has a receive for it, so
that the counters of process 0 reach any number.
-/

namespace Unr.Verbs

open Unr.Uru
open Unr.Logic

/-- What a round looks at, on the queue pair from process 0 to process 1. -/
structure View where
  start : StartPhase
  daemon : DaemonPhase
  next_job : Nat
  req_submit : Nat
  req_finish : Nat
  /-- The receives of process 1. -/
  srq : Nat
  shared_cq : List IbvWc
  sq : List Wqe
  acked : List Wqe

/-- A world of two processes in which process 0 has the plan. -/
structure World.Shows (entry : PlanEntry) (v : View) (w : World) : Prop where
  size : w.size = 2
  live : (w.procs 0).halted = none
  plans : (w.procs 0).plans = [⟨0, [entry]⟩]
  max_cqe : 1 ≤ (w.procs 0).dev_attr.max_cqe
  broken : w.broken = []
  start : (w.procs 0).start = v.start
  daemon : (w.procs 0).daemon = v.daemon
  next_job : (w.procs 0).next_job = v.next_job
  req_submit : (w.procs 0).req_submit 1 = v.req_submit
  req_finish : (w.procs 0).req_finish 1 = v.req_finish
  srq : (w.procs 1).srq = v.srq
  shared_cq : (w.procs 0).shared_cq = v.shared_cq
  sq : w.sq = v.sq
  acked : w.acked = v.acked

/-- Whatever has been reached and shows `v` can be continued to something that
shows `v'`. -/
def Goes (entry : PlanEntry) (v v' : View) : Prop :=
  ∀ w₀ w : World, Run World.step (fun _ _ => True) w₀ w → w.Shows entry v →
    ∃ w', Run World.step (fun _ _ => True) w₀ w' ∧ w'.Shows entry v'

theorem Goes.trans {entry : PlanEntry} {v v' v'' : View} (h : Goes entry v v')
    (h' : Goes entry v' v'') : Goes entry v v'' := by
  intro w₀ w hrun hshows
  obtain ⟨w', hrun', hshows'⟩ := h w₀ w hrun hshows
  exact h' w₀ w' hrun' hshows'

theorem Goes.of_step {entry : PlanEntry} {v v' : View} (a : Act) (next : World → World)
    (hstep : ∀ w : World, w.Shows entry v → w.step a = some (next w))
    (hshows : ∀ w : World, w.Shows entry v → (next w).Shows entry v') : Goes entry v v' := by
  intro w₀ w hrun h
  exact ⟨next w, hrun.snoc trivial (hstep w h), hshows w h⟩

/-! ### The steps of a round -/

section Steps

variable {entry : PlanEntry} {v : View}

theorem goes_start :
    Goes entry { v with start := .idle } { v with start := .writing .enter 0 entry [] } := by
  refine .of_step (.proc 0 (.start 0))
    (fun w => w.setProc 0 { w.procs 0 with start := .writing .enter 0 entry [] }) ?_ ?_
  · intro w h
    simp [World.step, World.procStep, StartPhase.next, h.size, h.live, h.start, h.plans]
  · rintro w ⟨⟩
    constructor <;> simp [World.setProc, *]

theorem goes_enter (hdst : entry.pr.dst_rank = 1)
    (hge : (int64 v.req_finish).toInt ≤ (int64 v.req_submit).toInt) :
    Goes entry { v with start := .writing .enter 0 entry [] }
      { v with start := .writing .test 0 entry [] } := by
  refine .of_step (.proc 0 (.startStep false))
    (fun w => w.setProc 0 { w.procs 0 with start := .writing .test 0 entry [] }) ?_ ?_
  · intro w h
    have hassert : (w.procs 0).submitGeFinish 1 := by
      rw [Proc.submitGeFinish, h.req_submit, h.req_finish]
      exact hge
    simp [World.step, World.procStep, World.startStep, h.size, h.live, h.start, hdst, hassert]
  · rintro w ⟨⟩
    constructor <;> simp [World.setProc, *]

theorem goes_test (hdst : entry.pr.dst_rank = 1) (heq : v.req_finish = v.req_submit) :
    Goes entry { v with start := .writing .test 0 entry [] }
      { v with start := .writing .post 0 entry [] } := by
  refine .of_step (.proc 0 (.startStep false))
    (fun w => w.setProc 0 { w.procs 0 with start := .writing .post 0 entry [] }) ?_ ?_
  · intro w h
    have hroom : ¬ (w.procs 0).queueFull 1 := by
      have hzero : (int64 v.req_submit - int64 v.req_submit).toInt = 0 :=
        int64_sub _ (k := 0) (Nat.zero_le _)
      rw [Proc.queueFull, h.req_submit, h.req_finish, heq, hzero]
      decide
    simp [World.step, World.procStep, World.startStep, h.size, h.live, h.start, hdst, hroom]
  · rintro w ⟨⟩
    constructor <;> simp [World.setProc, *]

def View.wqe (entry : PlanEntry) (v : View) : Wqe :=
  ⟨0, 1, entry.pr.wr, ⟨0, v.next_job, entry.pr, entry.write⟩, false⟩

theorem goes_post (hdst : entry.pr.dst_rank = 1) :
    Goes entry { v with start := .writing .post 0 entry [], sq := [] }
      { v with
        start := .writing .submit 0 entry [], sq := [v.wqe entry],
        next_job := v.next_job + 1 } := by
  refine .of_step (.proc 0 (.startStep false)) (fun w => w.postWrite 0 0 entry []) ?_ ?_
  · intro w h
    simp [World.step, World.procStep, World.startStep, h.size, h.live, h.start, hdst]
  · rintro w ⟨⟩
    constructor <;> simp [World.postWrite, World.setProc, World.newJob, View.wqe, *]

theorem goes_submit (hdst : entry.pr.dst_rank = 1) (hopcode : entry.pr.wr.opcode ≠ .rdmaRead) :
    Goes entry { v with start := .writing .submit 0 entry [] }
      { v with start := .idle, req_submit := v.req_submit + 1 } := by
  refine .of_step (.proc 0 (.startStep false))
    (fun w => w.setProc 0 ((w.procs 0).submit 0 entry [])) ?_ ?_
  · intro w h
    simp [World.step, World.procStep, World.startStep, h.size, h.live, h.start]
  · rintro w ⟨⟩
    constructor <;> simp [World.setProc, Proc.submit, Proc.slots, StartPhase.next, *]

/-- How many receives a request takes. -/
def IbvSendWr.receives (wr : IbvSendWr) : Nat := if wr.opcode = .rdmaWriteWithImm then 1 else 0

theorem goes_execute (wqe : Wqe) (hsrc : wqe.src = 0) (hdst : wqe.dst = 1) :
    Goes entry { v with srq := v.srq + wqe.wr.receives, sq := [wqe], acked := [] }
      { v with sq := [], acked := [wqe] } := by
  refine .of_step (.execute 0) (fun w => w.execute 0 wqe) ?_ ?_
  · intro w h
    simp [World.step, h.sq]
  · rintro w ⟨⟩
    by_cases himm : wqe.wr.opcode = .rdmaWriteWithImm
    · constructor <;>
        simp_all [World.execute, World.misses, World.setProc, IbvSendWr.receives]
    · constructor <;> simp_all [World.execute, World.misses, IbvSendWr.receives]

theorem goes_complete (wqe : Wqe) (hsrc : wqe.src = 0) (hsignaled : wqe.wr.signaled = true) :
    Goes entry { v with shared_cq := [], acked := [wqe] }
      { v with shared_cq := [wqe.sendWc true], acked := [] } := by
  refine .of_step (.complete 0) (fun w => w.complete 0 wqe) ?_ ?_
  · intro w h
    simp [World.step, h.acked]
  · rintro w ⟨⟩
    constructor <;> simp_all [World.complete, World.pushWc, World.setProc]

theorem goes_poll (wc : IbvWc) :
    Goes entry { v with daemon := .idle, shared_cq := [wc] }
      { v with daemon := .handling [wc] 0, shared_cq := [] } := by
  refine .of_step (.proc 0 (.poll 1)) (fun w => w.setProc 0
    { w.procs 0 with shared_cq := [], daemon := .handling [wc] 0 }) ?_ ?_
  · intro w h
    simp [World.step, World.procStep, h.size, h.live, h.daemon, h.shared_cq, h.max_cqe]
  · rintro w ⟨⟩
    constructor <;> simp [World.setProc, *]

theorem goes_handle (wqe : Wqe) (hdst : wqe.dst = 1) (hopcode : wqe.wr.opcode ≠ .rdmaRead)
    (hevent : wqe.wr.wr_id.imm_protocol = 0) :
    Goes entry { v with daemon := .handling [wqe.sendWc true] 0 }
      { v with daemon := .handling [] 0, req_finish := v.req_finish + 1 } := by
  have hhandle : ∀ (flag_pool : FlagPool) (proc : Proc),
      proc.handle flag_pool 0 (wqe.sendWc true) [] 0 =
        .ok { proc.finish 1 with daemon := .handling [] 0 } := by
    intro flag_pool proc
    simp [Proc.handle, Wqe.sendWc, hopcode, hevent, hdst, Proc.eventProgress]
  refine .of_step (.proc 0 .daemonStep) (fun w => w.handled 0 (wqe.sendWc true)
    { (w.procs 0).finish 1 with daemon := .handling [] 0 }) ?_ ?_
  · intro w h
    simp [World.step, World.procStep, World.daemonStep, World.handle, h.size, h.live, h.daemon,
      hhandle]
  · rintro w ⟨⟩
    constructor <;> simp [World.handled, World.setProc, Proc.finish, *]

theorem goes_repost :
    Goes entry { v with daemon := .handling [] 0 } { v with daemon := .idle } := by
  refine .of_step (.proc 0 .daemonStep)
    (fun w => w.setProc 0 { w.procs 0 with srq := (w.procs 0).srq + 0, daemon := .idle }) ?_ ?_
  · intro w h
    simp [World.step, World.procStep, World.daemonStep, h.size, h.live, h.daemon]
  · rintro w ⟨⟩
    constructor <;> simp [World.setProc, *]

end Steps

/-! ### Rounds -/

/-- Between two rounds, after `n` of them. -/
def View.resting (n srq : Nat) : View where
  start := .idle
  daemon := .idle
  next_job := n
  req_submit := n
  req_finish := n
  srq := srq
  shared_cq := []
  sq := []
  acked := []

/-- The request has just been posted and counted. -/
def View.posted (entry : PlanEntry) (n srq : Nat) : View :=
  { View.resting (n + 1) srq with
    req_finish := n, sq := [(View.resting n srq).wqe entry] }

section Rounds

variable {entry : PlanEntry} (hdst : entry.pr.dst_rank = 1)
  (hopcode : entry.pr.wr.opcode ≠ .rdmaRead) (hsignaled : entry.pr.wr.signaled = true)
  (hevent : entry.pr.wr.wr_id.imm_protocol = 0)

include hdst hopcode in
theorem goes_posted (n srq : Nat) :
    Goes entry (.resting n srq) (.posted entry n srq) :=
  (goes_start (v := .resting n srq)).trans <|
    (goes_enter (v := .resting n srq) hdst le_rfl).trans <|
    (goes_test (v := .resting n srq) hdst rfl).trans <|
    (goes_post (v := .resting n srq) hdst).trans <|
    goes_submit (v := { View.posted entry n srq with req_submit := n }) hdst hopcode

include hdst hopcode hsignaled hevent in
theorem goes_round (n srq : Nat) :
    Goes entry (.resting n (srq + entry.pr.wr.receives)) (.resting (n + 1) srq) := by
  have hexecute : Goes entry _ _ :=
    goes_execute (v := .posted entry n srq) ((View.resting n srq).wqe entry) rfl rfl
  have hcomplete : Goes entry _ _ :=
    goes_complete (v := { View.posted entry n srq with sq := [] })
      ((View.resting n srq).wqe entry) rfl hsignaled
  have hpoll : Goes entry _ _ :=
    goes_poll (v := { View.posted entry n srq with sq := [] })
      (((View.resting n srq).wqe entry).sendWc true)
  have hhandle : Goes entry _ _ :=
    goes_handle (v := { View.posted entry n srq with sq := [] })
      ((View.resting n srq).wqe entry) rfl hopcode hevent
  have hrepost : Goes entry _ _ := goes_repost (v := .resting (n + 1) srq)
  exact (goes_posted hdst hopcode n _).trans <| hexecute.trans <| hcomplete.trans <|
    hpoll.trans <| hhandle.trans hrepost

include hdst hopcode hsignaled hevent in
/-- Any number of rounds. -/
theorem goes_rounds (n srq : Nat) :
    Goes entry (.resting 0 (srq + n * entry.pr.wr.receives)) (.resting n srq) := by
  induction n generalizing srq with
  | zero =>
      intro w₀ w hrun h
      exact ⟨w, hrun, by simpa using h⟩
  | succ n ih =>
      have hlast := goes_round hdst hopcode hsignaled hevent n srq
      have hfirst := ih (srq + entry.pr.wr.receives)
      rw [Nat.succ_mul, Nat.add_comm (n * _), ← Nat.add_assoc]
      exact hfirst.trans hlast

end Rounds

/-! ### Two processes -/

open Unr.Mpi (Write)

/-- Two processes whose queues take `max_srq_wr` receives. -/
def World.two (max_srq_wr : Nat) : World :=
  .init 2 ⟨65536, [0, 0]⟩ (fun _ => 0) (fun _ => 0) (fun _ => ⟨1, max_srq_wr⟩)
    fun _ _ => ⟨0, none, 0, 0⟩

def putWrite (rmt_flag_p : Option Nat) : Write where
  dma_type := .dmaPut
  loc_mem := ⟨0, 64, 0⟩
  loc_offset := 0
  loc_flag_p := none
  loc_flag_add := -1#64
  dma_size := 8
  rmt_mem := ⟨0, 64, 1⟩
  rmt_offset := 0
  rmt_flag_p := rmt_flag_p
  rmt_flag_add := -1#64

def putEntry (rmt_flag_p : Option Nat) : PlanEntry where
  pr := {
    wr := {
      wr_id := ⟨0, 0⟩
      sg_list := some ⟨0, 8, 0⟩
      opcode := if rmt_flag_p.isSome then .rdmaWriteWithImm else .rdmaWrite
      inline := true
      signaled := true
      imm_data := BitVec.ofNat 32 (rmt_flag_p.getD 0)
      remote_addr := 0
      rkey := 0 }
    dst_rank := 1 }
  write := putWrite rmt_flag_p

theorem putEntry_made {rmt_flag_p : Option Nat} (hflag : ∀ f ∈ rmt_flag_p, f < 65536) :
    uriVerbsRdmaPlanCreate 2 ⟨65536, [0, 0]⟩ (fun _ => 0) (fun _ => 0) [putWrite rmt_flag_p] =
      .ok [(putEntry rmt_flag_p).pr] := by
  cases rmt_flag_p with
  | none => rfl
  | some f =>
      have hf : f < 65536 := hflag f rfl
      simp [uriVerbsRdmaPlanCreate, planWr, putWrite, putEntry, opcodeOf, setSendEvent,
        setRecvEvent, uriVerbsEventFill, uruAssert, fetch, hf, verbsMaxInlineData]

/-- Any number of puts can be started and completed, as long as the receives of
process 1 last. -/
theorem reaches_resting (rmt_flag_p : Option Nat) (hflag : ∀ f ∈ rmt_flag_p, f < 65536)
    (n srq : Nat) :
    ∃ w, Run World.step (fun _ _ => True)
        (World.two (srq + n * (putEntry rmt_flag_p).pr.wr.receives)) w ∧
      w.Shows (putEntry rmt_flag_p) (.resting n srq) := by
  have hcreate : ∀ m, (World.two m).step (.proc 0 (.create [putWrite rmt_flag_p])) =
      some ((World.two m).setProc 0
        (((World.two m).procs 0).addPlan [putWrite rmt_flag_p] [(putEntry rmt_flag_p).pr])) := by
    intro m
    have hmade := putEntry_made hflag
    simp only [World.step, World.procStep, World.two, World.init, Proc.init, hmade]
    rfl
  have hopcode : (putEntry rmt_flag_p).pr.wr.opcode ≠ .rdmaRead := by
    cases rmt_flag_p <;> rintro ⟨⟩
  refine goes_rounds rfl hopcode rfl rfl n srq _ _ (.snoc .nil trivial (hcreate _)) ?_
  constructor <;> rfl

end Unr.Verbs
