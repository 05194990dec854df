import Unr.Mpi.Channel

/-!
What a step of a process can do, with everything it has checked.

The invariants of the later files are proved by cases on this list, so that
none of them has to take the step function apart again.
-/

namespace Unr.Mpi

open Unr.Uru

def Proc.counted (proc : Proc) (src : Nat) : Proc :=
  { proc with
    ctrl_received := Function.update proc.ctrl_received src (proc.ctrl_received src + 1) }

def Proc.setTable (proc : Proc) (src : Nat) (table : List (Option OpBatch)) : Proc :=
  { proc with recv_batch := Function.update proc.recv_batch src table }

def Proc.enter (proc : Proc) (user : UserPhase) : Proc := { proc with user := user }

def Proc.setTagPool (proc : Proc) (dst : Nat) (pool : IntPool) : Proc :=
  { proc with mpi_tag := Function.update proc.mpi_tag dst pool }

def Proc.setIdPool (proc : Proc) (dst : Nat) (pool : IntPool) : Proc :=
  { proc with batch_id := Function.update proc.batch_id dst pool }

def Proc.goOn (proc : Proc) (daemon : DaemonPhase) : Proc := { proc with daemon := daemon }

def Proc.flagged (proc : Proc) (flags : Nat → UruFlag) (pushed : List (Nat × Int)) : Proc :=
  { proc with flags := flags, pushed := pushed }

def Proc.halt (proc : Proc) (stop : Stop) : Proc := { proc with halted := some stop }

/-- The steps of process `rank`, which is in state `proc`. -/
inductive Move (w : World) (rank : Nat) (proc : Proc) : ProcAct → Proc → Prop
  | beginCreate {once_now : Bool} {writes : List Write} (huser : proc.user = .idle)
      (hwrites : writes ≠ []) :
      Move w rank proc (.beginCreate once_now writes)
        { proc with
          next_plan := proc.next_plan + 1
          user := .creating once_now proc.next_plan writes none [] [] [] }
  | sortOps {once_now : Bool} {plan : Nat} {send_ops recv_ops sorted : List MpiOp}
      {mpi_op : List Entry}
      (huser : proc.user = .creating once_now plan [] none send_ops recv_ops mpi_op)
      (hperm : sorted.Perm recv_ops) (hsorted : sorted.Pairwise (·.rank ≤ ·.rank)) :
      Move w rank proc (.sortOps sorted)
        { proc with user := .announcing once_now plan send_ops (receivers sorted) [] mpi_op }
  | beginStart {plan : Nat} {p : Plan} (huser : proc.user = .idle)
      (hp : proc.plans.find? (·.plan == plan) = some p) :
      Move w rank proc (.beginStart plan)
        { proc with
          next_start := proc.next_start + 1
          user := .starting p proc.next_start p.recv_batch p.send_batch [] }
  | beginDestroy {plan : Nat} {p : Plan} (huser : proc.user = .idle)
      (hp : proc.plans.find? (·.plan == plan) = some p) :
      Move w rank proc (.beginDestroy plan)
        { proc with
          plans := proc.plans.erase p
          user := .destroying p p.send_batch p.recv_batch [] }
  | beginClose (huser : proc.user = .finalizing) (hdaemon : proc.daemon = .drain) :
      Move w rank proc .beginClose { proc with user := .reducing proc.queue.length }
  | drawTag {once_now : Bool} {plan tag : Nat} {wr : Write} {rest : List Write}
      {send_ops recv_ops : List MpiOp} {mpi_op : List Entry} {pool : IntPool}
      (huser : proc.user = .creating once_now plan (wr :: rest) none send_ops recv_ops mpi_op)
      (hcheck : wr.check w.size rank = .ok ())
      (hget : (proc.mpi_tag wr.rmt_mem.rank).get w.size rank = .ok (tag, pool)) :
      Move w rank proc .userStep
        ((proc.setTagPool wr.rmt_mem.rank pool).enter
          (.creating once_now plan (wr :: rest) (some tag) send_ops recv_ops mpi_op))
  | writeOnce {plan tag : Nat} {wr : Write} {rest : List Write}
      {send_ops recv_ops : List MpiOp} {mpi_op : List Entry}
      (huser : proc.user = .creating true plan (wr :: rest) (some tag) send_ops recv_ops mpi_op) :
      Move w rank proc .userStep
        ((proc.post (wr.sendOp (freeOp ||| freeTag) plan send_ops.length tag) true
          ⟨rank, plan, 0, send_ops.length⟩).enter
          (.creating true plan rest none (send_ops ++ [wr.sendOp 0 plan send_ops.length tag])
            (recv_ops ++ [wr.recvOp freeOp plan send_ops.length tag])
            (mpi_op ++ [proc.entry (wr.sendOp (freeOp ||| freeTag) plan send_ops.length tag) .own
              ⟨rank, plan, 0, send_ops.length⟩])))
  | writeKept {plan tag : Nat} {wr : Write} {rest : List Write}
      {send_ops recv_ops : List MpiOp} {mpi_op : List Entry}
      (huser : proc.user = .creating false plan (wr :: rest) (some tag) send_ops recv_ops mpi_op) :
      Move w rank proc .userStep
        (proc.enter (.creating false plan rest none
          (send_ops ++ [wr.sendOp (keepOp ||| keepReq) plan send_ops.length tag])
          (recv_ops ++ [wr.recvOp (keepOp ||| keepReq) plan send_ops.length tag]) mpi_op))
  | announceOnce {plan : Nat} {op : MpiOp} {ops send_ops : List MpiOp}
      {groups : List (List MpiOp)} {recv_batch : List RecvBatch} {mpi_op : List Entry}
      (huser : proc.user =
        .announcing true plan send_ops ((op :: ops) :: groups) recv_batch mpi_op) :
      Move w rank proc .userStep
        ((proc.send op.rank (.executeOpBatch ⟨plan, addressed rank (op :: ops)⟩)).enter
          (.announcing true plan send_ops groups recv_batch (mpi_op ++ [ctrlEntry op.rank])))
  | announceKept {plan batch_id : Nat} {op : MpiOp} {ops send_ops : List MpiOp}
      {groups : List (List MpiOp)} {recv_batch : List RecvBatch} {mpi_op : List Entry}
      {pool : IntPool}
      (huser : proc.user =
        .announcing false plan send_ops ((op :: ops) :: groups) recv_batch mpi_op)
      (hget : (proc.batch_id op.rank).get w.size rank = .ok (batch_id, pool)) :
      Move w rank proc .userStep
        (((proc.send op.rank
          (.createOpBatch batch_id ⟨plan, addressed rank (op :: ops)⟩)).setIdPool op.rank
            pool).enter
          (.announcing false plan send_ops groups (recv_batch ++ [⟨batch_id, op :: ops⟩])
            (mpi_op ++ [ctrlEntry op.rank])))
  | finishCreate {once_now : Bool} {plan : Nat} {send_ops : List MpiOp}
      {recv_batch : List RecvBatch} {mpi_op : List Entry}
      (huser : proc.user = .announcing once_now plan send_ops [] recv_batch mpi_op) :
      Move w rank proc .userStep (proc.finishCreate once_now plan send_ops recv_batch mpi_op)
  | startBatch {p : Plan} {start : Nat} {b : RecvBatch} {batches : List RecvBatch}
      {ops : List MpiOp} {mpi_op : List Entry}
      (huser : proc.user = .starting p start (b :: batches) ops mpi_op) :
      Move w rank proc .userStep (proc.startBatch p start b batches ops mpi_op)
  | startOp {p : Plan} {start : Nat} {op : MpiOp} {ops : List MpiOp} {mpi_op : List Entry}
      (huser : proc.user = .starting p start [] (op :: ops) mpi_op) :
      Move w rank proc .userStep (proc.startOp rank p start op ops mpi_op)
  | finishStart {p : Plan} {start : Nat} {mpi_op : List Entry}
      (huser : proc.user = .starting p start [] [] mpi_op) :
      Move w rank proc .userStep (proc.finishCall mpi_op)
  | destroyOp {p : Plan} {op : MpiOp} {ops : List MpiOp} {batches : List RecvBatch}
      {mpi_op : List Entry} {pool : IntPool}
      (huser : proc.user = .destroying p (op :: ops) batches mpi_op)
      (hput : (proc.mpi_tag op.rank).put w.size rank op.tag = .ok pool) :
      Move w rank proc .userStep
        ((proc.setTagPool op.rank pool).enter (.destroying p ops batches mpi_op))
  | destroyBatch {p : Plan} {b : RecvBatch} {batches : List RecvBatch} {mpi_op : List Entry}
      {pool : IntPool} (huser : proc.user = .destroying p [] (b :: batches) mpi_op)
      (hput : (proc.batch_id b.dst_rank).put w.size rank b.batch_id = .ok pool) :
      Move w rank proc .userStep
        (((proc.send b.dst_rank (.destroyOpBatch b.batch_id p.plan)).setIdPool b.dst_rank
            pool).enter
          (.destroying p [] batches (mpi_op ++ [ctrlEntry b.dst_rank])))
  | finishDestroy {p : Plan} {mpi_op : List Entry}
      (huser : proc.user = .destroying p [] [] mpi_op) :
      Move w rank proc .userStep (proc.finishCall mpi_op)
  | closeLoop {max_arr_tail : Nat} (huser : proc.user = .calling max_arr_tail true)
      (hdaemon : proc.daemon = .drain) :
      Move w rank proc .userStep (proc.closeLoop max_arr_tail)
  | userHalt {stop : Stop} : Move w rank proc .userStep (proc.halt stop)
  | recvCreate {src batch_id : Nat} {batch : OpBatch} {table : List (Option OpBatch)}
      (hdaemon : proc.daemon = .drain) (hpolls : proc.polls = true) (hsrc : src < w.size)
      (hmsg : ((w.procs src).ctrl_sent rank)[proc.ctrl_received src]? =
        some (.createOpBatch batch_id batch))
      (hgrow : growTable (proc.recv_batch src) batch_id = .ok table)
      (hslot : table[batch_id]? = some none) :
      Move w rank proc (.recvCtrl src)
        ((proc.counted src).setTable src (table.set batch_id (some batch)))
  | recvDestroy {src batch_id plan : Nat} {batch : OpBatch}
      (hdaemon : proc.daemon = .drain) (hpolls : proc.polls = true) (hsrc : src < w.size)
      (hmsg : ((w.procs src).ctrl_sent rank)[proc.ctrl_received src]? =
        some (.destroyOpBatch batch_id plan))
      (hslot : (proc.recv_batch src)[batch_id]? = some (some batch)) :
      Move w rank proc (.recvCtrl src)
        ((proc.counted src).setTable src ((proc.recv_batch src).set batch_id none))
  | recvStart {src batch_id plan start : Nat} {batch : OpBatch}
      (hdaemon : proc.daemon = .drain) (hpolls : proc.polls = true) (hsrc : src < w.size)
      (hmsg : ((w.procs src).ctrl_sent rank)[proc.ctrl_received src]? =
        some (.startOpBatch batch_id plan start))
      (hslot : (proc.recv_batch src)[batch_id]? = some (some batch)) :
      Move w rank proc (.recvCtrl src)
        ((proc.counted src).goOn (.posting src (some start) batch.ops []))
  | recvExecute {src : Nat} {batch : OpBatch}
      (hdaemon : proc.daemon = .drain) (hpolls : proc.polls = true) (hsrc : src < w.size)
      (hmsg : ((w.procs src).ctrl_sent rank)[proc.ctrl_received src]? =
        some (.executeOpBatch batch)) :
      Move w rank proc (.recvCtrl src)
        ((proc.counted src).goOn (.posting src none batch.ops []))
  | recvHalt {src : Nat} {msg : CtrlMsg} {stop : Stop} (hdaemon : proc.daemon = .drain)
      (hpolls : proc.polls = true) (hsrc : src < w.size)
      (hmsg : ((w.procs src).ctrl_sent rank)[proc.ctrl_received src]? = some msg)
      (hcall : (proc.counted src).processCtrlMsg src msg = .error stop) :
      Move w rank proc (.recvCtrl src) ((proc.counted src).halt stop)
  | testSome {done : List Bool} (hdaemon : proc.daemon = .drain) (hpolls : proc.polls = true)
      (hlen : done.length = proc.queue.length)
      (hdone : ∀ e ∈ pick true done proc.queue, w.complete rank e = true) :
      Move w rank proc (.testSome done) (proc.testSome done)
  | postStarted {src start : Nat} {op : MpiOp} {rest : List MpiOp} {mpi_op : List Entry}
      (hdaemon : proc.daemon = .posting src (some start) (op :: rest) mpi_op) :
      Move w rank proc .daemonStep
        (((proc.post op false ⟨src, op.plan, start, op.index⟩).goOn
          (.posting src (some start) rest
            (mpi_op ++ [proc.entry op .peer ⟨src, op.plan, start, op.index⟩]))).activate
          (proc.entry op .peer ⟨src, op.plan, start, op.index⟩))
  | postOnce {src : Nat} {op : MpiOp} {rest : List MpiOp} {mpi_op : List Entry}
      (hdaemon : proc.daemon = .posting src none (op :: rest) mpi_op)
      (hfree : hasBit op.flag freeTag = false) :
      Move w rank proc .daemonStep
        ((proc.post op false ⟨src, op.plan, 0, op.index⟩).goOn
          (.posting src none rest
            (mpi_op ++ [proc.entry op .peer ⟨src, op.plan, 0, op.index⟩])))
  | postHalt {src : Nat} {op : MpiOp} {rest : List MpiOp} {mpi_op : List Entry} {stop : Stop}
      (hdaemon : proc.daemon = .posting src none (op :: rest) mpi_op)
      (hfree : hasBit op.flag freeTag = true) :
      Move w rank proc .daemonStep
        (((proc.post op false ⟨src, op.plan, 0, op.index⟩).goOn
          (.posting src none rest
            (mpi_op ++ [proc.entry op .peer ⟨src, op.plan, 0, op.index⟩]))).halt stop)
  | finishPosting {src : Nat} {start : Option Nat} {mpi_op : List Entry}
      (hdaemon : proc.daemon = .posting src start [] mpi_op) :
      Move w rank proc .daemonStep ((proc.append mpi_op).goOn .drain)
  | keepTag {e : Entry} {rest : List Entry} {flags : Nat → UruFlag} {pushed : List (Nat × Int)}
      (hdaemon : proc.daemon = .effects (e :: rest))
      (hflag : proc.progressFlag e.op = .ok (proc.flagged flags pushed))
      (hbit : hasBit e.op.flag freeTag = false) :
      Move w rank proc .daemonStep ((proc.flagged flags pushed).goOn (.effects rest))
  | returnTag {e : Entry} {rest : List Entry} {flags : Nat → UruFlag}
      {pushed : List (Nat × Int)} {pool : IntPool}
      (hdaemon : proc.daemon = .effects (e :: rest))
      (hflag : proc.progressFlag e.op = .ok (proc.flagged flags pushed))
      (hbit : hasBit e.op.flag freeTag = true)
      (hput : (proc.mpi_tag e.op.rank).put w.size rank e.op.tag = .ok pool) :
      Move w rank proc .daemonStep
        (((proc.flagged flags pushed).goOn (.effects rest)).setTagPool e.op.rank pool)
  | finishEffects (hdaemon : proc.daemon = .effects []) :
      Move w rank proc .daemonStep (proc.goOn .drain)
  | daemonHalt {e : Entry} {rest : List Entry} {stop : Stop}
      (hdaemon : proc.daemon = .effects (e :: rest)) :
      Move w rank proc .daemonStep (proc.halt stop)

section Inversion

variable {w : World} {rank : Nat} {proc proc' : Proc}

/-- A call of the user thread that may stop the process. -/
theorem Move.of_orHalt {result : Prog Proc}
    (h : ∀ proc', result = .ok proc' → Move w rank proc .userStep proc') :
    Move w rank proc .userStep (proc.orHalt result) := by
  cases result with
  | ok proc' => exact h proc' rfl
  | error stop => exact .userHalt

theorem userStep_cases (h : proc.userStep w.size rank = some proc') :
    Move w rank proc .userStep proc' := by
  match huser : proc.user with
  | .creating once_now plan (wr :: rest) none send_ops recv_ops mpi_op =>
      simp only [Proc.userStep, huser, Option.some.injEq] at h
      subst h
      refine Move.of_orHalt fun proc' hcall => ?_
      simp only [Proc.drawTag, bind_eq_ok, pure_eq_ok, Prod.exists] at hcall
      obtain ⟨⟨⟩, hcheck, tag, pool, hget, rfl⟩ := hcall
      exact .drawTag huser hcheck hget
  | .creating once_now plan (wr :: rest) (some tag) send_ops recv_ops mpi_op =>
      simp only [Proc.userStep, huser, Option.some.injEq] at h
      subst h
      cases once_now with
      | true => exact .writeOnce huser
      | false => exact .writeKept huser
  | .announcing once_now plan send_ops ((op :: ops) :: groups) recv_batch mpi_op =>
      simp only [Proc.userStep, huser, Option.some.injEq] at h
      subst h
      refine Move.of_orHalt fun proc' hcall => ?_
      cases once_now with
      | true =>
          cases hcall
          exact .announceOnce huser
      | false =>
          simp only [Proc.announce, Bool.false_eq_true, if_false, bind_eq_ok, pure_eq_ok,
            Prod.exists] at hcall
          obtain ⟨batch_id, pool, hget, rfl⟩ := hcall
          exact .announceKept huser hget
  | .announcing once_now plan send_ops [] recv_batch mpi_op =>
      simp only [Proc.userStep, huser, Option.some.injEq] at h
      subst h
      exact .finishCreate huser
  | .starting p start (b :: batches) ops mpi_op =>
      simp only [Proc.userStep, huser, Option.some.injEq] at h
      subst h
      exact .startBatch huser
  | .starting p start [] (op :: ops) mpi_op =>
      simp only [Proc.userStep, huser, Option.some.injEq] at h
      subst h
      exact .startOp huser
  | .starting p start [] [] mpi_op =>
      simp only [Proc.userStep, huser, Option.some.injEq] at h
      subst h
      exact .finishStart huser
  | .destroying p (op :: ops) batches mpi_op =>
      simp only [Proc.userStep, huser, Option.some.injEq] at h
      subst h
      refine Move.of_orHalt fun proc' hcall => ?_
      simp only [Proc.destroyOp, bind_eq_ok, pure_eq_ok] at hcall
      obtain ⟨pool, hput, rfl⟩ := hcall
      exact .destroyOp huser hput
  | .destroying p [] (b :: batches) mpi_op =>
      simp only [Proc.userStep, huser, Option.some.injEq] at h
      subst h
      refine Move.of_orHalt fun proc' hcall => ?_
      simp only [Proc.destroyBatch, bind_eq_ok, pure_eq_ok] at hcall
      obtain ⟨pool, hput, rfl⟩ := hcall
      exact .destroyBatch huser hput
  | .destroying p [] [] mpi_op =>
      simp only [Proc.userStep, huser, Option.some.injEq] at h
      subst h
      exact .finishDestroy huser
  | .calling max_arr_tail true =>
      simp only [Proc.userStep, huser, Option.ite_none_right_eq_some, Option.some.injEq] at h
      obtain ⟨hdaemon, rfl⟩ := h
      exact .closeLoop huser hdaemon
  | .creating _ _ [] _ _ _ _ | .announcing _ _ _ ([] :: _) _ _ | .calling _ false | .idle
  | .finalizing | .reducing _ | .closed =>
      simp [Proc.userStep, huser] at h

theorem recvCtrl_cases {src : Nat} {msg : CtrlMsg} (hdaemon : proc.daemon = .drain)
    (hpolls : proc.polls = true) (hsrc : src < w.size)
    (hmsg : ((w.procs src).ctrl_sent rank)[proc.ctrl_received src]? = some msg) :
    Move w rank proc (.recvCtrl src) (proc.recvCtrl src msg) := by
  change Move w rank proc (.recvCtrl src)
    ((proc.counted src).orHalt ((proc.counted src).processCtrlMsg src msg))
  match hresult : (proc.counted src).processCtrlMsg src msg with
  | .error stop => exact .recvHalt hdaemon hpolls hsrc hmsg hresult
  | .ok proc' =>
      simp only [Proc.orHalt]
      cases msg with
      | createOpBatch batch_id batch =>
          simp only [Proc.processCtrlMsg, bind_eq_ok, pure_eq_ok, fetch_eq_ok, uruAssert_eq_ok]
            at hresult
          obtain ⟨table, hgrow, slot, hslot, -, hnone, rfl⟩ := hresult
          exact .recvCreate hdaemon hpolls hsrc hmsg hgrow (hnone ▸ hslot)
      | destroyOpBatch batch_id plan =>
          simp only [Proc.processCtrlMsg, bind_eq_ok, fetch_eq_ok] at hresult
          obtain ⟨slot, hslot, hresult⟩ := hresult
          split at hresult
          · cases hresult
            exact .recvDestroy hdaemon hpolls hsrc hmsg hslot
          · simp at hresult
      | startOpBatch batch_id plan start =>
          simp only [Proc.processCtrlMsg, bind_eq_ok, fetch_eq_ok] at hresult
          obtain ⟨-, -, slot, hslot, hresult⟩ := hresult
          split at hresult
          · cases hresult
            exact .recvStart hdaemon hpolls hsrc hmsg hslot
          · simp at hresult
      | executeOpBatch batch =>
          simp only [Proc.processCtrlMsg, Except.ok.injEq] at hresult
          subst hresult
          exact .recvExecute hdaemon hpolls hsrc hmsg

theorem progressFlag_flagged {op : MpiOp} {proc' : Proc} (h : proc.progressFlag op = .ok proc') :
    ∃ flags pushed, proc' = proc.flagged flags pushed := by
  unfold Proc.progressFlag at h
  split at h
  · cases h
    exact ⟨proc.flags, proc.pushed, rfl⟩
  · simp only [bind_eq_ok, pure_eq_ok, Prod.exists] at h
    obtain ⟨flag, push, -, rfl⟩ := h
    exact ⟨_, _, rfl⟩

theorem daemonStep_cases (h : proc.daemonStep w.size rank = some proc') :
    Move w rank proc .daemonStep proc' := by
  cases hdaemon : proc.daemon with
  | drain => simp [Proc.daemonStep, hdaemon] at h
  | posting src start ops mpi_op =>
      cases ops with
      | nil =>
          simp only [Proc.daemonStep, hdaemon, Option.some.injEq] at h
          subst h
          exact .finishPosting hdaemon
      | cons op rest =>
          simp only [Proc.daemonStep, hdaemon, Option.some.injEq] at h
          subst h
          cases start with
          | some start => exact .postStarted hdaemon
          | none =>
              unfold Proc.postOp
              by_cases hfree : hasBit op.flag freeTag = false
              · simp only [hfree, uruAssert, if_true]
                exact .postOnce hdaemon hfree
              · simp only [hfree, uruAssert]
                exact .postHalt hdaemon (by simpa using hfree)
  | effects es =>
      cases es with
      | nil =>
          simp only [Proc.daemonStep, hdaemon, Option.some.injEq] at h
          subst h
          exact .finishEffects hdaemon
      | cons e rest =>
          simp only [Proc.daemonStep, hdaemon, Option.some.injEq] at h
          subst h
          cases hresult : proc.progressOp w.size rank e.op rest with
          | error stop => exact .daemonHalt hdaemon
          | ok proc' =>
              simp only [Proc.orHalt]
              simp only [Proc.progressOp, bind_eq_ok] at hresult
              obtain ⟨mid, hflag, -, -, -, -, -, -, -, -, hresult⟩ := hresult
              obtain ⟨flags, pushed, rfl⟩ := progressFlag_flagged hflag
              by_cases hbit : hasBit e.op.flag freeTag = true
              · rw [if_pos hbit] at hresult
                simp only [bind_eq_ok, pure_eq_ok] at hresult
                obtain ⟨pool, hput, rfl⟩ := hresult
                exact .returnTag hdaemon hflag hbit hput
              · rw [if_neg hbit] at hresult
                cases hresult
                exact .keepTag hdaemon hflag (by simpa using hbit)

/-- A test changes the phase of the user thread only where the test is made by
`uri_mpi_channel_close`. -/
theorem testSome_user (proc : Proc) (done : List Bool) :
    (proc.testSome done).user = proc.user ∨ ∃ max_arr_tail tested,
      proc.user = .calling max_arr_tail tested ∧
        (proc.testSome done).user = .calling max_arr_tail true := by
  cases huser : proc.user with
  | calling max_arr_tail tested =>
      exact .inr ⟨max_arr_tail, tested, rfl, by simp [Proc.testSome, huser]⟩
  | idle | creating | announcing | starting | destroying | finalizing | reducing | closed =>
      exact .inl (by simp [Proc.testSome, huser])

theorem testSome_same {β : Type} (proc : Proc) (done : List Bool) (f : UserPhase → β)
    (hcalling : ∀ n tested, f (.calling n tested) = f (.calling n true)) :
    f (proc.testSome done).user = f proc.user := by
  rcases testSome_user proc done with hsame | ⟨n, tested, hold, hnew⟩
  · rw [hsame]
  · rw [hold, hnew, hcalling n tested]

theorem testSome_keeps {P : UserPhase → Prop} {proc : Proc} (done : List Bool) (h : P proc.user)
    (hcalling : ∀ n, P (.calling n true)) : P (proc.testSome done).user := by
  rcases testSome_user proc done with hsame | ⟨n, tested, -, hnew⟩
  · rw [hsame]
    exact h
  · rw [hnew]
    exact hcalling n

/-- Every step of a process is in the list. -/
theorem procStep_cases {a : ProcAct} (h : w.procStep rank a = some proc') :
    Move w rank (w.procs rank) a proc' := by
  cases a with
  | beginCreate once_now writes =>
      simp only [World.procStep, Option.ite_none_right_eq_some, Option.some.injEq] at h
      obtain ⟨⟨huser, hwrites⟩, rfl⟩ := h
      exact .beginCreate huser hwrites
  | sortOps sorted =>
      simp only [World.procStep] at h
      split at h
      · simp only [Option.ite_none_right_eq_some, Option.some.injEq] at h
        obtain ⟨⟨hperm, hsorted⟩, rfl⟩ := h
        exact .sortOps ‹_› hperm hsorted
      · cases h
  | beginStart plan =>
      simp only [World.procStep] at h
      split at h
      · cases h
        exact .beginStart ‹_› ‹_›
      · cases h
  | beginDestroy plan =>
      simp only [World.procStep] at h
      split at h
      · cases h
        exact .beginDestroy ‹_› ‹_›
      · cases h
  | beginClose =>
      simp only [World.procStep, Option.ite_none_right_eq_some, Option.some.injEq] at h
      obtain ⟨⟨huser, hdaemon⟩, rfl⟩ := h
      exact .beginClose huser hdaemon
  | userStep => exact userStep_cases h
  | recvCtrl src =>
      simp only [World.procStep, Option.ite_none_right_eq_some, Option.map_eq_some_iff] at h
      obtain ⟨⟨hdaemon, hpolls, hsrc⟩, msg, hmsg, rfl⟩ := h
      exact recvCtrl_cases hdaemon hpolls hsrc hmsg
  | testSome done =>
      simp only [World.procStep, Option.ite_none_right_eq_some, Option.some.injEq] at h
      obtain ⟨⟨hdaemon, hpolls, hlen, hdone⟩, rfl⟩ := h
      exact .testSome hdaemon hpolls hlen hdone
  | daemonStep => exact daemonStep_cases h

end Inversion

/-! ### Entries in hand -/

def UserPhase.entries : UserPhase → List Entry
  | creating _ _ _ _ _ _ mpi_op | announcing _ _ _ _ _ mpi_op | starting _ _ _ _ mpi_op
  | destroying _ _ _ mpi_op => mpi_op
  | _ => []

def DaemonPhase.posted : DaemonPhase → List Entry
  | posting _ _ _ mpi_op => mpi_op
  | _ => []

/-- The entries of operations that are not reported as complete. -/
def Proc.inHand (proc : Proc) : List Entry :=
  proc.user.entries ++ proc.queue ++ proc.daemon.posted

/-- The entries that are still in the queue and those that are reported. -/
theorem pick_perm {α : Type} (done : List Bool) (xs : List α) (h : done.length = xs.length) :
    xs.Perm (pick false done xs ++ pick true done xs) := by
  induction done generalizing xs with
  | nil =>
      cases xs with
      | nil => exact List.Perm.refl _
      | cons x xs => simp at h
  | cons m done ih =>
      cases xs with
      | nil => simp at h
      | cons x xs =>
          have hrest := ih xs (by simpa using h)
          cases m with
          | false => simpa [pick] using hrest.cons x
          | true =>
              simp only [pick, if_true, Bool.true_eq_false, if_false]
              exact (hrest.cons x).trans List.perm_middle.symm

section InHand

variable {w : World} {rank : Nat} {proc proc' : Proc} {a : ProcAct}

/-- An entry is given up only when it is reported. -/
theorem Move.inHand (hmove : Move w rank proc a proc') {e : Entry} (he : e ∈ proc.inHand) :
    e ∈ proc'.inHand ∨ ∃ done, a = .testSome done ∧ e ∈ pick true done proc.queue := by
  simp only [Proc.inHand, List.append_assoc, List.mem_append] at he ⊢
  cases hmove with
  | beginCreate huser | sortOps huser | beginStart huser | beginDestroy huser | beginClose huser
  | drawTag huser | writeKept huser | destroyOp huser =>
      rw [huser] at he
      exact .inl he
  | writeOnce huser | announceOnce huser | announceKept huser | startBatch huser | startOp huser
  | destroyBatch huser =>
      rw [huser] at he
      exact .inl (he.imp (fun he => List.mem_append_left _ he) id)
  | finishCreate huser | finishStart huser | finishDestroy huser =>
      rw [huser] at he
      refine .inl (.inr ?_)
      rcases he with he | he | he
      · exact .inl (List.mem_append_right _ he)
      · exact .inl (List.mem_append_left _ he)
      · exact .inr he
  | closeLoop huser =>
      rw [huser] at he
      refine .inl ?_
      rcases he with he | he
      · exact nomatch he
      · exact .inr he
  | userHalt | recvCreate | recvDestroy | recvHalt | daemonHalt => exact .inl he
  | recvStart hdaemon | recvExecute hdaemon =>
      rw [hdaemon] at he
      exact .inl he
  | postStarted hdaemon | postOnce hdaemon | postHalt hdaemon =>
      rw [hdaemon] at he
      exact .inl (he.imp id (Or.imp id fun he => List.mem_append_left _ he))
  | finishPosting hdaemon =>
      rw [hdaemon] at he
      refine .inl (he.imp id fun he => .inl (List.mem_append.mpr ?_))
      exact he
  | keepTag hdaemon | returnTag hdaemon | finishEffects hdaemon =>
      rw [hdaemon] at he
      exact .inl he
  | @testSome done hdaemon _ hlen =>
      rw [hdaemon] at he
      have hentries := testSome_same proc done UserPhase.entries fun _ _ => rfl
      rcases he with he | he | he
      · exact .inl (.inl (hentries ▸ he))
      · rcases List.mem_append.mp ((pick_perm done _ hlen).mem_iff.mp he) with he | he
        · exact .inl (.inr (.inl he))
        · exact .inr ⟨done, rfl, he⟩
      · exact nomatch he

end InHand

/-- A step of the whole system. -/
theorem step_cases {w w' : World} {a : Act} (h : w.step a = some w') :
    (∃ rank pa proc', a = .proc rank pa ∧ rank < w.size ∧ (w.procs rank).halted = none ∧
      Move w rank (w.procs rank) pa proc' ∧
      w' = { w with procs := Function.update w.procs rank proc' }) ∨
    (a = .barrier ∧ (∀ p < w.size, (w.procs p).user = .idle ∧ (w.procs p).halted = none) ∧
      w' = w.setUser .finalizing) ∨
    (a = .allreduce ∧
      (∀ p < w.size, (w.procs p).user.contribution.isSome ∧ (w.procs p).halted = none) ∧
      w' = w.setUser (.calling w.maxArrTail false)) := by
  cases a with
  | proc rank pa =>
      simp only [World.step, Option.ite_none_right_eq_some, Option.map_eq_some_iff] at h
      obtain ⟨⟨hrank, hlive⟩, proc', hproc, rfl⟩ := h
      exact .inl ⟨rank, pa, proc', rfl, hrank, hlive, procStep_cases hproc, rfl⟩
  | barrier =>
      simp only [World.step, Option.ite_none_right_eq_some, Option.some.injEq] at h
      exact .inr (.inl ⟨rfl, h.1, h.2.symm⟩)
  | allreduce =>
      simp only [World.step, Option.ite_none_right_eq_some, Option.some.injEq] at h
      exact .inr (.inr ⟨rfl, h.1, h.2.symm⟩)

end Unr.Mpi
