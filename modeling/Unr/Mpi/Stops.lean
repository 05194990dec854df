import Unr.Mpi.Numbers
import Unr.Mpi.OpData
import Unr.Mpi.BatchTable
import Unr.Mpi.Lifetimes

/-!
What can stop a process.

A process stops where an assertion fails, where it exits, or where the
behaviour of the program is undefined. Most of these places are never
reached: the flags of an operation never contradict each other, a number is
returned to the pool it was drawn from, a message finds the table it is meant
for. What is left are the checks on the arguments of a call, a pool that has
run out of numbers, a table that grows beyond an `int`, and a counter that
falls below zero.
-/

namespace Unr.Mpi

open Unr.Uru Unr.Logic

/-! ### What holds of every operation -/

/-- A property that all operations have when they are made, and that does not
depend on the rank. -/
structure OpInvariant (P : MpiOp → Prop) : Prop where
  sendOp : ∀ (wr : Write) (flag : BitVec 8) (plan index tag : Nat),
    flag = 0 ∨ flag = freeOp ||| freeTag ∨ flag = keepOp ||| keepReq →
      P (wr.sendOp flag plan index tag)
  recvOp : ∀ (wr : Write) (flag : BitVec 8) (plan index tag : Nat),
    flag = freeOp ∨ flag = keepOp ||| keepReq → P (wr.recvOp flag plan index tag)
  ctrl : ∀ dst_rank, P (ctrlEntry dst_rank).op
  rank : ∀ op rank, P op → P { op with rank := rank }

/-- The operations that a running call has made or has still to start. -/
def UserPhase.ops : UserPhase → List MpiOp
  | creating _ _ _ _ send_ops recv_ops _ => send_ops ++ recv_ops
  | announcing _ _ send_ops groups recv_batch _ =>
      send_ops ++ recv_batch.flatMap (·.ops) ++ groups.flatten
  | starting _ _ _ ops _ => ops
  | _ => []

/-- All operations that a process keeps, has sent or works on. -/
structure Proc.AllOps (P : MpiOp → Prop) (proc : Proc) : Prop where
  user : ∀ op ∈ proc.user.ops, P op
  plans : ∀ p ∈ proc.plans, ∀ op ∈ p.send_batch ++ p.recv_batch.flatMap (·.ops), P op
  sent : ∀ j, ∀ msg ∈ proc.ctrl_sent j, ∀ batch ∈ msg.batch, ∀ op ∈ batch.ops, P op
  daemon : ∀ op ∈ proc.daemon.ops, P op
  entries : ∀ e ∈ proc.unapplied, P e.op

section Moves

variable {P : MpiOp → Prop} {w : World} {rank : Nat} {proc proc' : Proc} {a : ProcAct}

theorem Proc.AllOps.send (h : proc.AllOps P) {dst : Nat} {msg : CtrlMsg}
    (hmsg : ∀ batch ∈ msg.batch, ∀ op ∈ batch.ops, P op) (j : Nat) :
    ∀ m ∈ (proc.send dst msg).ctrl_sent j, ∀ batch ∈ m.batch, ∀ op ∈ batch.ops, P op := by
  intro m hm
  rcases mem_send hm with hm | ⟨-, rfl⟩
  · exact h.sent j m hm
  · exact hmsg

theorem Proc.AllOps.userOnly (h : proc.AllOps P) (huser : ∀ op ∈ proc'.user.ops, P op)
    (hplans : ∀ p ∈ proc'.plans, p ∈ proc.plans) (hsent : proc'.ctrl_sent = proc.ctrl_sent)
    (hdaemon : proc'.daemon = proc.daemon) (hentries : ∀ e ∈ proc'.user.entries ++ proc'.queue,
      e ∈ proc.user.entries ++ proc.queue ∨ P e.op) : proc'.AllOps P where
  user := huser
  plans p hp := h.plans p (hplans p hp)
  sent := hsent ▸ h.sent
  daemon := hdaemon ▸ h.daemon
  entries e he := by
    rw [Proc.unapplied, hdaemon] at he
    rcases List.mem_append.mp he with he | he
    · exact (hentries e he).elim (fun he => h.entries e (List.mem_append_left _ he)) id
    · exact h.entries e (List.mem_append_right _ he)

theorem Proc.AllOps.announced (h : proc.AllOps P) (hP : OpInvariant P) {dst : Nat} {msg : CtrlMsg}
    (hmsg : ∀ batch ∈ msg.batch, ∀ op ∈ batch.ops, P op) (huser : ∀ op ∈ proc'.user.ops, P op)
    (hplans : proc'.plans = proc.plans) (hsent : proc'.ctrl_sent = (proc.send dst msg).ctrl_sent)
    (hdaemon : proc'.daemon = proc.daemon) (hqueue : proc'.queue = proc.queue)
    (hentries : proc'.user.entries = proc.user.entries ++ [ctrlEntry dst]) : proc'.AllOps P where
  user := huser
  plans := hplans ▸ h.plans
  sent := hsent ▸ h.send hmsg
  daemon := hdaemon ▸ h.daemon
  entries e he := by
    simp only [Proc.unapplied, hentries, hqueue, hdaemon, List.mem_append, List.mem_singleton] at he
    have hold := h.entries e
    simp only [Proc.unapplied, List.mem_append] at hold
    rcases he with ((he | rfl) | he) | he
    · exact hold (.inl (.inl he))
    · exact hP.ctrl dst
    · exact hold (.inl (.inr he))
    · exact hold (.inr he)

theorem Proc.AllOps.daemonOnly (h : proc.AllOps P) (huser : proc'.user = proc.user)
    (hplans : proc'.plans = proc.plans) (hsent : proc'.ctrl_sent = proc.ctrl_sent)
    (hdaemon : ∀ op ∈ proc'.daemon.ops, P op)
    (hentries : ∀ e ∈ proc'.queue ++ proc'.daemon.entries,
      e ∈ proc.queue ++ proc.daemon.entries ∨ P e.op) : proc'.AllOps P where
  user := huser ▸ h.user
  plans := hplans ▸ h.plans
  sent := hsent ▸ h.sent
  daemon := hdaemon
  entries e he := by
    rw [Proc.unapplied, huser, List.append_assoc] at he
    have hold := h.entries e
    rw [Proc.unapplied, List.append_assoc] at hold
    rcases List.mem_append.mp he with he | he
    · exact hold (List.mem_append_left _ he)
    · exact (hentries e he).elim (fun he => hold (List.mem_append_right _ he)) id

theorem Proc.AllOps.move (h : proc.AllOps P) (hP : OpInvariant P)
    (hall : ∀ i, (w.procs i).AllOps P) (hlive : proc.halted = none)
    (hlink : ∀ i, Link i ((w.procs i).ctrl_sent rank) proc)
    (hmove : Move w rank proc a proc') : proc'.AllOps P := by
  have huser := h.user
  have hdaemon := h.daemon
  have hnil : ∀ op ∈ ([] : List MpiOp), P op := List.forall_mem_nil _
  cases hmove with
  | beginCreate hphase | beginClose hphase | destroyOp hphase =>
      exact h.userOnly hnil (fun _ hp => hp) rfl rfl fun e he => .inl (hphase ▸ he)
  | beginStart hphase hp =>
      refine h.userOnly (fun op hop => ?_) (fun _ hp => hp) rfl rfl
        fun e he => .inl (hphase ▸ he)
      exact h.plans _ (List.mem_of_find?_eq_some hp) op (List.mem_append_left _ hop)
  | beginDestroy hphase =>
      exact h.userOnly hnil (fun _ => List.mem_of_mem_erase) rfl rfl
        fun e he => .inl (hphase ▸ he)
  | sortOps hphase hperm =>
      rw [hphase] at huser
      refine h.userOnly (fun op hop => huser op ?_) (fun _ hp => hp) rfl rfl
        fun e he => .inl (hphase ▸ he)
      simp only [UserPhase.ops, List.flatMap_nil, List.append_nil, receivers_flatten,
        List.mem_append] at hop ⊢
      exact hop.imp id hperm.mem_iff.mp
  | drawTag hphase =>
      rw [hphase] at huser
      exact h.userOnly huser (fun _ hp => hp) rfl rfl
        fun e he => .inl (hphase ▸ he)
  | writeOnce hphase =>
      rw [hphase] at huser
      refine h.userOnly (fun op hop => ?_) (fun _ hp => hp) rfl rfl fun e he => ?_
      · simp only [Proc.enter, UserPhase.ops, List.mem_append, List.mem_singleton] at hop
        rcases hop with (hop | rfl) | (hop | rfl)
        · exact huser op (List.mem_append_left _ hop)
        · exact hP.sendOp _ _ _ _ _ (.inl rfl)
        · exact huser op (List.mem_append_right _ hop)
        · exact hP.recvOp _ _ _ _ _ (.inl rfl)
      · simp only [Proc.enter, Proc.post, UserPhase.entries, List.mem_append,
          List.mem_singleton] at he
        rcases he with (he | rfl) | he
        · exact .inl (by simp [hphase, UserPhase.entries, he])
        · exact .inr (hP.sendOp _ _ _ _ _ (.inr (.inl rfl)))
        · exact .inl (List.mem_append_right _ he)
  | writeKept hphase =>
      rw [hphase] at huser
      refine h.userOnly (fun op hop => ?_) (fun _ hp => hp) rfl rfl
        fun e he => .inl (hphase ▸ he)
      simp only [Proc.enter, UserPhase.ops, List.mem_append, List.mem_singleton] at hop
      rcases hop with (hop | rfl) | (hop | rfl)
      · exact huser op (List.mem_append_left _ hop)
      · exact hP.sendOp _ _ _ _ _ (.inr (.inr rfl))
      · exact huser op (List.mem_append_right _ hop)
      · exact hP.recvOp _ _ _ _ _ (.inr rfl)
  | announceOnce hphase | announceKept hphase =>
      rw [hphase] at huser
      refine h.announced hP ?_ (fun op hop => huser op ?_) rfl rfl rfl rfl
        (by simp [Proc.enter, UserPhase.entries, hphase])
      · rintro _ ⟨⟩ op hop
        obtain ⟨op', hop', rfl⟩ := List.mem_map.mp hop
        refine hP.rank op' _ (huser op' ?_)
        simp only [UserPhase.ops, List.flatten_cons, List.mem_append]
        exact .inr (.inl hop')
      · simp only [Proc.enter, UserPhase.ops, List.flatten_cons, List.flatMap_append,
          List.flatMap_cons, List.flatMap_nil, List.append_nil, List.mem_append] at hop ⊢
        grind
  | @finishCreate once_now plan send_ops recv_batch mpi_op hphase =>
      rw [hphase] at huser
      have hentries : ∀ e ∈ proc.queue ++ mpi_op, e ∈ proc.user.entries ++ proc.queue := by
        intro e he
        rw [hphase]
        exact (List.perm_append_comm.mem_iff).mp he
      cases once_now with
      | true => exact h.userOnly hnil (fun _ hp => hp) rfl rfl fun e he => .inl (hentries e he)
      | false =>
          refine ⟨hnil, fun p hp => ?_, h.sent, h.daemon, fun e he => ?_⟩
          · rcases List.mem_cons.mp hp with rfl | hp
            · intro op hop
              exact huser op (List.mem_append_left _ hop)
            · exact h.plans p hp
          · rcases List.mem_append.mp he with he | he
            · exact h.entries e (List.mem_append_left _ (hentries e he))
            · exact h.entries e (List.mem_append_right _ he)
  | startBatch hphase =>
      rw [hphase] at huser
      exact h.announced hP (by rintro _ ⟨⟩) huser rfl rfl rfl rfl
        (by simp [Proc.startBatch, UserPhase.entries, hphase])
  | startOp hphase =>
      rw [hphase] at huser
      refine h.userOnly (fun op hop => huser op (List.mem_cons_of_mem _ hop))
        (fun _ hp => hp) rfl rfl
        fun e he => ?_
      simp only [Proc.startOp, Proc.activate, Proc.post, UserPhase.entries, List.mem_append,
        List.mem_singleton] at he
      rcases he with (he | rfl) | he
      · exact .inl (by simp [hphase, UserPhase.entries, he])
      · exact .inr (huser _ (List.mem_cons_self ..))
      · exact .inl (List.mem_append_right _ he)
  | destroyBatch hphase =>
      exact h.announced hP (by rintro _ ⟨⟩) hnil rfl rfl rfl rfl
        (by simp [Proc.enter, UserPhase.entries, hphase])
  | finishStart hphase | finishDestroy hphase =>
      refine h.userOnly hnil (fun _ hp => hp) rfl rfl fun e he => .inl ?_
      rw [hphase]
      exact (List.perm_append_comm.mem_iff).mp he
  | @closeLoop n hphase =>
      have hnone : (proc.closeLoop n).user.ops = [] ∧ (proc.closeLoop n).user.entries = [] := by
        unfold Proc.closeLoop
        split <;> exact ⟨rfl, rfl⟩
      refine h.userOnly (hnone.1 ▸ hnil) (fun _ hp => hp) rfl rfl fun e he => .inl ?_
      rw [hnone.2] at he
      exact List.mem_append_right _ he
  | userHalt | recvCreate | recvDestroy | recvHalt | daemonHalt =>
      exact ⟨h.user, h.plans, h.sent, h.daemon, h.entries⟩
  | @recvStart src batch_id plan start batch hdrain _ _ hmsg hslot =>
      refine h.daemonOnly rfl rfl rfl ?_ fun e he => .inl (hdrain ▸ he)
      have hview : tableMap (proc.recv_batch src) batch_id = some batch := by
        rw [tableMap, hslot]
        rfl
      rw [((hlink src).live hlive).1] at hview
      exact final_batch (Q := fun batch => ∀ op ∈ batch.ops, P op)
        (fun msg hmem => (hall src).sent rank msg (List.mem_of_mem_take hmem)) hview
  | @recvExecute src batch hdrain _ _ hmsg =>
      refine h.daemonOnly rfl rfl rfl ?_ fun e he => .inl (hdrain ▸ he)
      exact (hall src).sent rank _ (List.mem_of_getElem? hmsg) batch rfl
  | postStarted hphase | postOnce hphase | postHalt hphase =>
      rw [hphase] at hdaemon
      refine h.daemonOnly rfl rfl rfl (fun op hop => hdaemon op (List.mem_cons_of_mem _ hop))
        fun e he => ?_
      simp only [Proc.post, Proc.goOn, Proc.activate, Proc.halt, DaemonPhase.entries,
        List.mem_append, List.mem_singleton] at he
      rcases he with he | he | rfl
      · exact .inl (List.mem_append_left _ he)
      · exact .inl (by simp [hphase, DaemonPhase.entries, he])
      · exact .inr (hdaemon _ (List.mem_cons_self ..))
  | finishPosting hphase =>
      exact h.daemonOnly rfl rfl rfl hnil fun e he => .inl (by
        simpa [hphase, Proc.append, Proc.goOn, DaemonPhase.entries] using he)
  | keepTag hphase | returnTag hphase | finishEffects hphase =>
      refine h.daemonOnly rfl rfl rfl hnil fun e he => .inl ?_
      rw [hphase]
      simp only [Proc.flagged, Proc.goOn, Proc.setTagPool, DaemonPhase.entries, List.mem_append,
        List.mem_cons] at he ⊢
      grind
  | @testSome done hphase _ hlen =>
      refine ⟨(testSome_same proc done UserPhase.ops fun _ _ => rfl) ▸ h.user, h.plans, h.sent,
        hnil, fun e he => h.entries e ?_⟩
      rw [Proc.unapplied, testSome_same proc done UserPhase.entries fun _ _ => rfl] at he
      simp only [Proc.testSome, DaemonPhase.entries, Proc.unapplied, List.append_assoc,
        List.mem_append] at he ⊢
      refine he.imp id fun he => .inl ((pick_perm done _ hlen).mem_iff.mpr ?_)
      exact List.mem_append.mpr he

end Moves

theorem World.allOps_run {P : MpiOp → Prop} (hP : OpInvariant P) {C : World → Act → Prop}
    {size : Nat} {flags : Nat → Nat → UruFlag} {w : World}
    (hrun : Run World.step C (World.init size flags) w) (p : Nat) : (w.procs p).AllOps P := by
  have hinit : ∀ p, ((World.init size flags).procs p).AllOps P := fun p =>
    ⟨List.forall_mem_nil _, fun _ hp => absurd hp List.not_mem_nil,
      fun _ _ hmsg => absurd hmsg List.not_mem_nil, List.forall_mem_nil _,
      List.forall_mem_nil _⟩
  refine hrun.invariant (I := fun w => ∀ p, (w.procs p).AllOps P) hinit ?_ p
  intro w a w' hrun ih _ hstep p
  have hinv := World.inv_run hrun
  have hset : ∀ user : UserPhase, user.Resting → (∀ p < w.size, (w.procs p).user.Resting) →
      ((w.setUser user).procs p).AllOps P := by
    intro user hrest hall
    by_cases hp : p < w.size
    · have hold := ih p
      have hentries := hold.entries
      rw [Proc.unapplied, (hall p hp).entries] at hentries
      simp only [World.setUser, hp, if_true]
      refine ⟨?_, hold.plans, hold.sent, hold.daemon, fun e he => hentries e ?_⟩
      · cases user <;> first | exact List.forall_mem_nil _ | cases hrest
      · rwa [Proc.unapplied, hrest.entries] at he
    · simp only [World.setUser, hp, if_false]
      exact ih p
  rcases step_cases hstep with ⟨rank, pa, proc', -, -, hlive, hmove, rfl⟩ | ⟨-, hall, rfl⟩ |
    ⟨-, hall, rfl⟩
  · by_cases hp : p = rank
    · subst hp
      simp only [Function.update_self]
      exact (ih p).move hP ih hlive (fun i => hinv.link i p) hmove
    · simp only [Function.update_of_ne hp]
      exact ih p
  · exact hset _ trivial fun p hp => (hall p hp).1 ▸ trivial
  · exact hset _ trivial fun p hp => resting_of_contribution (hall p hp).1

/-- No flag of an operation asks for something to be freed and kept. -/
def MpiOp.Consistent (op : MpiOp) : Prop :=
  (hasBit op.flag freeAddr → hasBit op.flag keepAddr = false) ∧
    (hasBit op.flag freeReq → hasBit op.flag keepReq = false) ∧
    (hasBit op.flag freeTag → hasBit op.flag keepTag = false) ∧
    (hasBit op.flag freeOp → hasBit op.flag keepOp = false)

theorem consistent_invariant : OpInvariant MpiOp.Consistent where
  sendOp _ _ _ _ _ hflag := by
    simp only [MpiOp.Consistent, Write.sendOp]
    rcases hflag with rfl | rfl | rfl <;> decide
  recvOp _ _ _ _ _ hflag := by
    simp only [MpiOp.Consistent, Write.recvOp]
    rcases hflag with rfl | rfl <;> decide
  ctrl _ := by
    simp only [MpiOp.Consistent, ctrlEntry]
    decide
  rank _ _ h := h

/-! ### Signals in no pool -/

/-- The signals of a process are in no pool, and nothing has been pushed. -/
structure Proc.Unpooled (proc : Proc) : Prop where
  flags : ∀ f, (proc.flags f).queue = none
  pushed : proc.pushed = []

theorem Proc.Unpooled.progressFlag {proc : Proc} (h : proc.Unpooled) {op : MpiOp}
    {flags : Nat → UruFlag} {pushed : List (Nat × Int)}
    (hflag : proc.progressFlag op = .ok (proc.flagged flags pushed)) :
    (proc.flagged flags pushed).Unpooled := by
  unfold Proc.progressFlag at hflag
  split at hflag
  · have hsame := Except.ok.inj hflag
    exact hsame ▸ h
  · rename_i f _
    simp only [bind_eq_ok, Prod.exists] at hflag
    obtain ⟨flag, push, hprogress, hsame⟩ := hflag
    obtain ⟨-, hresult⟩ := UruFlag.progress_eq_ok.mp hprogress
    obtain ⟨rfl, rfl⟩ := Prod.mk.inj hresult
    rw [← Except.ok.inj hsame]
    refine ⟨fun g => ?_, ?_⟩
    · dsimp only
      by_cases hg : g = f
      · rw [hg, Function.update_self]
        exact h.flags _
      · rw [Function.update_of_ne hg]
        exact h.flags g
    · simp [h.pushed, UruFlag.add_queue, h.flags]

theorem Proc.Unpooled.move {w : World} {rank : Nat} {proc proc' : Proc} {a : ProcAct}
    (h : proc.Unpooled) (hmove : Move w rank proc a proc') : proc'.Unpooled := by
  cases hmove with
  | keepTag _ hflag | returnTag _ hflag =>
      exact ⟨(h.progressFlag hflag).flags, (h.progressFlag hflag).pushed⟩
  | _ => exact ⟨h.flags, h.pushed⟩

theorem unpooled_run {C : World → Act → Prop} {size : Nat} {flags : Nat → Nat → UruFlag}
    {w : World} (hrun : Run World.step C (World.init size flags) w)
    (hflags : ∀ p f, (flags p f).queue = none) (p : Nat) : (w.procs p).Unpooled := by
  refine hrun.invariant (I := fun w => ∀ p, (w.procs p).Unpooled) (fun p => ⟨hflags p, rfl⟩) ?_ p
  intro w a w' _ h _ hstep p
  have hset : ∀ user : UserPhase, ((w.setUser user).procs p).Unpooled := by
    intro user
    simp only [World.setUser]
    split <;> exact ⟨(h p).flags, (h p).pushed⟩
  rcases step_cases hstep with ⟨rank, pa, proc', -, -, -, hmove, rfl⟩ | ⟨-, -, rfl⟩ | ⟨-, -, rfl⟩
  · by_cases hp : p = rank
    · subst hp
      simp only [Function.update_self]
      exact (h p).move hmove
    · simp only [Function.update_of_ne hp]
      exact h p
  · exact hset _
  · exact hset _

/-! ### Pools that have run out -/

def IntPool.Bounded (size : Nat) (pool : IntPool) : Prop :=
  pool.max = 1 ∨ pool.max < poolLimit size

theorem IntPool.Bounded.get {size rank num : Nat} {pool pool' : IntPool} (h : pool.Bounded size)
    (hget : pool.get size rank = .ok (num, pool')) : pool'.Bounded size := by
  obtain ⟨max, stack⟩ := pool
  cases stack with
  | cons ret stack =>
      simp only [IntPool.get, bind_eq_ok, pure_eq_ok, Prod.mk.injEq] at hget
      obtain ⟨-, -, -, rfl⟩ := hget
      exact h
  | nil =>
      simp only [IntPool.get, bind_eq_ok, pure_eq_ok, uruAssert_eq_ok, Prod.mk.injEq] at hget
      obtain ⟨-, hlimit, -, -, -, rfl⟩ := hget
      exact .inr hlimit

theorem IntPool.Bounded.put {size rank num : Nat} {pool pool' : IntPool} (h : pool.Bounded size)
    (hput : pool.put size rank num = .ok pool') : pool'.Bounded size := by
  simp only [IntPool.put, bind_eq_ok, pure_eq_ok] at hput
  obtain ⟨-, -, rfl⟩ := hput
  exact h

theorem bounded_use {size rank : Nat} {pools pools' : Nat → IntPool} {held held' : List (Nat × Nat)}
    (h : ∀ j, (pools j).Bounded size) (huse : PoolUse size rank pools held pools' held') (j : Nat) :
    (pools' j).Bounded size := by
  cases huse with
  | same => exact h j
  | @get dst num pool _ hget =>
      by_cases hj : j = dst
      · rw [hj, Function.update_self]
        exact (h dst).get hget
      · rw [Function.update_of_ne hj]
        exact h j
  | @put dst num pool _ hput =>
      by_cases hj : j = dst
      · rw [hj, Function.update_self]
        exact (h dst).put hput
      · rw [Function.update_of_ne hj]
        exact h j

def IntPool.RunOut (size : Nat) (pool : IntPool) : Prop :=
  pool.recycle_stack = [] ∧ poolLimit size ≤ pool.max + 1

/-- Recycled numbers have passed the assertions before, so only a new number
can fail them. -/
theorem IntPool.get_eq_error_iff {size rank : Nat} {pool : IntPool} {held : List Nat} {stop : Stop}
    (hsize : 0 < size) (hexact : pool.Exact size rank held) (hbounded : pool.Bounded size) :
    pool.get size rank = .error stop ↔ pool.RunOut size ∧ stop = .exit .assertExit := by
  obtain ⟨max, stack⟩ := pool
  cases stack with
  | cons ret stack =>
      have hmem : ret * size + rank ∈ (List.range' 1 (max - 1)).map (· * size + rank) :=
        hexact.perm.mem_iff.mp (by simp)
      obtain ⟨k, hk, heq⟩ := List.mem_map.mp hmem
      obtain rfl := Nat.eq_of_mul_eq_mul_right hsize (Nat.add_right_cancel heq)
      have hlimit : k < poolLimit size := by
        simp only [List.mem_range'_1] at hk
        rcases hbounded with hone | hlt
        · simp only at hone
          omega
        · simp only at hlt
          omega
      simp only [IntPool.get, uruAssert_bind, hlimit, if_true, IntPool.RunOut]
      simp [pure, Except.pure]
  | nil =>
      simp only [IntPool.get, uruAssert_bind, IntPool.RunOut, true_and]
      by_cases hlimit : max + 1 < poolLimit size
      · simp only [hlimit, Nat.lt_of_succ_lt hlimit, if_true, Nat.not_le.mpr hlimit, false_and,
          iff_false]
        simp [pure, Except.pure]
      · simp [hlimit, Nat.not_lt.mp hlimit, eq_comm]

theorem World.get_eq_error_iff {C : World → Act → Prop} {size : Nat} {flags : Nat → Nat → UruFlag}
    {w : World} (hrun : Run World.step C (World.init size flags) w) {p : Nat} (hp : p < w.size)
    (j : Nat) (stop : Stop) :
    (((w.procs p).mpi_tag j).get w.size p = .error stop ↔
      ((w.procs p).mpi_tag j).RunOut w.size ∧ stop = .exit .assertExit) ∧
    (((w.procs p).batch_id j).get w.size p = .error stop ↔
      ((w.procs p).batch_id j).RunOut w.size ∧ stop = .exit .assertExit) := by
  have hsize := Nat.zero_lt_of_lt hp
  obtain ⟨htags, hids⟩ := World.numbers_run hrun p
  obtain ⟨hbtags, hbids⟩ := World.pools_run
    (P := fun size _ pools _ => ∀ j, (pools j).Bounded size) (fun _ _ _ => .inl rfl)
    (fun _ h huse => bounded_use h huse) hrun p
  exact ⟨IntPool.get_eq_error_iff hsize (htags j) (hbtags j),
    IntPool.get_eq_error_iff hsize (hids j) (hbids j)⟩

/-! ### The causes -/

/-- Why a step of process `rank` makes it stop. -/
inductive StopCause (w : World) (rank : Nat) : ProcAct → Stop → Prop
  /-- A write does not pass the checks of `uri_mpi_rdma_plan_create`. -/
  | rejected {once_now : Bool} {plan : Nat} {wr : Write} {rest : List Write}
      {send_ops recv_ops : List MpiOp} {mpi_op : List Entry} {stop : Stop}
      (huser : (w.procs rank).user =
        .creating once_now plan (wr :: rest) none send_ops recv_ops mpi_op)
      (hcheck : wr.check w.size rank = .error stop) : StopCause w rank .userStep stop
  /-- There is no tag left for a write. -/
  | tags {once_now : Bool} {plan : Nat} {wr : Write} {rest : List Write}
      {send_ops recv_ops : List MpiOp} {mpi_op : List Entry}
      (huser : (w.procs rank).user =
        .creating once_now plan (wr :: rest) none send_ops recv_ops mpi_op)
      (hcheck : wr.check w.size rank = .ok ())
      (hout : ((w.procs rank).mpi_tag wr.rmt_mem.rank).RunOut w.size) :
      StopCause w rank .userStep (.exit .assertExit)
  /-- There is no id left for a batch. -/
  | ids {plan : Nat} {op : MpiOp} {ops send_ops : List MpiOp} {groups : List (List MpiOp)}
      {recv_batch : List RecvBatch} {mpi_op : List Entry}
      (huser : (w.procs rank).user =
        .announcing false plan send_ops ((op :: ops) :: groups) recv_batch mpi_op)
      (hout : ((w.procs rank).batch_id op.rank).RunOut w.size) :
      StopCause w rank .userStep (.exit .assertExit)
  /-- The new length of a table is not an `int`. -/
  | table {src batch_id : Nat} {batch : OpBatch}
      (hmsg : w.nextMsg src rank = some (.createOpBatch batch_id batch))
      (hshort : ((w.procs rank).recv_batch src).length ≤ batch_id)
      (hlarge : 2 ^ 31 ≤ batch_id * 2 + 16) : StopCause w rank (.recvCtrl src) .undefined
  /-- The counter of a flag falls below zero. -/
  | counter {e : Entry} {rest : List Entry} {f : Nat}
      (hdaemon : (w.procs rank).daemon = .effects (e :: rest)) (hflag : e.op.flag_p = some f)
      (hneg : (((w.procs rank).flags f).counter + e.op.flag_add).toInt < 0) :
      StopCause w rank .daemonStep (.exit .assertExit)

section Causes

variable {C : World → Act → Prop} {size : Nat} {flags : Nat → Nat → UruFlag} {w w' : World}
  {rank : Nat} {stop : Stop}

theorem orHalt_halted {proc : Proc} {result : Prog Proc}
    (hlive : ∀ proc', result = .ok proc' → proc'.halted = none) :
    (proc.orHalt result).halted = some stop ↔ result = .error stop := by
  match result with
  | .ok proc' => simp [Proc.orHalt, hlive proc' rfl]
  | .error stop' => simp [Proc.orHalt]

theorem processCtrlMsg_eq_error_iff (hrun : Run World.step C (World.init size flags) w)
    (hlive : (w.procs rank).halted = none) {src : Nat} {msg : CtrlMsg}
    (hmsg : w.nextMsg src rank = some msg) :
    ((w.procs rank).counted src).processCtrlMsg src msg = .error stop ↔
      StopCause w rank (.recvCtrl src) stop := by
  have hinv := World.inv_run hrun
  have hok := Handler.Valid.next _ ((hinv.ini src).valid rank) hmsg
  rw [← ((hinv.link src rank).live hlive).1] at hok
  have hrecv : ((w.procs rank).counted src).recv_batch = (w.procs rank).recv_batch := rfl
  have hno : ∀ {stop : Stop}, (∀ id batch, msg ≠ .createOpBatch id batch) →
      ¬ StopCause w rank (.recvCtrl src) stop := by
    intro stop hne hcause
    cases hcause with
    | table hmsg' => exact hne _ _ (Option.some.inj (hmsg.symm.trans hmsg'))
  unfold Proc.processCtrlMsg
  cases msg with
  | createOpBatch id batch =>
      have hnone : tableMap ((w.procs rank).recv_batch src) id = none := hok
      have hcause : StopCause w rank (.recvCtrl src) stop ↔
          ((w.procs rank).recv_batch src).length ≤ id ∧ 2 ^ 31 ≤ id * 2 + 16 ∧
            stop = .undefined := by
        constructor
        · intro hcause
          cases hcause with
          | table hmsg' hshort hlarge =>
              cases Option.some.inj (hmsg.symm.trans hmsg')
              exact ⟨hshort, hlarge, rfl⟩
        · rintro ⟨hshort, hlarge, rfl⟩
          exact .table hmsg hshort hlarge
      rw [hcause]
      by_cases hfits : id < ((w.procs rank).recv_batch src).length ∨ id * 2 + 16 < 2 ^ 31
      · obtain ⟨table, hgrow⟩ := growTable_ok hfits
        obtain ⟨hsame, -, hid⟩ := tableMap_growTable hgrow
        have hslot : table[id]? = some none := by
          rw [← hsame] at hnone
          rw [List.getElem?_eq_getElem hid]
          simpa [tableMap, hid] using hnone
        simp only [hrecv, hgrow, ok_bind, fetch_eq_ok.mpr hslot, uruAssert_bind, if_true]
        simp only [pure, Except.pure, reduceCtorEq, false_iff]
        rintro ⟨hshort, hlarge, -⟩
        omega
      · simp only [not_or, Nat.not_lt] at hfits
        have hgrow : growTable ((w.procs rank).recv_batch src) id = .error .undefined := by
          rw [growTable, if_pos (Nat.lt_succ_of_le hfits.1), if_neg (Nat.not_lt.mpr hfits.2)]
        simp only [hrecv, hgrow, error_bind, Except.error.injEq, hfits, true_and, eq_comm]
  | startOpBatch id plan start =>
      obtain ⟨batch, hbatch, -⟩ := hok
      have hslot := tableMap_eq_some.mp hbatch
      have hlt := (List.getElem?_eq_some_iff.mp hslot).1
      simp only [hrecv, uruAssert_bind, if_pos hlt, fetch_eq_ok.mpr hslot, ok_bind]
      simp [pure, Except.pure, hno]
  | destroyOpBatch id plan =>
      obtain ⟨batch, hbatch, -⟩ := hok
      simp only [hrecv, fetch_eq_ok.mpr (tableMap_eq_some.mp hbatch), ok_bind]
      simp [pure, Except.pure, hno]
  | executeOpBatch => simp [hno]

/-- The counter of a flag must not fall below zero. -/
theorem progressFlag_eq_error_iff {proc : Proc} {op : MpiOp} :
    proc.progressFlag op = .error stop ↔ ∃ f, op.flag_p = some f ∧
      ((proc.flags f).counter + op.flag_add).toInt < 0 ∧ stop = .exit .assertExit := by
  unfold Proc.progressFlag
  match op.flag_p with
  | none => simp
  | some f =>
      by_cases hneg : 0 ≤ ((proc.flags f).counter + op.flag_add).toInt
      · have hok : ∃ r, (proc.flags f).progress op.flag_add = .ok r :=
          ⟨_, (uruAssert_bind ..).trans (if_pos hneg)⟩
        obtain ⟨r, hok⟩ := hok
        simp only [hok, ok_bind]
        constructor
        · rintro ⟨⟩
        · rintro ⟨_, ⟨⟩, hlt, -⟩
          exact absurd hneg (Int.not_le.mpr hlt)
      · have herror : (proc.flags f).progress op.flag_add = .error (.exit .assertExit) :=
          (uruAssert_bind ..).trans (if_neg hneg)
        simp only [herror, error_bind]
        constructor
        · rintro ⟨⟩
          exact ⟨f, rfl, Int.not_le.mp hneg, rfl⟩
        · rintro ⟨_, ⟨⟩, -, rfl⟩
          rfl

/-- Of the assertions on a completed operation only the one on the counter can
fail. -/
theorem progressOp_eq_error_iff (hrun : Run World.step C (World.init size flags) w)
    (hrank : rank < w.size) {e : Entry} {rest : List Entry}
    (hdaemon : (w.procs rank).daemon = .effects (e :: rest)) :
    (w.procs rank).progressOp w.size rank e.op rest = .error stop ↔
      StopCause w rank .daemonStep stop := by
  have hmem : e ∈ (w.procs rank).unapplied := by
    simp [Proc.unapplied, hdaemon, DaemonPhase.entries]
  obtain ⟨haddr, hreq, htag, hop⟩ :=
    (World.allOps_run consistent_invariant hrun rank).entries e hmem
  -- a tag that is returned is one of those in use
  have hput : hasBit e.op.flag freeTag = true → e.op.tag % w.size = rank := by
    intro hfree
    have hheld : (e.op.rank, e.op.tag) ∈ (w.procs rank).heldPairs := by
      simp only [Proc.heldPairs, hdaemon, DaemonPhase.entries, List.mem_append]
      refine .inr (List.mem_map.mpr ⟨e, List.mem_filter.mpr ⟨List.mem_cons_self .., hfree⟩, rfl⟩)
    exact ((World.inv_run hrun).ini rank).tags.mod_eq hrank hheld
  have hcause : StopCause w rank .daemonStep stop ↔ ∃ f, e.op.flag_p = some f ∧
      (((w.procs rank).flags f).counter + e.op.flag_add).toInt < 0 ∧ stop = .exit .assertExit := by
    constructor
    · intro hcause
      cases hcause with
      | counter hdaemon' hflag hneg =>
          cases hdaemon.symm.trans hdaemon'
          exact ⟨_, hflag, hneg, rfl⟩
    · rintro ⟨f, hflag, hneg, rfl⟩
      exact .counter hdaemon hflag hneg
  rw [hcause, ← progressFlag_eq_error_iff]
  cases hflag : (w.procs rank).progressFlag e.op with
  | error stop' => simp only [Proc.progressOp, hflag, error_bind]
  | ok proc =>
      obtain ⟨flags', pushed, rfl⟩ := progressFlag_flagged hflag
      have hok : ∃ proc', (w.procs rank).progressOp w.size rank e.op rest = .ok proc' := by
        simp only [Proc.progressOp, hflag, ok_bind, uruAssert_bind, if_pos haddr, if_pos hreq,
          if_pos htag, if_pos hop]
        by_cases hfree : hasBit e.op.flag freeTag = true
        · rw [if_pos hfree]
          simp only [IntPool.put, uruAssert_bind, if_pos (hput hfree)]
          exact ⟨_, rfl⟩
        · rw [if_neg hfree]
          exact ⟨_, rfl⟩
      obtain ⟨proc', hok⟩ := hok
      rw [hok]
      constructor <;> rintro ⟨⟩

theorem processCtrlMsg_halted {proc proc' : Proc} {src : Nat} {msg : CtrlMsg}
    (hok : proc.processCtrlMsg src msg = .ok proc') : proc'.halted = proc.halted := by
  cases msg with
  | createOpBatch id batch =>
      simp only [Proc.processCtrlMsg, bind_eq_ok, pure_eq_ok] at hok
      obtain ⟨-, -, -, -, -, -, rfl⟩ := hok
      rfl
  | destroyOpBatch id plan =>
      simp only [Proc.processCtrlMsg, bind_eq_ok] at hok
      obtain ⟨slot, -, hok⟩ := hok
      cases slot with
      | some batch =>
          cases hok
          rfl
      | none => exact (throw_eq_ok hok).elim
  | startOpBatch id plan start =>
      simp only [Proc.processCtrlMsg, bind_eq_ok] at hok
      obtain ⟨-, -, slot, -, hok⟩ := hok
      cases slot with
      | some batch =>
          cases hok
          rfl
      | none => exact (throw_eq_ok hok).elim
  | executeOpBatch batch =>
      cases hok
      rfl

theorem progressOp_halted {proc proc' : Proc} {size : Nat} {op : MpiOp} {rest : List Entry}
    (hok : proc.progressOp size rank op rest = .ok proc') : proc'.halted = proc.halted := by
  simp only [Proc.progressOp, bind_eq_ok] at hok
  obtain ⟨mid, hflag, -, -, -, -, -, -, -, -, hok⟩ := hok
  obtain ⟨flags, pushed, rfl⟩ := progressFlag_flagged hflag
  split at hok
  · simp only [bind_eq_ok, pure_eq_ok] at hok
    obtain ⟨-, -, rfl⟩ := hok
    rfl
  · cases hok
    rfl

theorem drawTag_halted (hrun : Run World.step C (World.init size flags) w) (hrank : rank < w.size)
    (hlive : (w.procs rank).halted = none) {proc' : Proc} {once_now : Bool} {plan : Nat}
    {wr : Write} {rest : List Write} {send_ops recv_ops : List MpiOp} {mpi_op : List Entry}
    (huser : (w.procs rank).user =
      .creating once_now plan (wr :: rest) none send_ops recv_ops mpi_op)
    (hstep : (w.procs rank).userStep w.size rank = some proc') :
    proc'.halted = some stop ↔ StopCause w rank .userStep stop := by
  simp only [Proc.userStep, huser, Option.some.injEq] at hstep
  subst hstep
  obtain ⟨hget, -⟩ := World.get_eq_error_iff hrun hrank wr.rmt_mem.rank stop
  rw [orHalt_halted]
  · have hcause : StopCause w rank .userStep stop ↔ wr.check w.size rank = .error stop ∨
        (wr.check w.size rank = .ok () ∧
          ((w.procs rank).mpi_tag wr.rmt_mem.rank).get w.size rank = .error stop) := by
      rw [hget]
      constructor
      · intro hcause
        cases hcause with
        | rejected huser' hcheck =>
            cases huser.symm.trans huser'
            exact .inl hcheck
        | tags huser' hcheck hout =>
            cases huser.symm.trans huser'
            exact .inr ⟨hcheck, hout, rfl⟩
        | ids huser' => cases huser.symm.trans huser'
      · rintro (hcheck | ⟨hcheck, hout, rfl⟩)
        · exact .rejected huser hcheck
        · exact .tags huser hcheck hout
    rw [hcause, Proc.drawTag]
    cases hcheck : wr.check w.size rank with
    | error stop' => simp only [error_bind, Except.error.injEq, reduceCtorEq, false_and, or_false]
    | ok checked =>
        cases hdraw : ((w.procs rank).mpi_tag wr.rmt_mem.rank).get w.size rank with
        | error stop' => simp [ok_bind]
        | ok r => simp [ok_bind, pure, Except.pure]
  · intro proc' hok
    simp only [Proc.drawTag, bind_eq_ok, pure_eq_ok] at hok
    obtain ⟨-, -, -, -, rfl⟩ := hok
    exact hlive

theorem announce_halted (hrun : Run World.step C (World.init size flags) w) (hrank : rank < w.size)
    (hlive : (w.procs rank).halted = none) {proc' : Proc} {plan : Nat}
    {send_ops ops : List MpiOp} {op : MpiOp} {groups : List (List MpiOp)}
    {recv_batch : List RecvBatch} {mpi_op : List Entry}
    (huser : (w.procs rank).user =
      .announcing false plan send_ops ((op :: ops) :: groups) recv_batch mpi_op)
    (hstep : (w.procs rank).userStep w.size rank = some proc') :
    proc'.halted = some stop ↔ StopCause w rank .userStep stop := by
  simp only [Proc.userStep, huser, Option.some.injEq] at hstep
  subst hstep
  obtain ⟨-, hget⟩ := World.get_eq_error_iff hrun hrank op.rank stop
  rw [orHalt_halted]
  · have hcause : StopCause w rank .userStep stop ↔
        ((w.procs rank).batch_id op.rank).get w.size rank = .error stop := by
      rw [hget]
      constructor
      · intro hcause
        cases hcause with
        | rejected huser' => cases huser.symm.trans huser'
        | tags huser' => cases huser.symm.trans huser'
        | ids huser' hout =>
            cases huser.symm.trans huser'
            exact ⟨hout, rfl⟩
      · rintro ⟨hout, rfl⟩
        exact .ids huser hout
    rw [hcause, Proc.announce, if_neg (by decide)]
    cases hdraw : ((w.procs rank).batch_id op.rank).get w.size rank with
    | error stop' => simp only [error_bind, Except.error.injEq]
    | ok r => simp [ok_bind, pure, Except.pure]
  · intro proc' hok
    simp only [Proc.announce, Bool.false_eq_true, if_false, bind_eq_ok, pure_eq_ok] at hok
    obtain ⟨-, -, rfl⟩ := hok
    exact hlive

theorem userStep_halted (hrun : Run World.step C (World.init size flags) w) (hrank : rank < w.size)
    (hlive : (w.procs rank).halted = none) {proc' : Proc}
    (hstep : (w.procs rank).userStep w.size rank = some proc') :
    proc'.halted = some stop ↔ StopCause w rank .userStep stop := by
  have hini := (World.inv_run hrun).ini rank
  -- outside of the two loops that draw numbers nothing can fail
  have hno : proc'.halted = none →
      (∀ once_now plan wr rest send_ops recv_ops mpi_op, (w.procs rank).user ≠
        .creating once_now plan (wr :: rest) none send_ops recv_ops mpi_op) →
      (∀ plan send_ops op ops groups recv_batch mpi_op, (w.procs rank).user ≠
        .announcing false plan send_ops ((op :: ops) :: groups) recv_batch mpi_op) →
      (proc'.halted = some stop ↔ StopCause w rank .userStep stop) := by
    intro hnone hcreating hannouncing
    rw [hnone]
    constructor
    · rintro ⟨⟩
    · intro hcause
      cases hcause with
      | rejected huser | tags huser => exact (hcreating _ _ _ _ _ _ _ huser).elim
      | ids huser => exact (hannouncing _ _ _ _ _ _ _ huser).elim
  cases huser : (w.procs rank).user with
  | creating once_now plan todo drawn send_ops recv_ops mpi_op =>
      cases todo with
      | nil => simp [Proc.userStep, huser] at hstep
      | cons wr rest =>
          cases drawn with
          | none => exact drawTag_halted hrun hrank hlive huser hstep
          | some tag =>
              simp only [Proc.userStep, huser, Option.some.injEq] at hstep
              subst hstep
              refine hno ?_ (by simp [huser]) (by simp [huser])
              cases once_now <;> exact hlive
  | announcing once_now plan send_ops groups recv_batch mpi_op =>
      cases groups with
      | nil =>
          simp only [Proc.userStep, huser, Option.some.injEq] at hstep
          subst hstep
          exact hno hlive (by simp [huser]) (by simp [huser])
      | cons group groups =>
          cases group with
          | nil => simp [Proc.userStep, huser] at hstep
          | cons op ops =>
              cases once_now with
              | false => exact announce_halted hrun hrank hlive huser hstep
              | true =>
                  simp only [Proc.userStep, huser, Option.some.injEq] at hstep
                  subst hstep
                  exact hno hlive (by simp [huser]) (by simp [huser])
  | starting plan start batches ops mpi_op =>
      cases batches <;> cases ops <;>
        · simp only [Proc.userStep, huser, Option.some.injEq] at hstep
          subst hstep
          exact hno hlive (by simp [huser]) (by simp [huser])
  | destroying p ops batches mpi_op =>
      cases ops with
      | cons op ops =>
          simp only [Proc.userStep, huser, Option.some.injEq] at hstep
          subst hstep
          have hheld : (op.rank, op.tag) ∈ (w.procs rank).heldPairs := by
            simp [Proc.heldPairs, huser, UserPhase.tagPairs, MpiOp.pair]
          have hmod := hini.tags.mod_eq hrank hheld
          refine hno ?_ (by simp [huser]) (by simp [huser])
          simp only [Proc.destroyOp, IntPool.put, uruAssert_bind, if_pos hmod]
          exact hlive
      | nil =>
          cases batches with
          | cons b batches =>
              simp only [Proc.userStep, huser, Option.some.injEq] at hstep
              subst hstep
              have hheld : (b.dst_rank, b.batch_id) ∈ (w.procs rank).batches.map idPair := by
                simp [Proc.batches, huser, UserPhase.batches, idPair]
              have hmod := hini.ids.mod_eq hrank hheld
              refine hno ?_ (by simp [huser]) (by simp [huser])
              simp only [Proc.destroyBatch, IntPool.put, uruAssert_bind, if_pos hmod]
              exact hlive
          | nil =>
              simp only [Proc.userStep, huser, Option.some.injEq] at hstep
              subst hstep
              exact hno hlive (by simp [huser]) (by simp [huser])
  | calling max_arr_tail closing =>
      cases closing with
      | false => simp [Proc.userStep, huser] at hstep
      | true =>
          simp only [Proc.userStep, huser,
            Option.ite_none_right_eq_some, Option.some.injEq] at hstep
          obtain ⟨-, rfl⟩ := hstep
          exact hno hlive (by simp [huser]) (by simp [huser])
  | idle | finalizing | reducing | closed => simp [Proc.userStep, huser] at hstep

/-- A process stops in a step exactly if one of the causes is there: everything
else that the code asserts, and every access to the tables, holds in every
run. -/
theorem halted_iff (hrun : Run World.step C (World.init size flags) w) {a : ProcAct}
    (hstep : w.step (.proc rank a) = some w') :
    (w'.procs rank).halted = some stop ↔ StopCause w rank a stop := by
  simp only [World.step, Option.ite_none_right_eq_some, Option.map_eq_some_iff] at hstep
  obtain ⟨⟨hrank, hlive⟩, proc', hproc, rfl⟩ := hstep
  simp only [Function.update_self]
  have hinv := World.inv_run hrun
  -- the steps that call nothing that can fail
  have hno : proc'.halted = none → (∀ stop, ¬ StopCause w rank a stop) →
      (proc'.halted = some stop ↔ StopCause w rank a stop) := by
    intro hnone hcause
    simp [hnone, hcause]
  cases a with
  | userStep => exact userStep_halted hrun hrank hlive hproc
  | recvCtrl src =>
      simp only [World.procStep, Option.ite_none_right_eq_some, Option.map_eq_some_iff] at hproc
      obtain ⟨-, msg, hmsg, rfl⟩ := hproc
      rw [← processCtrlMsg_eq_error_iff hrun hlive hmsg]
      have hreturns : ∀ proc', ((w.procs rank).counted src).processCtrlMsg src msg =
          .ok proc' → proc'.halted = none := fun proc' hok =>
        (processCtrlMsg_halted hok).trans hlive
      exact orHalt_halted hreturns
  | daemonStep =>
      have hother : ∀ {daemon : DaemonPhase}, (w.procs rank).daemon = daemon →
          (∀ e rest, daemon ≠ .effects (e :: rest)) → ∀ stop,
          ¬ StopCause w rank .daemonStep stop := by
        intro daemon hdaemon hne stop hcause
        cases hcause with
        | counter hdaemon' => exact hne _ _ (hdaemon.symm.trans hdaemon')
      cases hdaemon : (w.procs rank).daemon with
      | drain => simp [World.procStep, Proc.daemonStep, hdaemon] at hproc
      | posting src start ops mpi_op =>
          cases ops with
          | nil =>
              simp only [World.procStep, Proc.daemonStep, hdaemon, Option.some.injEq] at hproc
              subst hproc
              exact hno hlive (hother hdaemon (by simp))
          | cons op rest =>
              cases start with
              | none =>
                  simp only [World.procStep, Proc.daemonStep, hdaemon, Option.some.injEq] at hproc
                  subst hproc
                  have hfree : op.TagFree := (hinv.daemon rank).tagFree op (by
                    simp [hdaemon, DaemonPhase.ops])
                  refine hno ?_ (hother hdaemon (by simp))
                  simp only [Proc.postOp, uruAssert_bind,
                    if_pos (show hasBit op.flag freeTag = false from hfree)]
                  exact hlive
              | some start =>
                  simp only [World.procStep, Proc.daemonStep, hdaemon, Option.some.injEq] at hproc
                  subst hproc
                  exact hno hlive (hother hdaemon (by simp))
      | effects entries =>
          cases entries with
          | nil =>
              simp only [World.procStep, Proc.daemonStep, hdaemon, Option.some.injEq] at hproc
              subst hproc
              exact hno hlive (hother hdaemon (by simp))
          | cons e rest =>
              simp only [World.procStep, Proc.daemonStep, hdaemon, Option.some.injEq] at hproc
              subst hproc
              rw [← progressOp_eq_error_iff hrun hrank hdaemon]
              exact orHalt_halted fun proc' hok => (progressOp_halted hok).trans hlive
  | beginCreate | sortOps | beginStart | beginDestroy | beginClose | testSome =>
      have hmove := procStep_cases hproc
      refine hno ?_ fun stop hcause => by cases hcause
      cases hmove
      exact hlive

/-- The steps that stop a process whose signals are in no pool, in a run whose
steps are all defined. The daemon then pushes nothing, so that no queue can be
full. -/
theorem stops_iff (hflags : ∀ p f, (flags p f).queue = none)
    (hrun : Run World.step (fun w a => wellDefined w a = true) (World.init size flags) w)
    {a : ProcAct} (hdefined : wellDefined w (.proc rank a) = true)
    (hstep : w.step (.proc rank a) = some w') :
    ((w'.procs rank).halted = some stop ↔ StopCause w rank a stop) ∧
      (w'.procs rank).pushed = [] :=
  ⟨halted_iff hrun hstep, (unpooled_run (.snoc hrun hdefined hstep) hflags rank).pushed⟩

end Causes

/-- Process 0 is about to draw a tag for a write that starts from a region of
process 1. -/
def foreignIssued : World :=
  World.after wellDefined 2 [.proc 0 (.beginCreate true [sampleWrite .dmaPut 1 1])]

theorem stops_iff_foreign : ∃ w', foreignIssued.step (.proc 0 .userStep) = some w' ∧
    (w'.procs 0).halted = some (.exit .assertExit) := by
  have hrun : Run World.step (fun w a => wellDefined w a = true)
      (World.init 2 fun _ _ => ⟨0, none, 0, 0⟩) foreignIssued := World.run_after (by decide +kernel)
  have huser : (foreignIssued.procs 0).user =
      .creating true 0 [sampleWrite .dmaPut 1 1] none [] [] [] := rfl
  exact ⟨_, rfl, (stops_iff (fun _ _ => rfl) hrun (by decide +kernel)
    (show foreignIssued.step (.proc 0 .userStep) = some _ from rfl)).1.mpr
      (.rejected huser (by decide +kernel))⟩

end Unr.Mpi
