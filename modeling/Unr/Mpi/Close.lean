import Unr.Mpi.WorldInv

/-!
The end of the channel.

`uri_mpi_channel_close` leaves its loop when the longest of all request queues
was empty at the last `MPI_Allreduce`. A control message whose send has
completed is in no queue, so it is not counted while it is on its way. If none
is, then what the all-reduce has seen is final.
-/

namespace Unr.Mpi

open Unr.Uru Unr.Logic

def World.noneInFlight (w : World) : Prop :=
  ∀ i < w.size, ∀ j < w.size,
    (w.procs j).ctrl_received i = ((w.procs i).ctrl_sent j).length

instance (w : World) : Decidable w.noneInFlight :=
  inferInstanceAs (Decidable (∀ i < w.size, ∀ j < w.size, _ = _))

def reduceSettled (w : World) : Act → Bool
  | .allreduce => w.maxArrTail = 0 → w.noneInFlight
  | _ => true

def UserPhase.Leaving (user : UserPhase) : Prop :=
  user = .closed ∨ ∃ tested, user = .calling 0 tested

/-- What a process has contributed to `MPI_Allreduce` is still the length of
its queue, and a closed channel has no daemon. -/
structure Proc.Sampled (proc : Proc) : Prop where
  reducing : ∀ n, proc.user = .reducing n → n = proc.queue.length ∧ proc.daemon = .drain
  closed : proc.user = .closed → proc.daemon = .drain

structure World.Settled (w : World) (p : Nat) : Prop where
  leaving : (w.procs p).user.Leaving
  queue : (w.procs p).queue = []
  daemon : (w.procs p).daemon = .drain ∨ (w.procs p).daemon = .effects []
  received : ∀ i < w.size, (w.procs p).ctrl_received i = ((w.procs i).ctrl_sent p).length

/-- Either no process is leaving the loop, or all of them are and nothing is
left to do. -/
structure World.CloseOk (w : World) : Prop where
  sampled : ∀ p, (w.procs p).Sampled
  leaving : (∀ p < w.size, ¬ (w.procs p).user.Leaving) ∨ ∀ p < w.size, w.Settled p

section Steps

variable {w w' : World} {rank : Nat} {proc proc' : Proc} {a : ProcAct}

def UserPhase.Working : UserPhase → Prop
  | .reducing _ | .calling _ _ | .closed => False
  | _ => True

theorem UserPhase.Working.not_leaving {user : UserPhase} (h : user.Working) : ¬ user.Leaving := by
  rintro (rfl | ⟨tested, rfl⟩) <;> exact h

theorem Proc.Sampled.of_working (h : proc.user.Working) : proc.Sampled where
  reducing n huser := by
    rw [huser] at h
    exact nomatch h
  closed huser := by
    rw [huser] at h
    exact nomatch h

theorem Proc.Sampled.of_running (h : proc.Sampled) (huser : proc'.user = proc.user)
    (hrunning : proc.polls = true ∨ proc.daemon ≠ .drain) : proc'.Sampled where
  reducing n hn := by
    rw [huser] at hn
    rcases hrunning with hpolls | hdaemon
    · simp [Proc.polls, hn] at hpolls
    · exact absurd (h.reducing n hn).2 hdaemon
  closed hn := by
    rw [huser] at hn
    rcases hrunning with hpolls | hdaemon
    · simp [Proc.polls, hn] at hpolls
    · exact absurd (h.closed hn) hdaemon

theorem Proc.Sampled.move (h : proc.Sampled) (hmove : Move w rank proc a proc') :
    proc'.Sampled := by
  cases hmove with
  | beginCreate | sortOps | beginStart | beginDestroy | drawTag | writeOnce | writeKept
  | announceOnce | announceKept | finishCreate | startBatch | startOp | finishStart | destroyOp
  | destroyBatch | finishDestroy => exact .of_working trivial
  | beginClose huser hdaemon =>
      exact ⟨fun n hn => ⟨(UserPhase.reducing.inj hn).symm, hdaemon⟩,
        fun hclosed => nomatch hclosed⟩
  | @closeLoop n huser hdaemon =>
      refine ⟨fun m hm => ⟨?_, hdaemon⟩, fun _ => hdaemon⟩
      unfold Proc.closeLoop at hm
      split at hm
      · exact nomatch hm
      · exact (UserPhase.reducing.inj hm).symm
  | userHalt => exact ⟨h.reducing, h.closed⟩
  | recvCreate _ hpolls | recvDestroy _ hpolls | recvStart _ hpolls | recvExecute _ hpolls
  | recvHalt _ hpolls => exact h.of_running rfl (.inl hpolls)
  | @testSome done _ hpolls =>
      rcases testSome_user proc done with hsame | ⟨n, tested, -, hnew⟩
      · exact h.of_running hsame (.inl hpolls)
      · exact ⟨fun m hm => (nomatch hnew.symm.trans hm), fun hm => (nomatch hnew.symm.trans hm)⟩
  | postStarted hdaemon | postOnce hdaemon | postHalt hdaemon | finishPosting hdaemon
  | keepTag hdaemon | returnTag hdaemon | finishEffects hdaemon | daemonHalt hdaemon =>
      refine h.of_running rfl (.inr ?_)
      rw [hdaemon]
      exact fun hdrain => nomatch hdrain

theorem Move.leaving (hmove : Move w rank proc a proc') (h : proc'.user.Leaving) :
    proc.user.Leaving := by
  cases hmove with
  | beginCreate | sortOps | beginStart | beginDestroy | beginClose | drawTag | writeOnce
  | writeKept | announceOnce | announceKept | finishCreate | startBatch | startOp | finishStart
  | destroyOp | destroyBatch | finishDestroy =>
      rcases h with h | ⟨tested, h⟩ <;> exact nomatch h
  | @closeLoop n huser hdaemon =>
      unfold Proc.closeLoop at h
      split at h
      · rename_i hn
        exact .inr ⟨true, by rw [huser, hn]⟩
      · rcases h with h | ⟨tested, h⟩ <;> exact nomatch h
  | @testSome done =>
      rcases testSome_user proc done with hsame | ⟨n, tested, hold, hnew⟩
      · exact hsame ▸ h
      · rw [hnew] at h
        rcases h with h | ⟨tested', h⟩
        · exact nomatch h
        · cases h
          exact .inr ⟨tested, hold⟩
  | userHalt | daemonHalt | recvCreate | recvDestroy | recvStart | recvExecute | recvHalt
  | postStarted | postOnce | postHalt | finishPosting | keepTag | returnTag | finishEffects =>
      exact h

theorem pick_nil {α : Type} (b : Bool) (done : List Bool) : pick b done ([] : List α) = [] := by
  cases done <;> rfl

theorem World.Settled.move (h : w.Settled rank) (hmove : Move w rank (w.procs rank) a proc') :
    proc'.user.Leaving ∧ proc'.queue = [] ∧
      (proc'.daemon = .drain ∨ proc'.daemon = .effects []) ∧
      proc'.ctrl_received = (w.procs rank).ctrl_received ∧
      proc'.ctrl_sent = (w.procs rank).ctrl_sent := by
  have hworking : ∀ {user : UserPhase}, (w.procs rank).user = user → user.Working → False :=
    fun huser hw => hw.not_leaving (huser ▸ h.leaving)
  have hnone : ∀ {src : Nat} {msg : CtrlMsg}, src < w.size →
      ((w.procs src).ctrl_sent rank)[(w.procs rank).ctrl_received src]? = some msg → False := by
    intro src msg hsrc hmsg
    rw [h.received src hsrc, List.getElem?_eq_none (Nat.le_refl _)] at hmsg
    cases hmsg
  have hidle : ∀ {daemon : DaemonPhase}, (w.procs rank).daemon = daemon → daemon ≠ .drain →
      daemon ≠ .effects [] → False := by
    intro daemon hdaemon hdrain heffects
    rcases h.daemon with hd | hd
    · exact hdrain (hdaemon.symm.trans hd)
    · exact heffects (hdaemon.symm.trans hd)
  -- no call is running, no message is on its way, the daemon has nothing in hand
  cases hmove with
  | beginCreate huser | sortOps huser | beginStart huser | beginDestroy huser | beginClose huser
  | drawTag huser | writeOnce huser | writeKept huser | announceOnce huser | announceKept huser
  | finishCreate huser | startBatch huser | startOp huser | finishStart huser | destroyOp huser
  | destroyBatch huser | finishDestroy huser => exact (hworking huser trivial).elim
  | @closeLoop n huser hdaemon =>
      have hzero : n = 0 := by
        rcases h.leaving with hleaving | ⟨tested, hleaving⟩
        · cases huser.symm.trans hleaving
        · exact (UserPhase.calling.inj (huser.symm.trans hleaving)).1
      subst hzero
      exact ⟨.inl rfl, h.queue, .inl hdaemon, rfl, rfl⟩
  | userHalt => exact ⟨h.leaving, h.queue, h.daemon, rfl, rfl⟩
  | recvCreate _ _ hsrc hmsg | recvDestroy _ _ hsrc hmsg | recvStart _ _ hsrc hmsg
  | recvExecute _ _ hsrc hmsg | recvHalt _ _ hsrc hmsg => exact (hnone hsrc hmsg).elim
  | @testSome done =>
      refine ⟨?_, ?_, .inr ?_, rfl, rfl⟩
      · rcases testSome_user (w.procs rank) done with hsame | ⟨n, tested, hold, hnew⟩
        · exact hsame ▸ h.leaving
        · rcases h.leaving with hleaving | ⟨tested', hleaving⟩
          · cases hold.symm.trans hleaving
          · have hzero := (UserPhase.calling.inj (hold.symm.trans hleaving)).1
            exact .inr ⟨true, by rw [hnew, hzero]⟩
      · simp only [Proc.testSome, h.queue, pick_nil]
      · simp only [Proc.testSome, h.queue, pick_nil]
  | postStarted hdaemon | postOnce hdaemon | postHalt hdaemon | finishPosting hdaemon
  | keepTag hdaemon | returnTag hdaemon | daemonHalt hdaemon =>
      exact (hidle hdaemon (by simp) (by simp)).elim
  | finishEffects => exact ⟨h.leaving, h.queue, .inl rfl, rfl, rfl⟩

theorem World.CloseOk.init (size : Nat) (flags : Nat → Nat → UruFlag) :
    (World.init size flags).CloseOk where
  sampled _ := .of_working trivial
  leaving := .inl fun _ _ => UserPhase.Working.not_leaving trivial

theorem World.le_maxArrTail {p : Nat} (hp : p < w.size) {n : Nat}
    (hn : (w.procs p).user = .reducing n) : n ≤ w.maxArrTail := by
  have hmono : ∀ (ps : List Nat) (m : Nat), m ≤ ps.foldl
      (fun m p => max m ((w.procs p).user.contribution.getD 0)) m := by
    intro ps
    induction ps with
    | nil => exact fun m => Nat.le_refl m
    | cons q ps ih => exact fun m => Nat.le_trans (Nat.le_max_left _ _) (ih _)
  have hmem : ∀ (ps : List Nat) (m : Nat), p ∈ ps → n ≤ ps.foldl
      (fun m p => max m ((w.procs p).user.contribution.getD 0)) m := by
    intro ps
    induction ps with
    | nil => exact fun m hp => nomatch hp
    | cons q ps ih =>
        intro m hp
        rcases List.mem_cons.mp hp with rfl | hp
        · refine Nat.le_trans ?_ (hmono ps _)
          simp only [hn, UserPhase.contribution, Option.getD_some]
          exact Nat.le_max_right _ _
        · exact ih _ hp
  exact hmem _ 0 (List.mem_range.mpr hp)

theorem World.CloseOk.allreduce (h : w.CloseOk)
    (hall : ∀ p < w.size, (w.procs p).user.contribution.isSome)
    (hsettled : w.maxArrTail = 0 → w.noneInFlight) :
    (w.setUser (.calling w.maxArrTail false)).CloseOk where
  sampled p := by
    simp only [World.setUser]
    split
    · exact ⟨by rintro n ⟨⟩, by rintro ⟨⟩⟩
    · exact h.sampled p
  leaving := by
    have hreducing : ∀ p < w.size, ∃ n, (w.procs p).user = .reducing n := by
      intro p hp
      have hcontribution := hall p hp
      cases huser : (w.procs p).user with
      | reducing n => exact ⟨n, rfl⟩
      | idle | creating | announcing | starting | destroying | finalizing | calling | closed =>
          simp [huser, UserPhase.contribution] at hcontribution
    by_cases hzero : w.maxArrTail = 0
    · refine .inr fun p (hp : p < w.size) => ?_
      obtain ⟨n, hn⟩ := hreducing p hp
      obtain ⟨hlen, hdaemon⟩ := (h.sampled p).reducing n hn
      have hle : n ≤ w.maxArrTail := World.le_maxArrTail hp hn
      have hempty : (w.procs p).queue = [] := List.length_eq_zero_iff.mp (by omega)
      refine ⟨?_, ?_, ?_, ?_⟩
      · simp only [World.setUser, if_pos hp, hzero]
        exact .inr ⟨false, rfl⟩
      · simp only [World.setUser, if_pos hp, hempty]
      · simp only [World.setUser, if_pos hp, hdaemon]
        exact .inl trivial
      · intro i hi
        have hi' : i < w.size := hi
        simp only [World.setUser, if_pos hp, if_pos hi']
        exact hsettled hzero i hi p hp
    · refine .inl fun p (hp : p < w.size) => ?_
      simp only [World.setUser, if_pos hp]
      rintro (hleaving | ⟨tested, hleaving⟩)
      · cases hleaving
      · exact hzero (UserPhase.calling.inj hleaving).1

theorem World.CloseOk.step (h : w.CloseOk) {a : Act} (hsettled : reduceSettled w a = true)
    (hstep : w.step a = some w') : w'.CloseOk := by
  rcases step_cases hstep with ⟨rank, pa, proc', -, hrank, -, hmove, rfl⟩ | ⟨-, hall, rfl⟩ |
    ⟨rfl, hall, rfl⟩
  · refine ⟨fun p => ?_, ?_⟩
    · by_cases hp : p = rank
      · subst hp
        simp only [Function.update_self]
        exact (h.sampled p).move hmove
      · simp only [Function.update_of_ne hp]
        exact h.sampled p
    -- before the reduction no step makes a process leave, after it there is nothing left to do
    · rcases h.leaving with hnone | hsettled
      · refine .inl fun p hp => ?_
        by_cases hpr : p = rank
        · subst hpr
          simp only [Function.update_self]
          exact fun hleaving => hnone p hp (hmove.leaving hleaving)
        · simp only [Function.update_of_ne hpr]
          exact hnone p hp
      · refine .inr fun p hp => ?_
        obtain ⟨huser, hqueue, hdaemon, hreceived, hsent⟩ := (hsettled rank hrank).move hmove
        have hsame : ∀ i, (Function.update w.procs rank proc' i).ctrl_sent =
            (w.procs i).ctrl_sent := by
          intro i
          by_cases hi : i = rank
          · subst hi
            rw [Function.update_self, hsent]
          · rw [Function.update_of_ne hi]
        have hold := hsettled p hp
        by_cases hpr : p = rank
        · subst hpr
          refine ⟨?_, ?_, ?_, fun i hi => ?_⟩
          · simpa only [Function.update_self] using huser
          · simpa only [Function.update_self] using hqueue
          · simpa only [Function.update_self] using hdaemon
          · simp only [hsame, Function.update_self, hreceived]
            exact hold.received i hi
        · refine ⟨?_, ?_, ?_, fun i hi => ?_⟩
          · simpa only [Function.update_of_ne hpr] using hold.leaving
          · simpa only [Function.update_of_ne hpr] using hold.queue
          · simpa only [Function.update_of_ne hpr] using hold.daemon
          · simp only [hsame, Function.update_of_ne hpr]
            exact hold.received i hi
  · refine ⟨fun p => ?_, .inl fun p (hp : p < w.size) => ?_⟩
    · simp only [World.setUser]
      split
      · exact .of_working trivial
      · exact h.sampled p
    · simp only [World.setUser, if_pos hp]
      exact UserPhase.Working.not_leaving trivial
  · exact h.allreduce (fun p hp => (hall p hp).1) (of_decide_eq_true hsettled)

end Steps

/-- In every run in which no all-reduce of `uri_mpi_channel_close` returns zero
while a control message is on its way, every control message has been received
and handled and every queue is empty when all processes have left the loop. -/
theorem closed_nothing_lost {size : Nat} {flags : Nat → Nat → UruFlag} {w : World}
    (hrun : Run World.step (fun w a => reduceSettled w a = true) (World.init size flags) w)
    (hclosed : ∀ p < size, (w.procs p).user = .closed) :
    w.noneInFlight ∧ ∀ p < size, (w.procs p).queue = [] ∧ (w.procs p).daemon = .drain := by
  have h : w.CloseOk := hrun.invariant (World.CloseOk.init size flags)
    fun _ _ _ _ h hC hstep => h.step hC hstep
  have hsize := World.size_run hrun
  rcases h.leaving with hnone | hsettled
  · have hempty : w.size = 0 := by
      rcases Nat.eq_zero_or_pos w.size with hzero | hpos
      · exact hzero
      · exact absurd (.inl (hclosed 0 (hsize ▸ hpos))) (hnone 0 hpos)
    exact ⟨fun i hi => by omega, fun p hp => by omega⟩
  · refine ⟨fun i hi j hj => (hsettled j hj).received i hi, fun p hp => ?_⟩
    exact ⟨(hsettled p (hsize ▸ hp)).queue, (h.sampled p).closed (hclosed p hp)⟩

def putSteps : List Act :=
  [.beginCreate true [sampleWrite .dmaPut 0 1], .userStep, .userStep,
    .sortOps [(sampleWrite .dmaPut 0 1).recvOp freeOp 0 0 2], .userStep, .userStep,
    .testSome [true, true], .daemonStep, .daemonStep, .daemonStep].map (.proc 0)

def getSteps : List Act :=
  [.recvCtrl 0, .daemonStep, .daemonStep, .testSome [true], .daemonStep, .daemonStep].map (.proc 1)

def closeSteps : List Act :=
  [.barrier, .proc 0 .beginClose, .proc 1 .beginClose, .allreduce] ++
    [.testSome [], .daemonStep, .userStep].map (.proc 0) ++
    [.testSome [], .daemonStep, .userStep].map (.proc 1)

/-- Nothing is lost when the message has arrived before the channel is
closed. -/
theorem closed_nothing_lost_put :
    (∀ p < 2, ((World.after reduceSettled 2 (putSteps ++ getSteps ++ closeSteps)).procs p).user =
      .closed) ∧
    (World.after reduceSettled 2 (putSteps ++ getSteps ++ closeSteps)).noneInFlight ∧
    ∀ p < 2, ((World.after reduceSettled 2 (putSteps ++ getSteps ++ closeSteps)).procs p).queue =
    [] ∧
      ((World.after reduceSettled 2 (putSteps ++ getSteps ++ closeSteps)).procs p).daemon =
      .drain := by
  have hclosed : ∀ p < 2, ((World.after reduceSettled 2
      (putSteps ++ getSteps ++ closeSteps)).procs p).user = .closed := by decide +kernel
  exact ⟨hclosed, closed_nothing_lost (World.run_after (by decide +kernel)) hclosed⟩

/-- A message that is still on its way is lost: both processes leave the loop
at once. -/
theorem close_loses_message :
    ∃ w : World, Run World.step (fun _ _ => True)
        (World.init 2 fun _ _ => ⟨0, none, 0, 0⟩) w ∧
      (∀ p < 2, (w.procs p).user = .closed) ∧
      (w.procs 1).ctrl_received 0 < ((w.procs 0).ctrl_sent 1).length := by
  refine ⟨World.after (fun _ _ => true) 2 (putSteps ++ closeSteps),
    (World.run_after (by decide +kernel)).mono fun _ _ _ => trivial, ?_, ?_⟩
  · decide +kernel
  · decide +kernel

end Unr.Mpi
