import Unr.Verbs.Jobs
import Unr.Verbs.Rounds

/-!
The send window.

A request that is posted on a queue pair takes a slot until its completion has
been handled. A get that announces itself takes a second one, for the
notification that the daemon posts when the get has completed. What is counted
in `req_submit` and not yet in `req_finish` are the slots taken, except that a
request is posted a moment before it is counted.

The wait lets a start post while at most 255 slots are taken. The second slot
of a get is used only after the first has been given back, so that a queue pair
never holds more than 256 requests, although 257 slots may be taken.
-/

namespace Unr.Verbs

open Unr.Uru
open Unr.Logic
open Unr.Mpi (MemInfo)

/-! ### Slots -/

def IbvWc.ofSend (wc : IbvWc) : Prop := wc.opcode ≠ .recvRdmaWithImm

instance (wc : IbvWc) : Decidable wc.ofSend := inferInstanceAs (Decidable (_ ≠ _))

/-- The item takes a slot of the queue pair from `p` to `q`. -/
def Item.slot (p q : Nat) : Item → Nat
  | .queued wqe | .acked wqe => if wqe.src = p ∧ wqe.dst = q then 1 else 0
  | .completion rank wc => if wc.ofSend ∧ rank = p ∧ wc.dst_rank = q then 1 else 0
  | .notification rank dst_rank _ _ => if rank = p ∧ dst_rank = q then 1 else 0

/-- The item holds a second slot for the notification to come. -/
def Item.reserve (p q : Nat) : Item → Nat
  | .queued wqe | .acked wqe =>
      if (wqe.src = p ∧ wqe.dst = q) ∧
        wqe.wr.opcode = .rdmaRead ∧ wqe.wr.wr_id.rmt_imm_protocol ≠ 0 then 1 else 0
  | .completion rank wc =>
      if (rank = p ∧ wc.dst_rank = q) ∧
        wc.opcode = .rdmaRead ∧ wc.wr_id.rmt_imm_protocol ≠ 0 then 1 else 0
  | .notification _ _ _ _ => 0

theorem Item.reserve_le_slot (p q : Nat) (x : Item) : x.reserve p q ≤ x.slot p q := by
  cases x with
  | queued wqe | acked wqe =>
      simp only [reserve, slot]
      by_cases h : wqe.src = p ∧ wqe.dst = q
      · simp only [h, true_and, and_self, if_true]
        split <;> omega
      · simp [h]
  | completion rank wc =>
      simp only [reserve, slot]
      split
      · next h =>
        have hsend : wc.ofSend := by
          intro hrecv
          rw [hrecv] at h
          cases h.2.1
        rw [if_pos ⟨hsend, h.1⟩]
      · exact Nat.zero_le _
  | notification => exact Nat.zero_le _

theorem Item.slots_queued (p q : Nat) (wqe : Wqe) :
    (Item.queued wqe).slot p q + (Item.queued wqe).reserve p q =
      if wqe.src = p ∧ wqe.dst = q then Proc.slots wqe.wr else 0 := by
  simp only [slot, reserve, Proc.slots]
  by_cases h : wqe.src = p ∧ wqe.dst = q
  · simp only [h, and_self, true_and, if_true]
    split <;> rfl
  · simp [h]

namespace World

def used (w : World) (p q : Nat) : Nat := weigh (Item.slot p q) w.items

/-- How many are held for notifications. -/
def held (w : World) (p q : Nat) : Nat := weigh (Item.reserve p q) w.items

theorem held_le_used (w : World) (p q : Nat) : w.held p q ≤ w.used p q :=
  weigh_le_weigh fun x _ => x.reserve_le_slot p q

end World

/-- The slots of a request that is posted and not yet counted. -/
def StartPhase.uncounted (q : Nat) : StartPhase → Nat
  | .writing .submit _ entry _ => if entry.pr.dst_rank = q then Proc.slots entry.pr.wr else 0
  | _ => 0

@[simp] theorem StartPhase.uncounted_next (q plan : Nat) (rest : List PlanEntry) :
    (StartPhase.next plan rest).uncounted q = 0 := by
  cases rest <;> rfl

theorem StartPhase.uncounted_writing {q plan : Nat} {point : StartPoint} {entry : PlanEntry}
    {rest : List PlanEntry} (hpoint : point ≠ .submit) :
    (StartPhase.writing point plan entry rest).uncounted q = 0 := by
  cases point with
  | submit => exact absurd rfl hpoint
  | enter | test | wait | post => rfl

/-- What a start that is about to post on the queue pair to `q` has checked. -/
def StartPhase.PostsTo (q : Nat) : StartPhase → Prop
  | .writing .post _ entry _ => entry.pr.dst_rank = q
  | _ => False

theorem StartPhase.not_postsTo_next (q plan : Nat) (rest : List PlanEntry) :
    ¬ (StartPhase.next plan rest).PostsTo q := by
  cases rest <;> exact id

/-! ### The invariant -/

/-- The window of the queue pair from `p` to `q`. -/
structure World.Window (p q : Nat) (w : World) : Prop where
  /-- The slots taken are those counted in `req_submit` only. -/
  counted : (w.procs p).req_submit q + (w.procs p).start.uncounted q =
    (w.procs p).req_finish q + w.used p q + w.held p q
  /-- The queue pair has room for the requests. -/
  bound : w.used p q ≤ 256
  /-- A start that is about to post has left the wait. -/
  room : (w.procs p).start.PostsTo q → w.used p q + w.held p q ≤ 255

section Steps

variable {w w' : World} {p q rank : Nat} {a : Act} {c d : Multiset Item} {proc : Proc}

/-- A start leaves the wait while at most 255 slots are taken. -/
theorem World.Window.room_of_not_full (h : w.Window p q)
    (hcounted : (w.procs p).start.uncounted q = 0) (hroom : ¬ (w.procs p).queueFull q) :
    w.used p q + w.held p q ≤ 255 := by
  have hle := w.held_le_used p q
  have hbound := h.bound
  have heq : (w.procs p).req_submit q =
      (w.procs p).req_finish q + (w.used p q + w.held p q) := by
    have := h.counted
    omega
  have hsub := int64_sub ((w.procs p).req_finish q) (k := w.used p q + w.held p q) (by omega)
  unfold Proc.queueFull verbsOutstandingSendRequests at hroom
  rw [heq, hsub] at hroom
  omega

theorem Move.used (hsound : w.Sound) (h : Move w a c d w') (p q : Nat) :
    w'.used p q + weigh (Item.slot p q) c = w.used p q + weigh (Item.slot p q) d :=
  (h.items hsound).weigh _

theorem Move.held (hsound : w.Sound) (h : Move w a c d w') (p q : Nat) :
    w'.held p q + weigh (Item.reserve p q) c = w.held p q + weigh (Item.reserve p q) d :=
  (h.items hsound).weigh _

/-- A step that leaves the slots and the counters of the queue pair alone. -/
theorem World.Window.of_same (h : w.Window p q)
    (hused : w'.used p q = w.used p q) (hheld : w'.held p q = w.held p q)
    (hsubmit : (w'.procs p).req_submit q = (w.procs p).req_submit q)
    (hfinish : (w'.procs p).req_finish q = (w.procs p).req_finish q)
    (huncounted : (w'.procs p).start.uncounted q = (w.procs p).start.uncounted q)
    (hroom : (w'.procs p).start.PostsTo q → w.used p q + w.held p q ≤ 255) :
    w'.Window p q where
  counted := by rw [hsubmit, hfinish, huncounted, hused, hheld, h.counted]
  bound := by rw [hused]; exact h.bound
  room := by rw [hused, hheld]; exact hroom

theorem World.Window.of_local (hsound : w.Sound) (h : w.Window p q)
    (hmove : Move w a 0 0 (w.setProc rank proc))
    (hsubmit : proc.req_submit = (w.procs rank).req_submit)
    (hfinish : proc.req_finish = (w.procs rank).req_finish)
    (huncounted : proc.start.uncounted q = (w.procs rank).start.uncounted q)
    (hroom : rank = p → proc.start.PostsTo q → w.used p q + w.held p q ≤ 255) :
    (w.setProc rank proc).Window p q := by
  refine h.of_same (hmove.used hsound p q) (hmove.held hsound p q)
    (World.setProc_field (fun proc => proc.req_submit q) (by rw [hsubmit]) p)
    (World.setProc_field (fun proc => proc.req_finish q) (by rw [hfinish]) p)
    (World.setProc_field (fun proc => proc.start.uncounted q) huncounted p) ?_
  by_cases hp : p = rank
  · subst hp
    rw [World.setProc_self]
    exact hroom rfl
  · rw [World.setProc_of_ne hp]
    exact h.room

/-- A completion at the sender holds the slots of its request. -/
theorem Item.slot_sendWc (p q : Nat) (wqe : Wqe) (success : Bool) :
    (Item.completion wqe.src (wqe.sendWc success)).slot p q = (Item.queued wqe).slot p q := by
  have hsend : (wqe.sendWc success).ofSend := by
    intro hrecv
    simp only [Wqe.sendWc] at hrecv
    split at hrecv <;> cases hrecv
  simp only [slot, hsend, true_and]
  rfl

theorem Item.reserve_sendWc (p q : Nat) (wqe : Wqe) (success : Bool) :
    (Item.completion wqe.src (wqe.sendWc success)).reserve p q =
      (Item.queued wqe).reserve p q := by
  have hread : (wqe.sendWc success).opcode = .rdmaRead ↔ wqe.wr.opcode = .rdmaRead := by
    simp only [Wqe.sendWc]
    split <;> simp [*]
  simp only [reserve, hread]
  rfl

/-- The notification that follows a completion takes the slot held for it. -/
theorem IbvWc.slot_notification (p q rank : Nat) (wc : IbvWc) :
    weigh (Item.slot p q) (wc.notification rank) = (Item.completion rank wc).reserve p q := by
  unfold IbvWc.notification
  simp only [Item.reserve]
  by_cases hread : wc.opcode = .rdmaRead ∧ wc.wr_id.rmt_imm_protocol ≠ 0
  · rw [if_pos hread, weigh_singleton]
    simp only [Item.slot, hread.1, ne_eq, hread.2, not_false_eq_true, and_true]
  · rw [if_neg hread, weigh_zero, if_neg fun h => hread h.2]

theorem IbvWc.reserve_notification (p q rank : Nat) (wc : IbvWc) :
    weigh (Item.reserve p q) (wc.notification rank) = 0 := by
  unfold IbvWc.notification
  split
  · rw [weigh_singleton]
    rfl
  · rfl

/-- A completion gives back the slot of its request. -/
theorem Proc.finished_req_finish (p q rank : Nat) (proc : Proc) (wc : IbvWc) (hp : p = rank) :
    (proc.finished wc).req_finish q =
      proc.req_finish q + (Item.completion rank wc).slot p q := by
  unfold Proc.finished
  by_cases hrecv : wc.opcode = .recvRdmaWithImm
  · simp [Item.slot, IbvWc.ofSend, hrecv]
  · by_cases hq : wc.dst_rank = q
    · simp [Item.slot, IbvWc.ofSend, hrecv, hq, hp, Proc.finish]
    · simp [Item.slot, IbvWc.ofSend, hrecv, hq, Proc.finish, Function.update_of_ne (Ne.symm hq)]

/-- The counters and the place of the start are the same. -/
def Proc.SameCounters (proc proc' : Proc) : Prop :=
  proc'.req_submit = proc.req_submit ∧ proc'.req_finish = proc.req_finish ∧
    proc'.start = proc.start

theorem Proc.SameCounters.refl (proc : Proc) : proc.SameCounters proc := ⟨rfl, rfl, rfl⟩

theorem World.Window.of_moved (hsound : w.Sound) (h : w.Window p q) (hmove : Move w a c d w')
    (hprocs : ∀ p, (w.procs p).SameCounters (w'.procs p))
    (hslot : weigh (Item.slot p q) d = weigh (Item.slot p q) c)
    (hreserve : weigh (Item.reserve p q) d = weigh (Item.reserve p q) c) : w'.Window p q := by
  have hused := hmove.used hsound p q
  have hheld := hmove.held hsound p q
  obtain ⟨hsubmit, hfinish, hstart⟩ := hprocs p
  refine h.of_same (by omega) (by omega) (by rw [hsubmit]) (by rw [hfinish]) (by rw [hstart]) ?_
  rw [hstart]
  exact h.room

theorem World.Window.of_post {plan : Nat} {entry : PlanEntry} {rest : List PlanEntry}
    (h : w.Window p q) (timeout : Bool) (hsound : w.Sound) (hrank : rank < w.size)
    (hstart : (w.procs rank).start = .writing .post plan entry rest)
    (hdst : entry.pr.dst_rank < w.size) : (w.postWrite rank plan entry rest).Window p q := by
  have hmove : Move w (.proc rank (.startStep timeout)) _ _ _ := .post hrank hstart hdst
  have hused := hmove.used hsound p q
  have hheld := hmove.held hsound p q
  have hslots := Item.slots_queued p q (w.newWqe rank entry)
  have hcounted := h.counted
  have hbound := h.bound
  rw [weigh_zero, weigh_singleton, add_zero] at hused hheld
  by_cases hp : p = rank
  · subst hp
    have hprocs : (w.postWrite p plan entry rest).procs p = { w.procs p with
        next_job := (w.procs p).next_job + 1, start := .writing .submit plan entry rest } :=
      World.setProc_self
    -- between the post and the count the slots are in the send queue but not in the counter
    have hbefore : (w.procs p).start.uncounted q = 0 := by rw [hstart]; rfl
    have hafter : ((w.postWrite p plan entry rest).procs p).start.uncounted q =
        if entry.pr.dst_rank = q then Proc.slots entry.pr.wr else 0 := by rw [hprocs]; rfl
    simp only [World.newWqe, true_and] at hslots hused hheld
    refine ⟨?_, ?_, fun hpost => ?_⟩
    · rw [hafter, hprocs]
      simp only
      omega
    · by_cases hq : entry.pr.dst_rank = q
      · have hroom := h.room (by rw [hstart]; exact hq)
        simp only [Item.slot, hq, and_self, if_true] at hused
        omega
      · simp only [Item.slot, hq, and_false, if_false] at hused
        omega
    · rw [hprocs] at hpost
      exact hpost.elim
  · have hother : ¬ ((w.newWqe rank entry).src = p ∧ (w.newWqe rank entry).dst = q) :=
      fun h => hp h.1.symm
    rw [if_neg hother] at hslots
    have hprocs : (w.postWrite rank plan entry rest).procs p = w.procs p :=
      World.setProc_of_ne hp
    exact h.of_same (by omega) (by omega) (by rw [hprocs]) (by rw [hprocs]) (by rw [hprocs])
      (by rw [hprocs]; exact h.room)

theorem World.Window.of_submit {plan : Nat} {entry : PlanEntry} {rest : List PlanEntry}
    (h : w.Window p q) (timeout : Bool) (hsound : w.Sound) (hrank : rank < w.size)
    (hstart : (w.procs rank).start = .writing .submit plan entry rest) :
    (w.setProc rank ((w.procs rank).submit plan entry rest)).Window p q := by
  have hmove : Move w (.proc rank (.startStep timeout)) _ _ _ := .submit hrank hstart
  have hused := hmove.used hsound p q
  have hheld := hmove.held hsound p q
  rw [weigh_zero, add_zero, add_zero] at hused hheld
  by_cases hp : p = rank
  · subst hp
    have hcounted := h.counted
    rw [hstart] at hcounted
    have hsubmit : ((w.procs p).submit plan entry rest).req_submit q = (w.procs p).req_submit q +
        (StartPhase.writing .submit plan entry rest).uncounted q := by
      by_cases hq : entry.pr.dst_rank = q
      · subst hq
        simp [Proc.submit, StartPhase.uncounted]
      · simp [Proc.submit, StartPhase.uncounted, hq, Function.update_of_ne (Ne.symm hq)]
    refine ⟨?_, hused ▸ h.bound, fun hpost => ?_⟩
    · rw [hused, hheld, World.setProc_self, hsubmit]
      simpa [Proc.submit] using hcounted
    · rw [World.setProc_self] at hpost
      exact absurd hpost (StartPhase.not_postsTo_next _ _ _)
  · have hprocs : (w.setProc rank ((w.procs rank).submit plan entry rest)).procs p = w.procs p :=
      World.setProc_of_ne hp
    exact h.of_same hused hheld (by rw [hprocs]) (by rw [hprocs]) (by rw [hprocs])
      (by rw [hprocs]; exact h.room)

theorem World.Window.of_handle {num_wr : Nat} {wc : IbvWc} {rest : List IbvWc}
    (hsound : w.Sound) (h : w.Window p q) (hrank : rank < w.size)
    (hdaemon : (w.procs rank).daemon = .handling (wc :: rest) num_wr)
    (hhandle : (w.procs rank).handle w.flag_pool rank wc rest num_wr = .ok proc) :
    (w.handled rank wc proc).Window p q := by
  have hmove := Move.handle hrank hdaemon hhandle
  have hused := hmove.used hsound p q
  have hheld := hmove.held hsound p q
  rw [weigh_singleton, IbvWc.slot_notification] at hused
  rw [weigh_singleton, IbvWc.reserve_notification] at hheld
  have hle := (Item.completion rank wc).reserve_le_slot p q
  have hcounted := h.counted
  have hbound := h.bound
  by_cases hp : p = rank
  · subst hp
    have hframe := Proc.handle_frame hhandle
    have hfinish : proc.req_finish q =
        (w.procs p).req_finish q + (Item.completion p wc).slot p q := by
      rw [hframe]
      exact Proc.finished_req_finish p q p _ wc rfl
    have hsubmit : proc.req_submit = (w.procs p).req_submit := by rw [hframe]
    have hstart : proc.start = (w.procs p).start := by rw [hframe]
    have hprocs : (w.handled p wc proc).procs p = proc := World.setProc_self
    refine ⟨?_, by omega, fun hpost => ?_⟩
    · rw [hprocs, hsubmit, hstart, hfinish]
      omega
    · rw [hprocs, hstart] at hpost
      have hroom := h.room hpost
      omega
  · have hslot : (Item.completion rank wc).slot p q = 0 := by simp [Item.slot, Ne.symm hp]
    have hprocs : (w.handled rank wc proc).procs p = w.procs p := World.setProc_of_ne hp
    exact h.of_same (by omega) (by omega) (by rw [hprocs]) (by rw [hprocs]) (by rw [hprocs])
      (by rw [hprocs]; exact h.room)

theorem Move.window (hsound : w.Sound)
    (hsignaled : ∀ (i : Nat) (wqe : Wqe), w.acked[i]? = some wqe → wqe.wr.signaled = true)
    (hwindow : w.Window p q) (h : Move w a c d w') : w'.Window p q := by
  have hmove := h
  have hsame := fun p => Proc.SameCounters.refl (w.procs p)
  cases h with
  | halt | create | destroy | poll | repost =>
      exact hwindow.of_local hsound hmove rfl rfl rfl fun hp hpost => hwindow.room (hp ▸ hpost)
  | @start rank plan p hrank hidle =>
      refine hwindow.of_local hsound hmove rfl rfl ?_ fun _ hpost =>
        absurd hpost (StartPhase.not_postsTo_next _ _ _)
      rw [hidle]
      exact StartPhase.uncounted_next _ _ _
  -- the test has left the room that the post needs
  | @goto rank plan timeout point point' entry rest hrank hstart hpoint hpoint' hroom =>
      have huncounted : (w.procs rank).start.uncounted q = 0 := by
        rw [hstart]
        exact StartPhase.uncounted_writing hpoint
      refine hwindow.of_local hsound hmove rfl rfl ?_ ?_
      · rw [huncounted]
        exact StartPhase.uncounted_writing hpoint'
      · intro hp hpost
        subst hp
        cases point' with
        | enter | test | wait | submit => exact hpost.elim
        | post =>
            have hdst : entry.pr.dst_rank = q := hpost
            exact hwindow.room_of_not_full huncounted (hdst ▸ hroom rfl)
  | @post rank plan timeout entry rest hrank hstart hdst =>
      exact hwindow.of_post timeout hsound hrank hstart hdst
  | @submit rank plan timeout entry rest hrank hstart =>
      exact hwindow.of_submit timeout hsound hrank hstart
  | handle hrank hdaemon hhandle => exact hwindow.of_handle hsound hrank hdaemon hhandle
  | notify =>
      refine hwindow.of_moved hsound hmove ?_ (by simp [Item.slot]) ?_
      · exact World.forall_update (P := fun p => (w.procs p).SameCounters) rfl hsame ⟨rfl, rfl, rfl⟩
      · simp [Item.reserve, rmtCompleteWr]
  | fail | complete =>
      refine hwindow.of_moved hsound hmove ?_ ?_ ?_
      · exact World.forall_update (P := fun p => (w.procs p).SameCounters) rfl hsame ⟨rfl, rfl, rfl⟩
      · rw [weigh_singleton, weigh_singleton]
        exact Item.slot_sendWc p q _ _
      · rw [weigh_singleton, weigh_singleton]
        exact Item.reserve_sendWc p q _ _
  | arrive =>
      refine hwindow.of_moved hsound hmove ?_ ?_ ?_
      · exact World.forall_update (P := fun p => (w.procs p).SameCounters) rfl hsame ⟨rfl, rfl, rfl⟩
      · simp [Item.slot, IbvWc.ofSend, Wqe.recvWc, Multiset.insert_eq_cons, weigh]
      · simp [Item.reserve, Wqe.recvWc, Multiset.insert_eq_cons, weigh]
  | execute =>
      exact hwindow.of_moved hsound hmove hsame (by simp [Item.slot]) (by simp [Item.reserve])
  | silent hi hsilent => exact absurd (hsignaled _ _ hi) (by simp [hsilent])

end Steps

/-! ### What the queue pair holds -/

def IbvWc.on (q : Nat) (wc : IbvWc) : Bool := wc.ofSend ∧ wc.dst_rank = q

def Wqe.on (p q : Nat) (wqe : Wqe) : Bool := wqe.src = p ∧ wqe.dst = q

/-- The requests posted on the queue pair from `p` to `q` whose completion has
not been polled. -/
def World.outstanding (w : World) (p q : Nat) : Nat :=
  w.sq.countP (Wqe.on p q) + w.acked.countP (Wqe.on p q) +
    (w.procs p).shared_cq.countP (IbvWc.on q)

/-- What the daemon has polled and not yet handled, and the notification it is
about to post. -/
def DaemonPhase.inHand (q : Nat) : DaemonPhase → Nat
  | .idle => 0
  | .handling rest _ => rest.countP (IbvWc.on q)
  | .notifying dst_rank _ _ rest _ =>
      (if dst_rank = q then 1 else 0) + rest.countP (IbvWc.on q)

theorem weigh_slot_queued (p q : Nat) (l : List Wqe) :
    weigh (Item.slot p q) (Multiset.map .queued (l : Multiset Wqe)) = l.countP (Wqe.on p q) := by
  induction l with
  | nil => rfl
  | cons wqe l ih =>
      rw [← Multiset.cons_coe, Multiset.map_cons, ← Multiset.singleton_add, weigh_add, ih,
        weigh_singleton, List.countP_cons, add_comm]
      simp [Item.slot, Wqe.on]

theorem weigh_slot_acked (p q : Nat) (l : List Wqe) :
    weigh (Item.slot p q) (Multiset.map .acked (l : Multiset Wqe)) = l.countP (Wqe.on p q) := by
  rw [← weigh_slot_queued, weigh, weigh, Multiset.map_map, Multiset.map_map]
  rfl

theorem weigh_slot_completion (p q rank : Nat) (l : List IbvWc) :
    weigh (Item.slot p q) (Multiset.map (.completion rank) (l : Multiset IbvWc)) =
      if rank = p then l.countP (IbvWc.on q) else 0 := by
  induction l with
  | nil => simp
  | cons wc l ih =>
      rw [← Multiset.cons_coe, Multiset.map_cons, ← Multiset.singleton_add, weigh_add, ih,
        weigh_singleton, List.countP_cons]
      by_cases hrank : rank = p
      · simp [Item.slot, IbvWc.on, hrank, add_comm]
      · simp [Item.slot, hrank]

theorem Proc.weigh_slot (p q rank : Nat) (proc : Proc) :
    weigh (Item.slot p q) (proc.items rank) =
      if rank = p then proc.shared_cq.countP (IbvWc.on q) + proc.daemon.inHand q else 0 := by
  unfold Proc.items
  rw [weigh_add, weigh_slot_completion]
  cases proc.daemon with
  | idle => simp [DaemonPhase.items, DaemonPhase.inHand]
  | handling rest num_wr =>
      simp only [DaemonPhase.items, DaemonPhase.inHand, weigh_slot_completion]
      split <;> rfl
  | notifying dst_rank rmt_imm_protocol job rest num_wr =>
      simp only [DaemonPhase.items, DaemonPhase.inHand, weigh_add, weigh_singleton,
        weigh_slot_completion, Item.slot]
      by_cases hrank : rank = p <;> simp [hrank]

/-- The slots used are those of the requests on the queue pair. -/
theorem World.used_eq (w : World) {p q : Nat} (hp : p < w.size) :
    w.used p q = w.outstanding p q + (w.procs p).daemon.inHand q := by
  have hsum : weigh (Item.slot p q) (∑ r ∈ Finset.range w.size, (w.procs r).items r) =
      ∑ r ∈ Finset.range w.size, weigh (Item.slot p q) ((w.procs r).items r) :=
    weigh_sum _ _ _
  unfold World.used World.items World.outstanding
  rw [weigh_add, weigh_add, weigh_slot_queued, weigh_slot_acked, hsum,
    Finset.sum_congr rfl fun r _ => Proc.weigh_slot p q r (w.procs r),
    Finset.sum_ite_eq' _ _ fun r => (w.procs r).shared_cq.countP (IbvWc.on q) +
      (w.procs r).daemon.inHand q, if_pos (Finset.mem_range.mpr hp)]
  omega

section Runs

variable {size : Nat} {flag_pool : FlagPool} {lkey rkey : MemInfo → BitVec 32}
  {dev_attr : Nat → IbvDeviceAttr} {flags : Nat → Nat → UruFlag} {w : World}

theorem Act.creates_true (a : Act) : a.Creates fun _ _ => True := by
  unfold Act.Creates
  split
  · exact fun _ _ => trivial
  · trivial

theorem World.window_run
    (hrun : Run World.step (fun _ _ => True)
      (World.init size flag_pool lkey rkey dev_attr flags) w) (p q : Nat) : w.Window p q := by
  have hinit : (World.init size flag_pool lkey rkey dev_attr flags).Window p q := by
    have hempty : ∀ φ : Item → Nat,
        weigh φ (World.init size flag_pool lkey rkey dev_attr flags).items = 0 := by simp
    refine ⟨?_, ?_, fun hpost => hpost.elim⟩
    · rw [World.used, World.held, hempty, hempty]
      rfl
    · rw [World.used, hempty]
      exact Nat.zero_le _
  have hboth : w.Jobs (fun _ _ => True) ∧ w.Window p q := by
    refine World.invariant (I := fun w => w.Jobs (fun _ _ => True) ∧ w.Window p q)
      ⟨World.jobs_init, hinit⟩ ?_ hrun
    intro t a c d u hsound hI _ hmove
    exact ⟨hmove.jobs hsound a.creates_true hI.1,
      hmove.window hsound (fun _ _ hi => hI.1.signaled hsound hi) hI.2⟩
  exact hboth.2

end Runs

/-- The send window. The requests on a queue pair whose completion has not been
handled are at most 256, notifications included; an assertion of the start
holds whenever it is evaluated, as long as fewer than `2 ^ 63` requests have
been counted on the queue pair; and when no start is going on and nothing is
outstanding, the two counters are equal. -/
theorem send_window {size : Nat} {flag_pool : FlagPool} {lkey rkey : MemInfo → BitVec 32}
    {dev_attr : Nat → IbvDeviceAttr} {flags : Nat → Nat → UruFlag} {w : World}
    (hrun : Run World.step (fun _ _ => True)
      (World.init size flag_pool lkey rkey dev_attr flags) w) {p q : Nat} (hp : p < size) :
    w.outstanding p q + (w.procs p).daemon.inHand q ≤ verbsOutstandingSendRequests ∧
      (∀ (point : StartPoint) (plan : Nat) (entry : PlanEntry) (rest : List PlanEntry),
        (w.procs p).start = .writing point plan entry rest → point = .enter ∨ point = .wait →
        entry.pr.dst_rank = q → (w.procs p).req_submit q < 2 ^ 63 →
        (w.procs p).submitGeFinish q) ∧
      ((w.procs p).start = .idle → w.outstanding p q = 0 → (w.procs p).daemon.inHand q = 0 →
        (w.procs p).req_submit q = (w.procs p).req_finish q) := by
  have hwindow := World.window_run hrun p q
  have hused := w.used_eq (q := q) ((World.size_run hrun).symm ▸ hp)
  have hheld := w.held_le_used p q
  have hcounted := hwindow.counted
  have hbound := hwindow.bound
  refine ⟨?_, ?_, ?_⟩
  · unfold verbsOutstandingSendRequests
    omega
  · intro point plan entry rest hstart hpoint hdst hlt
    have huncounted : (w.procs p).start.uncounted q = 0 := by
      rw [hstart]
      refine StartPhase.uncounted_writing ?_
      rcases hpoint with rfl | rfl <;> decide
    unfold Proc.submitGeFinish
    rw [int64_toInt hlt, int64_toInt (by omega)]
    omega
  · intro hidle hnone hnothing
    rw [hidle] at hcounted
    have huncounted : StartPhase.idle.uncounted q = 0 := rfl
    omega

/-- After 3 puts. -/
theorem send_window_three :
    ∃ w : World, w.Shows (putEntry none) (.resting 3 1) ∧ 0 < 2 ∧
      w.outstanding 0 1 + (w.procs 0).daemon.inHand 1 ≤ verbsOutstandingSendRequests := by
  obtain ⟨w, hrun, hshows⟩ := reaches_resting none nofun 3 1
  exact ⟨w, hshows, by decide, (send_window hrun (p := 0) (q := 1) (by decide)).1⟩

/-- The counters are read as signed numbers: the assertion fails once `2 ^ 63`
requests have been counted. -/
theorem assertion_fails :
    ∃ w : World, Run World.step (fun _ _ => True) (World.two 1) w ∧
      (w.procs 0).start = .writing .enter 0 (putEntry none) [] ∧
      (putEntry none).pr.dst_rank = 1 ∧ ¬ (w.procs 0).submitGeFinish 1 := by
  obtain ⟨w, hrun, hshows⟩ := reaches_resting none nofun (2 ^ 63 - 1) 1
  have hposted : Goes (putEntry none) _ _ := goes_posted rfl (by decide) (2 ^ 63 - 1) 1
  have hnext : Goes (putEntry none) _ _ := goes_start (v := .posted (putEntry none) (2 ^ 63 - 1) 1)
  obtain ⟨w', hrun', hshows'⟩ := (hposted.trans hnext) _ w hrun hshows
  refine ⟨w', hrun', hshows'.start, rfl, ?_⟩
  rw [Proc.submitGeFinish, hshows'.req_submit, hshows'.req_finish]
  decide

end Unr.Verbs
