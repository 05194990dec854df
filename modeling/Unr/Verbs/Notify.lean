import Unr.Verbs.Jobs
import Unr.Verbs.Rounds

/-!
Notification.

Every posted job ends in one completion at its sender, and, if its write has a
remote flag, in one completion of a receive at its target: that of the request
itself for a put, that of the notification posted by the daemon for a get. The
events that the completions carry name the flags of the write, and 0 names
none. The counts are read off the traffic: as long as something is under way
for a job, something is outstanding.
-/

namespace Unr.Verbs

open Unr.Uru
open Unr.Logic
open Unr.Mpi (MemInfo Write)

/-! ### What a job is to signal -/

def Job.announces (job : Job) : Bool :=
  job.pr.wr.opcode = .rdmaWriteWithImm ∨
    (job.pr.wr.opcode = .rdmaRead ∧ job.pr.wr.wr_id.rmt_imm_protocol ≠ 0)

def Job.locNames (r f : Nat) (job : Job) : Bool :=
  job.initiator = r ∧ job.write.loc_flag_p = some f

def Job.rmtNames (r f : Nat) (job : Job) : Bool :=
  job.write.rmt_mem.rank = r ∧ job.write.rmt_flag_p = some f

/-- The call subtracts one from flag `f` of process `r`. -/
def Progress.hits (flag_pool : FlagPool) (r f : Nat) (e : Progress) : Bool :=
  e.rank = r ∧ flag_pool.named r e.event = some f

/-- What a call carries, depending on the completion it is made for. -/
structure Progress.Sound (e : Progress) : Prop where
  sent : e.source = .sent →
    e.rank = e.job.initiator ∧ e.event = e.job.pr.wr.locEvent
  notified : e.source = .notified → e.event = 0
  received : e.source = .received →
    e.rank = e.job.pr.dst_rank ∧ e.event = e.job.pr.wr.rmtEvent

/-- A request with immediate data belongs to a job that announces itself. -/
theorem Wqe.Sound.announces {size : Nat} {wqe : Wqe} (h : wqe.Sound size)
    (himm : wqe.wr.opcode = .rdmaWriteWithImm) : wqe.job.announces = true := by
  cases hnote : wqe.note with
  | true =>
      obtain ⟨-, hread, hzero⟩ := h.note hnote
      simpa [Job.announces, hread] using hzero
  | false =>
      rw [h.write hnote] at himm
      simp [Job.announces, himm]

theorem IbvWc.Sound.progress {size rank : Nat} {wc : IbvWc} (h : wc.Sound size rank) :
    (wc.progress rank).Sound := by
  obtain ⟨wqe, hwqe, ⟨rfl, success, rfl⟩ | ⟨rfl, himm, rfl⟩⟩ := h
  · have hsend : (wqe.sendWc success).opcode ≠ .recvRdmaWithImm := by
      simp only [Wqe.sendWc]
      split <;> simp
    have hevent : ((wqe.sendWc success).progress wqe.src).event = wqe.wr.wr_id.imm_protocol :=
      if_neg hsend
    have hsource : ((wqe.sendWc success).progress wqe.src).source =
        if wqe.note then .notified else .sent := if_neg hsend
    refine ⟨fun h => ⟨hwqe.src, ?_⟩, fun h => ?_, fun h => ?_⟩
    · rw [hsource] at h
      have hnote : wqe.note = false := by
        by_contra hne
        simp [hne] at h
      rw [hevent, hwqe.write hnote]
      rfl
    · rw [hsource] at h
      have hnote : wqe.note = true := by
        by_contra hne
        simp [hne] at h
      rw [hevent, (hwqe.note hnote).1]
      rfl
    · rw [hsource] at h
      split at h <;> cases h
  · refine ⟨by rintro ⟨⟩, by rintro ⟨⟩, fun _ => ⟨hwqe.dst, ?_⟩⟩
    cases hnote : wqe.note with
    | true =>
        obtain ⟨hwr, hread, -⟩ := hwqe.note hnote
        simp only [IbvWc.progress, Wqe.recvWc, if_true, hwr, rmtCompleteWr, IbvSendWr.rmtEvent,
          hread]
    | false =>
        rw [hwqe.write hnote] at himm
        simp only [IbvWc.progress, Wqe.recvWc, if_true, hwqe.write hnote, IbvSendWr.rmtEvent, himm]

/-! ### Accounts of a job -/

/-- The completion of the job at its sender is still to come. -/
def Item.sending (job : Job) : Item → Nat
  | .queued wqe | .acked wqe => if wqe.note = false ∧ wqe.job = job then 1 else 0
  | .completion _ wc =>
      if wc.opcode ≠ .recvRdmaWithImm ∧ wc.note = false ∧ wc.job = job then 1 else 0
  | .notification _ _ _ _ => 0

/-- The transfer of the data of the job is still to come, or it has failed. -/
def Item.moving (job : Job) : Item → Nat
  | .queued wqe => if wqe.note = false ∧ wqe.job = job then 1 else 0
  | .completion _ wc => if wc.success = false ∧ wc.note = false ∧ wc.job = job then 1 else 0
  | .acked _ | .notification _ _ _ _ => 0

/-- The request gets a notification once it has completed. -/
def IbvSendWr.notifies (wr : IbvSendWr) : Bool :=
  wr.opcode = .rdmaRead ∧ wr.wr_id.rmt_imm_protocol ≠ 0

/-- The completion of the receive of the job is still to come, or it has
failed. -/
def Item.announcing (job : Job) : Item → Nat
  | .queued wqe => if wqe.job = job ∧ job.announces then 1 else 0
  | .acked wqe => if wqe.job = job ∧ wqe.wr.notifies then 1 else 0
  | .completion _ wc =>
      if wc.job = job ∧ (wc.opcode = .recvRdmaWithImm ∨
        (if wc.success then wc.opcode = .rdmaRead ∧ wc.wr_id.rmt_imm_protocol ≠ 0
          else job.announces)) then 1 else 0
  | .notification _ _ _ job' => if job' = job then 1 else 0

/-- The calls made for one kind of completion of a job. -/
def World.calls (w : World) (source : Source) (job : Job) : Nat :=
  w.progress.countP fun e => e.source = source ∧ e.job = job

/-- What has been posted for a job is either done or under way. -/
structure World.Accounts (job : Job) (w : World) : Prop where
  sent : w.started.count job = weigh (Item.sending job) w.items + w.calls .sent job
  placed : w.started.count job = weigh (Item.moving job) w.items + w.placed.count job
  received : (if job.announces then w.started.count job else 0) =
    weigh (Item.announcing job) w.items + w.calls .received job

section Steps

variable {w w' : World} {a : Act} {c d : Multiset Item} {job : Job}

@[simp] theorem Wqe.sendWc_opcode (wqe : Wqe) (success : Bool) :
    (wqe.sendWc success).opcode ≠ .recvRdmaWithImm := by
  simp only [Wqe.sendWc]
  split <;> simp

@[simp] theorem Wqe.sendWc_note (wqe : Wqe) (success : Bool) :
    (wqe.sendWc success).note = wqe.note := rfl

@[simp] theorem Wqe.sendWc_success (wqe : Wqe) (success : Bool) :
    (wqe.sendWc success).success = success := rfl

@[simp] theorem Wqe.recvWc_opcode (wqe : Wqe) : wqe.recvWc.opcode = .recvRdmaWithImm := rfl

@[simp] theorem Wqe.recvWc_success (wqe : Wqe) : wqe.recvWc.success = true := rfl

theorem IbvWc.progress_sent {wc : IbvWc} {rank : Nat} :
    (wc.progress rank).source = .sent ↔ wc.opcode ≠ .recvRdmaWithImm ∧ wc.note = false := by
  simp only [IbvWc.progress]
  split_ifs with hrecv hnote
  · simp [hrecv]
  · simp [hnote]
  · simp [hrecv, hnote]

theorem IbvWc.progress_received {wc : IbvWc} {rank : Nat} :
    (wc.progress rank).source = .received ↔ wc.opcode = .recvRdmaWithImm := by
  simp only [IbvWc.progress]
  split_ifs with hrecv hnote <;> simp [hrecv]

@[simp] theorem IbvWc.progress_job (wc : IbvWc) (rank : Nat) : (wc.progress rank).job = wc.job :=
  rfl

theorem World.calls_handled (w : World) (rank : Nat) (wc : IbvWc) (proc : Proc)
    (source : Source) (job : Job) :
    (w.handled rank wc proc).calls source job = w.calls source job +
      if (wc.progress rank).source = source ∧ wc.job = job then 1 else 0 := by
  simp only [World.calls, World.handled, List.countP_append, List.countP_singleton,
    IbvWc.progress_job]
  congr 1
  exact if_congr decide_eq_true_iff rfl rfl

/-- A request without immediate data is that of the write, and it is followed
by a notification exactly if the job announces itself. -/
theorem Wqe.Sound.notifies {size : Nat} {wqe : Wqe} (h : wqe.Sound size)
    (himm : wqe.wr.opcode ≠ .rdmaWriteWithImm) : wqe.wr.notifies = wqe.job.announces := by
  have hnote : wqe.note = false := by
    by_contra hne
    rw [(h.note (by simpa using hne)).1] at himm
    exact himm rfl
  rw [h.write hnote] at himm ⊢
  simp [IbvSendWr.notifies, Job.announces, himm]

/-- What a step adds to the jobs, and to the calls for their own completions,
is what it takes out of the traffic and puts in. -/
theorem Move.sent_balance (job : Job)
    (hsignaled : ∀ (i : Nat) (wqe : Wqe), w.acked[i]? = some wqe → wqe.wr.signaled = true)
    (h : Move w a c d w') :
    w'.started.count job + w.calls .sent job + weigh (Item.sending job) c =
      w.started.count job + w'.calls .sent job + weigh (Item.sending job) d := by
  cases h with
  | halt | create | destroy | start | goto | submit | poll | repost => rfl
  | post =>
      simp [World.postWrite, World.calls, World.setProc, World.newWqe, Item.sending,
        List.count_append, List.count_singleton]
      omega
  | @handle rank num_wr wc rest proc hrank hdaemon hhandle =>
      have hnone : weigh (Item.sending job) (wc.notification rank) = 0 := by
        unfold IbvWc.notification
        split <;> simp [Item.sending]
      simp only [World.handled_started, World.calls_handled, hnone, weigh_singleton, Item.sending,
        IbvWc.progress_sent, and_assoc]
      omega
  | notify => simp [World.postNote, World.calls, World.setProc, Item.sending]
  | fail | execute | complete | arrive =>
      simp [World.pushWc, World.calls, World.setProc, Item.sending]
  | silent hi hsig => simp [hsignaled _ _ hi] at hsig

/-- What a step adds to the jobs, and to those whose data have been
transferred, is what it takes out of the traffic and puts in. -/
theorem Move.placed_balance (job : Job) (h : Move w a c d w') :
    w'.started.count job + w.placed.count job + weigh (Item.moving job) c =
      w.started.count job + w'.placed.count job + weigh (Item.moving job) d := by
  cases h with
  | halt | create | destroy | start | goto | submit | poll | repost => rfl
  | post =>
      simp [World.postWrite, World.setProc, World.newWqe, Item.moving, List.count_append,
        List.count_singleton]
      omega
  | @handle rank num_wr wc rest proc hrank hdaemon hhandle =>
      have hnone : weigh (Item.moving job) (wc.notification rank) = 0 := by
        unfold IbvWc.notification
        split <;> simp [Item.moving]
      simp [World.handled, World.setProc, hnone, Item.moving, (Proc.handle_eq_ok hhandle).1]
  | notify => simp [World.postNote, World.setProc, Item.moving]
  | fail | complete | silent => simp [World.pushWc, World.setProc, Item.moving]
  | @arrive i wqe hi | @execute i wqe hi =>
      cases hnote : wqe.note <;>
        simp [World.setProc, Item.moving, hnote, List.count_append, List.count_singleton,
          add_assoc]

/-- What a step adds to the jobs that announce themselves, and to the calls at
their target, is what it takes out of the traffic and puts in. -/
theorem Move.received_balance (job : Job) (hsound : w.Sound)
    (hsignaled : ∀ (i : Nat) (wqe : Wqe), w.acked[i]? = some wqe → wqe.wr.signaled = true)
    (h : Move w a c d w') :
    (if job.announces then w'.started.count job else 0) + w.calls .received job +
        weigh (Item.announcing job) c =
      (if job.announces then w.started.count job else 0) + w'.calls .received job +
        weigh (Item.announcing job) d := by
  have hitems := h.items hsound
  cases h with
  | halt | create | destroy | start | goto | submit | poll | repost => rfl
  | @post rank plan timeout entry =>
      simp [World.postWrite, World.calls, World.setProc, World.newWqe, Item.announcing,
        List.count_append, List.count_singleton]
      by_cases hjob : w.newJob rank entry = job
      · cases hannounces : job.announces <;> simp [hjob]
        omega
      · simp [hjob]
  -- a receive is reported here, a read leaves a notification behind
  | @handle rank num_wr wc rest proc hrank hdaemon hhandle =>
      have hnext : weigh (Item.announcing job) (wc.notification rank) =
          if wc.job = job ∧ wc.opcode = .rdmaRead ∧ wc.wr_id.rmt_imm_protocol ≠ 0
            then 1 else 0 := by
        unfold IbvWc.notification
        split_ifs <;> simp_all [Item.announcing]
      simp only [World.handled_started, World.calls_handled, weigh_singleton, Item.announcing,
        IbvWc.progress_received, (Proc.handle_eq_ok hhandle).1, if_true, hnext]
      by_cases hjob : wc.job = job
      · by_cases hrecv : wc.opcode = .recvRdmaWithImm
        · simp [hjob, hrecv, add_assoc]
        · simp [hjob, hrecv]
      · simp [hjob]
  | @notify rank dst_rank num_wr rmt_imm_protocol job' rest hrank hdaemon =>
      have hnote : Wqe.Sound w.size ⟨rank, dst_rank, rmtCompleteWr rmt_imm_protocol, job', true⟩ :=
        hsound _ (hitems.mem (Multiset.mem_singleton_self _))
      have hannounces : job'.announces = true := hnote.announces rfl
      by_cases hjob : job' = job
      · simp [World.postNote, World.calls, World.setProc, Item.announcing, hjob, hjob ▸ hannounces]
      · simp [World.postNote, World.calls, World.setProc, Item.announcing, hjob]
  | fail hi =>
      simp [World.pushWc, World.calls, World.setProc, Item.announcing]
  | @arrive i wqe hi himm =>
      have hannounces := (hsound.queued hi).announces himm
      by_cases hjob : wqe.job = job
      · simp [World.calls, World.setProc, Item.announcing, IbvSendWr.notifies, himm, hjob,
          hjob ▸ hannounces]
      · simp [World.calls, World.setProc, Item.announcing, hjob]
  | @execute i wqe hi himm =>
      have hnotifies := (hsound.queued hi).notifies himm
      by_cases hjob : wqe.job = job
      · simp [World.calls, Item.announcing, hjob, hnotifies]
      · simp [World.calls, Item.announcing, hjob]
  | @complete i wqe hi =>
      by_cases hread : wqe.wr.opcode = .rdmaRead <;>
        simp [World.pushWc, World.calls, World.setProc, Item.announcing, IbvSendWr.notifies,
          Wqe.sendWc, hread]
  | silent hi hsig => simp [hsignaled _ _ hi] at hsig

theorem Move.accounts (hsound : w.Sound)
    (hsignaled : ∀ (i : Nat) (wqe : Wqe), w.acked[i]? = some wqe → wqe.wr.signaled = true)
    (hold : w.Accounts job) (h : Move w a c d w') : w'.Accounts job := by
  have hitems := h.items hsound
  refine ⟨?_, ?_, ?_⟩
  · have hweigh := hitems.weigh (Item.sending job)
    have hbalance := h.sent_balance job hsignaled
    have hsent := hold.sent
    omega
  · have hweigh := hitems.weigh (Item.moving job)
    have hbalance := h.placed_balance job
    have hplaced := hold.placed
    omega
  · have hweigh := hitems.weigh (Item.announcing job)
    have hbalance := h.received_balance job hsound hsignaled
    have hreceived := hold.received
    omega

/-! ### Nothing is signalled early -/

/-- What has been reported for a job comes after the transfer of its data. -/
def Item.Placed (placed : List Job) : Item → Prop
  | .queued wqe => wqe.note = true → wqe.job ∈ placed
  | .acked wqe => wqe.job ∈ placed
  | .completion _ wc => wc.success = true → wc.job ∈ placed
  | .notification _ _ _ job => job ∈ placed

/-- The calls made so far, and those to come, are for transfers that are
over. -/
structure World.Truthful (w : World) : Prop where
  items : ∀ x ∈ w.items, x.Placed w.placed
  calls : ∀ e ∈ w.progress, e.Sound ∧ e.job ∈ w.placed

theorem Item.Placed.mono {placed placed' : List Job} (hsub : placed ⊆ placed') {x : Item}
    (h : x.Placed placed) : x.Placed placed' := by
  cases x with
  | queued | completion => exact fun hx => hsub (h hx)
  | acked | notification => exact hsub h

theorem Move.placed_subset (h : Move w a c d w') : w.placed ⊆ w'.placed := by
  cases h with
  | arrive | execute =>
      simp only [World.setProc]
      split <;> simp
  | _ => exact List.Subset.refl _

theorem Move.truthful (hsound : w.Sound) (hold : w.Truthful) (h : Move w a c d w') :
    w'.Truthful := by
  have hitems := h.items hsound
  have hsub := h.placed_subset
  -- what a step brings is about a job that is placed by then
  have hnew : ∀ x ∈ d, x.Placed w'.placed := by
    cases h with
    | halt | create | destroy | start | goto | submit | poll | repost | silent => simp
    | post => simp [Item.Placed, World.newWqe]
    | @handle rank num_wr wc rest proc hrank hdaemon hhandle =>
        have hwc := hold.items _ (hitems.mem (Multiset.mem_singleton_self _))
        unfold IbvWc.notification
        split
        · simpa [Item.Placed] using hsub (hwc (Proc.handle_eq_ok hhandle).1)
        · simp
    | notify =>
        have hnote := hold.items _ (hitems.mem (Multiset.mem_singleton_self _))
        simpa [Item.Placed] using hsub hnote
    | fail => simp [Item.Placed]
    | @arrive i wqe hi himm | @execute i wqe hi himm =>
        have hwqe := hold.items _ (hitems.mem (Multiset.mem_singleton_self _))
        have hplaced : wqe.job ∈ if wqe.note then w.placed else w.placed ++ [wqe.job] := by
          cases hnote : wqe.note with
          | true => exact hwqe hnote
          | false => simp
        simpa [Item.Placed, World.setProc] using hplaced
    | complete hi =>
        have hwqe := hold.items _ (hitems.mem (Multiset.mem_singleton_self _))
        simpa [Item.Placed] using hsub hwqe
  refine ⟨hitems.forall_mem (fun x hx => (hold.items x hx).mono hsub) hnew, ?_⟩
  have hcalls : ∀ e ∈ w.progress, e.Sound ∧ e.job ∈ w'.placed := fun e he =>
    ⟨(hold.calls e he).1, hsub (hold.calls e he).2⟩
  cases h with
  | @handle rank num_wr wc rest proc hrank hdaemon hhandle =>
      have hmem : Item.completion rank wc ∈ w.items := hitems.mem (Multiset.mem_singleton_self _)
      intro e he
      rcases List.mem_append.mp he with he | he
      · exact hcalls e he
      · cases List.mem_singleton.mp he
        exact ⟨IbvWc.Sound.progress (hsound _ hmem),
          hsub (hold.items _ hmem (Proc.handle_eq_ok hhandle).1)⟩
  | _ => exact hcalls

/-! ### The counters -/

/-- An event subtracts one from the flag it names, and from no other. -/
theorem Proc.eventProgress_counter {flag_pool : FlagPool} {rank : Nat} {proc proc' : Proc}
    {event : BitVec 32} (h : proc.eventProgress flag_pool rank event = .ok proc') (f : Nat) :
    (proc'.flags f).counter =
      (proc.flags f).counter - if flag_pool.named rank event = some f then 1#64 else 0#64 := by
  unfold Proc.eventProgress at h
  split at h
  · next hzero =>
    cases h
    simp [FlagPool.named, hzero]
  · next hne =>
    obtain ⟨base, hbase, h⟩ := bind_eq_ok.mp h
    cases h
    rw [FlagPool.named, if_neg hne, fetch_eq_ok.mp hbase, Option.map_some]
    by_cases hf : base + event.toNat = f
    · subst hf
      simp [BitVec.sub_eq_add_neg]
    · have hne' : f ≠ base + event.toNat := fun heq => hf heq.symm
      simp [Function.update_of_ne hne', hf]

def World.Counted (flags : Nat → Nat → UruFlag) (flag_pool : FlagPool) (w : World) : Prop :=
  w.flag_pool = flag_pool ∧ ∀ r f, ((w.procs r).flags f).counter =
    (flags r f).counter - BitVec.ofNat 64 (w.progress.countP (Progress.hits flag_pool r f))

theorem World.Counted.of_same {flags : Nat → Nat → UruFlag} {flag_pool : FlagPool}
    (hold : w.Counted flags flag_pool) (hflags : ∀ p, (w'.procs p).flags = (w.procs p).flags)
    (hpool : w'.flag_pool = w.flag_pool) (hprogress : w'.progress = w.progress) :
    w'.Counted flags flag_pool := by
  refine ⟨hpool.trans hold.1, fun r f => ?_⟩
  rw [hflags, hprogress, hold.2]

theorem Move.counted {flags : Nat → Nat → UruFlag} {flag_pool : FlagPool}
    (hold : w.Counted flags flag_pool) (h : Move w a c d w') : w'.Counted flags flag_pool := by
  cases h with
  | @handle rank num_wr wc rest proc hrank hdaemon hhandle =>
      obtain ⟨rfl, hold⟩ := hold
      obtain ⟨-, flagged, hflagged, rfl⟩ := Proc.handle_eq_ok hhandle
      have hcount : ∀ r f, (w.progress ++ [wc.progress rank]).countP
            (Progress.hits w.flag_pool r f) =
          w.progress.countP (Progress.hits w.flag_pool r f) +
            if rank = r ∧ w.flag_pool.named r (wc.progress rank).event = some f then 1 else 0 := by
        intro r f
        rw [List.countP_append, List.countP_singleton]
        congr 1
        exact if_congr decide_eq_true_iff rfl rfl
      have hflags : ((w.procs rank).finished wc).flags = (w.procs rank).flags := by
        rw [Proc.finished_frame]
      refine ⟨rfl, fun r f => ?_⟩
      simp only [World.handled, hcount]
      by_cases hr : r = rank
      · subst hr
        rw [World.setProc_self, Proc.eventProgress_counter hflagged, hflags, hold]
        by_cases hnamed : w.flag_pool.named r (wc.progress r).event = some f
        · rw [if_pos hnamed, if_pos ⟨rfl, hnamed⟩, BitVec.ofNat_add]
          exact BitVec.sub_sub ..
        · simp [hnamed]
      · have hne : ¬ rank = r := fun heq => hr heq.symm
        rw [World.setProc_of_ne hr, hold]
        simp [hne]
  | execute | silent => exact hold.of_same (fun _ => rfl) rfl rfl
  | _ => exact hold.of_same (World.setProc_field (·.flags) rfl) rfl rfl

end Steps

/-! ### What the events name -/

/-- The flags of a write of process `rank` are flags of the pool: its own one
there, and the other one where the write leads to. -/
def Pooled (size : Nat) (flag_pool : FlagPool) (rank : Nat) (write : Write) : Prop :=
  (∀ f, write.loc_flag_p = some f → write.loc_mem.rank = rank ∧
    flag_pool.Allocated size rank f) ∧
  ∀ f, write.rmt_flag_p = some f → flag_pool.Allocated size write.rmt_mem.rank f

/-- An event names the flag it was made for, and none where there is none. -/
theorem EventOf.named {size : Nat} {flag_pool : FlagPool} (hsize : flag_pool.size ≤ 2 ^ 32)
    {dst_rank : Nat} {flag_p : Option Nat} {add_num : BitVec 64} {event : BitVec 32}
    (hflag : ∀ f, flag_p = some f → flag_pool.Allocated size dst_rank f)
    (h : EventOf size flag_pool dst_rank flag_p add_num event) :
    flag_pool.named dst_rank event = flag_p := by
  cases flag_p with
  | none => exact if_pos h
  | some f => exact FlagPool.named_of_fill hsize (hflag f rfl) h

/-- The events of a job name the flags of its write, and it announces itself
exactly if there is a flag at the target. -/
structure Job.Names (flag_pool : FlagPool) (job : Job) : Prop where
  loc : flag_pool.named job.initiator job.pr.wr.locEvent = job.write.loc_flag_p
  rmt : flag_pool.named job.pr.dst_rank job.pr.wr.rmtEvent = job.write.rmt_flag_p
  dst_rank : job.pr.dst_rank = job.write.rmt_mem.rank
  announces : job.announces = job.write.rmt_flag_p.isSome

theorem PlanEntry.Planned.names {flag_pool : FlagPool} {w : World} {job : Job}
    (hpool : w.flag_pool = flag_pool) (hsize : flag_pool.size ≤ 2 ^ 32)
    (h : job.entry.Planned (Pooled w.size flag_pool) w job.initiator) : job.Names flag_pool := by
  subst hpool
  obtain ⟨hmade, hloc, hrmt⟩ := h
  have hwr := wrOf_planWr hmade
  have hlocNamed : w.flag_pool.named job.initiator job.pr.wr.locEvent = job.write.loc_flag_p := by
    have hevent : EventOf w.size w.flag_pool job.write.loc_mem.rank job.write.loc_flag_p
      job.write.loc_flag_add job.pr.wr.locEvent := hwr.loc_event
    cases hflag : job.write.loc_flag_p with
    | none =>
        rw [hflag] at hevent
        exact if_pos hevent
    | some f =>
        obtain ⟨hrank, halloc⟩ := hloc f hflag
        have hrank' : job.write.loc_mem.rank = job.initiator := hrank
        rw [hflag, hrank'] at hevent
        exact FlagPool.named_of_fill hsize halloc hevent
  have hdst : job.pr.dst_rank = job.write.rmt_mem.rank := hwr.dst_rank
  cases htype : job.write.dma_type with
  | unknown => exact absurd htype hwr.known
  | dmaPut =>
      obtain ⟨-, hopcode, hevent⟩ := hwr.put htype
      have hopcode' : job.pr.wr.opcode =
        if job.write.rmt_flag_p.isSome then .rdmaWriteWithImm else .rdmaWrite := hopcode
      have hnamed := hevent.named hsize hrmt
      refine ⟨hlocNamed, ?_, hdst, ?_⟩
      · rw [hdst, IbvSendWr.rmtEvent, hopcode']
        cases hflag : job.write.rmt_flag_p with
        | none => rfl
        | some f => exact hnamed.trans hflag
      · cases hflag : job.write.rmt_flag_p <;> simp [Job.announces, hopcode', hflag]
  | dmaGet =>
      have hopcode' : job.pr.wr.opcode = .rdmaRead := (hwr.get htype).1
      have hevent : EventOf w.size w.flag_pool job.write.rmt_mem.rank job.write.rmt_flag_p
        job.write.rmt_flag_add job.pr.wr.wr_id.rmt_imm_protocol := (hwr.get htype).2
      have hnamed : w.flag_pool.named job.write.rmt_mem.rank job.pr.wr.wr_id.rmt_imm_protocol =
        job.write.rmt_flag_p := hevent.named hsize hrmt
      refine ⟨hlocNamed, ?_, hdst, ?_⟩
      · rw [hdst, IbvSendWr.rmtEvent, hopcode']
        exact hnamed
      · cases hflag : job.write.rmt_flag_p with
        | none =>
            have hzero : job.pr.wr.wr_id.rmt_imm_protocol = 0 := by
              rw [hflag] at hevent
              exact hevent
            simp [Job.announces, hopcode', hzero]
        | some f =>
            have hne : job.pr.wr.wr_id.rmt_imm_protocol ≠ 0 := by
              intro hzero
              rw [hzero, hflag] at hnamed
              cases hnamed
            simpa [Job.announces, hopcode'] using hne

/-! ### Runs -/

section Runs

variable {size : Nat} {env : Option (BitVec 64)} {rmt_base : List Nat} {flag_pool : FlagPool}
  {lkey rkey : MemInfo → BitVec 32} {dev_attr : Nat → IbvDeviceAttr}
  {flags : Nat → Nat → UruFlag} {w : World}

theorem World.accounts_run {R : Nat → Write → Prop}
    (hrun : Run World.step (fun _ a => a.Creates R)
      (World.init size flag_pool lkey rkey dev_attr flags) w) (job : Job) : w.Accounts job := by
  have hinit : (World.init size flag_pool lkey rkey dev_attr flags).Accounts job := by
    have hempty : ∀ φ : Item → Nat,
        weigh φ (World.init size flag_pool lkey rkey dev_attr flags).items = 0 := by simp
    exact ⟨by rw [hempty]; rfl, by rw [hempty]; rfl, by rw [hempty]; simp [World.init, World.calls]⟩
  have hboth : w.Jobs R ∧ w.Accounts job := by
    refine World.invariant (I := fun w => w.Jobs R ∧ w.Accounts job)
      ⟨World.jobs_init, hinit⟩ ?_ hrun
    intro t a c d u hsound hI hcreates hmove
    exact ⟨hmove.jobs hsound hcreates hI.1,
      hmove.accounts hsound (fun _ _ hi => hI.1.signaled hsound hi) hI.2⟩
  exact hboth.2

theorem World.truthful_run {C : World → Act → Prop}
    (hrun : Run World.step C (World.init size flag_pool lkey rkey dev_attr flags) w) :
    w.Truthful :=
  World.invariant (I := World.Truthful) ⟨by simp, fun _ h => (nomatch h)⟩
    (fun _ _ _ _ _ hsound hold _ hmove => hmove.truthful hsound hold) hrun

theorem World.counted_run {C : World → Act → Prop}
    (hrun : Run World.step C (World.init size flag_pool lkey rkey dev_attr flags) w) :
    w.Counted flags flag_pool := by
  refine World.invariant (I := World.Counted flags flag_pool) ⟨rfl, fun r f => ?_⟩
    (fun _ _ _ _ _ _ hold _ hmove => hmove.counted hold) hrun
  simp [World.init, Proc.init]

def World.called (w : World) (source : Source) : List Job :=
  (w.progress.filter (·.source = source)).map (·.job)

theorem World.count_called (w : World) (source : Source) (job : Job) :
    (w.called source).count job = w.calls source job := by
  simp only [World.called, World.calls, List.count, List.countP_map, List.countP_filter]
  refine List.countP_congr fun e _ => ?_
  simp [and_comm]

/-- Once nothing is under way, the calls made for each kind of completion are
those of the jobs. -/
theorem World.Accounts.settled (haccounts : ∀ job, w.Accounts job) (hidle : w.items = 0) :
    w.placed.Perm w.started ∧ (w.called .sent).Perm w.started ∧
      (w.called .received).Perm (w.started.filter Job.announces) := by
  have hempty : ∀ φ : Item → Nat, weigh φ w.items = 0 := by simp [hidle]
  refine ⟨?_, ?_, ?_⟩ <;> refine List.perm_iff_count.mpr fun job => ?_
  · have hplaced := (haccounts job).placed
    rw [hempty] at hplaced
    omega
  · have hsent := (haccounts job).sent
    rw [hempty] at hsent
    rw [World.count_called]
    omega
  · have hreceived := (haccounts job).received
    rw [hempty] at hreceived
    rw [World.count_called]
    cases hannounces : job.announces with
    | true => 
        rw [List.count_filter hannounces]
        simp [hannounces] at hreceived
        omega
    | false =>
        rw [List.count_eq_zero.mpr (by simp [hannounces])]
        simp [hannounces] at hreceived
        omega

/-- Which flag a call hits depends on the job and on the completion. -/
theorem Progress.Sound.hits {e : Progress} (h : e.Sound) (hnames : e.job.Names flag_pool)
    (r f : Nat) : e.hits flag_pool r f =
      match e.source with
      | .sent => e.job.locNames r f
      | .notified => false
      | .received => e.job.rmtNames r f := by
  cases hsource : e.source with
  | sent =>
      obtain ⟨hrank, hevent⟩ := h.sent hsource
      simp only [Progress.hits, Job.locNames, hrank, hevent, ← hnames.loc]
      refine decide_eq_decide.mpr (and_congr_right fun hr => ?_)
      rw [hr]
  | notified => simp [Progress.hits, h.notified hsource, FlagPool.named]
  | received =>
      obtain ⟨hrank, hevent⟩ := h.received hsource
      simp only [Progress.hits, Job.rmtNames, hrank, hevent, ← hnames.rmt, ← hnames.dst_rank]
      refine decide_eq_decide.mpr (and_congr_right fun hr => ?_)
      rw [hr]

theorem countP_hits (r f : Nat) (es : List Progress)
    (hcalls : ∀ e ∈ es, e.Sound ∧ e.job.Names flag_pool) :
    es.countP (Progress.hits flag_pool r f) =
      ((es.filter (·.source = .sent)).map (·.job)).countP (Job.locNames r f) +
        ((es.filter (·.source = .received)).map (·.job)).countP (Job.rmtNames r f) := by
  induction es with
  | nil => rfl
  | cons e es ih =>
      have hrest := ih fun e' he' => hcalls e' (List.mem_cons_of_mem _ he')
      obtain ⟨hsound, hnames⟩ := hcalls e List.mem_cons_self
      have hhits := hsound.hits hnames r f
      rw [List.countP_cons, hrest, hhits]
      cases hsource : e.source <;> simp [hsource, List.countP_cons] <;> omega

/-- Exactly once. A call with an event belongs to a job whose data have been
transferred, and never to the completion of a notification. Every counter has
gone down by the calls that hit its flag. When nothing is under way, the jobs
that have been transferred are those that were posted, each once, and every
counter has gone down by one for each of them that names its flag, on either
side. -/
theorem notified_exactly_once (hpool : initFlagPool env rmt_base = .ok flag_pool)
    (hrun : Run World.step (fun _ a => a.Creates (Pooled size flag_pool))
      (World.init size flag_pool lkey rkey dev_attr flags) w) :
    (∀ e ∈ w.progress, e.event ≠ 0 → e.job ∈ w.placed ∧ e.source ≠ .notified) ∧
      (∀ r f, ((w.procs r).flags f).counter = (flags r f).counter -
        BitVec.ofNat 64 (w.progress.countP (Progress.hits flag_pool r f))) ∧
      (w.items = 0 → w.placed.Perm w.started ∧ w.started.Nodup ∧
        ∀ r f, ((w.procs r).flags f).counter = (flags r f).counter -
          BitVec.ofNat 64 (w.placed.countP (Job.locNames r f) +
            w.placed.countP (Job.rmtNames r f))) := by
  have hsize := (initFlagPool_eq_ok hpool).1
  have hjobs := World.jobs_run hrun
  have htruthful := World.truthful_run hrun
  have ⟨hconst, hcounted⟩ := World.counted_run hrun
  have hplanned : ∀ job ∈ w.started, job.Names flag_pool := fun job hjob =>
    PlanEntry.Planned.names hconst hsize (World.size_run hrun ▸ hjobs.planned job hjob)
  refine ⟨?_, hcounted, fun hidle => ?_⟩
  · intro e he hevent
    obtain ⟨hsound, hplaced⟩ := htruthful.calls e he
    exact ⟨hplaced, fun hsource => hevent (hsound.notified hsource)⟩
  · obtain ⟨hplaced, hsent, hreceived⟩ := World.Accounts.settled (World.accounts_run hrun) hidle
    refine ⟨hplaced, hjobs.nodup, fun r f => ?_⟩
    have hcalls : ∀ e ∈ w.progress, e.Sound ∧ e.job.Names flag_pool := fun e he =>
      ⟨(htruthful.calls e he).1, hplanned _ (hplaced.subset (htruthful.calls e he).2)⟩
    -- a job that names a flag at its target announces itself
    have hrmt : (w.started.filter Job.announces).countP (Job.rmtNames r f) =
        w.started.countP (Job.rmtNames r f) := by
      rw [List.countP_filter]
      refine List.countP_congr fun job hjob => ?_
      simp only [Job.rmtNames, (hplanned job hjob).announces, Bool.and_eq_true,
        decide_eq_true_eq, and_iff_left_iff_imp]
      rintro ⟨-, hflag⟩
      rw [hflag]
      rfl
    have hhits := countP_hits r f w.progress hcalls
    rw [hcounted, hhits, hplaced.countP_eq, hplaced.countP_eq]
    congr 3
    · exact hsent.countP_eq _
    · exact (hreceived.countP_eq _).trans hrmt

end Runs

/-! ### A get -/

def getWrite : Write where
  dma_type := .dmaGet
  loc_mem := ⟨0, 64, 0⟩
  loc_offset := 0
  loc_flag_p := some 1
  loc_flag_add := -1#64
  dma_size := 8
  rmt_mem := ⟨0, 64, 1⟩
  rmt_offset := 0
  rmt_flag_p := some 2
  rmt_flag_add := -1#64

def createsGet : Act → Bool
  | .proc rank (.create writes) => rank = 0 ∧ writes = [getWrite]
  | _ => true

theorem creates_of_createsGet {a : Act} (h : createsGet a = true) :
    a.Creates (Pooled 2 ⟨65536, [0, 0]⟩) := by
  have hpooled : Pooled 2 ⟨65536, [0, 0]⟩ 0 getWrite := by
    refine ⟨fun f hf => ⟨rfl, ?_⟩, fun f hf => ?_⟩ <;> cases hf <;>
      exact ⟨by decide, 0, rfl, by decide, by decide⟩
  cases a with
  | proc rank a =>
      cases a with
      | create writes =>
          simp only [createsGet, decide_eq_true_eq] at h
          obtain ⟨rfl, rfl⟩ := h
          intro write hwrite
          cases List.mem_singleton.mp hwrite
          exact hpooled
      | _ => trivial
  | _ => trivial

/-- The get is started, its data arrive, its notification is sent, and both
processes handle their completions. -/
def getActs : List Act :=
  [.proc 0 (.create [getWrite]), .proc 0 (.start 0)] ++
    List.replicate 4 (.proc 0 (.startStep false)) ++
    [.execute 0, .complete 0, .proc 0 (.poll 1), .proc 0 .daemonStep, .proc 0 .daemonStep,
      .proc 0 .daemonStep, .execute 0, .complete 0, .proc 0 (.poll 1), .proc 0 .daemonStep,
      .proc 0 .daemonStep, .proc 1 (.poll 1), .proc 1 .daemonStep, .proc 1 .daemonStep]

theorem notified_exactly_once_get :
    ∃ w : World, exec World.step (fun _ a => createsGet a) (World.two 1) getActs = some w ∧
      w.placed.length = 1 ∧ ((w.procs 0).flags 1).counter = -1#64 ∧
      ((w.procs 1).flags 2).counter = -1#64 ∧
      ((w.procs 1).flags 2).counter = 0#64 - BitVec.ofNat 64
        (w.placed.countP (Job.locNames 1 2) + w.placed.countP (Job.rmtNames 1 2)) := by
  have hreached : (exec World.step (fun _ a => createsGet a) (World.two 1) getActs).map
      (fun w => decide (w.items = 0 ∧ w.placed.length = 1 ∧
        ((w.procs 0).flags 1).counter = -1#64 ∧ ((w.procs 1).flags 2).counter = -1#64)) =
      some true := by decide
  obtain ⟨w, hexec, hw⟩ := Option.map_eq_some_iff.mp hreached
  obtain ⟨hidle, hplaced, hloc, hrmt⟩ := of_decide_eq_true hw
  have hrun := (Run.of_exec hexec).mono fun _ _ => creates_of_createsGet
  have hpool : initFlagPool none [0, 0] = .ok ⟨65536, [0, 0]⟩ := rfl
  have hcount := (notified_exactly_once hpool hrun).2.2 hidle
  exact ⟨w, hexec, hplaced, hloc, hrmt, hcount.2.2 1 2⟩

end Unr.Verbs
