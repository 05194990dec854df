import Unr.Mpi.Initiator
import Unr.Mpi.Moves

/-!
What a process keeps true of the batches it has received from another one.

The receiver has handled a prefix of the messages sent to it. Its table is the
replay of that prefix, and what it has posted for the sender, with what it is
about to post, is the output of the replay.
-/

namespace Unr.Mpi

open Unr.Uru Unr.Logic

def peerLog (i : Nat) (log : List Post) : List Post :=
  log.filter fun x => x.own = false ∧ x.write.initiator = i

@[simp] theorem peerLog_append (i : Nat) (xs ys : List Post) :
    peerLog i (xs ++ ys) = peerLog i xs ++ peerLog i ys :=
  List.filter_append _ _

def tableMap (table : List (Option OpBatch)) : BatchMap := fun id => (table[id]?).getD none

/-- What the daemon is about to post for a batch of process `i`. -/
def DaemonPhase.pendingPosts (i : Nat) : DaemonPhase → List Post
  | posting src start rest _ => if src = i then rest.map (peerPost src (start.getD 0)) else []
  | _ => []

/-- The invariant of a process about what process `i` has sent to it. -/
structure Link (i : Nat) (sent : List CtrlMsg) (proc : Proc) : Prop where
  received_le : proc.ctrl_received i ≤ sent.length
  /-- Posts come in the order in which they are announced. -/
  posts : peerLog i proc.log <+: (batchHandler i).outputs emptyMap sent
  /-- As long as the process runs, its table and its posts are those of the
  messages received. -/
  live : proc.halted = none →
    tableMap (proc.recv_batch i) =
        (batchHandler i).final emptyMap (sent.take (proc.ctrl_received i)) ∧
      peerLog i proc.log ++ proc.daemon.pendingPosts i =
        (batchHandler i).outputs emptyMap (sent.take (proc.ctrl_received i))

/-- Messages whose batches are those of process `i`. -/
def AllFrom (size i : Nat) (msgs : List CtrlMsg) : Prop :=
  ∀ msg ∈ msgs, ∀ batch ∈ msg.batch, batch.From size i

/-! ### Tables as maps -/

theorem tableMap_set {table : List (Option OpBatch)} {id : Nat} (slot : Option OpBatch)
    (hid : id < table.length) :
    tableMap (table.set id slot) = Function.update (tableMap table) id slot := by
  funext id'
  by_cases hid' : id' = id
  · subst hid'
    simp [tableMap, hid]
  · rw [Function.update_of_ne hid', tableMap, List.getElem?_set_ne (Ne.symm hid'), tableMap]

theorem tableMap_growTable {table table' : List (Option OpBatch)} {id : Nat}
    (h : growTable table id = .ok table') :
    tableMap table' = tableMap table ∧ table.length ≤ table'.length ∧ id < table'.length := by
  unfold growTable at h
  split at h
  · split at h
    · cases h
      refine ⟨?_, by simp, by simp; omega⟩
      funext id'
      unfold tableMap
      by_cases hid' : id' < table.length
      · rw [List.getElem?_append_left hid']
      · rw [List.getElem?_append_right (by omega), List.getElem?_replicate,
          List.getElem?_eq_none (by omega : table.length ≤ id')]
        split <;> rfl
    · cases h
  · cases h
    exact ⟨rfl, Nat.le_refl _, by omega⟩

/-! ### What messages announce -/

theorem final_batch {i : Nat} {Q : OpBatch → Prop} {msgs : List CtrlMsg}
    (h : ∀ msg ∈ msgs, ∀ batch ∈ msg.batch, Q batch) {id : Nat} {batch : OpBatch}
    (hslot : (batchHandler i).final emptyMap msgs id = some batch) : Q batch := by
  induction msgs using List.reverseRecOn generalizing id batch with
  | nil => exact nomatch hslot
  | append_singleton msgs msg ih =>
      have ih := fun {id batch} => @ih (fun m hm => h m (List.mem_append_left _ hm)) id batch
      rw [Handler.final_concat] at hslot
      cases msg with
      | createOpBatch id' batch' =>
          by_cases hid : id = id'
          · subst hid
            simp only [batchHandler, Function.update_self, Option.some.injEq] at hslot
            subst hslot
            exact h (.createOpBatch id batch') (by simp) batch' rfl
          · simp only [batchHandler, Function.update_of_ne hid] at hslot
            exact ih hslot
      | destroyOpBatch id' plan =>
          by_cases hid : id = id'
          · subst hid
            simp [batchHandler] at hslot
          · simp only [batchHandler, Function.update_of_ne hid] at hslot
            exact ih hslot
      | startOpBatch _ _ _ => exact ih hslot
      | executeOpBatch _ => exact ih hslot

/-- A post of the receiver: it names the sender, whose tags it uses. -/
theorem outputs_from {size i : Nat} {msgs : List CtrlMsg} (h : AllFrom size i msgs) :
    ∀ x ∈ (batchHandler i).outputs emptyMap msgs, x.own = false ∧ x.write.initiator = i ∧
      x.rank = i ∧ x.tag % size = i := by
  have hpost : ∀ (batch : OpBatch) (start : Nat), batch.From size i →
      ∀ x ∈ batch.ops.map (peerPost i start), x.own = false ∧ x.write.initiator = i ∧
        x.rank = i ∧ x.tag % size = i := by
    intro batch start hops x hx
    obtain ⟨op, hop, rfl⟩ := List.mem_map.mp hx
    exact ⟨rfl, rfl, (hops op hop).rank_eq, (hops op hop).tag_mod⟩
  induction msgs using List.reverseRecOn with
  | nil => intro x hx; exact nomatch hx
  | append_singleton msgs msg ih =>
      have hmsgs : AllFrom size i msgs := fun m hm => h m (List.mem_append_left _ hm)
      rw [Handler.outputs_concat]
      intro x hx
      rcases List.mem_append.mp hx with hx | hx
      · exact ih hmsgs x hx
      · cases msg with
        | createOpBatch _ _ => exact nomatch hx
        | destroyOpBatch _ _ => exact nomatch hx
        | startOpBatch id plan start =>
            match hslot : (batchHandler i).final emptyMap msgs id with
            | some batch =>
                simp only [batchHandler] at hx hslot
                rw [hslot] at hx
                exact hpost _ _ (final_batch hmsgs hslot) x hx
            | none =>
                simp only [batchHandler] at hx hslot
                rw [hslot] at hx
                exact nomatch hx
        | executeOpBatch batch =>
            exact hpost _ _ (h (.executeOpBatch batch) (by simp) batch rfl) x hx

/-! ### Steps -/

namespace Link

variable {i : Nat} {sent : List CtrlMsg} {proc proc' : Proc}

theorem init (flags : Nat → UruFlag) : Link i [] (.init flags) :=
  ⟨Nat.le_refl _, List.prefix_refl _, fun _ => ⟨rfl, rfl⟩⟩

theorem extend (h : Link i sent proc) (msgs : List CtrlMsg) : Link i (sent ++ msgs) proc where
  received_le := by
    rw [List.length_append]
    exact Nat.le_add_right_of_le h.received_le
  posts := by
    rw [Handler.outputs_append]
    exact h.posts.trans (List.prefix_append _ _)
  live := by
    rw [List.take_append_of_le_length h.received_le]
    exact h.live

theorem frame (h : Link i sent proc)
    (hreceived : proc'.ctrl_received i = proc.ctrl_received i)
    (htable : proc'.recv_batch i = proc.recv_batch i)
    (hlog : peerLog i proc'.log = peerLog i proc.log)
    (hpending : proc'.daemon.pendingPosts i = proc.daemon.pendingPosts i)
    (hhalted : proc'.halted = none → proc.halted = none) : Link i sent proc' where
  received_le := hreceived ▸ h.received_le
  posts := hlog ▸ h.posts
  live := by
    intro hlive
    rw [hreceived, htable, hlog, hpending]
    exact h.live (hhalted hlive)

theorem received (h : Link i sent proc) (hlive : proc.halted = none)
    (hdrain : proc.daemon = .drain) {msg : CtrlMsg}
    (hmsg : sent[proc.ctrl_received i]? = some msg)
    (hreceived : proc'.ctrl_received i = proc.ctrl_received i + 1) (hlog : proc'.log = proc.log)
    (htable : tableMap (proc'.recv_batch i) =
      (batchHandler i).step (tableMap (proc.recv_batch i)) msg)
    (hpending : proc'.daemon.pendingPosts i =
      (batchHandler i).out (tableMap (proc.recv_batch i)) msg) : Link i sent proc' := by
  obtain ⟨hold, hposts⟩ := h.live hlive
  obtain ⟨hlt, hget⟩ := List.getElem?_eq_some_iff.mp hmsg
  have htake : sent.take (proc.ctrl_received i + 1) =
      sent.take (proc.ctrl_received i) ++ [msg] := by
    rw [List.take_succ_eq_append_getElem hlt, hget]
  have hnone : proc.daemon.pendingPosts i = [] := by rw [hdrain]; rfl
  rw [hnone, List.append_nil] at hposts
  refine ⟨hreceived ▸ hlt, hlog ▸ h.posts, fun _ => ?_⟩
  rw [hreceived, htake, Handler.final_concat, Handler.outputs_concat, htable, hlog, hpending,
    ← hold, ← hposts]
  exact ⟨rfl, rfl⟩

theorem recvHalt (h : Link i sent proc) {src : Nat}
    (hmsg : src = i → ∃ msg, sent[proc.ctrl_received i]? = some msg) (stop : Stop) :
    Link i sent ((proc.counted src).halt stop) := by
  refine ⟨?_, h.posts, fun hnone => nomatch hnone⟩
  by_cases hsrc : src = i
  · subst hsrc
    obtain ⟨msg, hmsg⟩ := hmsg rfl
    simp only [Proc.counted, Proc.halt, Function.update_self]
    exact (List.getElem?_eq_some_iff.mp hmsg).1
  · simp only [Proc.counted, Proc.halt, Function.update_of_ne (Ne.symm hsrc)]
    exact h.received_le

theorem pendingPosts_of_ne {src : Nat} (hsrc : src ≠ i) (start : Option Nat)
    (ops : List MpiOp) (es : List Entry) :
    (DaemonPhase.posting src start ops es).pendingPosts i = [] := by
  simp [DaemonPhase.pendingPosts, hsrc]

theorem posted (h : Link i sent proc) (hlive : proc.halted = none) {src : Nat}
    {start : Option Nat} {op : MpiOp} {rest : List MpiOp} {mpi_op es : List Entry}
    (hdaemon : proc.daemon = .posting src start (op :: rest) mpi_op)
    (hreceived : proc'.ctrl_received = proc.ctrl_received)
    (htable : proc'.recv_batch = proc.recv_batch)
    (hlog : proc'.log = proc.log ++ [peerPost src (start.getD 0) op])
    (hnext : proc'.daemon = .posting src start rest es) : Link i sent proc' := by
  obtain ⟨hold, hposts⟩ := h.live hlive
  have hsplit : peerLog i proc'.log ++ proc'.daemon.pendingPosts i =
      (batchHandler i).outputs emptyMap (sent.take (proc.ctrl_received i)) := by
    rw [← hposts, hlog, hnext, hdaemon, peerLog_append, List.append_assoc]
    by_cases hsrc : src = i <;> simp [DaemonPhase.pendingPosts, peerLog, peerPost, hsrc]
  refine ⟨hreceived ▸ h.received_le, ?_, fun _ => ?_⟩
  · have hpart : peerLog i proc'.log <+:
        (batchHandler i).outputs emptyMap (sent.take (proc.ctrl_received i)) :=
      hsplit ▸ List.prefix_append _ _
    refine hpart.trans ?_
    conv_rhs => rw [← List.take_append_drop (proc.ctrl_received i) sent]
    rw [Handler.outputs_append]
    exact List.prefix_append _ _
  · rw [hreceived, htable]
    exact ⟨hold, hsplit⟩

theorem same (h : Link i sent proc) (hreceived : proc'.ctrl_received = proc.ctrl_received)
    (htable : proc'.recv_batch = proc.recv_batch)
    (hlog : peerLog i proc'.log = peerLog i proc.log)
    (hdaemon : proc'.daemon.pendingPosts i = proc.daemon.pendingPosts i)
    (hhalted : proc'.halted = none → proc.halted = none) : Link i sent proc' :=
  h.frame (congrFun hreceived i) (congrFun htable i) hlog hdaemon hhalted

theorem move {w : World} {rank : Nat} {a : ProcAct}
    (h : Link i ((w.procs i).ctrl_sent rank) proc) (hlive : proc.halted = none)
    (hmove : Move w rank proc a proc') : Link i ((w.procs i).ctrl_sent rank) proc' := by
  cases hmove with
  | beginCreate | sortOps | beginStart | beginDestroy | beginClose | startBatch
  | finishStart | finishCreate | finishDestroy | closeLoop =>
      exact h.same rfl rfl rfl rfl id
  | userHalt | daemonHalt => exact ⟨h.received_le, h.posts, fun hnone => nomatch hnone⟩
  | drawTag | writeKept | announceOnce | announceKept | destroyOp | destroyBatch =>
      exact h.same rfl rfl rfl rfl id
  | writeOnce =>
      exact h.same rfl rfl (by simp [Proc.enter, Proc.post, peerLog]) rfl id
  | startOp =>
      exact h.same rfl rfl (by simp [Proc.startOp, Proc.activate, Proc.post, peerLog]) rfl id
  | @recvCreate src batch_id batch table hdaemon _ _ hmsg hgrow hslot =>
      by_cases hsrc : src = i
      · subst hsrc
        obtain ⟨hsame, -, hid⟩ := tableMap_growTable hgrow
        refine h.received hlive hdaemon hmsg (by simp [Proc.counted, Proc.setTable]) rfl ?_ ?_
        · simp only [Proc.setTable, Function.update_self, tableMap_set _ hid, hsame]
          rfl
        · simp only [Proc.counted, Proc.setTable, hdaemon]
          rfl
      · exact h.frame (Function.update_of_ne (Ne.symm hsrc) _ _)
          (Function.update_of_ne (Ne.symm hsrc) _ _) rfl rfl id
  | @recvDestroy src batch_id plan batch hdaemon _ _ hmsg hslot =>
      by_cases hsrc : src = i
      · subst hsrc
        have hid := (List.getElem?_eq_some_iff.mp hslot).1
        refine h.received hlive hdaemon hmsg (by simp [Proc.counted, Proc.setTable]) rfl ?_ ?_
        · simp only [Proc.setTable, Function.update_self, tableMap_set _ hid]
          rfl
        · simp only [Proc.counted, Proc.setTable, hdaemon]
          rfl
      · exact h.frame (Function.update_of_ne (Ne.symm hsrc) _ _)
          (Function.update_of_ne (Ne.symm hsrc) _ _) rfl rfl id
  -- the table holds the batch that the message names
  | @recvStart src batch_id plan start batch hdaemon _ _ hmsg hslot =>
      by_cases hsrc : src = i
      · subst hsrc
        have hview : tableMap (proc.recv_batch src) batch_id = some batch := by
          rw [tableMap, hslot]
          rfl
        refine h.received hlive hdaemon hmsg (by simp [Proc.counted, Proc.goOn]) rfl rfl ?_
        simp only [Proc.goOn, DaemonPhase.pendingPosts, if_true, batchHandler, hview,
          Option.getD_some]
      · refine h.frame (Function.update_of_ne (Ne.symm hsrc) _ _) rfl rfl ?_ id
        rw [hdaemon]
        exact pendingPosts_of_ne hsrc _ _ _
  | @recvExecute src batch hdaemon _ _ hmsg =>
      by_cases hsrc : src = i
      · subst hsrc
        refine h.received hlive hdaemon hmsg (by simp [Proc.counted, Proc.goOn]) rfl rfl ?_
        simp only [Proc.goOn, DaemonPhase.pendingPosts, if_true, batchHandler, Option.getD_none]
      · refine h.frame (Function.update_of_ne (Ne.symm hsrc) _ _) rfl rfl ?_ id
        rw [hdaemon]
        exact pendingPosts_of_ne hsrc _ _ _
  | recvHalt _ _ _ hmsg _ =>
      exact h.recvHalt (fun hsrc => ⟨_, hsrc ▸ hmsg⟩) _
  | testSome hdaemon => exact h.same rfl rfl rfl (by rw [hdaemon]; rfl) id
  | postStarted hdaemon | postOnce hdaemon | postHalt hdaemon =>
      exact h.posted hlive hdaemon rfl rfl rfl rfl
  | finishPosting hdaemon =>
      refine h.same rfl rfl rfl ?_ id
      rw [hdaemon]
      simp [Proc.goOn, DaemonPhase.pendingPosts]
  | keepTag hdaemon | returnTag hdaemon | finishEffects hdaemon =>
      exact h.same rfl rfl rfl (by rw [hdaemon]; rfl) id

end Link

end Unr.Mpi
