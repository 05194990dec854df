import Unr.Mpi.Reports
import Unr.Logic.Leases

/-!
What a step does to the tags and to the ids of batches.

The tag of a transfer that is used once goes with the operation, and the daemon
returns it when the operation is complete; the tag of a plan stays with the
plan and is returned when the plan is destroyed. A draw is therefore kept with
the place that will return it.
-/

namespace Unr.Mpi

open Unr.Uru Unr.Logic

structure Draw where
  /-- Whether it is for the daemon to return it. -/
  once_now : Bool
  dst : Nat
  num : Nat
  deriving Repr, DecidableEq

def Draw.pair (x : Draw) : Nat × Nat := (x.dst, x.num)

def drawsOf (once_now : Bool) (ps : List (Nat × Nat)) : List Draw :=
  ps.map fun p => ⟨once_now, p.1, p.2⟩

section DrawsOf

variable {once_now : Bool} {p : Nat × Nat} {ps ps' : List (Nat × Nat)}

@[simp] theorem drawsOf_nil : drawsOf once_now [] = [] := rfl

@[simp] theorem drawsOf_cons :
    drawsOf once_now (p :: ps) = ⟨once_now, p.1, p.2⟩ :: drawsOf once_now ps := rfl

@[simp] theorem drawsOf_append :
    drawsOf once_now (ps ++ ps') = drawsOf once_now ps ++ drawsOf once_now ps' :=
  List.map_append

@[simp] theorem drawsOf_pair : (drawsOf once_now ps).map Draw.pair = ps := by
  simp [drawsOf, Draw.pair, Function.comp_def]

theorem drawsOf_perm (once_now : Bool) (h : ps.Perm ps') :
    (drawsOf once_now ps).Perm (drawsOf once_now ps') :=
  h.map _

end DrawsOf

def UserPhase.onceNow : UserPhase → Bool
  | creating once_now .. | announcing once_now .. => once_now
  | _ => false

def Proc.heldTags (proc : Proc) : List Draw :=
  drawsOf proc.user.onceNow proc.user.tagPairs ++
    drawsOf false (proc.plans.flatMap fun p => p.send_batch.map MpiOp.pair) ++
    drawsOf true (releasing proc.queue) ++ drawsOf true (releasing proc.daemon.entries)

def Proc.heldIds (proc : Proc) : List Draw := drawsOf false (proc.batches.map idPair)

theorem Proc.heldTags_pair (proc : Proc) : proc.heldTags.map Draw.pair = proc.heldPairs := by
  simp only [heldTags, List.map_append, drawsOf_pair, heldPairs]

theorem Proc.heldIds_pair (proc : Proc) : proc.heldIds.map Draw.pair = proc.batches.map idPair :=
  drawsOf_pair

def Proc.tagEvents (size rank : Nat) (proc : Proc) : ProcAct → List (LeaseEvent Draw)
  | .userStep =>
      match proc.user with
      | .creating once_now _ (w :: _) none _ _ _ =>
          match w.check size rank, (proc.mpi_tag w.rmt_mem.rank).get size rank with
          | .ok _, .ok (tag, _) => [.take ⟨once_now, w.rmt_mem.rank, tag⟩]
          | _, _ => []
      | .destroying _ (op :: _) _ _ => [.give ⟨false, op.rank, op.tag⟩]
      | _ => []
  | .daemonStep =>
      match proc.daemon with
      | .effects (e :: _) =>
          if hasBit e.op.flag freeTag then [.give ⟨true, e.op.rank, e.op.tag⟩] else []
      | _ => []
  | _ => []

def Proc.idEvents (size rank : Nat) (proc : Proc) : ProcAct → List (LeaseEvent Draw)
  | .userStep =>
      match proc.user with
      | .announcing false _ _ ((op :: _) :: _) _ _ =>
          match (proc.batch_id op.rank).get size rank with
          | .ok (batch_id, _) => [.take ⟨false, op.rank, batch_id⟩]
          | .error _ => []
      | .destroying _ [] (b :: _) _ => [.give ⟨false, b.dst_rank, b.batch_id⟩]
      | _ => []
  | _ => []

/-- What a step does to pools and to the numbers in use: it draws one, returns
one, or does neither. -/
inductive PoolStep (size rank : Nat) (pools : Nat → IntPool) (held : List Draw) :
    List (LeaseEvent Draw) → (Nat → IntPool) → List Draw → Prop
  | same {held' : List Draw} (hperm : held.Perm held') :
      PoolStep size rank pools held [] pools held'
  | get {x : Draw} {pool : IntPool} {held' : List Draw}
      (hget : (pools x.dst).get size rank = .ok (x.num, pool))
      (hperm : (x :: held).Perm held') :
      PoolStep size rank pools held [.take x] (Function.update pools x.dst pool) held'
  | put {x : Draw} {pool : IntPool} {held' : List Draw}
      (hput : (pools x.dst).put size rank x.num = .ok pool)
      (hperm : held.Perm (x :: held')) :
      PoolStep size rank pools held [.give x] (Function.update pools x.dst pool) held'

/-- The events of a step that leaves the process running are what the step does
to the pools. -/
def PoolEffect (size rank : Nat) (events : List (LeaseEvent Draw)) (pools : Nat → IntPool)
    (held : List Draw) (halted : Option Stop) (pools' : Nat → IntPool) (held' : List Draw) :
    Prop :=
  ∃ evs, (halted = none → events = evs) ∧ PoolStep size rank pools held evs pools' held'

namespace PoolEffect

variable {size rank : Nat} {evs : List (LeaseEvent Draw)} {pools : Nat → IntPool}
  {held held' : List Draw} {halted : Option Stop} {pool : IntPool}

theorem same (hevs : halted = none → evs = []) (hperm : held.Perm held') :
    PoolEffect size rank evs pools held halted pools held' :=
  ⟨[], hevs, .same hperm⟩

theorem get (x : Draw) (hevs : halted = none → evs = [.take x])
    (hget : (pools x.dst).get size rank = .ok (x.num, pool)) (hperm : (x :: held).Perm held') :
    PoolEffect size rank evs pools held halted (Function.update pools x.dst pool) held' :=
  ⟨_, hevs, .get hget hperm⟩

theorem put (x : Draw) (hevs : halted = none → evs = [.give x])
    (hput : (pools x.dst).put size rank x.num = .ok pool) (hperm : held.Perm (x :: held')) :
    PoolEffect size rank evs pools held halted (Function.update pools x.dst pool) held' :=
  ⟨_, hevs, .put hput hperm⟩

end PoolEffect

section Moves

variable {w : World} {rank : Nat} {proc proc' : Proc} {a : ProcAct}

theorem Move.tagEffect (hmove : Move w rank proc a proc') (h : proc.Ini w.size rank)
    (hfree : ∀ op ∈ proc.daemon.ops, op.TagFree) :
    PoolEffect w.size rank (proc.tagEvents w.size rank a) proc.mpi_tag proc.heldTags
      proc'.halted proc'.mpi_tag proc'.heldTags := by
  have hphase := h.user
  -- the operations a target posts have no FREE_TAG, so their entries give nothing back
  have hposted : ∀ {op : MpiOp} {id : WriteId} (es : List Entry), op.TagFree →
      releasing (es ++ [proc.entry op .peer id]) = releasing es := by
    intro op id es hop
    have hnil : releasing [proc.entry op .peer id] = [] := by
      refine releasing_eq_nil fun e he => ?_
      rw [List.mem_singleton.mp he]
      exact hop
    rw [releasing_append, hnil, List.append_nil]
  simp only [Proc.heldTags]
  cases hmove with
  | @beginCreate once_now writes huser =>
      refine .same (fun _ => rfl) ?_
      rw [huser]
      cases once_now <;> simp [UserPhase.tagPairs]
  | sortOps huser =>
      refine .same (fun _ => rfl) ?_
      rw [huser]
      simp [UserPhase.tagPairs, UserPhase.onceNow]
  | beginStart huser | beginClose huser =>
      refine .same (fun _ => rfl) ?_
      rw [huser]
      exact List.Perm.refl _
  -- the tags of the plan go from the list of plans to the call
  | beginDestroy huser hp =>
      refine .same (fun _ => rfl) ?_
      rw [huser]
      have hperm :=
        drawsOf_perm false ((List.perm_cons_erase (List.mem_of_find?_eq_some hp)).flatMap_right
        fun p => p.send_batch.map MpiOp.pair)
      rw [List.flatMap_cons, drawsOf_append] at hperm
      exact (hperm.append_right _).append_right _
  | @drawTag once_now _ tag wr _ _ _ _ _ huser hcheck hget =>
      refine .get ⟨once_now, wr.rmt_mem.rank, tag⟩
        (fun _ => by simp only [Proc.tagEvents, huser, hcheck, hget]) hget ?_
      rw [huser]
      simp [Proc.setTagPool, Proc.enter, UserPhase.tagPairs, UserPhase.onceNow, drawnPair]
  -- the tag in hand goes to the entry that will give it back
  | @writeOnce _ _ _ rest _ _ _ huser =>
      refine .same (fun _ => by simp only [Proc.tagEvents, huser]) ?_
      rw [huser]
      simp only [Proc.enter, UserPhase.tagPairs, UserPhase.onceNow, drawnPair, if_true,
        drawsOf_append, List.append_assoc, releasing_append, Proc.releasing_once,
        List.singleton_append, Proc.post, drawsOf_nil, List.nil_append, drawsOf_cons]
      exact List.perm_middle.symm
  -- the tag in hand goes to the operation that the plan keeps
  | @writeKept _ _ _ rest _ _ _ huser =>
      refine .same (fun _ => by simp only [Proc.tagEvents, huser]) ?_
      rw [huser]
      simp only [Proc.enter, UserPhase.tagPairs, UserPhase.onceNow, drawnPair, Bool.false_eq_true,
        if_false, drawsOf_append, List.map_append, List.map_cons, List.map_nil, List.append_assoc,
        List.singleton_append, drawsOf_nil, List.nil_append, drawsOf_cons]
      exact List.perm_middle.symm
  | announceOnce huser | announceKept huser =>
      refine .same (fun _ => by simp only [Proc.tagEvents, huser]) ?_
      rw [huser]
      simp [Proc.enter, Proc.send, Proc.setIdPool, UserPhase.tagPairs, UserPhase.onceNow]
  -- the entries join the queue, the operations of a plan that is kept join the list
  | @finishCreate once_now plan send_ops recv_batch mpi_op huser =>
      refine .same (fun _ => by simp only [Proc.tagEvents, huser]) ?_
      rw [huser] at hphase ⊢
      cases once_now with
      | true =>
          simp only [Proc.finishCreate, Proc.append, UserPhase.tagPairs, UserPhase.onceNow, if_true,
            releasing_append, drawsOf_append, drawsOf_nil, List.nil_append, List.append_assoc]
          refine List.perm_append_comm.trans ?_
          simp only [List.append_assoc]
          exact (List.perm_append_comm.append_left _).append_left _
      | false =>
          simp [Proc.finishCreate, Proc.append, UserPhase.tagPairs, UserPhase.onceNow,
            (hphase.keep rfl).1]
  | startBatch huser | startOp huser =>
      refine .same (fun _ => by simp only [Proc.tagEvents, huser]) ?_
      rw [huser]
      exact List.Perm.refl _
  | finishStart huser | finishDestroy huser =>
      refine .same (fun _ => by simp only [Proc.tagEvents, huser]) ?_
      rw [huser] at hphase ⊢
      simp [Proc.finishCall, Proc.append, UserPhase.tagPairs, hphase.2.2.2]
  | @destroyOp _ op _ _ _ _ huser hput =>
      refine .put ⟨false, op.rank, op.tag⟩ (fun _ => by simp only [Proc.tagEvents, huser]) hput ?_
      rw [huser]
      exact List.Perm.refl _
  | destroyBatch huser =>
      refine .same (fun _ => by simp only [Proc.tagEvents, huser]) ?_
      rw [huser]
      exact List.Perm.refl _
  | closeLoop huser =>
      refine .same (fun _ => by simp only [Proc.tagEvents, huser]) ?_
      rw [huser]
      unfold Proc.closeLoop
      split <;> exact List.Perm.refl _
  | userHalt | recvHalt | daemonHalt =>
      exact .same (by rintro ⟨⟩) (List.Perm.refl _)
  | recvCreate | recvDestroy => exact .same (fun _ => rfl) (List.Perm.refl _)
  | recvStart hdaemon | recvExecute hdaemon =>
      refine .same (fun _ => rfl) ?_
      rw [hdaemon]
      exact List.Perm.refl _
  -- completed entries go from the queue to the daemon
  | @testSome done hdaemon _ hlen =>
      refine .same (fun _ => rfl) ?_
      have huser := testSome_same proc done (fun user => drawsOf user.onceNow user.tagPairs)
        fun _ _ => rfl
      have hqueue := drawsOf_perm true (Proc.releasing_perm (pick_perm done _ hlen))
      rw [releasing_append, drawsOf_append] at hqueue
      rw [huser, hdaemon, List.append_assoc, List.append_assoc _ _ (drawsOf _ (releasing _))]
      simp only [DaemonPhase.entries, releasing_nil, drawsOf_nil, List.append_nil]
      exact hqueue.append_left _
  | postStarted hdaemon | postOnce hdaemon =>
      refine .same (fun _ => by simp only [Proc.tagEvents, hdaemon]) ?_
      rw [hdaemon] at hfree ⊢
      simp only [Proc.activate, Proc.goOn, Proc.post, DaemonPhase.entries,
        hposted _ (hfree _ (List.mem_cons_self ..))]
      exact List.Perm.refl _
  | postHalt hdaemon =>
      refine .same (by rintro ⟨⟩) ?_
      rw [hdaemon] at hfree ⊢
      simp only [Proc.goOn, Proc.post, Proc.halt, DaemonPhase.entries,
        hposted _ (hfree _ (List.mem_cons_self ..))]
      exact List.Perm.refl _
  | finishPosting hdaemon =>
      refine .same (fun _ => by simp only [Proc.tagEvents, hdaemon]) ?_
      rw [hdaemon]
      simp [Proc.append, Proc.goOn, DaemonPhase.entries]
  | keepTag hdaemon _ hbit =>
      refine .same (fun _ => by simp [Proc.tagEvents, hdaemon, hbit]) ?_
      rw [hdaemon]
      simp [Proc.flagged, Proc.goOn, DaemonPhase.entries, releasing, hbit]
  | @returnTag e _ _ _ _ hdaemon _ hbit hput =>
      refine .put ⟨true, e.op.rank, e.op.tag⟩
        (fun _ => by simp only [Proc.tagEvents, hdaemon, hbit, if_true]) hput ?_
      rw [hdaemon]
      simp only [Proc.flagged, Proc.goOn, Proc.setTagPool, DaemonPhase.entries, releasing,
        List.filter_cons, hbit, if_true, List.map_cons, drawsOf_cons]
      exact List.perm_middle
  | finishEffects hdaemon =>
      refine .same (fun _ => by simp only [Proc.tagEvents, hdaemon]) ?_
      rw [hdaemon]
      exact List.Perm.refl _

theorem Move.idEffect (hmove : Move w rank proc a proc') (h : proc.Ini w.size rank) :
    PoolEffect w.size rank (proc.idEvents w.size rank a) proc.batch_id proc.heldIds
      proc'.halted proc'.batch_id proc'.heldIds := by
  have hphase := h.user
  simp only [Proc.heldIds, Proc.batches]
  cases hmove with
  | beginCreate huser | sortOps huser | beginStart huser | beginClose huser =>
      refine .same (fun _ => rfl) ?_
      rw [huser]
      exact List.Perm.refl _
  | drawTag huser | writeOnce huser | writeKept huser | announceOnce huser | startBatch huser
  | startOp huser | finishStart huser | destroyOp huser | finishDestroy huser =>
      refine .same (fun _ => by simp only [Proc.idEvents, huser]) ?_
      rw [huser]
      exact List.Perm.refl _
  | beginDestroy huser hp =>
      refine .same (fun _ => rfl) ?_
      rw [huser]
      have hperm := List.perm_cons_erase (List.mem_of_find?_eq_some hp)
      exact drawsOf_perm false ((hperm.flatMap_right _).map _)
  | @announceKept _ batch_id op _ _ _ _ _ _ huser hget =>
      refine .get ⟨false, op.rank, batch_id⟩
        (fun _ => by simp only [Proc.idEvents, huser, hget]) hget ?_
      rw [huser]
      simp only [Proc.enter, Proc.send, Proc.setIdPool, UserPhase.batches, List.map_append,
        List.map_cons, List.map_nil, List.append_assoc, List.singleton_append, drawsOf_append,
        drawsOf_cons]
      exact List.perm_middle.symm
  | @finishCreate once_now _ _ _ _ huser =>
      refine .same (fun _ => by simp only [Proc.idEvents, huser]) ?_
      rw [huser] at hphase ⊢
      cases once_now with
      | true => simp [Proc.finishCreate, Proc.append, UserPhase.batches, hphase.once rfl]
      | false => simp [Proc.finishCreate, Proc.append, UserPhase.batches]
  | @destroyBatch _ b _ _ _ huser hput =>
      refine .put ⟨false, b.dst_rank, b.batch_id⟩ (fun _ => by simp only [Proc.idEvents, huser])
        hput ?_
      rw [huser]
      exact List.Perm.refl _
  | closeLoop huser =>
      refine .same (fun _ => by simp only [Proc.idEvents, huser]) ?_
      rw [huser]
      unfold Proc.closeLoop
      split <;> exact List.Perm.refl _
  | @testSome done =>
      refine .same (fun _ => rfl) ?_
      rw [testSome_same proc done UserPhase.batches fun _ _ => rfl]
      exact List.Perm.refl _
  | userHalt | recvHalt | postHalt | daemonHalt =>
      exact .same (by rintro ⟨⟩) (List.Perm.refl _)
  | recvCreate | recvDestroy | recvStart | recvExecute | postStarted | postOnce | finishPosting
  | keepTag | returnTag | finishEffects => exact .same (fun _ => rfl) (List.Perm.refl _)

end Moves

end Unr.Mpi
