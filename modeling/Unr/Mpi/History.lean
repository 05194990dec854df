import Unr.Mpi.Reports

/-!
What has happened on the MPI channel in a run.

The state of a process keeps which sends and receives it has posted, but not
what they transfer, and nothing of what is complete. The history of a run has
both: the plans that were created, started and destroyed, the operations that
were posted, and the operations whose effects the daemon has applied. As long
as a process runs, the posts of its history are its log, every operation of
the history is either applied or in hand, and the counter of a flag is what
the applied operations have added to it.
-/

namespace Unr.Mpi

open Unr.Uru Unr.Logic

/-- A send or a receive that is posted on `data_comm`. -/
structure Posting where
  own : Bool
  op : MpiOp
  write : WriteId
  deriving Repr, DecidableEq

def Posting.post (x : Posting) : Post := ⟨x.op.op_type, x.op.rank, x.op.tag, x.own, x.write⟩

inductive Event
  | created (plan : Nat) (once_now : Bool) (writes : List Write)
  | started (plan start : Nat)
  | destroyed (plan : Nat)
  | posted (x : Posting)
  /-- The daemon applies the effects of a completed operation. -/
  | applied (e : Entry)
  deriving Repr, DecidableEq

def Event.posting : Event → Option Posting
  | posted x => some x
  | _ => none

def Event.entry : Event → Option Entry
  | applied e => some e
  | _ => none

def Proc.events (rank : Nat) (proc : Proc) : ProcAct → List Event
  | .beginCreate once_now writes => [.created proc.next_plan once_now writes]
  | .beginStart plan => [.started plan proc.next_start]
  | .beginDestroy plan => [.destroyed plan]
  | .userStep =>
      match proc.user with
      | .creating true plan (w :: _) (some tag) send_ops _ _ =>
          [.posted ⟨true, w.sendOp (freeOp ||| freeTag) plan send_ops.length tag,
            ⟨rank, plan, 0, send_ops.length⟩⟩]
      | .starting _ start [] (op :: _) _ =>
          [.posted ⟨true, op, ⟨rank, op.plan, start, op.index⟩⟩]
      | _ => []
  | .daemonStep =>
      match proc.daemon with
      | .posting src start (op :: _) _ =>
          [.posted ⟨false, op, ⟨src, op.plan, start.getD 0, op.index⟩⟩]
      | .effects (e :: _) => [.applied e]
      | _ => []
  | _ => []

def World.events (w : World) : Act → List (Nat × Event)
  | .proc rank a => ((w.procs rank).events rank a).map (rank, ·)
  | .barrier | .allreduce => []

/-- A run of `size` processes from the opening of the channel, with its
history. -/
abbrev History (size : Nat) (flags : Nat → Nat → UruFlag) : List (Nat × Event) → World → Prop :=
  Recorded World.step World.events (World.init size flags)

def eventsAt (q : Nat) (es : List (Nat × Event)) : List Event :=
  es.filterMap fun x => if x.1 = q then some x.2 else none

def postings (q : Nat) (es : List (Nat × Event)) : List Posting :=
  (eventsAt q es).filterMap Event.posting

def applied (q : Nat) (es : List (Nat × Event)) : List Entry :=
  (eventsAt q es).filterMap Event.entry

section Events

variable {q rank : Nat} {es es' : List (Nat × Event)} {e : Event}

@[simp] theorem eventsAt_append :
    eventsAt q (es ++ es') = eventsAt q es ++ eventsAt q es' :=
  List.filterMap_append

theorem mem_eventsAt : e ∈ eventsAt q es ↔ (q, e) ∈ es := by
  simp only [eventsAt, List.mem_filterMap, Option.ite_none_right_eq_some, Option.some.injEq]
  constructor
  · rintro ⟨x, hx, rfl, rfl⟩
    exact hx
  · exact fun h => ⟨(q, e), h, rfl, rfl⟩

@[simp] theorem eventsAt_map_self (evs : List Event) :
    eventsAt rank (evs.map (rank, ·)) = evs := by
  simp [eventsAt]

theorem eventsAt_map_of_ne (h : rank ≠ q) (evs : List Event) :
    eventsAt q (evs.map (rank, ·)) = [] := by
  simp [eventsAt, h]

end Events

/-! ### Invariants of a process and its events -/

theorem UserPhase.Resting.entries {user : UserPhase} (h : user.Resting) : user.entries = [] := by
  cases user <;> first | rfl | cases h

theorem World.events_eq_report : World.events = World.report fun _ => Proc.events := by
  funext w a
  cases a <;> rfl

/-- A property of a process and its events that holds as long as the process
runs: it holds at the start, every step of the process keeps it, and so do the
collective calls. -/
theorem History.induct {size : Nat} {flags : Nat → Nat → UruFlag}
    {I : Nat → List Event → Proc → Prop} (hinit : ∀ p, I p [] (.init (flags p)))
    (hmove : ∀ (w : World) (es : List (Nat × Event)) (rank : Nat) (evs : List Event) (a : ProcAct)
      (proc' : Proc), History size flags es w → w.Inv → rank < w.size →
        evs = eventsAt rank es → (w.procs rank).halted = none → proc'.halted = none →
        I rank evs (w.procs rank) → Move w rank (w.procs rank) a proc' →
        I rank (evs ++ (w.procs rank).events rank a) proc')
    (huser : ∀ p evs proc user, proc.user.Resting → user.Resting → I p evs proc →
      I p evs { proc with user := user })
    {es : List (Nat × Event)} {w : World} (h : History size flags es w) (p : Nat) :
    (w.procs p).halted = none → I p (eventsAt p es) (w.procs p) := by
  rw [History, World.events_eq_report] at h
  refine World.report_induct hinit (fun w es rank evs a proc' hrun => ?_) huser h p
  rw [← World.events_eq_report] at hrun
  exact hmove w es rank evs a proc' hrun

/-! ### The log -/

section Moves

variable {w : World} {rank : Nat} {proc proc' : Proc} {a : ProcAct}

theorem Move.log_events (hmove : Move w rank proc a proc') (hlive' : proc'.halted = none) :
    proc'.log = proc.log ++ ((proc.events rank a).filterMap Event.posting).map Posting.post := by
  cases hmove with
  | userHalt | daemonHalt | recvHalt | postHalt => exact nomatch hlive'
  | beginCreate | sortOps | beginStart | beginDestroy | beginClose | recvCreate | recvDestroy
  | recvStart | recvExecute | testSome => exact (List.append_nil _).symm
  | drawTag huser | writeKept huser | announceOnce huser | announceKept huser | finishCreate huser
  | startBatch huser | finishStart huser | destroyOp huser | destroyBatch huser
  | finishDestroy huser | closeLoop huser =>
      simp only [Proc.events, huser]
      exact (List.append_nil _).symm
  | writeOnce huser | startOp huser =>
      simp only [Proc.events, huser]
      rfl
  | postStarted hdaemon | postOnce hdaemon =>
      simp only [Proc.events, hdaemon]
      rfl
  | finishPosting hdaemon | keepTag hdaemon | returnTag hdaemon | finishEffects hdaemon =>
      simp only [Proc.events, hdaemon]
      exact (List.append_nil _).symm

/-! ### Every operation is applied once -/

def Proc.unapplied (proc : Proc) : List Entry :=
  proc.user.entries ++ proc.queue ++ proc.daemon.entries

/-- What the operation of an entry was posted as. Control messages are not on
`data_comm`. -/
def Entry.posting (e : Entry) : Option Posting :=
  match e.side with
  | .ctrl => none
  | .own => some ⟨true, e.op, e.write⟩
  | .peer => some ⟨false, e.op, e.write⟩

@[simp] theorem posting_ctrlEntry (dst_rank : Nat) : (ctrlEntry dst_rank).posting = none := rfl

theorem posting_entry_own (proc : Proc) (op : MpiOp) (id : WriteId) :
    (proc.entry op .own id).posting = some ⟨true, op, id⟩ := rfl

theorem posting_entry_peer (proc : Proc) (op : MpiOp) (id : WriteId) :
    (proc.entry op .peer id).posting = some ⟨false, op, id⟩ := rfl

/-- What a step posts gets an entry, and an entry is given up when its effects
are applied. -/
theorem Move.entries_events (hmove : Move w rank proc a proc') (hlive' : proc'.halted = none) :
    (((proc.events rank a).filterMap Event.entry ++ proc'.unapplied).filterMap
      Entry.posting).Perm
    (proc.unapplied.filterMap Entry.posting ++ (proc.events rank a).filterMap Event.posting) := by
  -- a step that neither posts nor applies only moves entries
  have hsame : ∀ {es es' : List Entry}, es.Perm es' →
      (es.filterMap Entry.posting).Perm (es'.filterMap Entry.posting ++ []) := by
    intro es es' hperm
    rw [List.append_nil]
    exact hperm.filterMap _
  simp only [Proc.unapplied]
  cases hmove with
  | userHalt | daemonHalt | recvHalt | postHalt => exact nomatch hlive'
  | beginCreate huser | sortOps huser | beginStart huser | beginDestroy huser
  | beginClose huser =>
      refine hsame ?_
      rw [huser]
      exact List.Perm.refl _
  | recvCreate | recvDestroy => exact hsame (List.Perm.refl _)
  | recvStart hdaemon | recvExecute hdaemon =>
      refine hsame ?_
      rw [hdaemon]
      exact List.Perm.refl _
  | drawTag huser | writeKept huser | destroyOp huser =>
      simp only [Proc.events, huser]
      exact hsame (List.Perm.refl _)
  | closeLoop huser =>
      simp only [Proc.events, huser]
      refine hsame ?_
      unfold Proc.closeLoop
      split <;> exact List.Perm.refl _
  -- the entry of a control message stands for no operation
  | announceOnce huser | announceKept huser | startBatch huser | destroyBatch huser =>
      simp only [Proc.events, huser]
      simp [Proc.enter, Proc.setIdPool, Proc.startBatch, Proc.send, UserPhase.entries,
        List.filterMap_cons]
  | writeOnce huser | startOp huser =>
      simp only [Proc.events, huser]
      simp only [Proc.enter, Proc.post, Proc.startOp, Proc.activate, UserPhase.entries,
        List.filterMap_append, List.filterMap_cons, List.filterMap_nil, posting_entry_own,
        Event.entry, Event.posting, List.nil_append, List.append_assoc]
      refine List.Perm.append_left _ ?_
      rw [← List.append_assoc (List.filterMap _ proc.queue)]
      exact List.perm_append_comm
  | finishCreate huser | finishStart huser | finishDestroy huser =>
      simp only [Proc.events, huser]
      refine hsame ?_
      simp only [Proc.finishCreate, Proc.finishCall, Proc.append, UserPhase.entries,
        List.filterMap_nil, List.nil_append]
      exact List.perm_append_comm.append_right _
  | postStarted hdaemon | postOnce hdaemon =>
      simp only [Proc.events, hdaemon]
      simp only [Proc.post, Proc.goOn, Proc.activate, DaemonPhase.entries,
        List.filterMap_append, List.filterMap_cons, List.filterMap_nil, posting_entry_peer,
        Event.entry, Event.posting, List.nil_append, List.append_assoc]
      exact List.Perm.refl _
  | finishPosting hdaemon =>
      simp only [Proc.events, hdaemon]
      refine hsame ?_
      simp only [Proc.append, Proc.goOn, DaemonPhase.entries, List.filterMap_nil,
        List.nil_append, List.append_nil, List.append_assoc]
      exact List.Perm.refl _
  -- the first entry of the daemon is given up
  | keepTag hdaemon | returnTag hdaemon =>
      simp only [Proc.events, hdaemon]
      refine hsame ?_
      simp only [Proc.flagged, Proc.goOn, Proc.setTagPool, DaemonPhase.entries, List.filterMap_cons,
        List.filterMap_nil, Event.entry, List.singleton_append]
      exact List.perm_middle.symm
  | finishEffects hdaemon =>
      simp only [Proc.events, hdaemon]
      exact hsame (List.Perm.refl _)
  | @testSome done hdaemon _ hlen =>
      refine hsame ?_
      have hentries := testSome_same proc done UserPhase.entries fun _ _ => rfl
      rw [hentries, hdaemon]
      simp only [Proc.testSome, DaemonPhase.entries, List.append_nil, List.append_assoc]
      exact (pick_perm done _ hlen).symm.append_left _

/-! ### Flags -/

def addedBy (f : Nat) (es : List Entry) : BitVec 64 :=
  ((es.filter fun e => e.op.flag_p = some f).map fun e => e.op.flag_add).sum

theorem addedBy_append (f : Nat) (es es' : List Entry) :
    addedBy f (es ++ es') = addedBy f es + addedBy f es' := by
  simp [addedBy]

theorem addedBy_singleton (f : Nat) (e : Entry) :
    addedBy f [e] = if e.op.flag_p = some f then e.op.flag_add else 0 := by
  by_cases hflag : e.op.flag_p = some f <;> simp [addedBy, hflag]

theorem progressFlag_counter {op : MpiOp} {flags : Nat → UruFlag} {pushed : List (Nat × Int)}
    (h : proc.progressFlag op = .ok (proc.flagged flags pushed)) (f : Nat) :
    (flags f).counter =
      (proc.flags f).counter + if op.flag_p = some f then op.flag_add else 0 := by
  unfold Proc.progressFlag at h
  match hflag : op.flag_p with
  | none =>
      rw [hflag] at h
      have hsame : proc.flags = flags := congrArg Proc.flags (Except.ok.inj h)
      simp [hsame]
  | some g =>
      rw [hflag] at h
      simp only [UruFlag.progress, bind_eq_ok, pure_eq_ok, Prod.exists, Prod.mk.injEq] at h
      obtain ⟨flag, push, ⟨-, -, rfl, rfl⟩, heq⟩ := h
      have hflags : Function.update proc.flags g ((proc.flags g).add op.flag_add) = flags :=
        congrArg Proc.flags heq
      rw [← hflags]
      by_cases hf : f = g
      · subst hf
        simp
      · simp [Function.update_of_ne hf, Ne.symm hf]

theorem Move.counter_events (hmove : Move w rank proc a proc') (hlive' : proc'.halted = none)
    (f : Nat) : (proc'.flags f).counter =
      (proc.flags f).counter + addedBy f ((proc.events rank a).filterMap Event.entry) := by
  have hsame : (proc.flags f).counter = (proc.flags f).counter + addedBy f [] := by
    simp [addedBy]
  cases hmove with
  | userHalt | daemonHalt | recvHalt | postHalt => exact nomatch hlive'
  | beginCreate | sortOps | beginStart | beginDestroy | beginClose | recvCreate | recvDestroy
  | recvStart | recvExecute | testSome => exact hsame
  | drawTag huser | writeKept huser | announceOnce huser | announceKept huser | finishCreate huser
  | startBatch huser | finishStart huser | destroyOp huser | destroyBatch huser
  | finishDestroy huser | closeLoop huser | writeOnce huser | startOp huser =>
      simp only [Proc.events, huser]
      exact hsame
  | postStarted hdaemon | postOnce hdaemon | finishPosting hdaemon | finishEffects hdaemon =>
      simp only [Proc.events, hdaemon]
      exact hsame
  | keepTag hdaemon hflag | returnTag hdaemon hflag =>
      simp only [Proc.events, hdaemon, List.filterMap_cons, Event.entry, List.filterMap_nil,
        addedBy_singleton]
      exact progressFlag_counter hflag f

end Moves

section Runs

variable {size : Nat} {flags : Nat → Nat → UruFlag} {es : List (Nat × Event)} {w : World}

theorem History.log (h : History size flags es w) {q : Nat} (hlive : (w.procs q).halted = none) :
    (w.procs q).log = (postings q es).map Posting.post := by
  refine h.induct (I := fun _ evs proc =>
    proc.log = (evs.filterMap Event.posting).map Posting.post) (fun _ => rfl) ?_ ?_ q hlive
  · intro w es rank evs a proc' _ _ _ _ _ hlive' ih hmove
    rw [hmove.log_events hlive', ih, List.filterMap_append, List.map_append]
  · exact fun _ _ _ _ _ _ ih => ih

/-- Every operation that a process has posted is applied or still in hand. -/
theorem History.postings_perm (h : History size flags es w) {q : Nat}
    (hlive : (w.procs q).halted = none) :
    ((applied q es ++ (w.procs q).unapplied).filterMap Entry.posting).Perm (postings q es) := by
  refine h.induct (I := fun _ evs proc =>
    ((evs.filterMap Event.entry ++ proc.unapplied).filterMap Entry.posting).Perm
      (evs.filterMap Event.posting)) (fun _ => List.Perm.refl _) ?_ ?_ q hlive
  · intro w es rank evs a proc' _ _ _ _ _ hlive' ih hmove
    have hstep := hmove.entries_events hlive'
    simp only [List.filterMap_append, List.append_assoc] at ih hstep ⊢
    refine (hstep.append_left _).trans ?_
    rw [← List.append_assoc]
    exact ih.append_right _
  · intro p evs proc user hrest hrest' ih
    simp only [Proc.unapplied, hrest.entries, hrest'.entries] at ih ⊢
    exact ih

theorem History.counter (h : History size flags es w) {q : Nat}
    (hlive : (w.procs q).halted = none) (f : Nat) :
    ((w.procs q).flags f).counter = (flags q f).counter + addedBy f (applied q es) := by
  refine h.induct (I := fun q evs proc => (proc.flags f).counter =
    (flags q f).counter + addedBy f (evs.filterMap Event.entry)) (fun _ => ?_) ?_ ?_ q hlive
  · simp [Proc.init, addedBy]
  · intro w es rank evs a proc' _ _ _ _ _ hlive' ih hmove
    rw [hmove.counter_events hlive', ih, List.filterMap_append, addedBy_append, BitVec.add_assoc]
  · exact fun _ _ _ _ _ _ ih => ih

end Runs

/-- The history of a list of steps, if all of them can be taken, and the state
after them. -/
def World.recorded (size : Nat) (acts : List Act) : List (Nat × Event) × World :=
  (record World.step World.events (World.init size fun _ _ => ⟨0, none, 0, 0⟩) acts).getD
    ([], World.init size fun _ _ => ⟨0, none, 0, 0⟩)

theorem World.history_recorded {size : Nat} {acts : List Act}
    (h : (record World.step World.events (World.init size fun _ _ => ⟨0, none, 0, 0⟩)
      acts).isSome = true) :
    History size (fun _ _ => ⟨0, none, 0, 0⟩) (World.recorded size acts).1
      (World.recorded size acts).2 := by
  obtain ⟨r, hr⟩ := Option.isSome_iff_exists.mp h
  rw [World.recorded, hr]
  exact Recorded.of_record hr

end Unr.Mpi
