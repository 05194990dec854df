import Unr.Mpi.OpData
import Unr.Mpi.Matching
import Unr.Logic.Narrowing
import Unr.Logic.Numbered

/-!
The MPI channel together with the memory of the processes.

The state of the channel says which sends and receives are posted and which of
them are complete, but not what happens to the data. Here MPI moves them byte
by byte: it reads a byte of the buffer of a send at any time between the post
and the completion, and writes it into the buffer of the matching receive at
any later time before that receive completes. Everything else that a process
has, its user threads and its other channels, may change its memory and its
flags between any two steps.

A buffer is in use from the post of its operation until the effects of the
operation are applied. The buffer of a receive stays in use until it is taken
back, which is up to the user.
-/

namespace Unr.Mpi

open Unr.Uru Unr.Logic

/-- A message on `data_comm`, which is the same for its send and its
receive. -/
structure Message where
  src : Nat
  dst : Nat
  tag : Nat
  pos : Nat
  deriving Repr, DecidableEq

def Entry.message (rank : Nat) (e : Entry) : Message :=
  match e.op.op_type with
  | .opSend => ⟨rank, e.op.rank, e.op.tag, e.pos⟩
  | .opRecv => ⟨e.op.rank, rank, e.op.tag, e.pos⟩

def Posting.key (x : Posting) : OpType × Nat × Nat := (x.op.op_type, x.op.rank, x.op.tag)

def Entry.numbered (e : Entry) : Option (Posting × Nat) := e.posting.map (·, e.pos)

def MpiOp.covers (op : MpiOp) (addr : Nat) : Bool :=
  decide (op.addr ≤ addr ∧ addr < op.addr + op.size)

/-- The number of bytes that MPI moves: sizes are passed as a count of type
`int`. MPI does not accept a negative count. -/
def countOf (size : Nat) : Nat := (asSigned 32 size).toNat

theorem countOf_le (size : Nat) : countOf size ≤ size :=
  Int.toNat_le.mpr (narrowing_asSigned 32 size)

theorem countOf_of_lt {size : Nat} (hlt : size < 2 ^ 31) : countOf size = size := by
  rw [countOf, asSigned_eq_iff.mpr hlt, Int.toNat_natCast]

/-- The channel and the memory of the processes. -/
structure MemWorld where
  world : World
  /-- Ghost: what has happened on the channel. -/
  events : List (Nat × Event)
  mem : Nat → Nat → UInt8
  /-- The bytes that MPI has read from the buffer of the sender. -/
  read : Message → Nat → Option UInt8
  /-- The bytes that MPI has written into the buffer of the receiver. -/
  written : Message → Nat → Bool
  /-- Ghost: the memory of the sender when the send was posted. -/
  snap : Message → Nat → UInt8
  /-- Ghost: the receives that are complete and whose buffers have not been
  taken back. -/
  kept : Nat → List Entry

/-- A step of the channel, of MPI, or of the rest of a process. -/
inductive MemAct
  | chan (a : Act)
  | readByte (m : Message) (i : Nat)
  | writeByte (m : Message) (i : Nat)
  /-- The memory and the flags of a process change. -/
  | env (p : Nat) (mem : Nat → UInt8) (flags : Nat → UruFlag)
  /-- The user takes back the buffer of a receive. -/
  | take (p : Nat) (e : Entry)

namespace MemWorld

def sendOp (s : MemWorld) (m : Message) : Option MpiOp :=
  ((postings m.src s.events).filter fun x => x.key = (.opSend, m.dst, m.tag))[m.pos]?.map (·.op)

def recvOp (s : MemWorld) (m : Message) : Option MpiOp :=
  ((postings m.dst s.events).filter fun x => x.key = (.opRecv, m.src, m.tag))[m.pos]?.map (·.op)

/-- Whether MPI has moved all bytes of an entry of process `rank`. -/
def transferred (s : MemWorld) (rank : Nat) (e : Entry) : Bool :=
  match e.op.op_type with
  | .opSend => decide (∀ i < countOf e.op.size, (s.read (e.message rank) i).isSome)
  | .opRecv => decide (∀ i < countOf e.op.size, s.written (e.message rank) i)

def finished (s : MemWorld) : Act → Bool
  | .proc rank (.testSome done) =>
      decide (∀ e ∈ pick true done (s.world.procs rank).queue, s.transferred rank e)
  | _ => true

/-- The ghost state after an event at process `rank`. -/
def note (s : MemWorld) (rank : Nat) : Event → MemWorld
  | .posted x =>
      if x.op.op_type = .opSend then
        { s with
          snap := Function.update s.snap ⟨rank, x.op.rank, x.op.tag,
            (s.world.procs rank).posted .opSend x.op.rank x.op.tag⟩ (s.mem rank) }
      else s
  | .applied e =>
      if e.op.op_type = .opRecv then
        { s with kept := Function.update s.kept rank (e :: s.kept rank) }
      else s
  | _ => s

def setFlags (w : World) (p : Nat) (flags : Nat → UruFlag) : World :=
  { w with procs := Function.update w.procs p { w.procs p with flags := flags } }

def step (s : MemWorld) : MemAct → Option MemWorld
  | .chan a =>
      if s.finished a then
        (s.world.step a).map fun w =>
          { (s.world.events a).foldl (fun s x => s.note x.1 x.2) s with
            world := w
            events := s.events ++ s.world.events a }
      else none
  | .readByte m i =>
      match s.sendOp m with
      | some op =>
          if i < countOf op.size ∧ s.read m i = none then
            some { s with
              read := Function.update s.read m
                (Function.update (s.read m) i (some (s.mem m.src (op.addr + i)))) }
          else none
      | none => none
  | .writeByte m i =>
      match s.recvOp m, s.read m i with
      | some op, some b =>
          if i < countOf op.size ∧ s.written m i = false then
            some { s with
              mem := Function.update s.mem m.dst
                (Function.update (s.mem m.dst) (op.addr + i) b)
              written := Function.update s.written m (Function.update (s.written m) i true) }
          else none
      | _, _ => none
  | .env p mem flags =>
      some { s with
        world := setFlags s.world p flags
        mem := Function.update s.mem p mem }
  | .take p e => some { s with kept := Function.update s.kept p ((s.kept p).erase e) }

def owned (s : MemWorld) (p : Nat) : List Entry := (s.world.procs p).unapplied ++ s.kept p

/-- A buffer in use is written by nothing but the receive it belongs to. -/
def undisturbed (s : MemWorld) : MemAct → Bool
  | .env p mem _ =>
      decide (∀ e ∈ s.owned p, ∀ i < e.op.size, mem (e.op.addr + i) = s.mem p (e.op.addr + i))
  | .writeByte m i =>
      match s.recvOp m with
      | some op => decide (∀ e ∈ s.owned m.dst, e.op.covers (op.addr + i) →
          e.op.op_type = .opRecv ∧ e.message m.dst = m)
      | none => true
  | .chan _ | .readByte _ _ | .take _ _ => true

def init (size : Nat) (flags : Nat → Nat → UruFlag) (mem : Nat → Nat → UInt8) : MemWorld where
  world := .init size flags
  events := []
  mem := mem
  read := fun _ _ => none
  written := fun _ _ => false
  snap := fun _ _ => 0
  kept := fun _ => []

end MemWorld

/-! ### Entries and the numbers of their postings -/

theorem message_of_send {rank : Nat} {e : Entry} (h : e.op.op_type = .opSend) :
    e.message rank = ⟨rank, e.op.rank, e.op.tag, e.pos⟩ := by
  simp [Entry.message, h]

theorem message_of_recv {rank : Nat} {e : Entry} (h : e.op.op_type = .opRecv) :
    e.message rank = ⟨e.op.rank, rank, e.op.tag, e.pos⟩ := by
  simp [Entry.message, h]

def Proc.posting (proc : Proc) (x : Posting) : Posting × Nat :=
  (x, proc.posted x.op.op_type x.op.rank x.op.tag)

def Proc.made (rank : Nat) (proc : Proc) : ProcAct → List Entry
  | .userStep =>
      match proc.user with
      | .creating true plan (w :: _) (some tag) send_ops _ _ =>
          [proc.entry (w.sendOp (freeOp ||| freeTag) plan send_ops.length tag) .own
            ⟨rank, plan, 0, send_ops.length⟩]
      | .announcing _ _ _ ((op :: _) :: _) _ _ => [ctrlEntry op.rank]
      | .starting _ _ (b :: _) _ _ => [ctrlEntry b.dst_rank]
      | .starting _ start [] (op :: _) _ => [proc.entry op .own ⟨rank, op.plan, start, op.index⟩]
      | .destroying _ [] (b :: _) _ => [ctrlEntry b.dst_rank]
      | _ => []
  | .daemonStep =>
      match proc.daemon with
      | .posting src start (op :: _) _ =>
          [proc.entry op .peer ⟨src, op.plan, start.getD 0, op.index⟩]
      | _ => []
  | _ => []

section Moves

variable {w : World} {rank : Nat} {proc proc' : Proc} {a : ProcAct}

/-- The entries that a step makes come into the hands of the process, and an
entry is given up when its effects are applied. -/
theorem Move.entries_perm (hmove : Move w rank proc a proc') (hlive' : proc'.halted = none) :
    ((proc.events rank a).filterMap Event.entry ++ proc'.unapplied).Perm
      (proc.unapplied ++ proc.made rank a) := by
  have hsame : ∀ {es es' : List Entry}, es.Perm es' → es.Perm (es' ++ []) := by
    intro es es' hperm
    rwa [List.append_nil]
  -- an entry that a call makes goes behind those of the call
  have hcall : ∀ (es queue rest : List Entry) (e : Entry),
      (es ++ [e] ++ queue ++ rest).Perm (es ++ queue ++ rest ++ [e]) := by
    intro es queue rest e
    rw [List.append_assoc, List.append_assoc es [e], List.append_assoc es, List.append_assoc es]
    exact List.perm_append_comm.append_left es
  simp only [Proc.unapplied]
  cases hmove with
  | userHalt | daemonHalt | recvHalt | postHalt => cases hlive'
  | beginCreate huser | sortOps huser | beginStart huser | beginDestroy huser
  | beginClose huser =>
      refine hsame ?_
      rw [huser]
      exact List.Perm.refl _
  | recvCreate | recvDestroy => exact hsame (List.Perm.refl _)
  | recvStart hdaemon | recvExecute hdaemon =>
      refine hsame ?_
      rw [hdaemon]
      exact List.Perm.refl _
  | drawTag huser | writeKept huser | destroyOp huser =>
      simp only [Proc.events, Proc.made, huser]
      exact hsame (List.Perm.refl _)
  | closeLoop huser =>
      simp only [Proc.events, Proc.made, huser]
      refine hsame ?_
      unfold Proc.closeLoop
      split <;> exact List.Perm.refl _
  | announceOnce huser | announceKept huser | startBatch huser | destroyBatch huser
  | writeOnce huser | startOp huser =>
      simp only [Proc.events, Proc.made, huser]
      exact hcall _ _ _ _
  | finishCreate huser | finishStart huser | finishDestroy huser =>
      simp only [Proc.events, Proc.made, huser]
      refine hsame ?_
      simp only [Proc.finishCreate, Proc.finishCall, Proc.append, UserPhase.entries,
        List.filterMap_nil, List.nil_append]
      exact List.perm_append_comm.append_right _
  | postStarted hdaemon | postOnce hdaemon =>
      simp only [Proc.events, Proc.made, hdaemon]
      simp only [Proc.post, Proc.goOn, Proc.activate, DaemonPhase.entries, List.filterMap_cons,
        List.filterMap_nil, Event.entry, List.nil_append, List.append_assoc]
      exact List.Perm.refl _
  | finishPosting hdaemon =>
      simp only [Proc.events, Proc.made, hdaemon]
      refine hsame ?_
      simp only [Proc.append, Proc.goOn, DaemonPhase.entries, List.filterMap_nil,
        List.nil_append, List.append_nil, List.append_assoc]
      exact List.Perm.refl _
  | keepTag hdaemon | returnTag hdaemon =>
      simp only [Proc.events, Proc.made, hdaemon]
      refine hsame ?_
      simp only [Proc.flagged, Proc.goOn, Proc.setTagPool, DaemonPhase.entries,
        List.filterMap_cons, List.filterMap_nil, Event.entry, List.singleton_append]
      exact List.perm_middle.symm
  | finishEffects hdaemon =>
      simp only [Proc.events, Proc.made, hdaemon]
      exact hsame (List.Perm.refl _)
  | @testSome done hdaemon _ hlen =>
      refine hsame ?_
      have hentries := testSome_same proc done UserPhase.entries fun _ _ => rfl
      rw [hentries, hdaemon]
      simp only [Proc.testSome, DaemonPhase.entries, List.append_nil, List.append_assoc]
      exact (pick_perm done _ hlen).symm.append_left _

/-- What a step posts gets an entry with the next number. -/
theorem Move.made_numbered (hmove : Move w rank proc a proc') (hlive' : proc'.halted = none) :
    (proc.made rank a).filterMap Entry.numbered =
      ((proc.events rank a).filterMap Event.posting).map proc.posting := by
  cases hmove with
  | userHalt | daemonHalt | recvHalt | postHalt => cases hlive'
  | drawTag huser | writeKept huser | announceOnce huser | announceKept huser | finishCreate huser
  | startBatch huser | finishStart huser | destroyOp huser | destroyBatch huser
  | finishDestroy huser | closeLoop huser | writeOnce huser | startOp huser =>
      simp only [Proc.made, Proc.events, huser]
      rfl
  | postStarted hdaemon | postOnce hdaemon | finishPosting hdaemon | keepTag hdaemon
  | returnTag hdaemon | finishEffects hdaemon =>
      simp only [Proc.made, Proc.events, hdaemon]
      rfl
  | beginCreate | sortOps | beginStart | beginDestroy | beginClose | recvCreate | recvDestroy
  | recvStart | recvExecute | testSome => rfl

theorem made_ctrl {e : Entry} (he : e ∈ proc.made rank a) (hside : e.side = .ctrl) :
    e.op.flag_p = none := by
  unfold Proc.made at he
  split at he
  · split at he
    · cases List.mem_singleton.mp he ▸ hside
    · exact List.mem_singleton.mp he ▸ rfl
    · exact List.mem_singleton.mp he ▸ rfl
    · cases List.mem_singleton.mp he ▸ hside
    · exact List.mem_singleton.mp he ▸ rfl
    · exact absurd he List.not_mem_nil
  · split at he
    · cases List.mem_singleton.mp he ▸ hside
    · exact absurd he List.not_mem_nil
  · exact absurd he List.not_mem_nil

theorem events_cases (rank : Nat) (proc : Proc) (a : ProcAct) :
    proc.events rank a = [] ∨ ∃ e, proc.events rank a = [e] := by
  unfold Proc.events
  split
  · exact .inr ⟨_, rfl⟩
  · exact .inr ⟨_, rfl⟩
  · exact .inr ⟨_, rfl⟩
  · split
    · exact .inr ⟨_, rfl⟩
    · exact .inr ⟨_, rfl⟩
    · exact .inl rfl
  · split
    · exact .inr ⟨_, rfl⟩
    · exact .inr ⟨_, rfl⟩
    · exact .inl rfl
  · exact .inl rfl

theorem Move.applied (hmove : Move w rank proc a proc') (hlive' : proc'.halted = none) {e : Entry}
    (he : e ∈ (proc.events rank a).filterMap Event.entry) :
    ∃ rest, proc.daemon = .effects (e :: rest) ∧ proc'.daemon = .effects rest := by
  cases hmove with
  | userHalt | daemonHalt | recvHalt | postHalt => cases hlive'
  | keepTag hdaemon | returnTag hdaemon =>
      simp only [Proc.events, hdaemon, List.filterMap_cons, Event.entry, List.filterMap_nil,
        List.mem_singleton] at he
      subst he
      exact ⟨_, hdaemon, rfl⟩
  | drawTag huser | writeKept huser | announceOnce huser | announceKept huser | finishCreate huser
  | startBatch huser | finishStart huser | destroyOp huser | destroyBatch huser
  | finishDestroy huser | closeLoop huser | writeOnce huser | startOp huser =>
      simp [Proc.events, huser, Event.entry] at he
  | postStarted hdaemon | postOnce hdaemon | finishPosting hdaemon | finishEffects hdaemon =>
      simp [Proc.events, hdaemon, Event.entry] at he
  | beginCreate | sortOps | beginStart | beginDestroy | beginClose | recvCreate | recvDestroy
  | recvStart | recvExecute | testSome =>
      simp [Proc.events, Event.entry] at he

/-- What the daemon is about to apply has been reported before, or is reported
now. -/
theorem Move.reported (hmove : Move w rank proc a proc') {rest : List Entry}
    (hdaemon' : proc'.daemon = .effects rest) :
    (∃ es, proc.daemon = .effects es ∧ ∀ e ∈ rest, e ∈ es) ∨
      ∃ done, a = .testSome done ∧ rest = pick true done proc.queue := by
  have hsame : proc'.daemon = proc.daemon →
      ∃ es, proc.daemon = .effects es ∧ ∀ e ∈ rest, e ∈ es := fun h =>
    ⟨rest, h ▸ hdaemon', fun _ he => he⟩
  cases hmove with
  | keepTag hdaemon | returnTag hdaemon =>
      cases hdaemon'
      exact .inl ⟨_, hdaemon, fun _ he => List.mem_cons_of_mem _ he⟩
  | testSome =>
      cases hdaemon'
      exact .inr ⟨_, rfl, rfl⟩
  | recvStart | recvExecute | postStarted | postOnce | postHalt | finishPosting
  | finishEffects => cases hdaemon'
  | beginCreate | sortOps | beginStart | beginDestroy | beginClose | drawTag | writeOnce
  | writeKept | announceOnce | announceKept | finishCreate | startBatch | startOp | finishStart
  | destroyOp | destroyBatch | finishDestroy | closeLoop | userHalt | daemonHalt | recvCreate
  | recvDestroy | recvHalt => exact .inl (hsame rfl)

theorem live_of_step {w' : World} {a : Act} (hstep : w.step a = some w') {p : Nat}
    (hlive : (w'.procs p).halted = none) : (w.procs p).halted = none := by
  have hset : ∀ user, ((w.setUser user).procs p).halted = none → (w.procs p).halted = none := by
    intro user h
    simp only [World.setUser] at h
    split at h <;> exact h
  rcases step_cases hstep with ⟨rank, pa, proc', -, -, hold, -, rfl⟩ | ⟨-, -, rfl⟩ | ⟨-, -, rfl⟩
  · by_cases hp : p = rank
    · exact hp ▸ hold
    · simpa only [Function.update_of_ne hp] using hlive
  · exact hset _ hlive
  · exact hset _ hlive

end Moves

/-! ### Other flags -/

section Flags

variable {w : World} {p : Nat} {flags : Nat → UruFlag} {es : List (Nat × Event)}

open MemWorld

@[simp] theorem setFlags_size : (setFlags w p flags).size = w.size := rfl

theorem setFlags_same {β : Type} (f : Proc → β) (h : ∀ proc : Proc, ∀ fl : Nat → UruFlag,
    f { proc with flags := fl } = f proc) (q : Nat) :
    f ((setFlags w p flags).procs q) = f (w.procs q) := by
  by_cases hq : q = p
  · subst hq
    simp only [setFlags, Function.update_self, h]
  · simp only [setFlags, Function.update_of_ne hq]

theorem setFlags_inv (h : w.Inv) : (setFlags w p flags).Inv where
  ini q := by
    by_cases hq : q = p
    · subst hq
      have hini := h.ini q
      simp only [setFlags, Function.update_self]
      exact ⟨hini.tags, hini.ids, hini.view, hini.valid, hini.aligned, hini.sent, hini.own,
        hini.plans, hini.user⟩
    · simp only [setFlags, Function.update_of_ne hq]
      exact h.ini q
  link i j := by
    rw [setFlags_same (fun proc => proc.ctrl_sent j) fun _ _ => rfl]
    by_cases hj : j = p
    · subst hj
      simp only [setFlags, Function.update_self]
      exact (h.link i j).same rfl rfl rfl rfl id
    · simp only [setFlags, Function.update_of_ne hj]
      exact h.link i j
  daemon q := by
    by_cases hq : q = p
    · subst hq
      simp only [setFlags, Function.update_self]
      exact h.daemon q
    · simp only [setFlags, Function.update_of_ne hq]
      exact h.daemon q

theorem setFlags_issued {q : Nat} {evs : List Event} (h : Issued evs (w.procs q)) :
    Issued evs ((setFlags w p flags).procs q) := by
  by_cases hq : q = p
  · subst hq
    simp only [setFlags, Function.update_self]
    exact ⟨h.created_lt, h.created_unique, h.next_pos, h.started_lt, h.posted_lt, h.issued,
      h.plans, h.numbers, h.destroyed, h.user⟩
  · simp only [setFlags, Function.update_of_ne hq]
    exact h

theorem setFlags_sound (h : World.Sound es w) : World.Sound es (setFlags w p flags) where
  keeps q := by
    by_cases hq : q = p
    · subst hq
      simp only [setFlags, Function.update_self]
      exact ⟨(h.keeps q).own, (h.keeps q).peer, (h.keeps q).sent⟩
    · simp only [setFlags, Function.update_of_ne hq]
      exact h.keeps q
  daemon q := by
    rw [setFlags_same (fun proc => proc.daemon) fun _ _ => rfl]
    exact h.daemon q
  posted := h.posted

end Flags

end Unr.Mpi
