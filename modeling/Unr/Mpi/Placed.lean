import Unr.Mpi.Memory
import Unr.Mpi.Transfers

/-!
A completed receive has its data.

Whatever a process and its other channels do to its memory in the meantime, as
long as they leave the buffers in use alone: when the daemon comes to the flag
of a receive, every byte of the destination is what the source held when the
send was posted, and it stays so until the user takes the buffer back.
-/

namespace Unr.Mpi

open Unr.Uru Unr.Logic

namespace MemWorld

def Numbered (s : MemWorld) (p : Nat) (x : Posting) (k : Nat) : Prop :=
  (x, k) ∈ numbered Posting.key (postings p s.events)

def Sent (s : MemWorld) (m : Message) (x : Posting) : Prop :=
  s.Numbered m.src x m.pos ∧ x.key = (.opSend, m.dst, m.tag)

def Expected (s : MemWorld) (m : Message) (x : Posting) : Prop :=
  s.Numbered m.dst x m.pos ∧ x.key = (.opRecv, m.src, m.tag)

/-- MPI has moved the bytes of an entry, and a receive has its send. -/
structure Delivered (s : MemWorld) (p : Nat) (e : Entry) : Prop where
  bytes : s.transferred p e = true
  matched : e.op.op_type = .opRecv → ∃ x, s.Sent (e.message p) x

structure Base (s : MemWorld) : Prop where
  world : s.world.Inv
  issued : ∀ p, Issued (eventsAt p s.events) (s.world.procs p)
  sound : World.Sound s.events s.world
  log : ∀ p, (s.world.procs p).log = (postings p s.events).map Posting.post
  entries : ∀ p, ((applied p s.events ++ (s.world.procs p).unapplied).filterMap
    Entry.numbered).Perm (numbered Posting.key (postings p s.events))
  ctrl : ∀ p, ∀ e ∈ applied p s.events ++ (s.world.procs p).unapplied, e.side = .ctrl →
    e.op.flag_p = none

structure Data (s : MemWorld) : Prop where
  read : ∀ m i b, s.read m i = some b → ∃ x, s.Sent m x ∧ b = s.snap m (x.op.addr + i)
  written : ∀ m i, s.written m i = true → (s.read m i).isSome ∧ ∃ x, s.Expected m x
  /-- The buffer of a send has not changed since the post. -/
  held : ∀ p, ∀ e ∈ (s.world.procs p).unapplied, e.side ≠ .ctrl → e.op.op_type = .opSend →
    ∀ i < e.op.size, s.mem p (e.op.addr + i) = s.snap (e.message p) (e.op.addr + i)
  /-- The bytes in the buffer of a receive are those of the message. -/
  placed : ∀ p, ∀ e ∈ s.owned p, e.side ≠ .ctrl → e.op.op_type = .opRecv →
    ∀ i < e.op.size, s.written (e.message p) i = true →
      s.read (e.message p) i = some (s.mem p (e.op.addr + i))
  reported : ∀ p rest, (s.world.procs p).daemon = .effects rest → ∀ e ∈ rest, s.Delivered p e
  done : ∀ p, ∀ e ∈ applied p s.events, s.Delivered p e
  kept : ∀ p, ∀ e ∈ s.kept p, e ∈ applied p s.events ∧ e.op.op_type = .opRecv

end MemWorld

/-! ### Entries and postings -/

theorem numbered_isSome {e : Entry} (h : e.side ≠ .ctrl) :
    ∃ x, e.numbered = some (x, e.pos) ∧ x.op = e.op ∧ x.write = e.write ∧
      (x.own = true ↔ e.side = .own) := by
  obtain ⟨op, side, write, pos⟩ := e
  cases side with
  | ctrl => exact absurd rfl h
  | own => exact ⟨⟨true, op, write⟩, rfl, rfl, rfl, by simp⟩
  | peer => exact ⟨⟨false, op, write⟩, rfl, rfl, rfl, by simp⟩

theorem numbered_inj {e e' : Entry} {z : Posting × Nat} (h : e.numbered = some z)
    (h' : e'.numbered = some z) : e = e' := by
  obtain ⟨op, side, write, pos⟩ := e
  obtain ⟨op', side', write', pos'⟩ := e'
  have heq := h.trans h'.symm
  cases side with
  | ctrl => cases h
  | own =>
      cases side' with
      | ctrl => cases h'
      | own =>
          cases heq
          rfl
      | peer => cases heq
  | peer =>
      cases side' with
      | ctrl => cases h'
      | own => cases heq
      | peer =>
          cases heq
          rfl

theorem posted_eq_countP {proc : Proc} {xs : List Posting}
    (hlog : proc.log = xs.map Posting.post) (op_type : OpType) (rank tag : Nat) :
    proc.posted op_type rank tag = xs.countP fun y => y.key = (op_type, rank, tag) := by
  rw [Proc.posted, hlog, List.countP_map]
  refine List.countP_congr fun y _ => ?_
  simp only [Function.comp_apply, decide_eq_true_eq]
  simp only [Posting.post, Posting.key, Prod.mk.injEq]

theorem posted_eq_countKey {proc : Proc} {xs : List Posting}
    (hlog : proc.log = xs.map Posting.post) (x : Posting) :
    proc.posted x.op.op_type x.op.rank x.op.tag = countKey Posting.key xs x :=
  posted_eq_countP hlog _ _ _

theorem eventsAt_events (w : World) (a : Act) (q : Nat) :
    eventsAt q (w.events a) = [] ∨ ∃ pa e, a = .proc q pa ∧ (w.procs q).events q pa = [e] ∧
      w.events a = [(q, e)] ∧ eventsAt q (w.events a) = [e] := by
  cases a with
  | barrier | allreduce => exact .inl rfl
  | proc rank pa =>
      by_cases hq : rank = q
      · subst hq
        rw [World.events, eventsAt_map_self]
        rcases events_cases rank (w.procs rank) pa with hnil | ⟨e, hone⟩
        · exact .inl hnil
        · exact .inr ⟨pa, e, rfl, hone, by rw [hone]; rfl, hone⟩
      · exact .inl (eventsAt_map_of_ne hq _)

theorem postings_append (q : Nat) (es new : List (Nat × Event)) :
    postings q (es ++ new) = postings q es ++ postings q new := by
  rw [postings, eventsAt_append, List.filterMap_append]
  rfl

theorem applied_append (q : Nat) (es new : List (Nat × Event)) :
    applied q (es ++ new) = applied q es ++ applied q new := by
  rw [applied, eventsAt_append, List.filterMap_append]
  rfl

@[simp] theorem postings_self (w : World) (q : Nat) (pa : ProcAct) :
    postings q (w.events (.proc q pa)) =
      ((w.procs q).events q pa).filterMap Event.posting := by
  rw [postings, World.events, eventsAt_map_self]

@[simp] theorem applied_self (w : World) (q : Nat) (pa : ProcAct) :
    applied q (w.events (.proc q pa)) = ((w.procs q).events q pa).filterMap Event.entry := by
  rw [applied, World.events, eventsAt_map_self]

theorem postings_of_ne (w : World) {q rank : Nat} (h : q ≠ rank) (pa : ProcAct) :
    postings q (w.events (.proc rank pa)) = [] := by
  rw [postings, World.events, eventsAt_map_of_ne (Ne.symm h), List.filterMap_nil]

theorem applied_of_ne (w : World) {q rank : Nat} (h : q ≠ rank) (pa : ProcAct) :
    applied q (w.events (.proc rank pa)) = [] := by
  rw [applied, World.events, eventsAt_map_of_ne (Ne.symm h), List.filterMap_nil]

theorem applied_singleton {q rank : Nat} {ev : Event} {e : Entry} :
    e ∈ applied q [(rank, ev)] ↔ rank = q ∧ ev = .applied e := by
  by_cases hq : rank = q
  · cases ev <;> simp [applied, eventsAt, Event.entry, hq, eq_comm]
  · simp [applied, eventsAt, hq]

namespace MemWorld.Base

variable {s : MemWorld} {p : Nat} {e : Entry} {x : Posting} {k : Nat}

/-- The entry of a posting is applied or in hand. -/
theorem exists_entry (h : s.Base) (hx : s.Numbered p x k) :
    ∃ e, (e ∈ applied p s.events ∨ e ∈ (s.world.procs p).unapplied) ∧
      e.numbered = some (x, k) := by
  obtain ⟨e, he, heq⟩ := List.mem_filterMap.mp ((h.entries p).mem_iff.mpr hx)
  exact ⟨e, List.mem_append.mp he, heq⟩

theorem posting (h : s.Base) (he : e ∈ applied p s.events ∨ e ∈ (s.world.procs p).unapplied)
    (hx : e.numbered = some (x, k)) : s.Numbered p x k :=
  (h.entries p).mem_iff.mp (List.mem_filterMap.mpr ⟨e, List.mem_append.mpr he, hx⟩)

/-- An operation is applied once. -/
theorem not_both (h : s.Base) (hside : e.side ≠ .ctrl) (he : e ∈ applied p s.events) :
    e ∉ (s.world.procs p).unapplied := by
  intro he'
  obtain ⟨x, hx, -⟩ := numbered_isSome hside
  have hnodup : ((applied p s.events ++ (s.world.procs p).unapplied).filterMap
      Entry.numbered).Nodup :=
    (h.entries p).nodup_iff.mpr (List.Nodup.of_map _ numbered_nodup)
  rw [List.filterMap_append, List.nodup_append] at hnodup
  exact hnodup.2.2 _ (List.mem_filterMap.mpr ⟨e, he, hx⟩) _
    (List.mem_filterMap.mpr ⟨e, he', hx⟩) rfl

theorem sent (h : s.Base) (he : e ∈ applied p s.events ∨ e ∈ (s.world.procs p).unapplied)
    (hside : e.side ≠ .ctrl) (hsend : e.op.op_type = .opSend) :
    ∃ x, s.Sent (e.message p) x ∧ x.op = e.op ∧ x.write = e.write ∧
      (x.own = true ↔ e.side = .own) := by
  obtain ⟨x, hx, hop, hrest⟩ := numbered_isSome hside
  rw [message_of_send hsend]
  refine ⟨x, ⟨h.posting he hx, ?_⟩, hop, hrest⟩
  rw [Posting.key, hop, hsend]

theorem expected (h : s.Base) (he : e ∈ applied p s.events ∨ e ∈ (s.world.procs p).unapplied)
    (hside : e.side ≠ .ctrl) (hrecv : e.op.op_type = .opRecv) :
    ∃ x, s.Expected (e.message p) x ∧ x.op = e.op ∧ x.write = e.write ∧
      (x.own = true ↔ e.side = .own) := by
  obtain ⟨x, hx, hop, hrest⟩ := numbered_isSome hside
  rw [message_of_recv hrecv]
  refine ⟨x, ⟨h.posting he hx, ?_⟩, hop, hrest⟩
  rw [Posting.key, hop, hrecv]

theorem sent_unique {m : Message} {y : Posting} (hx : s.Sent m x) (hy : s.Sent m y) : x = y :=
  numbered_eq hx.1 hy.1 (hx.2.trans hy.2.symm)

theorem expected_unique {m : Message} {y : Posting} (hx : s.Expected m x)
    (hy : s.Expected m y) : x = y :=
  numbered_eq hx.1 hy.1 (hx.2.trans hy.2.symm)

theorem sendOp_eq_some {m : Message} {op : MpiOp} (hop : s.sendOp m = some op) :
    ∃ x, s.Sent m x ∧ x.op = op := by
  obtain ⟨x, hx, rfl⟩ := Option.map_eq_some_iff.mp hop
  have hkey := of_decide_eq_true (List.mem_filter.mp (List.mem_of_getElem? hx)).2
  refine ⟨x, ⟨mem_numbered.mpr ?_, hkey⟩, rfl⟩
  rwa [hkey]

theorem recvOp_eq_some {m : Message} {op : MpiOp} (hop : s.recvOp m = some op) :
    ∃ x, s.Expected m x ∧ x.op = op := by
  obtain ⟨x, hx, rfl⟩ := Option.map_eq_some_iff.mp hop
  have hkey := of_decide_eq_true (List.mem_filter.mp (List.mem_of_getElem? hx)).2
  refine ⟨x, ⟨mem_numbered.mpr ?_, hkey⟩, rfl⟩
  rwa [hkey]

theorem mono {t : MemWorld} {new : List (Nat × Event)} (hev : t.events = s.events ++ new)
    (hx : s.Numbered p x k) : t.Numbered p x k := by
  rw [Numbered, hev, postings_append]
  exact (numbered_isPrefix_append _ _).subset hx

theorem entries_move (h : s.Base) {pa : ProcAct} {proc' : Proc}
    (hmove : Move s.world p (s.world.procs p) pa proc') (hlive' : proc'.halted = none) :
    (((applied p s.events ++ applied p (s.world.events (.proc p pa))) ++ proc'.unapplied).filterMap
      Entry.numbered).Perm (numbered Posting.key
        (postings p s.events ++ postings p (s.world.events (.proc p pa)))) := by
  have hnumbered : numbered Posting.key (postings p s.events ++
      postings p (s.world.events (.proc p pa))) =
      numbered Posting.key (postings p s.events) ++
        (((s.world.procs p).events p pa).filterMap Event.posting).map
        (s.world.procs p).posting := by
    rw [postings_self]
    rcases events_cases p (s.world.procs p) pa with hnil | ⟨e, hone⟩
    · simp [hnil]
    · cases hposting : e.posting with
      | none => simp [hone, hposting]
      | some x =>
          simp only [hone, List.filterMap_cons, hposting, List.filterMap_nil, List.map_cons,
            List.map_nil, numbered_snoc, Proc.posting, posted_eq_countKey (h.log p)]
  have hentries := (hmove.entries_perm hlive').filterMap Entry.numbered
  rw [List.filterMap_append, List.filterMap_append, hmove.made_numbered hlive'] at hentries
  rw [hnumbered, applied_self, List.append_assoc, List.filterMap_append, List.filterMap_append]
  refine (hentries.append_left _).trans ?_
  rw [← List.append_assoc, ← List.filterMap_append]
  exact (h.entries p).append_right _

theorem ctrl_move (h : s.Base) {pa : ProcAct} {proc' : Proc}
    (hmove : Move s.world p (s.world.procs p) pa proc') (hlive' : proc'.halted = none) :
    ∀ e ∈ (applied p s.events ++ applied p (s.world.events (.proc p pa))) ++ proc'.unapplied,
      e.side = .ctrl → e.op.flag_p = none := by
  intro e he hside
  rw [applied_self, List.append_assoc, List.mem_append] at he
  rcases he with he | he
  · exact h.ctrl p e (List.mem_append_left _ he) hside
  · rcases List.mem_append.mp ((hmove.entries_perm hlive').mem_iff.mp he) with he | he
    · exact h.ctrl p e (List.mem_append_right _ he) hside
    · exact made_ctrl he hside

theorem chan {t : MemWorld} {a : Act} (h : s.Base) (hstep : s.world.step a = some t.world)
    (hlive : ∀ q, (t.world.procs q).halted = none) (hev : t.events = s.events ++ s.world.events a) :
    t.Base := by
  have hold := fun q => live_of_step hstep (hlive q)
  have hinv := h.world.step hstep
  -- the collective calls only move processes from one resting phase to another
  have hset : ∀ user : UserPhase, user.Resting →
      (∀ q < s.world.size, (s.world.procs q).user.Resting) →
      t.world = s.world.setUser user → t.events = s.events → t.Base := by
    intro user hrest hall hw hsame
    refine ⟨hinv, fun q => ?_, ?_, fun q => ?_, fun q => ?_, fun q => ?_⟩
    · rw [hw, hsame]
      simp only [World.setUser]
      split
      · exact (h.issued q).rest (hall q ‹_›) hrest
      · exact h.issued q
    · rw [hw, hsame]
      exact h.sound.setUser hrest
    · rw [hw, hsame]
      simp only [World.setUser]
      split <;> exact h.log q
    · rw [hw, hsame]
      have hentries := h.entries q
      simp only [World.setUser, Proc.unapplied] at hentries ⊢
      split
      · rw [(hall q ‹_›).entries] at hentries
        rwa [hrest.entries]
      · exact hentries
    · rw [hw, hsame]
      have hctrl := h.ctrl q
      simp only [World.setUser, Proc.unapplied] at hctrl ⊢
      split
      · rw [(hall q ‹_›).entries] at hctrl
        rwa [hrest.entries]
      · exact hctrl
  obtain ⟨w, events, mem, read, written, snap, kept⟩ := t
  dsimp only at hstep hlive hev hset hinv
  subst hev
  rcases step_cases hstep with ⟨rank, pa, proc', rfl, hrank, hlive₀, hmove, rfl⟩ |
    ⟨rfl, hall, rfl⟩ | ⟨rfl, hall, rfl⟩
  · have hlive' : proc'.halted = none := by simpa using hlive rank
    refine ⟨hinv, fun q => ?_, h.sound.move h.world (h.issued rank) hlive₀ hmove, fun q => ?_,
      fun q => ?_, fun q => ?_⟩
    · by_cases hq : q = rank
      · subst hq
        simp only [Function.update_self, eventsAt_append, World.events, eventsAt_map_self]
        exact (h.issued q).move (h.world.ini q) hmove hlive'
      · simp only [Function.update_of_ne hq, eventsAt_append, World.events,
          eventsAt_map_of_ne (Ne.symm hq), List.append_nil]
        exact h.issued q
    · by_cases hq : q = rank
      · subst hq
        simp only [Function.update_self, postings_append, postings_self]
        rw [hmove.log_events hlive', h.log q, List.map_append]
      · simp only [Function.update_of_ne hq, postings_append, postings_of_ne _ hq,
          List.append_nil]
        exact h.log q
    · by_cases hq : q = rank
      · subst hq
        simp only [Function.update_self, postings_append, applied_append]
        exact h.entries_move hmove hlive'
      · simp only [Function.update_of_ne hq, postings_append, applied_append,
          postings_of_ne _ hq, applied_of_ne _ hq, List.append_nil]
        exact h.entries q
    · by_cases hq : q = rank
      · subst hq
        simp only [Function.update_self, applied_append]
        exact h.ctrl_move hmove hlive'
      · simp only [Function.update_of_ne hq, applied_append, applied_of_ne _ hq,
          List.append_nil]
        exact h.ctrl q
  · exact hset .finalizing trivial (fun q hq => (hall q hq).1 ▸ trivial) rfl (List.append_nil _)
  · exact hset (.calling _ _) trivial (fun q hq => resting_of_contribution (hall q hq).1) rfl
      (List.append_nil _)

theorem sent_mono {t : MemWorld} {new : List (Nat × Event)} (hev : t.events = s.events ++ new)
    {m : Message} (hx : s.Sent m x) : t.Sent m x := ⟨mono hev hx.1, hx.2⟩

theorem expected_mono {t : MemWorld} {new : List (Nat × Event)} (hev : t.events = s.events ++ new)
    {m : Message} (hx : s.Expected m x) : t.Expected m x := ⟨mono hev hx.1, hx.2⟩

theorem not_numbered (h : s.Base) (x y : Posting) (hkey : y.key = x.key) :
    ¬ s.Numbered p y ((s.world.procs p).posted x.op.op_type x.op.rank x.op.tag) := by
  intro hy
  have hlt := (List.getElem?_eq_some_iff.mp (mem_numbered.mp hy)).1
  rw [← List.countP_eq_length_filter, posted_eq_countKey (h.log p), countKey, hkey] at hlt
  exact Nat.lt_irrefl _ hlt

/-- A receive that can be complete has its send. -/
theorem sent_of_complete (h : s.Base) (hrecv : e.op.op_type = .opRecv)
    (hcomplete : s.world.complete p e = true) : ∃ x, s.Sent (e.message p) x := by
  simp only [World.complete, hrecv, decide_eq_true_eq, posted_eq_countP (h.log e.op.rank),
    List.countP_eq_length_filter] at hcomplete
  have hget := List.getElem?_eq_getElem hcomplete
  have hkey := of_decide_eq_true (List.mem_filter.mp (List.mem_of_getElem? hget)).2
  rw [message_of_recv hrecv]
  exact ⟨_, mem_numbered.mpr (by rwa [hkey]), hkey⟩

theorem env (h : s.Base) {t : MemWorld} {flags : Nat → UruFlag}
    (hw : t.world = setFlags s.world p flags)
    (hev : t.events = s.events) : t.Base where
  world := hw ▸ setFlags_inv h.world
  issued q := by
    rw [hw, hev]
    exact setFlags_issued (h.issued q)
  sound := by
    rw [hw, hev]
    exact setFlags_sound h.sound
  log q := by
    rw [hw, hev, setFlags_same (fun proc => proc.log) fun _ _ => rfl]
    exact h.log q
  entries q := by
    rw [hw, hev, setFlags_same (fun proc => proc.unapplied) fun _ _ => rfl]
    exact h.entries q
  ctrl q := by
    rw [hw, hev, setFlags_same (fun proc => proc.unapplied) fun _ _ => rfl]
    exact h.ctrl q

end MemWorld.Base

/-! ### A step of the channel -/

namespace MemWorld

structure ChanStep (s : MemWorld) (a : Act) (t : MemWorld) : Prop where
  finished : s.finished a = true
  step : s.world.step a = some t.world
  events : t.events = s.events ++ s.world.events a
  mem : t.mem = s.mem
  read : t.read = s.read
  written : t.written = s.written
  snap : ∀ m, (∃ rank x, (rank, .posted x) ∈ s.world.events a ∧ x.op.op_type = .opSend ∧
      m = ⟨rank, x.op.rank, x.op.tag, (s.world.procs rank).posted .opSend x.op.rank x.op.tag⟩ ∧
      t.snap m = s.mem rank) ∨
    (¬ (∃ rank x, (rank, .posted x) ∈ s.world.events a ∧ x.op.op_type = .opSend ∧
      m = ⟨rank, x.op.rank, x.op.tag, (s.world.procs rank).posted .opSend x.op.rank x.op.tag⟩) ∧
      t.snap m = s.snap m)
  kept : ∀ p e, e ∈ t.kept p ↔
    (e ∈ applied p (s.world.events a) ∧ e.op.op_type = .opRecv) ∨ e ∈ s.kept p

theorem world_events_cases (w : World) (a : Act) :
    w.events a = [] ∨ ∃ rank e, w.events a = [(rank, e)] := by
  cases a with
  | barrier | allreduce => exact .inl rfl
  | proc rank pa =>
      rcases events_cases rank (w.procs rank) pa with hnil | ⟨e, hone⟩
      · exact .inl (by rw [World.events, hnil]; rfl)
      · exact .inr ⟨rank, e, by rw [World.events, hone]; rfl⟩

theorem chanStep {s t : MemWorld} {a : Act} (h : s.step (.chan a) = some t) : ChanStep s a t := by
  simp only [step, Option.ite_none_right_eq_some, Option.map_eq_some_iff] at h
  obtain ⟨hfinished, w, hw, rfl⟩ := h
  rcases world_events_cases s.world a with hnil | ⟨rank, e, hone⟩
  · simp only [hnil, List.foldl_nil]
    refine ⟨hfinished, hw, by rw [hnil], rfl, rfl, rfl, fun m => .inr ⟨?_, rfl⟩, fun p e => ?_⟩
    · rw [hnil]
      rintro ⟨_, _, hmem, -⟩
      exact absurd hmem List.not_mem_nil
    · rw [hnil]
      exact (or_iff_right fun h => absurd h.1 List.not_mem_nil).symm
  · simp only [hone, List.foldl_cons, List.foldl_nil]
    -- an event that is no post of a send leaves the snapshots alone
    have hsnap : (∀ x, e = .posted x → x.op.op_type ≠ .opSend) → ∀ m, ¬ ∃ r x,
        (r, Event.posted x) ∈ s.world.events a ∧ x.op.op_type = .opSend ∧
        m = (⟨r, x.op.rank, x.op.tag,
          (s.world.procs r).posted .opSend x.op.rank x.op.tag⟩ : Message) := by
      rintro hne m ⟨r, x, hmem, hsend, -⟩
      rw [hone, List.mem_singleton, Prod.mk.injEq] at hmem
      exact hne x hmem.2.symm hsend
    -- and one that applies no receive leaves the receives alone
    have hkept : (∀ e', e = .applied e' → e'.op.op_type ≠ .opRecv) → ∀ p e', e' ∈ s.kept p ↔
        (e' ∈ applied p (s.world.events a) ∧ e'.op.op_type = .opRecv) ∨ e' ∈ s.kept p := by
      intro hne p e'
      refine (or_iff_right ?_).symm
      rintro ⟨hmem, hrecv⟩
      rw [hone, applied_singleton] at hmem
      obtain ⟨-, hev⟩ := hmem
      exact hne e' hev hrecv
    cases e with
    | created | started | destroyed =>
        exact ⟨hfinished, hw, by rw [hone], rfl, rfl, rfl,
          fun m => .inr ⟨hsnap (by simp) m, rfl⟩, hkept (by simp)⟩
    | posted x =>
        by_cases hsend : x.op.op_type = .opSend
        · simp only [note, if_pos hsend]
          refine ⟨hfinished, hw, by rw [hone], rfl, rfl, rfl, fun m => ?_, hkept (by simp)⟩
          by_cases hm : m = ⟨rank, x.op.rank, x.op.tag,
              (s.world.procs rank).posted .opSend x.op.rank x.op.tag⟩
          · exact .inl ⟨rank, x, by simp [hone], hsend, hm, by simp [hm]⟩
          · refine .inr ⟨?_, Function.update_of_ne hm _ _⟩
            rintro ⟨r, y, hmem, -, hy⟩
            rw [hone, List.mem_singleton, Prod.mk.injEq] at hmem
            obtain ⟨rfl, hxy⟩ := hmem
            cases hxy
            exact hm hy
        · simp only [note, if_neg hsend]
          exact ⟨hfinished, hw, by rw [hone], rfl, rfl, rfl,
            fun m => .inr ⟨hsnap (by rintro y ⟨⟩; exact hsend) m, rfl⟩, hkept (by simp)⟩
    | applied e =>
        by_cases hrecv : e.op.op_type = .opRecv
        · simp only [note, if_pos hrecv]
          refine ⟨hfinished, hw, by rw [hone], rfl, rfl, rfl,
            fun m => .inr ⟨hsnap (by rintro _ ⟨⟩) m, rfl⟩, fun p e' => ?_⟩
          rw [hone, applied_singleton]
          by_cases hp : p = rank
          · subst hp
            simp only [Function.update_self, List.mem_cons, Event.applied.injEq, true_and]
            exact or_congr ⟨fun h => ⟨h.symm, h ▸ hrecv⟩, fun h => h.1.symm⟩ Iff.rfl
          · simp only [Function.update_of_ne hp]
            exact (or_iff_right fun h => hp h.1.1.symm).symm
        · simp only [note, if_neg hrecv]
          exact ⟨hfinished, hw, by rw [hone], rfl, rfl, rfl,
            fun m => .inr ⟨hsnap (by rintro _ ⟨⟩) m, rfl⟩, hkept (by rintro e' ⟨⟩; exact hrecv)⟩

section Chan

variable {s t : MemWorld} {a : Act} {p : Nat} {e : Entry}

theorem ChanStep.inHand (c : ChanStep s a t) (hs : s.Base) (ht : t.Base) (hside : e.side ≠ .ctrl)
    (he : e ∈ (t.world.procs p).unapplied) : e ∈ (s.world.procs p).unapplied ∨
      ∃ x, (p, .posted x) ∈ s.world.events a ∧ e.numbered = some ((s.world.procs p).posting x) := by
  obtain ⟨x, hx, -⟩ := numbered_isSome hside
  by_cases hold : s.Numbered p x e.pos
  · obtain ⟨e', he', hx'⟩ := hs.exists_entry hold
    obtain rfl := numbered_inj hx hx'
    refine .inl (he'.resolve_left fun happlied => ht.not_both hside ?_ he)
    rw [c.events, applied_append]
    exact List.mem_append_left _ happlied
  · have hnew := ht.posting (.inr he) hx
    rw [Numbered, c.events, postings_append] at hnew
    rcases eventsAt_events s.world a p with hnil | ⟨pa, ev, rfl, hone, hevents, hat⟩
    · rw [postings, postings, hnil, List.filterMap_nil, List.append_nil] at hnew
      exact (hold hnew).elim
    · rw [postings_self, hone] at hnew
      cases ev with
      | created | started | destroyed | applied =>
          simp only [List.filterMap_cons, Event.posting, List.filterMap_nil,
            List.append_nil] at hnew
          exact (hold hnew).elim
      | posted y =>
          simp only [List.filterMap_cons, Event.posting, List.filterMap_nil, numbered_snoc,
            List.mem_append, List.mem_singleton, Prod.mk.injEq] at hnew
          obtain ⟨rfl, hpos⟩ := hnew.resolve_left hold
          refine .inr ⟨x, by simp [hevents], ?_⟩
          rw [hx, hpos, ← posted_eq_countKey (hs.log p)]
          rfl

theorem ChanStep.applied (c : ChanStep s a t) (hlive : ∀ q, (t.world.procs q).halted = none)
    (he : e ∈ applied p (s.world.events a)) :
    ∃ rest, (s.world.procs p).daemon = .effects (e :: rest) := by
  rcases eventsAt_events s.world a p with hnil | ⟨pa, ev, rfl, hone, hevents, hat⟩
  · rw [Unr.Mpi.applied, hnil] at he
    exact absurd he List.not_mem_nil
  · rcases step_cases c.step with ⟨rank, pa', proc', heq, -, -, hmove, hw⟩ | ⟨heq, -⟩ | ⟨heq, -⟩
    · cases heq
      have hlive' := hlive p
      simp only [hw, Function.update_self] at hlive'
      rw [applied_self] at he
      obtain ⟨rest, hdaemon, -⟩ := hmove.applied hlive' he
      exact ⟨rest, hdaemon⟩
    · cases heq
    · cases heq

theorem ChanStep.reported (c : ChanStep s a t) (hs : s.Base) (h : s.Data) {rest : List Entry}
    (hdaemon : (t.world.procs p).daemon = .effects rest) (he : e ∈ rest) : s.Delivered p e := by
  have hset : ∀ user, t.world = s.world.setUser user → s.Delivered p e := by
    intro user hw
    refine h.reported p rest ?_ e he
    rw [hw] at hdaemon
    simp only [World.setUser] at hdaemon
    split at hdaemon <;> exact hdaemon
  rcases step_cases c.step with ⟨rank, pa, proc', rfl, -, -, hmove, hw⟩ | ⟨-, -, hw⟩ | ⟨-, -, hw⟩
  · by_cases hp : p = rank
    · subst hp
      simp only [hw, Function.update_self] at hdaemon
      rcases hmove.reported hdaemon with ⟨es, hold, hsub⟩ | ⟨done, rfl, rfl⟩
      · exact h.reported p es hold e (hsub e he)
      · have hfinished := c.finished
        simp only [MemWorld.finished, decide_eq_true_eq] at hfinished
        refine ⟨hfinished e he, fun hrecv => hs.sent_of_complete hrecv ?_⟩
        cases hmove with
        | testSome _ _ _ hdone => exact hdone e he
    · rw [hw] at hdaemon
      simp only [Function.update_of_ne hp] at hdaemon
      exact h.reported p rest hdaemon e he
  · exact hset _ hw
  · exact hset _ hw

/-- Neither the bytes nor the matching of a message are lost. -/
theorem Delivered.mono (hd : s.Delivered p e) (hsent : ∀ m x, s.Sent m x → t.Sent m x)
    (hread : ∀ m i, (s.read m i).isSome → (t.read m i).isSome)
    (hwritten : ∀ m i, s.written m i = true → t.written m i = true) : t.Delivered p e := by
  refine ⟨?_, fun hrecv => ?_⟩
  · have hbytes := hd.bytes
    unfold transferred at hbytes ⊢
    split
    · rename_i hop
      simp only [hop, decide_eq_true_eq] at hbytes ⊢
      exact fun i hi => hread _ i (hbytes i hi)
    · rename_i hop
      simp only [hop, decide_eq_true_eq] at hbytes ⊢
      exact fun i hi => hwritten _ i (hbytes i hi)
  · obtain ⟨x, hx⟩ := hd.matched hrecv
    exact ⟨x, hsent _ x hx⟩

theorem Data.chan (h : s.Data) (c : ChanStep s a t) (hs : s.Base) (ht : t.Base)
    (hlive : ∀ q, (t.world.procs q).halted = none) : t.Data := by
  have hdelivered : ∀ q e, s.Delivered q e → t.Delivered q e := fun q e hd =>
    hd.mono (fun _ _ => Base.sent_mono c.events) (fun _ _ => c.read ▸ id) fun _ _ => c.written ▸ id
  have hreported : ∀ q rest, (t.world.procs q).daemon = .effects rest → ∀ e ∈ rest,
      t.Delivered q e := fun q rest hdaemon e he => hdelivered q e (c.reported hs h hdaemon he)
  have hhand : ∀ q, ∀ e ∈ Unr.Mpi.applied q (s.world.events a), e ∈ (s.world.procs q).unapplied ∧
      s.Delivered q e := by
    intro q e he
    obtain ⟨rest, hdaemon⟩ := c.applied hlive he
    refine ⟨?_, h.reported q _ hdaemon e (List.mem_cons_self ..)⟩
    rw [Proc.unapplied, hdaemon]
    exact List.mem_append_right _ (List.mem_cons_self ..)
  -- the snapshot of a message is not taken again
  have hsnap : ∀ m x, s.Sent m x → t.snap m = s.snap m := by
    intro m x hx
    rcases c.snap m with ⟨rank, y, -, hsend, rfl, -⟩ | ⟨-, hsame⟩
    · have hkey : x.key = y.key := by
        rw [hx.2, Posting.key, hsend]
      exact (hs.not_numbered y x hkey (hsend.symm ▸ hx.1)).elim
    · exact hsame
  refine ⟨fun m i b hb => ?_, fun m i hw => ?_, fun q e he hside hsend i hi => ?_,
    fun q e he hside hrecv i hi hw => ?_, hreported, fun q e he => ?_, fun q e he => ?_⟩
  · rw [c.read] at hb
    obtain ⟨x, hx, hval⟩ := h.read m i b hb
    exact ⟨x, Base.sent_mono c.events hx, by rw [hsnap m x hx, hval]⟩
  · rw [c.written] at hw
    obtain ⟨hsome, x, hx⟩ := h.written m i hw
    exact ⟨by rwa [c.read], x, Base.expected_mono c.events hx⟩
  · rw [c.mem]
    rcases c.inHand hs ht hside he with hold | ⟨x, hx, hnum⟩
    · obtain ⟨x, hx, -⟩ := hs.sent (.inr hold) hside hsend
      rw [hsnap _ x hx]
      exact h.held q e hold hside hsend i hi
    · obtain ⟨y, hy, hop, -⟩ := numbered_isSome hside
      rw [hy, Option.some.injEq, Proc.posting, Prod.mk.injEq] at hnum
      obtain ⟨rfl, hpos⟩ := hnum
      rw [hop] at hpos
      have hmsg : e.message q = ⟨q, y.op.rank, y.op.tag,
          (s.world.procs q).posted .opSend y.op.rank y.op.tag⟩ := by
        rw [message_of_send hsend, hop, hpos, hsend]
      rcases c.snap (e.message q) with ⟨rank, z, -, -, hz, hval⟩ | ⟨hno, -⟩
      · have hrank : q = rank := congrArg Message.src (hmsg.symm.trans hz)
        rw [hval, hrank]
      · exact (hno ⟨q, y, hx, hop ▸ hsend, hmsg⟩).elim
  · rw [c.written] at hw
    rw [c.read, c.mem]
    obtain ⟨-, x, hx⟩ := h.written _ i hw
    have hold : e ∈ s.owned q → s.read (e.message q) i = some (s.mem q (e.op.addr + i)) :=
      fun hmem => h.placed q e hmem hside hrecv i hi hw
    rcases List.mem_append.mp he with he | he
    · rcases c.inHand hs ht hside he with hmem | ⟨y, -, hnum⟩
      · exact hold (List.mem_append_left _ hmem)
      · -- nothing is written for a receive that is only now posted
        obtain ⟨z, hz, hop, -⟩ := numbered_isSome hside
        rw [hz, Option.some.injEq, Proc.posting, Prod.mk.injEq] at hnum
        obtain ⟨rfl, hpos⟩ := hnum
        rw [message_of_recv hrecv] at hx
        have hkey : x.key = z.key := by
          rw [hx.2, Posting.key, hop, hrecv]
        exact (hs.not_numbered z x hkey (hpos ▸ hx.1)).elim
    · rcases (c.kept q e).mp he with ⟨hnew, -⟩ | hmem
      · exact hold (List.mem_append_left _ (hhand q e hnew).1)
      · exact hold (List.mem_append_right _ hmem)
  · rw [c.events, applied_append] at he
    rcases List.mem_append.mp he with he | he
    · exact hdelivered q e (h.done q e he)
    · exact hdelivered q e (hhand q e he).2
  · rw [c.events, applied_append]
    rcases (c.kept q e).mp he with ⟨hnew, hrecv⟩ | hmem
    · exact ⟨List.mem_append_right _ hnew, hrecv⟩
    · exact ⟨List.mem_append_left _ (h.kept q e hmem).1, (h.kept q e hmem).2⟩

end Chan

/-! ### The other steps -/

section Bytes

variable {s t : MemWorld} {m : Message} {i p : Nat} {e : Entry}

/-- The entry of a message that MPI reads is in hand. -/
theorem Data.sending (h : s.Data) (hs : s.Base) {x : Posting} (hx : s.Sent m x)
    (hi : i < countOf x.op.size) (hnone : s.read m i = none) :
    s.mem m.src (x.op.addr + i) = s.snap m (x.op.addr + i) := by
  obtain ⟨e, he, hnum⟩ := hs.exists_entry hx.1
  have hside : e.side ≠ .ctrl := by
    rintro hctrl
    simp [Entry.numbered, Entry.posting, hctrl] at hnum
  obtain ⟨y, hy, hop, -⟩ := numbered_isSome hside
  rw [hy, Option.some.injEq, Prod.mk.injEq] at hnum
  obtain ⟨rfl, hpos⟩ := hnum
  have hkey := hx.2
  rw [Posting.key, Prod.mk.injEq, Prod.mk.injEq, hop] at hkey
  obtain ⟨hsend, hrank, htag⟩ := hkey
  have hmsg : e.message m.src = m := by
    rw [message_of_send hsend, hrank, htag, hpos]
  rw [hop] at hi ⊢
  rcases he with he | he
  · have hbytes := (h.done _ e he).bytes
    simp only [transferred, hsend, decide_eq_true_eq, hmsg] at hbytes
    have hsome := hbytes i hi
    rw [hnone] at hsome
    cases hsome
  · have hheld := h.held m.src e he hside hsend i (hi.trans_le (countOf_le _))
    rwa [hmsg] at hheld

theorem Data.readByte (h : s.Data) (hs : s.Base) (hstep : s.step (.readByte m i) = some t) :
    t.Data := by
  simp only [step] at hstep
  cases hop : s.sendOp m with
  | none =>
      rw [hop] at hstep
      cases hstep
  | some op =>
      simp only [hop, Option.ite_none_right_eq_some, Option.some.injEq] at hstep
      obtain ⟨⟨hi, hnone⟩, rfl⟩ := hstep
      obtain ⟨x, hx, rfl⟩ := Base.sendOp_eq_some hop
      -- a byte that has been read before is not read again
      have hkeep : ∀ m' i' b, s.read m' i' = some b →
          Function.update s.read m (Function.update (s.read m) i
            (some (s.mem m.src (x.op.addr + i)))) m' i' = some b := by
        intro m' i' b hb
        by_cases hm : m' = m
        · subst hm
          by_cases hii : i' = i
          · subst hii
            rw [hnone] at hb
            cases hb
          · rwa [Function.update_self, Function.update_of_ne hii]
        · rwa [Function.update_of_ne hm]
      have hsome : ∀ m' i', (s.read m' i').isSome → (Function.update s.read m
          (Function.update (s.read m) i (some (s.mem m.src (x.op.addr + i)))) m' i').isSome := by
        intro m' i' hold
        obtain ⟨b, hb⟩ := Option.isSome_iff_exists.mp hold
        rw [hkeep m' i' b hb]
        rfl
      have hdelivered : ∀ q e, s.Delivered q e → Delivered { s with
          read := Function.update s.read m
            (Function.update (s.read m) i (some (s.mem m.src (x.op.addr + i)))) } q e :=
        fun q e hd => hd.mono (fun _ _ hy => hy) hsome fun _ _ hw => hw
      refine ⟨fun m' i' b hb => ?_, fun m' i' hw => ?_, h.held,
        fun q e he hside hrecv j hj hw => ?_,
        fun q rest hdaemon e he => hdelivered q e (h.reported q rest hdaemon e he),
        fun q e he => hdelivered q e (h.done q e he), h.kept⟩
      · by_cases hm : m' = m
        · subst hm
          by_cases hii : i' = i
          · subst hii
            simp only [Function.update_self, Option.some.injEq] at hb
            exact ⟨x, hx, by rw [← hb, h.sending hs hx hi hnone]⟩
          · simp only [Function.update_self, Function.update_of_ne hii] at hb
            exact h.read m' i' b hb
        · simp only [Function.update_of_ne hm] at hb
          exact h.read m' i' b hb
      · obtain ⟨hold, hexp⟩ := h.written m' i' hw
        exact ⟨hsome m' i' hold, hexp⟩
      · exact hkeep _ _ _ (h.placed q e he hside hrecv j hj hw)

/-- The buffers in use are apart from the byte that MPI writes. -/
theorem Data.writeByte (h : s.Data) (hs : s.Base) (hrule : s.undisturbed (.writeByte m i) = true)
    (hstep : s.step (.writeByte m i) = some t) : t.Data := by
  simp only [step] at hstep
  cases hop : s.recvOp m with
  | none =>
      rw [hop] at hstep
      cases hstep
  | some op =>
      cases hb : s.read m i with
      | none =>
          rw [hop, hb] at hstep
          cases hstep
      | some b =>
          simp only [hop, hb, Option.ite_none_right_eq_some, Option.some.injEq] at hstep
          obtain ⟨⟨hi, hfalse⟩, rfl⟩ := hstep
          obtain ⟨x, hx, rfl⟩ := Base.recvOp_eq_some hop
          simp only [undisturbed, hop, decide_eq_true_eq] at hrule
          have hkeep : ∀ m' i', s.written m' i' = true →
              Function.update s.written m (Function.update (s.written m) i true) m' i' = true := by
            intro m' i' hw
            by_cases hm : m' = m
            · subst hm
              by_cases hii : i' = i
              · subst hii
                rw [hfalse] at hw
                cases hw
              · rwa [Function.update_self, Function.update_of_ne hii]
            · rwa [Function.update_of_ne hm]
          have hdelivered : ∀ q e, s.Delivered q e → Delivered { s with
              mem := Function.update s.mem m.dst
                (Function.update (s.mem m.dst) (x.op.addr + i) b)
              written := Function.update s.written m (Function.update (s.written m) i true) } q e :=
            fun q e hd => hd.mono (fun _ _ hy => hy) (fun _ _ hr => hr) hkeep
          -- a buffer in use that has another byte there is that of this receive
          have hsame : ∀ q, ∀ e ∈ s.owned q, ∀ j < e.op.size,
              ¬ (e.op.op_type = .opRecv ∧ e.message q = m) →
              Function.update s.mem m.dst (Function.update (s.mem m.dst) (x.op.addr + i) b) q
                (e.op.addr + j) = s.mem q (e.op.addr + j) := by
            intro q e he j hj hne
            by_cases hq : q = m.dst
            · subst hq
              rw [Function.update_self]
              refine Function.update_of_ne (fun heq => hne (hrule e he ?_)) _ _
              rw [MpiOp.covers, ← heq]
              simpa using hj
            · rw [Function.update_of_ne hq]
          refine ⟨h.read, fun m' i' hw => ?_, fun q e he hside hsend j hj => ?_,
            fun q e he hside hrecv j hj hw => ?_,
            fun q rest hdaemon e he => hdelivered q e (h.reported q rest hdaemon e he),
            fun q e he => hdelivered q e (h.done q e he), h.kept⟩
          · by_cases hm : m' = m
            · subst hm
              by_cases hii : i' = i
              · subst hii
                exact ⟨by rw [hb]; rfl, x, hx⟩
              · simp only [Function.update_self, Function.update_of_ne hii] at hw
                exact h.written m' i' hw
            · simp only [Function.update_of_ne hm] at hw
              exact h.written m' i' hw
          · have hne : ¬ (e.op.op_type = .opRecv ∧ e.message q = m) := by
              rintro ⟨hrecv, -⟩
              rw [hsend] at hrecv
              cases hrecv
            dsimp only
            rw [hsame q e (List.mem_append_left _ he) j hj hne]
            exact h.held q e he hside hsend j hj
          · by_cases hm : e.message q = m
            · -- the bytes of this receive are in order
              have happlied : e ∈ applied q s.events ∨ e ∈ (s.world.procs q).unapplied := by
                rcases List.mem_append.mp he with he | he
                · exact .inr he
                · exact .inl (h.kept q e he).1
              obtain ⟨y, hy, hop', -⟩ := hs.expected happlied hside hrecv
              rw [hm] at hy
              obtain rfl := Base.expected_unique hx hy
              have hq : q = m.dst := by
                rw [← hm, message_of_recv hrecv]
              rw [hm]
              dsimp only
              by_cases hji : j = i
              · subst hji
                rw [hb, hq, ← hop', Function.update_self, Function.update_self]
              · have hne : e.op.addr + j ≠ x.op.addr + i := by
                  rw [hop']
                  omega
                simp only [hm, Function.update_self, Function.update_of_ne hji] at hw
                have hold := h.placed q e he hside hrecv j hj (by rwa [hm])
                rw [hm] at hold
                rw [hold, hq, Function.update_self, Function.update_of_ne hne]
            · simp only [Function.update_of_ne hm] at hw
              dsimp only
              rw [hsame q e he j hj fun hrecv => hm hrecv.2]
              exact h.placed q e he hside hrecv j hj hw

theorem Data.env (h : s.Data) {mem : Nat → UInt8} {flags : Nat → UruFlag}
    (hrule : s.undisturbed (.env p mem flags) = true) (hstep : s.step (.env p mem flags) = some t) :
    t.Data := by
  cases hstep
  simp only [undisturbed, decide_eq_true_eq] at hrule
  have hunapplied : ∀ q, ((setFlags s.world p flags).procs q).unapplied =
      (s.world.procs q).unapplied := setFlags_same (fun proc => proc.unapplied) fun _ _ => rfl
  have hdaemon : ∀ q, ((setFlags s.world p flags).procs q).daemon =
      (s.world.procs q).daemon := setFlags_same (fun proc => proc.daemon) fun _ _ => rfl
  have hsame : ∀ q, ∀ e ∈ s.owned q, ∀ i < e.op.size,
      Function.update s.mem p mem q (e.op.addr + i) = s.mem q (e.op.addr + i) := by
    intro q e he i hi
    by_cases hq : q = p
    · subst hq
      rw [Function.update_self]
      exact hrule e he i hi
    · rw [Function.update_of_ne hq]
  refine ⟨h.read, h.written, fun q e he hside hsend i hi => ?_,
    fun q e he hside hrecv i hi hw => ?_, fun q rest hrest e he => ?_, fun q e he => ?_, h.kept⟩
  · rw [hunapplied] at he
    dsimp only
    rw [hsame q e (List.mem_append_left _ he) i hi]
    exact h.held q e he hside hsend i hi
  · have he' : e ∈ s.owned q := by
      rwa [owned, ← hunapplied q]
    dsimp only
    rw [hsame q e he' i hi]
    exact h.placed q e he' hside hrecv i hi hw
  · rw [hdaemon] at hrest
    exact (h.reported q rest hrest e he).mono (fun _ _ => id) (fun _ _ => id) fun _ _ => id
  · exact (h.done q e he).mono (fun _ _ => id) (fun _ _ => id) fun _ _ => id

theorem Data.take (h : s.Data) (hstep : s.step (.take p e) = some t) : t.Data := by
  cases hstep
  have hsub : ∀ q, ∀ e' ∈ Function.update s.kept p ((s.kept p).erase e) q, e' ∈ s.kept q := by
    intro q e' he'
    by_cases hq : q = p
    · subst hq
      rw [Function.update_self] at he'
      exact List.mem_of_mem_erase he'
    · rwa [Function.update_of_ne hq] at he'
  refine ⟨h.read, h.written, h.held, fun q e' he' => h.placed q e' ?_,
    fun q rest hrest e' he' =>
      (h.reported q rest hrest e' he').mono (fun _ _ => id) (fun _ _ => id) fun _ _ => id,
    fun q e' he' => (h.done q e' he').mono (fun _ _ => id) (fun _ _ => id) fun _ _ => id,
    fun q e' he' => h.kept q e' (hsub q e' he')⟩
  exact List.mem_append.mpr ((List.mem_append.mp he').imp id (hsub q e'))

end Bytes

/-! ### Runs -/

section Runs

variable {size : Nat} {flags : Nat → Nat → UruFlag} {mem : Nat → Nat → UInt8} {s : MemWorld}

theorem Base.init : (init size flags mem).Base where
  world := World.Inv.init size flags
  issued p := Issued.init (flags p)
  sound := World.Sound.init size flags
  log _ := rfl
  entries _ := List.Perm.refl _
  ctrl _ _ he := absurd he List.not_mem_nil

theorem Data.init : (init size flags mem).Data where
  read _ _ _ h := by cases h
  written _ _ h := by cases h
  held _ _ he := absurd he List.not_mem_nil
  placed _ _ he := absurd he List.not_mem_nil
  reported _ _ h := by cases h
  done _ _ he := absurd he List.not_mem_nil
  kept _ _ he := absurd he List.not_mem_nil

theorem step_world {s t : MemWorld} {a : MemAct} (hstep : s.step a = some t) :
    (∃ a, s.world.step a = some t.world) ∨ t.world = s.world ∨
      ∃ p flags, t.world = setFlags s.world p flags := by
  cases a with
  | chan a => exact .inl ⟨a, (chanStep hstep).step⟩
  | readByte m i =>
      simp only [step] at hstep
      split at hstep
      · simp only [Option.ite_none_right_eq_some, Option.some.injEq] at hstep
        obtain ⟨-, rfl⟩ := hstep
        exact .inr (.inl rfl)
      · cases hstep
  | writeByte m i =>
      simp only [step] at hstep
      split at hstep
      · simp only [Option.ite_none_right_eq_some, Option.some.injEq] at hstep
        obtain ⟨-, rfl⟩ := hstep
        exact .inr (.inl rfl)
      · cases hstep
  | env p mem flags =>
      cases hstep
      exact .inr (.inr ⟨p, flags, rfl⟩)
  | take p e =>
      cases hstep
      exact .inr (.inl rfl)

theorem outside_run {C : MemWorld → MemAct → Prop} (hrun : Run step C (init size flags mem) s) :
    s.world.size = size ∧ ∀ p, size ≤ p → (s.world.procs p).halted = none := by
  refine hrun.invariant (I := fun s => s.world.size = size ∧
    ∀ p, size ≤ p → (s.world.procs p).halted = none) ⟨rfl, fun _ _ => rfl⟩ ?_
  rintro s a t - ⟨hsize, hout⟩ - hstep
  rcases step_world hstep with ⟨a, hw⟩ | hw | ⟨p, fl, hw⟩
  · refine ⟨(World.size_step hw).trans hsize, fun p hp => ?_⟩
    rcases step_cases hw with ⟨rank, pa, proc', -, hrank, -, -, heq⟩ | ⟨-, -, heq⟩ | ⟨-, -, heq⟩
    · have hne : p ≠ rank := by omega
      simp only [heq, Function.update_of_ne hne]
      exact hout p hp
    · simp only [heq, World.setUser, show ¬ p < s.world.size by omega, if_false]
      exact hout p hp
    · simp only [heq, World.setUser, show ¬ p < s.world.size by omega, if_false]
      exact hout p hp
  · rw [hw]
    exact ⟨hsize, hout⟩
  · rw [hw]
    refine ⟨hsize, fun q hq => ?_⟩
    rw [setFlags_same (fun proc => proc.halted) fun _ _ => rfl]
    exact hout q hq

theorem live_of_step {s t : MemWorld} {a : MemAct} (hstep : s.step a = some t) {p : Nat}
    (hlive : (t.world.procs p).halted = none) : (s.world.procs p).halted = none := by
  rcases step_world hstep with ⟨a, hw⟩ | hw | ⟨q, fl, hw⟩
  · exact Unr.Mpi.live_of_step hw hlive
  · rwa [← hw]
  · rwa [hw, setFlags_same (fun proc => proc.halted) fun _ _ => rfl] at hlive

theorem run (hrun : Run step (fun s a => s.undisturbed a = true) (init size flags mem) s)
    (hlive : ∀ p < size, (s.world.procs p).halted = none) : s.Base ∧ s.Data := by
  have hall : ∀ p, (s.world.procs p).halted = none := fun p =>
    (Nat.lt_or_ge p size).elim (hlive p) ((outside_run hrun).2 p)
  refine hrun.invariant (I := fun s => (∀ p, (s.world.procs p).halted = none) → s.Base ∧ s.Data)
    (fun _ => ⟨Base.init, Data.init⟩) (fun s a t _ ih hrule hstep hlive => ?_) hall
  obtain ⟨hs, h⟩ := ih fun p => live_of_step hstep (hlive p)
  cases a with
  | chan a =>
      have c := chanStep hstep
      have ht := hs.chan c.step hlive c.events
      exact ⟨ht, h.chan c hs ht hlive⟩
  | readByte m i =>
      refine ⟨?_, h.readByte hs hstep⟩
      simp only [step] at hstep
      split at hstep
      · simp only [Option.ite_none_right_eq_some, Option.some.injEq] at hstep
        obtain ⟨-, rfl⟩ := hstep
        exact ⟨hs.world, hs.issued, hs.sound, hs.log, hs.entries, hs.ctrl⟩
      · cases hstep
  | writeByte m i =>
      refine ⟨?_, h.writeByte hs hrule hstep⟩
      simp only [step] at hstep
      split at hstep
      · simp only [Option.ite_none_right_eq_some, Option.some.injEq] at hstep
        obtain ⟨-, rfl⟩ := hstep
        exact ⟨hs.world, hs.issued, hs.sound, hs.log, hs.entries, hs.ctrl⟩
      · cases hstep
  | env p mem flags =>
      refine ⟨?_, h.env hrule hstep⟩
      cases hstep
      exact hs.env rfl rfl
  | take p e =>
      refine ⟨?_, h.take hstep⟩
      cases hstep
      exact ⟨hs.world, hs.issued, hs.sound, hs.log, hs.entries, hs.ctrl⟩

end Runs

end MemWorld

/-! ### What a completed receive has -/

theorem World.Inv.matched {w : World} (h : w.Inv) {p q tag : Nat} (hpq : p ≠ q) {s r : Post}
    (hmatched : w.Matched p q tag s r) : s.write = r.write := by
  obtain ⟨k, hs, hr⟩ := hmatched
  obtain ⟨hmem, hsel⟩ := List.mem_filter.mp (List.mem_of_getElem? hs)
  obtain ⟨-, hrank, htag⟩ := of_decide_eq_true hsel
  cases hown : s.own with
  | true =>
      have hmod := ((h.ini p).own s hmem hown).2
      exact h.same_write hpq (htag ▸ hmod) .opSend hs hr
  | false =>
      obtain ⟨hinitiator, hmod⟩ := h.peer_post hmem hown
      have htag' : tag % w.size = q := by
        rw [← htag, hmod, ← hinitiator, hrank]
      exact (h.same_write (Ne.symm hpq) htag' .opRecv hr hs).symm

namespace MemWorld

variable {s : MemWorld}

theorem Base.posts (hs : s.Base) {p k : Nat} {x : Posting} (hx : s.Numbered p x k)
    {op_type : OpType}
    {rank tag : Nat} (hkey : x.key = (op_type, rank, tag)) :
    ((s.world.procs p).posts op_type rank tag)[k]? = some x.post := by
  have hget := mem_numbered.mp hx
  rw [Proc.posts, hs.log p, List.filter_map, List.getElem?_map]
  have hfilter : (postings p s.events).filter ((fun x : Post => decide (x.op_type = op_type ∧
      x.rank = rank ∧ x.tag = tag)) ∘ Posting.post) =
      (postings p s.events).filter fun y => y.key = x.key := by
    refine List.filter_congr fun y _ => ?_
    simp only [Function.comp_apply, decide_eq_decide, hkey]
    simp only [Posting.post, Posting.key, Prod.mk.injEq]
  rw [hfilter, hget]
  rfl

/-- The two operations of a message are the two ends of one transfer that a
plan asks for. -/
theorem Base.transfer (hs : s.Base) {m : Message} (hpq : m.src ≠ m.dst) {x y : Posting}
    (hx : s.Sent m x) (hy : s.Expected m y) :
    ∃ wr, WriteAt (eventsAt y.write.initiator s.events) y.write.plan y.write.index wr ∧
      wr.transfer y.write.initiator = (⟨m.src, x.op.data⟩, ⟨m.dst, y.op.data⟩) := by
  have hmem : ∀ {p k} {z : Posting}, s.Numbered p z k → z ∈ postings p s.events := by
    intro p k z hz
    have hfst := List.mem_map_of_mem (f := Prod.fst) hz
    rwa [numbered_map_fst] at hfst
  have hxpost := hs.sound.posted _ x (hmem hx.1)
  have hypost := hs.sound.posted _ y (hmem hy.1)
  have hxposts := hs.posts hx.1 hx.2
  have hyposts := hs.posts hy.1 hy.2
  have hwrite : x.write = y.write := hs.world.matched hpq ⟨m.pos, hxposts, hyposts⟩
  have hxlog := (List.mem_filter.mp (List.mem_of_getElem? hxposts)).1
  have hylog := (List.mem_filter.mp (List.mem_of_getElem? hyposts)).1
  have hxkey := hx.2
  have hykey := hy.2
  rw [Posting.key, Prod.mk.injEq, Prod.mk.injEq] at hxkey hykey
  obtain ⟨hxtype, hxrank, -⟩ := hxkey
  obtain ⟨hytype, hyrank, -⟩ := hykey
  have hplan : x.op.plan = y.op.plan := by
    rw [← hxpost.plan, ← hypost.plan, hwrite]
  have hindex : x.op.index = y.op.index := by
    rw [← hxpost.index, ← hypost.index, hwrite]
  rw [hypost.plan, hypost.index]
  cases hown : y.own with
  | true =>
      -- the receiver has asked for the transfer
      obtain ⟨hini, wr, hat, hdata⟩ := hypost.own hown
      have hxown : x.own = false := by
        cases hxown : x.own with
        | false => rfl
        | true => exact (hpq (by rw [← (hxpost.own hxown).1, hwrite, hini])).elim
      obtain ⟨wr', hat', hdata'⟩ := hxpost.peer hxown
      rw [hwrite, hini, hplan, hindex] at hat'
      obtain rfl := (hs.issued m.dst).writeAt_unique hat hat'
      have hpeer : wr.peerData m.dst = x.op.data := by
        rw [hwrite, hini] at hdata'
        rw [← hdata', ← hxrank]
      have htype : wr.ownData.op_type ≠ .opSend := by
        rw [← hdata, show y.op.data.op_type = y.op.op_type from rfl, hytype]
        decide
      have hrank : wr.rmt_mem.rank = m.src := (congrArg OpData.rank hdata).symm.trans hyrank
      refine ⟨wr, hini ▸ hat, ?_⟩
      rw [Write.transfer, hini, inOrder, if_neg htype, hrank, hpeer, hdata]
  | false =>
      -- the sender has announced it
      have hini : y.write.initiator = m.src := (hs.world.peer_post hylog hown).1.symm.trans hyrank
      have hxown : x.own = true := by
        cases hxown : x.own with
        | true => rfl
        | false =>
            have hxini := (hs.world.peer_post hxlog hxown).1.symm.trans hxrank
            exact (hpq (by rw [← hini, ← hwrite]; exact hxini)).elim
      obtain ⟨-, wr, hat, hdata⟩ := hxpost.own hxown
      obtain ⟨wr', hat', hdata'⟩ := hypost.peer hown
      rw [hini] at hat' hdata'
      rw [hplan, hindex] at hat
      obtain rfl := (hs.issued m.src).writeAt_unique hat hat'
      have hpeer : wr.peerData m.src = y.op.data := by
        rw [← hdata', ← hyrank]
      have htype : wr.ownData.op_type = .opSend := by
        rw [← hdata]
        exact hxtype
      have hrank : wr.rmt_mem.rank = m.dst := (congrArg OpData.rank hdata).symm.trans hxrank
      refine ⟨wr, hini ▸ hat, ?_⟩
      rw [Write.transfer, hini, inOrder, if_pos htype, hrank, hpeer, hdata]

theorem transfer_size (wr : Write) (initiator : Nat) :
    (wr.transfer initiator).2.op.size = wr.dma_size := by
  rw [Write.transfer, inOrder]
  split <;> rfl

/-- A receive from another process that is complete belongs to a write of a
plan and has its data in place. -/
theorem Data.in_place (h : s.Data) (hs : s.Base) {q : Nat} {e : Entry} (hside : e.side ≠ .ctrl)
    (hrecv : e.op.op_type = .opRecv) (hpq : e.op.rank ≠ q)
    (hdone : (∃ rest, (s.world.procs q).daemon = .effects rest ∧ e ∈ rest) ∨ e ∈ s.kept q) :
    ∃ wr, WriteAt (eventsAt e.write.initiator s.events) e.write.plan e.write.index wr ∧
      (wr.transfer e.write.initiator).1.process = e.op.rank ∧
      (wr.transfer e.write.initiator).2 = ⟨q, e.op.data⟩ ∧
      ∀ i < countOf wr.dma_size, s.mem q (e.op.addr + i) =
        s.snap (e.message q) ((wr.transfer e.write.initiator).1.op.addr + i) := by
  have howned : e ∈ s.owned q ∧ (e ∈ applied q s.events ∨ e ∈ (s.world.procs q).unapplied) ∧
      s.Delivered q e := by
    rcases hdone with ⟨rest, hdaemon, he⟩ | he
    · have hmem : e ∈ (s.world.procs q).unapplied := by
        rw [Proc.unapplied, hdaemon]
        exact List.mem_append_right _ he
      exact ⟨List.mem_append_left _ hmem, .inr hmem, h.reported q rest hdaemon e he⟩
    · have hmem := (h.kept q e he).1
      exact ⟨List.mem_append_right _ he, .inl hmem, h.done q e hmem⟩
  obtain ⟨hmem, happlied, hdel⟩ := howned
  obtain ⟨y, hy, hyop, hywrite, -⟩ := hs.expected happlied hside hrecv
  obtain ⟨x, hx⟩ := hdel.matched hrecv
  have hends : (e.message q).src = e.op.rank ∧ (e.message q).dst = q := by
    rw [message_of_recv hrecv]
    exact ⟨rfl, rfl⟩
  obtain ⟨wr, hat, htransfer⟩ := hs.transfer (by rwa [hends.1, hends.2]) hx hy
  rw [hends.1, hends.2, hyop, hywrite] at htransfer
  rw [hywrite] at hat
  refine ⟨wr, hat, by rw [htransfer], by rw [htransfer], fun i hi => ?_⟩
  have hsize : wr.dma_size = e.op.size := by
    rw [← transfer_size wr e.write.initiator, htransfer]
    rfl
  rw [hsize] at hi
  have hwritten := hdel.bytes
  simp only [transferred, hrecv, decide_eq_true_eq] at hwritten
  obtain ⟨x', hx', hval⟩ := h.read _ i _ (h.placed q e hmem hside hrecv i
    (hi.trans_le (countOf_le _)) (hwritten i hi))
  rw [hval, Base.sent_unique hx' hx, htransfer]
  rfl

/-- Whatever else happens to the memory and the flags of the processes, as long
as the buffers in use are left alone: a receive from another process that MPI
has reported as complete belongs to a write of a plan, and every byte of its
destination that its count covers is what the source of the write held when the
send was posted. -/
theorem received_in_place {size : Nat} {flags : Nat → Nat → UruFlag} {mem : Nat → Nat → UInt8}
    (hrun : Run step (fun s a => s.undisturbed a = true) (init size flags mem) s)
    (hlive : ∀ p < size, (s.world.procs p).halted = none) {q : Nat} {e : Entry}
    (hside : e.side ≠ .ctrl)
    (hrecv : e.op.op_type = .opRecv) (hpq : e.op.rank ≠ q)
    (hdone : (∃ rest, (s.world.procs q).daemon = .effects rest ∧ e ∈ rest) ∨ e ∈ s.kept q) :
    ∃ wr, WriteAt (eventsAt e.write.initiator s.events) e.write.plan e.write.index wr ∧
      (wr.transfer e.write.initiator).1.process = e.op.rank ∧
      (wr.transfer e.write.initiator).2 = ⟨q, e.op.data⟩ ∧
      ∀ i < countOf wr.dma_size, s.mem q (e.op.addr + i) =
        s.snap (e.message q) ((wr.transfer e.write.initiator).1.op.addr + i) := by
  obtain ⟨hs, h⟩ := run hrun hlive
  exact h.in_place hs hside hrecv hpq hdone

def after (size : Nat) (mem : Nat → Nat → UInt8) (acts : List MemAct) : MemWorld :=
  (exec step undisturbed (init size (fun _ _ => ⟨0, none, 0, 0⟩) mem) acts).getD
    (init size (fun _ _ => ⟨0, none, 0, 0⟩) mem)

theorem run_after {size : Nat} {mem : Nat → Nat → UInt8} {acts : List MemAct}
    (h : (exec step undisturbed (init size (fun _ _ => ⟨0, none, 0, 0⟩) mem) acts).isSome = true) :
    Run step (fun s a => s.undisturbed a = true) (init size (fun _ _ => ⟨0, none, 0, 0⟩) mem)
      (after size mem acts) := by
  obtain ⟨s, hs⟩ := Option.isSome_iff_exists.mp h
  rw [after, hs]
  exact Run.of_exec hs

/-- Process 0 puts 8 bytes to process 1, MPI moves them, and the daemon of
process 1 is told that the receive is complete. -/
def putMoved : MemWorld :=
  after 2 (fun p addr => UInt8.ofNat (100 * p + addr))
    (putRun.map .chan ++ (List.range 8).map (.readByte ⟨0, 1, 2, 0⟩) ++
      (List.range 8).map (.writeByte ⟨0, 1, 2, 0⟩) ++
      [.chan (.proc 1 .daemonStep), .chan (.proc 1 (.testSome [true]))])

def putEntry : Entry where
  op := { (sampleWrite .dmaPut 0 1).recvOp freeOp 0 0 2 with rank := 0 }
  side := .peer
  write := ⟨0, 0, 0, 0⟩
  pos := 0

theorem received_in_place_put : (putMoved.world.procs 1).daemon = .effects [putEntry] ∧
    ∃ wr : Write, (wr.transfer 0).2 = ⟨1, putEntry.op.data⟩ ∧ ∀ i < 8,
      putMoved.mem 1 (64 + i) = putMoved.snap ⟨0, 1, 2, 0⟩ ((wr.transfer 0).1.op.addr + i) := by
  have hdaemon : (putMoved.world.procs 1).daemon = .effects [putEntry] := by decide +kernel
  have hlive : ∀ p < 2, (putMoved.world.procs p).halted = none := by decide +kernel
  obtain ⟨wr, -, -, hend, hbytes⟩ := received_in_place (run_after (by decide +kernel)) hlive
    (q := 1) (e := putEntry) (by decide) rfl (by decide)
    (.inl ⟨_, hdaemon, List.mem_singleton_self _⟩)
  have hsize : wr.dma_size = 8 := by
    rw [← transfer_size wr putEntry.write.initiator, hend]
    rfl
  rw [countOf_of_lt (by omega), hsize] at hbytes
  exact ⟨hdaemon, wr, hend, hbytes⟩

end MemWorld

end Unr.Mpi
