import Unr.Verbs.Notify

/-!
The verbs channel together with the memory of the processes.

A NIC moves the data of a posted request byte by byte: it reads a byte of the
source at any time between the post and the completion, and writes it into the
target at any later time before the request is executed. The data of an inline
request are read by `ibv_post_send` itself. Everything else that a process has
may change its memory between any two steps.

The source of a request is in use until it is executed, unless it is inline;
its target is in use until it is taken back, which is up to the user.
-/

namespace Unr.Verbs

open Unr.Uru
open Unr.Logic
open Unr.Mpi (MemInfo Write)

/-! ### The ends of a transfer -/

structure Place where
  rank : Nat
  addr : Nat
  deriving Repr, DecidableEq

def Job.length (job : Job) : Nat := (job.pr.wr.sg_list.map (·.length.toNat)).getD 0

def Job.local (job : Job) : Place := ⟨job.initiator, (job.pr.wr.sg_list.map (·.addr)).getD 0⟩

def Job.remote (job : Job) : Place := ⟨job.pr.dst_rank, job.pr.wr.remote_addr⟩

def Job.source (job : Job) : Place :=
  if job.pr.wr.opcode = .rdmaRead then job.remote else job.local

def Job.target (job : Job) : Place :=
  if job.pr.wr.opcode = .rdmaRead then job.local else job.remote

/-- Where a write of process `rank` puts its data. -/
def targetOf (rank : Nat) (w : Write) : Place :=
  if w.dma_type = .dmaGet then ⟨rank, w.loc_mem.addr + w.loc_offset⟩
  else ⟨w.rmt_mem.rank, w.rmt_mem.addr + w.rmt_offset⟩

/-- The posted requests of writes that have not been executed. -/
def World.pending (w : World) : List Job := (w.sq.filter fun wqe => !wqe.note).map (·.job)

/-! ### The memory -/

structure MemWorld where
  world : World
  mem : Nat → Nat → UInt8
  /-- The bytes that a NIC has read from the source. -/
  read : Job → Nat → Option UInt8
  /-- The bytes that a NIC has written into the target. -/
  written : Job → Nat → Bool
  /-- Ghost: the source when the request was posted. -/
  snap : Job → Nat → UInt8
  /-- Ghost: the jobs whose target has been taken back. -/
  taken : List Job

/-- A step of the channel, of the NICs, or of the rest of a process. -/
inductive MemAct
  | chan (a : Act)
  | readByte (job : Job) (k : Nat)
  | writeByte (job : Job) (k : Nat)
  /-- The memory of a process changes. -/
  | env (p : Nat) (mem : Nat → UInt8)
  /-- The user takes back the target of a job. -/
  | take (job : Job)

/-- The writes that are handed to process `rank` satisfy `R rank`. -/
def MemAct.Creates (R : Nat → Write → Prop) : MemAct → Prop
  | .chan a => a.Creates R
  | _ => True

namespace MemWorld

def byte (s : MemWorld) (place : Place) (k : Nat) : UInt8 := s.mem place.rank (place.addr + k)

/-- Only a request whose data have been moved is executed. -/
def moved (s : MemWorld) : Act → Bool
  | .execute i =>
      match s.world.sq[i]? with
      | some wqe =>
          wqe.note || s.world.broken.contains (wqe.src, wqe.dst) || decide (s.world.misses wqe) ||
            decide (∀ k < wqe.job.length, s.written wqe.job k = true)
      | none => true
  | _ => true

def advance (s : MemWorld) (w : World) : MemWorld :=
  let posted := w.started.drop s.world.started.length
  { s with
    world := w
    read := fun job k =>
      if job ∈ posted ∧ job.pr.wr.inline = true then some (s.byte job.source k) else s.read job k
    snap := fun job k => if job ∈ posted then s.byte job.source k else s.snap job k }

def step (s : MemWorld) : MemAct → Option MemWorld
  | .chan a => if s.moved a then (s.world.step a).map s.advance else none
  | .readByte job k =>
      if job ∈ s.world.pending ∧ k < job.length ∧ s.read job k = none then
        some { s with
          read := Function.update s.read job
            (Function.update (s.read job) k (some (s.byte job.source k))) }
      else none
  | .writeByte job k =>
      match s.read job k with
      | some b =>
          if job ∈ s.world.pending ∧ k < job.length ∧ s.written job k = false then
            some { s with
              mem := Function.update s.mem job.target.rank
                (Function.update (s.mem job.target.rank) (job.target.addr + k) b)
              written := Function.update s.written job (Function.update (s.written job) k true) }
          else none
      | none => none
  | .env p mem => some { s with mem := Function.update s.mem p mem }
  | .take job => some { s with taken := job :: s.taken }

def reading (s : MemWorld) : List Job := s.world.pending.filter fun job => !job.pr.wr.inline

def writing (s : MemWorld) : List Job :=
  s.world.pending ++ s.world.placed.filter fun job => job ∉ s.taken

/-- Whether a byte is among the bytes of a job behind an address. -/
def covers (place : Place) (job : Job) (rank addr : Nat) : Bool :=
  decide (place.rank = rank ∧ place.addr ≤ addr ∧ addr < place.addr + job.length)

/-- A source in use is not written, and a target in use is written for its own
request only. -/
def undisturbed (s : MemWorld) : MemAct → Bool
  | .env p mem =>
      decide (∀ job ∈ s.reading, job.source.rank = p → ∀ k < job.length,
        mem (job.source.addr + k) = s.byte job.source k) &&
      decide (∀ job ∈ s.writing, job.target.rank = p → ∀ k < job.length,
        mem (job.target.addr + k) = s.byte job.target k)
  | .writeByte job k =>
      decide (∀ job' ∈ s.reading,
        covers job'.source job' job.target.rank (job.target.addr + k) = false) &&
      decide (∀ job' ∈ s.writing, job' ≠ job →
        covers job'.target job' job.target.rank (job.target.addr + k) = false)
  | .chan _ | .readByte _ _ | .take _ => true

def init (size : Nat) (flag_pool : FlagPool) (lkey rkey : MemInfo → BitVec 32)
    (dev_attr : Nat → IbvDeviceAttr) (flags : Nat → Nat → UruFlag) (mem : Nat → Nat → UInt8) :
    MemWorld where
  world := .init size flag_pool lkey rkey dev_attr flags
  mem := mem
  read := fun _ _ => none
  written := fun _ _ => false
  snap := fun _ _ => 0
  taken := []

end MemWorld

/-! ### What a step of the channel does to the transfers -/

section Transfer

variable {w w' : World} {a : Act} {c d : Multiset Item}

theorem World.mem_pending {job : Job} :
    job ∈ w.pending ↔ ∃ wqe ∈ w.sq, wqe.note = false ∧ wqe.job = job := by
  simp [pending, and_assoc]

theorem World.pending_erase {i : Nat} : { w with sq := w.sq.eraseIdx i }.pending ⊆ w.pending := by
  intro job hjob
  obtain ⟨wqe, hwqe, hnote, rfl⟩ := mem_pending.mp hjob
  exact mem_pending.mpr ⟨wqe, List.mem_of_mem_eraseIdx hwqe, hnote, rfl⟩

/-- The transfers before and after a step: nothing is started or executed, or
one request is posted, or one is executed. -/
inductive Transfers (w : World) (a : Act) (w' : World) : Prop
  | same (started : w'.started = w.started) (placed : w'.placed = w.placed)
      (pending : w'.pending ⊆ w.pending)
  | post (job : Job) (number : job.number = (w.procs job.initiator).next_job)
      (started : w'.started = w.started ++ [job]) (placed : w'.placed = w.placed)
      (pending : w'.pending = w.pending ++ [job])
  | execute (i : Nat) (wqe : Wqe) (act : a = .execute i) (queued : w.sq[i]? = some wqe)
      (note : wqe.note = false) (hits : ¬ ((wqe.src, wqe.dst) ∈ w.broken ∨ w.misses wqe))
      (started : w'.started = w.started) (placed : w'.placed = w.placed ++ [wqe.job])
      (pending : w'.pending ⊆ w.pending)

/-- An executed request of a write, and one that notifies. -/
theorem transfers_of_execute {i : Nat} {wqe : Wqe} (hi : w.sq[i]? = some wqe)
    (hstep : w.step (.execute i) = some w') : Transfers w (.execute i) w' := by
  simp only [World.step, hi, Option.map_some, Option.some.injEq] at hstep
  subst hstep
  by_cases hmiss : (wqe.src, wqe.dst) ∈ w.broken ∨ w.misses wqe
  · rw [World.execute_of_miss hmiss]
    exact .same rfl rfl World.pending_erase
  · have hexec : (w.execute i wqe).started = w.started ∧
        (w.execute i wqe).placed = (if wqe.note then w.placed else w.placed ++ [wqe.job]) ∧
        (w.execute i wqe).pending = { w with sq := w.sq.eraseIdx i }.pending := by
      by_cases himm : wqe.wr.opcode = .rdmaWriteWithImm
      · have hhit := not_or.mp hmiss
        rw [World.execute_of_receive hhit.1 himm fun hsrq => hhit.2 ⟨himm, hsrq⟩]
        exact ⟨rfl, rfl, rfl⟩
      · have hexecute : w.execute i wqe = _ := (if_neg hmiss).trans (if_neg himm)
        rw [hexecute]
        exact ⟨rfl, rfl, rfl⟩
    obtain ⟨hstarted, hplaced, hpending⟩ := hexec
    have hsub := hpending ▸ World.pending_erase (w := w) (i := i)
    cases hnote : wqe.note with
    | true => exact .same hstarted (by simpa [hnote] using hplaced) hsub
    | false =>
        exact .execute i wqe rfl hi hnote hmiss hstarted (by simpa [hnote] using hplaced) hsub

theorem transfers_of_step (hstep : w.step a = some w') : Transfers w a w' := by
  obtain ⟨c, d, hmove⟩ := move_of_step hstep
  cases hmove with
  | halt | create | destroy | start | goto | submit | poll | repost | handle =>
      exact .same rfl rfl (List.Subset.refl _)
  | complete | silent => exact .same rfl rfl (List.Subset.refl _)
  | @post rank plan timeout entry =>
      refine .post (w.newJob rank entry) rfl rfl rfl ?_
      simp [World.pending, World.postWrite, World.setProc, List.filter_append]
  | notify =>
      refine .same rfl rfl ?_
      simp [World.pending, World.postNote, World.setProc, List.filter_append]
  | fail hi | arrive hi | execute hi => exact transfers_of_execute hi hstep

end Transfer

/-! ### The invariant -/

namespace MemWorld

/-- What has been read is what the source held when the request was posted, and
what has been written is that, too. -/
structure Sound (s : MemWorld) : Prop where
  fresh : ∀ job ∉ s.world.started, ∀ k, s.read job k = none ∧ s.written job k = false
  read : ∀ job ∈ s.world.pending, ∀ k < job.length, ∀ b, s.read job k = some b → b = s.snap job k
  inline : ∀ job ∈ s.world.pending, job.pr.wr.inline = true → ∀ k, s.read job k ≠ none
  source : ∀ job ∈ s.reading, ∀ k < job.length, s.byte job.source k = s.snap job k
  target : ∀ job ∈ s.writing, ∀ k < job.length, s.written job k = true →
    s.byte job.target k = s.snap job k
  placed : ∀ job ∈ s.world.placed, ∀ k < job.length, s.written job k = true

/-- What the channel guarantees for a state. -/
structure Known (s : MemWorld) : Prop where
  pending : s.world.pending ⊆ s.world.started
  placed : s.world.placed ⊆ s.world.started
  numbered : ∀ job ∈ s.world.started, job.number < (s.world.procs job.initiator).next_job

variable {s s' : MemWorld} {job : Job}

theorem mem_reading : job ∈ s.reading ↔ job ∈ s.world.pending ∧ job.pr.wr.inline = false := by
  simp [reading]

theorem mem_writing :
    job ∈ s.writing ↔ job ∈ s.world.pending ∨ job ∈ s.world.placed ∧ job ∉ s.taken := by
  simp [writing]

@[simp] theorem advance_of_same {w : World} (h : w.started = s.world.started) :
    s.advance w = { s with world := w } := by
  simp [advance, h]

theorem advance_of_post {w : World} (h : w.started = s.world.started ++ [job]) :
    s.advance w = { s with
      world := w
      read := fun job' k =>
        if job' = job ∧ job'.pr.wr.inline = true then some (s.byte job'.source k)
        else s.read job' k
      snap := fun job' k => if job' = job then s.byte job'.source k else s.snap job' k } := by
  simp [advance, h]

theorem Sound.advance (h : s.Sound) (hknown : s.Known) {a : Act} {w : World}
    (hmoved : s.moved a = true) (hstep : s.world.step a = some w) : (s.advance w).Sound := by
  cases transfers_of_step hstep with
  | same started placed pending =>
      rw [advance_of_same started]
      refine ⟨started ▸ h.fresh, fun job hjob => h.read job (pending hjob),
        fun job hjob => h.inline job (pending hjob), fun job hjob => h.source job ?_,
        fun job hjob => h.target job ?_, placed ▸ h.placed⟩
      · exact mem_reading.mpr ⟨pending (mem_reading.mp hjob).1, (mem_reading.mp hjob).2⟩
      · obtain hjob | hjob := mem_writing.mp hjob
        · exact mem_writing.mpr (.inl (pending hjob))
        · exact mem_writing.mpr (.inr (placed ▸ hjob))
  | execute i wqe act queued note hits started placed pending =>
      rw [advance_of_same started]
      have hqueued : wqe.job ∈ s.world.pending :=
        World.mem_pending.mpr ⟨wqe, List.mem_of_getElem? queued, note, rfl⟩
      -- its data have been moved
      have hdata : ∀ k < wqe.job.length, s.written wqe.job k = true := by
        subst act
        simpa [moved, queued, note, hits] using hmoved
      refine ⟨started ▸ h.fresh, fun job hjob => h.read job (pending hjob),
        fun job hjob => h.inline job (pending hjob), fun job hjob => h.source job ?_,
        fun job hjob => h.target job ?_, fun job hjob => ?_⟩
      · exact mem_reading.mpr ⟨pending (mem_reading.mp hjob).1, (mem_reading.mp hjob).2⟩
      · obtain hjob | ⟨hjob, htaken⟩ := mem_writing.mp hjob
        · exact mem_writing.mpr (.inl (pending hjob))
        · rw [placed, List.mem_append, List.mem_singleton] at hjob
          obtain hjob | rfl := hjob
          · exact mem_writing.mpr (.inr ⟨hjob, htaken⟩)
          · exact mem_writing.mpr (.inl hqueued)
      · rw [placed, List.mem_append, List.mem_singleton] at hjob
        obtain hjob | rfl := hjob
        · exact h.placed job hjob
        · exact hdata
  | post job number started placed pending =>
      rw [advance_of_post started]
      have hnew : job ∉ s.world.started := fun hmem =>
        Nat.lt_irrefl _ (number ▸ hknown.numbered job hmem)
      have hold : ∀ job' ∈ s.world.started, job' ≠ job := fun job' hmem heq =>
        hnew (heq ▸ hmem)
      refine ⟨fun job' hjob k => ?_, fun job' hjob k hk b hb => ?_, fun job' hjob hinline k => ?_,
        fun job' hjob k hk => ?_, fun job' hjob k hk hwritten => ?_, placed ▸ h.placed⟩
      · rw [started, List.mem_append, List.mem_singleton, not_or] at hjob
        simpa [hjob.2] using h.fresh job' hjob.1 k
      · rw [pending, List.mem_append, List.mem_singleton] at hjob
        obtain hjob | rfl := hjob
        · have hne := hold job' (hknown.pending hjob)
          simp only [hne, false_and, if_false] at hb ⊢
          exact h.read job' hjob k hk b hb
        · cases hinline : job'.pr.wr.inline with
          | true => simpa [hinline] using hb.symm
          | false => simp [hinline, (h.fresh job' hnew k).1] at hb
      · rw [pending, List.mem_append, List.mem_singleton] at hjob
        obtain hjob | rfl := hjob
        · have hne := hold job' (hknown.pending hjob)
          simpa [hne] using h.inline job' hjob hinline k
        · simp [hinline]
      · obtain ⟨hjob, hinline⟩ := mem_reading.mp hjob
        rw [pending, List.mem_append, List.mem_singleton] at hjob
        obtain hjob | rfl := hjob
        · have hne := hold job' (hknown.pending hjob)
          simpa [hne, byte] using h.source job' (mem_reading.mpr ⟨hjob, hinline⟩) k hk
        · simp [byte]
      · -- nothing has been written for the new job
        have hwritten' : s.written job' k = true := hwritten
        have hne : job' ≠ job := fun heq => by
          rw [heq, (h.fresh job hnew k).2] at hwritten'
          cases hwritten'
        have hjob' : job' ∈ s.writing := by
          obtain hjob | hjob := mem_writing.mp hjob
          · rw [pending, List.mem_append, List.mem_singleton] at hjob
            exact mem_writing.mpr (.inl (hjob.resolve_right hne))
          · exact mem_writing.mpr (.inr (placed ▸ hjob))
        simpa [hne, byte] using h.target job' hjob' k hk hwritten'

theorem Sound.readByte (h : s.Sound) {k : Nat} (hknown : s.Known) (hjob : job ∈ s.world.pending)
    (hk : k < job.length) (hnone : s.read job k = none) :
    { s with
      read := Function.update s.read job
        (Function.update (s.read job) k (some (s.byte job.source k))) }.Sound := by
  -- the data of an inline request have been read before
  have hreading : job ∈ s.reading := by
    refine mem_reading.mpr ⟨hjob, ?_⟩
    by_contra hinline
    exact h.inline job hjob (by simpa using hinline) k hnone
  refine ⟨fun job' hjob' k' => ?_, fun job' hjob' k' hk' b hb => ?_,
    fun job' hjob' hinline k' => ?_, h.source, h.target, h.placed⟩
  · have hne : job' ≠ job := by
      rintro rfl
      exact hjob' (hknown.pending hjob)
    simpa [Function.update_of_ne hne] using h.fresh job' hjob' k'
  · change Function.update s.read job _ job' k' = some b at hb
    by_cases hne : job' = job
    · subst hne
      by_cases hk'' : k' = k
      · subst hk''
        rw [Function.update_self, Function.update_self, Option.some.injEq] at hb
        rw [← hb]
        exact h.source job' hreading k' hk
      · rw [Function.update_self, Function.update_of_ne hk''] at hb
        exact h.read job' hjob' k' hk' b hb
    · rw [Function.update_of_ne hne] at hb
      exact h.read job' hjob' k' hk' b hb
  · by_cases hne : job' = job
    · subst hne
      by_cases hk' : k' = k
      · simp [hk']
      · simpa [Function.update_of_ne hk'] using h.inline job' hjob' hinline k'
    · simpa [Function.update_of_ne hne] using h.inline job' hjob' hinline k'

/-- A byte that a job does not cover is not one of its bytes. -/
theorem ne_of_covers {place : Place} {rank addr k : Nat}
    (hcovers : covers place job rank addr = false)
    (hk : k < job.length) : place.rank ≠ rank ∨ place.addr + k ≠ addr := by
  rw [covers, decide_eq_false_iff_not] at hcovers
  by_contra hne
  rw [not_or, not_not, not_not] at hne
  exact hcovers ⟨hne.1, by omega, by omega⟩

/-- A byte is written, and all others stay. -/
theorem byte_update {place : Place} {rank addr k : Nat} (b : UInt8)
    (hne : place.rank ≠ rank ∨ place.addr + k ≠ addr) :
    Function.update s.mem rank (Function.update (s.mem rank) addr b) place.rank (place.addr + k) =
      s.byte place k := by
  by_cases hrank : place.rank = rank
  · have haddr := hne.resolve_left (not_not.mpr hrank)
    rw [hrank, Function.update_self, Function.update_of_ne haddr, byte, hrank]
  · rw [Function.update_of_ne hrank, byte]

theorem Sound.writeByte (h : s.Sound) {k : Nat} {b : UInt8} (hknown : s.Known)
    (hread : s.read job k = some b) (hjob : job ∈ s.world.pending) (hk : k < job.length)
    (hundisturbed : s.undisturbed (.writeByte job k) = true) :
    { s with
      mem := Function.update s.mem job.target.rank
        (Function.update (s.mem job.target.rank) (job.target.addr + k) b)
      written := Function.update s.written job
        (Function.update (s.written job) k true) }.Sound := by
  simp only [undisturbed, Bool.and_eq_true, decide_eq_true_eq] at hundisturbed
  obtain ⟨hsources, htargets⟩ := hundisturbed
  refine ⟨fun job' hjob' k' => ?_, h.read, h.inline, fun job' hjob' k' hk' => ?_,
    fun job' hjob' k' hk' hwritten => ?_, fun job' hjob' k' hk' => ?_⟩
  · have hne : job' ≠ job := by
      rintro rfl
      exact hjob' (hknown.pending hjob)
    simpa [Function.update_of_ne hne] using h.fresh job' hjob' k'
  · exact (byte_update b (ne_of_covers (hsources job' hjob') hk')).trans
      (h.source job' hjob' k' hk')
  · change Function.update s.written job _ job' k' = true at hwritten
    by_cases hne : job' = job
    · subst hne
      by_cases hk'' : k' = k
      · subst hk''
        rw [h.read job' hjob k' hk b hread, byte]
        simp
      · rw [Function.update_self, Function.update_of_ne hk''] at hwritten
        exact (byte_update b (.inr (by omega))).trans (h.target job' hjob' k' hk' hwritten)
    · rw [Function.update_of_ne hne] at hwritten
      exact (byte_update b (ne_of_covers (htargets job' hjob' hne) hk')).trans
        (h.target job' hjob' k' hk' hwritten)
  · by_cases hne : job' = job
    · subst hne
      by_cases hk'' : k' = k
      · simp [hk'']
      · simpa [Function.update_of_ne hk''] using h.placed job' hjob' k' hk'
    · simpa [Function.update_of_ne hne] using h.placed job' hjob' k' hk'

/-- The memory of a process changes where it is not in use. -/
theorem Sound.env (h : s.Sound) {p : Nat} {mem : Nat → UInt8}
    (hundisturbed : s.undisturbed (.env p mem) = true) :
    { s with mem := Function.update s.mem p mem }.Sound := by
  simp only [undisturbed, Bool.and_eq_true, decide_eq_true_eq] at hundisturbed
  obtain ⟨hsources, htargets⟩ := hundisturbed
  have hsame : ∀ (place : Place) (k : Nat),
      (place.rank = p → mem (place.addr + k) = s.byte place k) →
      { s with mem := Function.update s.mem p mem }.byte place k = s.byte place k := by
    intro place k hmem
    change Function.update s.mem p mem place.rank (place.addr + k) = _
    by_cases hp : place.rank = p
    · rw [← hmem hp, hp, Function.update_self]
    · rw [Function.update_of_ne hp, byte]
  refine ⟨h.fresh, h.read, h.inline, fun job hjob k hk => ?_, fun job hjob k hk hwritten => ?_,
    h.placed⟩
  · exact (hsame _ _ fun hp => hsources job hjob hp k hk).trans (h.source job hjob k hk)
  · exact (hsame _ _ fun hp => htargets job hjob hp k hk).trans (h.target job hjob k hk hwritten)

theorem Sound.step (h : s.Sound) (hknown : s.Known) {a : MemAct}
    (hundisturbed : s.undisturbed a = true) (hs : s.step a = some s') : s'.Sound := by
  cases a with
  | chan a =>
      simp only [MemWorld.step, Option.ite_none_right_eq_some] at hs
      obtain ⟨hmoved, hs⟩ := hs
      obtain ⟨w, hw, rfl⟩ := Option.map_eq_some_iff.mp hs
      exact h.advance hknown hmoved hw
  | readByte job k =>
      simp only [MemWorld.step, Option.ite_none_right_eq_some, Option.some.injEq] at hs
      obtain ⟨⟨hjob, hk, hnone⟩, rfl⟩ := hs
      exact h.readByte hknown hjob hk hnone
  | writeByte job k =>
      simp only [MemWorld.step] at hs
      cases hread : s.read job k with
      | none => simp [hread] at hs
      | some b =>
          simp only [hread, Option.ite_none_right_eq_some, Option.some.injEq] at hs
          obtain ⟨⟨hjob, hk, -⟩, rfl⟩ := hs
          exact h.writeByte hknown hread hjob hk hundisturbed
  | env p mem =>
      simp only [MemWorld.step, Option.some.injEq] at hs
      subst hs
      exact h.env hundisturbed
  | take job =>
      simp only [MemWorld.step, Option.some.injEq] at hs
      subst hs
      refine ⟨h.fresh, h.read, h.inline, h.source, fun job' hjob' => h.target job' ?_, h.placed⟩
      obtain hjob' | ⟨hjob', htaken⟩ := mem_writing.mp hjob'
      · exact mem_writing.mpr (.inl hjob')
      · exact mem_writing.mpr (.inr ⟨hjob', fun hmem => htaken (List.mem_cons_of_mem _ hmem)⟩)

/-! ### Runs -/

section Runs

variable {size : Nat} {env : Option (BitVec 64)} {rmt_base : List Nat} {flag_pool : FlagPool}
  {lkey rkey : MemInfo → BitVec 32} {dev_attr : Nat → IbvDeviceAttr}
  {flags : Nat → Nat → UruFlag} {mem : Nat → Nat → UInt8} {R : Nat → Write → Prop}

theorem world_run
    (hrun : Run step (fun s a => s.undisturbed a = true ∧ a.Creates R)
      (init size flag_pool lkey rkey dev_attr flags mem) s) :
    Run World.step (fun _ a => a.Creates R)
      (World.init size flag_pool lkey rkey dev_attr flags) s.world := by
  induction hrun with
  | nil => exact .nil
  | @snoc t u a _ hC hs ih =>
      cases a with
      | chan a =>
          simp only [step, Option.ite_none_right_eq_some] at hs
          obtain ⟨w, hw, rfl⟩ := Option.map_eq_some_iff.mp hs.2
          exact .snoc ih hC.2 hw
      | readByte job k =>
          simp only [step, Option.ite_none_right_eq_some, Option.some.injEq] at hs
          obtain ⟨-, rfl⟩ := hs
          exact ih
      | writeByte job k =>
          simp only [step] at hs
          split at hs
          · simp only [Option.ite_none_right_eq_some, Option.some.injEq] at hs
            obtain ⟨-, rfl⟩ := hs
            exact ih
          · cases hs
      | env p mem | take job =>
          simp only [step, Option.some.injEq] at hs
          subst hs
          exact ih

/-- Everything that is under way or done has been started. -/
theorem known_of_run
    (hrun : Run World.step (fun _ a => a.Creates R)
      (World.init size flag_pool lkey rkey dev_attr flags) s.world) : s.Known := by
  have hjobs := World.jobs_run hrun
  refine ⟨fun job hjob => ?_, fun job hjob => ?_, hjobs.numbered⟩
  · obtain ⟨wqe, hwqe, -, rfl⟩ := World.mem_pending.mp hjob
    refine hjobs.known (.queued wqe) ?_
    simp only [World.items, Multiset.mem_add, Multiset.mem_map]
    exact .inl (.inl ⟨wqe, hwqe, rfl⟩)
  · have hplaced := (World.accounts_run hrun job).placed
    have hpos := List.count_pos_iff.mpr hjob
    exact List.count_pos_iff.mp (by omega)

theorem sound_run
    (hrun : Run step (fun s a => s.undisturbed a = true ∧ a.Creates R)
      (init size flag_pool lkey rkey dev_attr flags mem) s) : s.Sound := by
  refine hrun.invariant (I := Sound) ?_ ?_
  · refine ⟨fun _ _ _ => ⟨rfl, rfl⟩, ?_, ?_, ?_, ?_, ?_⟩
    all_goals simp [init, World.init, World.pending, reading, writing]
  · intro t a u ht hsound hC hs
    exact hsound.step (known_of_run (world_run ht)) hC.1 hs

theorem target_of_planned {w : World} (h : job.entry.Planned R w job.initiator) :
    job.target = targetOf job.initiator job.write ∧ job.length = job.write.dma_size % 2 ^ 32 := by
  have hwr := wrOf_planWr h.made
  have hsg : job.pr.wr.sg_list = some ⟨job.write.loc_mem.addr + job.write.loc_offset,
    BitVec.ofNat 32 job.write.dma_size, w.lkey job.write.loc_mem⟩ := hwr.sg_list
  have hlength : job.length = job.write.dma_size % 2 ^ 32 := by
    rw [Job.length, hsg]
    exact BitVec.toNat_ofNat ..
  refine ⟨?_, hlength⟩
  unfold Job.target targetOf
  cases htype : job.write.dma_type with
  | unknown => exact absurd htype hwr.known
  | dmaGet =>
      have hread : job.pr.wr.opcode = .rdmaRead := (hwr.get htype).1
      rw [if_pos hread, if_pos rfl, Job.local, hsg]
      rfl
  | dmaPut =>
      have hopcode : job.pr.wr.opcode =
        if job.write.rmt_flag_p.isSome then .rdmaWriteWithImm else .rdmaWrite := (hwr.put htype).2.1
      have hnot : job.pr.wr.opcode ≠ .rdmaRead := by
        rw [hopcode]
        split <;> simp
      have hremote : job.pr.wr.remote_addr = job.write.rmt_mem.addr + job.write.rmt_offset :=
        hwr.remote.1
      have hdst : job.pr.dst_rank = job.write.rmt_mem.rank := hwr.dst_rank
      rw [if_neg hnot, if_neg (by simp), Job.remote, hremote, hdst]

/-- No call is made more often than the job is started. -/
theorem called_le (hrun : Run World.step (fun _ a => a.Creates R)
      (World.init size flag_pool lkey rkey dev_attr flags) s.world) (job : Job) :
    (s.world.called .sent).count job ≤ s.world.started.count job ∧
      (s.world.called .received).count job ≤ s.world.started.count job := by
  have haccounts := World.accounts_run hrun job
  have hsent := haccounts.sent
  have hreceived := haccounts.received
  rw [World.count_called, World.count_called]
  refine ⟨by omega, ?_⟩
  split at hreceived <;> omega

/-- A list that is no larger than another one anywhere, and has as many members
of a kind, has all members of that kind. -/
theorem mem_of_countP_le {l l' : List Job} {kind : Job → Bool}
    (hle : ∀ job, l.count job ≤ l'.count job) (hkind : l'.countP kind ≤ l.countP kind)
    (hjob : job ∈ l') (hof : kind job = true) : job ∈ l := by
  have hsub : (l.filter kind).Subperm (l'.filter kind) :=
    (List.subperm_ext_iff.mpr fun job _ => hle job).filter kind
  have hperm := hsub.perm_of_length_le (by rwa [← List.countP_eq_length_filter,
    ← List.countP_eq_length_filter])
  exact (List.mem_filter.mp (hperm.mem_iff.mpr (List.mem_filter.mpr ⟨hjob, hof⟩))).1

theorem countP_le_of_count_le {l l' : List Job} (kind : Job → Bool)
    (hle : ∀ job, l.count job ≤ l'.count job) : l.countP kind ≤ l'.countP kind :=
  (List.subperm_ext_iff.mpr fun job _ => hle job).countP_le kind

theorem mem_called {source : Source} (h : job ∈ s.world.called source) :
    ∃ e ∈ s.world.progress, e.job = job := by
  obtain ⟨e, he, rfl⟩ := List.mem_map.mp h
  exact ⟨e, (List.mem_filter.mp he).1, rfl⟩

/-- A flag that waits for as many transfers as have been started for it, on
either side, tells by its counter that they are over: when the counter is 0,
the data of all of them are where they belong, as the source held them when the
request was posted, as long as the target has not been taken back. A request
moves the low 32 bits of the size of its write. -/
theorem zero_flag_in_place (hpool : initFlagPool env rmt_base = .ok flag_pool)
    (hrun : Run step (fun s a => s.undisturbed a = true ∧ a.Creates (Pooled size flag_pool))
      (init size flag_pool lkey rkey dev_attr flags mem) s) {r f : Nat}
    (hlt : s.world.started.countP (Job.locNames r f) +
      s.world.started.countP (Job.rmtNames r f) < 2 ^ 64)
    (hwaits : (flags r f).counter = BitVec.ofNat 64 (s.world.started.countP (Job.locNames r f) +
      s.world.started.countP (Job.rmtNames r f)))
    (hzero : ((s.world.procs r).flags f).counter = 0) :
    ∀ job ∈ s.world.started, (job.locNames r f = true ∨ job.rmtNames r f = true) →
      job ∈ s.world.placed ∧ (job ∉ s.taken → ∀ k < job.write.dma_size % 2 ^ 32,
        s.byte (targetOf job.initiator job.write) k = s.snap job k) := by
  have hworld := world_run hrun
  have hsize := (initFlagPool_eq_ok hpool).1
  have hjobs := World.jobs_run hworld
  have htruthful := World.truthful_run hworld
  have ⟨hconst, hcounted⟩ := World.counted_run hworld
  have hknown := known_of_run hworld
  have hsound := sound_run hrun
  have hplanned : ∀ job ∈ s.world.started, job.Names flag_pool := fun job hjob =>
    PlanEntry.Planned.names hconst hsize (World.size_run hworld ▸ hjobs.planned job hjob)
  have hcalls : ∀ e ∈ s.world.progress, e.Sound ∧ e.job.Names flag_pool := fun e he =>
    ⟨(htruthful.calls e he).1, hplanned _ (hknown.placed (htruthful.calls e he).2)⟩
  have hhits : s.world.progress.countP (Progress.hits flag_pool r f) =
      (s.world.called .sent).countP (Job.locNames r f) +
        (s.world.called .received).countP (Job.rmtNames r f) := countP_hits r f _ hcalls
  have hsent := fun job => (called_le hworld job).1
  have hreceived := fun job => (called_le hworld job).2
  have hlocLe := countP_le_of_count_le (Job.locNames r f) hsent
  have hrmtLe := countP_le_of_count_le (Job.rmtNames r f) hreceived
  -- the counter has gone down by all of them
  have hall : s.world.started.countP (Job.locNames r f) +
      s.world.started.countP (Job.rmtNames r f) =
        (s.world.called .sent).countP (Job.locNames r f) +
          (s.world.called .received).countP (Job.rmtNames r f) := by
    have hcounter := hcounted r f
    rw [hzero, hwaits, hhits] at hcounter
    have hval := congrArg BitVec.toNat (sub_eq_zero.mp hcounter.symm)
    rw [BitVec.toNat_ofNat, BitVec.toNat_ofNat, Nat.mod_eq_of_lt hlt,
      Nat.mod_eq_of_lt (by omega)] at hval
    exact hval
  intro job hjob hnames
  have hplaced : job ∈ s.world.placed := by
    obtain hloc | hrmt := hnames
    · obtain ⟨e, he, rfl⟩ := mem_called (mem_of_countP_le hsent (by omega) hjob hloc)
      exact (htruthful.calls e he).2
    · obtain ⟨e, he, rfl⟩ := mem_called (mem_of_countP_le hreceived (by omega) hjob hrmt)
      exact (htruthful.calls e he).2
  refine ⟨hplaced, fun htaken k hk => ?_⟩
  obtain ⟨htarget, hlength⟩ := target_of_planned (hjobs.planned job hjob)
  rw [← htarget]
  rw [← hlength] at hk
  exact hsound.target job (mem_writing.mpr (.inr ⟨hplaced, htaken⟩)) k hk
    (hsound.placed job hplaced k hk)

end Runs

/-! ### A get -/

/-- Two processes; every flag waits for one transfer. -/
def two : MemWorld :=
  .init 2 ⟨65536, [0, 0]⟩ (fun _ => 0) (fun _ => 0) (fun _ => ⟨1, 1⟩)
    (fun _ f => ⟨1, none, 0, f⟩) (fun p addr => UInt8.ofNat (100 * p + addr))

def getJob : Job where
  initiator := 0
  number := 0
  pr := {
    wr := {
      wr_id := ⟨2, 1⟩
      sg_list := some ⟨0, 8, 0⟩
      opcode := .rdmaRead
      inline := false
      signaled := true
      imm_data := 0
      remote_addr := 0
      rkey := 0 }
    dst_rank := 1 }
  write := getWrite

/-- The get is posted, its data are moved, and process 1 is notified. -/
def getMoves : List MemAct :=
  (getActs.take 6).map .chan ++ (List.range 8).map (.readByte getJob) ++
    (List.range 8).map (.writeByte getJob) ++ (getActs.drop 6).map .chan

/-- The buffers in use are left alone, and no other plan is created. -/
def calm (s : MemWorld) (a : MemAct) : Bool :=
  s.undisturbed a && match a with
    | .chan a => createsGet a
    | _ => true

theorem zero_flag_in_place_get : ∃ s, exec step calm two getMoves = some s ∧
    s.world.started = [getJob] ∧ ((s.world.procs 1).flags 2).counter = 0 ∧
    ∀ k < 8, s.mem 0 k = s.snap getJob k := by
  have hreached : (exec step calm two getMoves).map (fun s => decide
      (s.world.started = [getJob] ∧ ((s.world.procs 1).flags 2).counter = 0 ∧ s.taken = [])) =
      some true := by decide +kernel
  obtain ⟨s, hexec, hs⟩ := Option.map_eq_some_iff.mp hreached
  obtain ⟨hstarted, hzero, htaken⟩ := of_decide_eq_true hs
  have hrun : Run step (fun s a => s.undisturbed a = true ∧ a.Creates (Pooled 2 ⟨65536, [0, 0]⟩))
      two s := (Run.of_exec hexec).mono fun t a ha => by
    obtain ⟨hundisturbed, hcreates⟩ := Bool.and_eq_true_iff.mp ha
    refine ⟨hundisturbed, ?_⟩
    cases a with
    | chan a => exact creates_of_createsGet hcreates
    | _ => trivial
  have hpool : initFlagPool none [0, 0] = .ok ⟨65536, [0, 0]⟩ := rfl
  have hcount : s.world.started.countP (Job.locNames 1 2) +
      s.world.started.countP (Job.rmtNames 1 2) = 1 := by
    rw [hstarted]
    decide
  have hplace := (zero_flag_in_place hpool hrun (by rw [hcount]; decide) (by rw [hcount]; rfl) hzero
    getJob (by simp [hstarted]) (.inr (by decide))).2 (by simp [htaken])
  refine ⟨s, hexec, hstarted, hzero, fun k hk => ?_⟩
  have hbyte := hplace k hk
  simpa [targetOf, byte, getJob, getWrite] using hbyte

end MemWorld

end Unr.Verbs
