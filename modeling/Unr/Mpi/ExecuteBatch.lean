import Unr.Mpi.Matching
import Unr.Mpi.Numbers
import Unr.Mpi.OpData

/-!
`execute_op_batch` is `create_op_batch`, `start_op_batch` and
`destroy_op_batch` in one.

A plan that is used once and a start of a plan that is kept lead to the same
operations. When a run has come to rest, the operations of either are read off
the writes of the plan: one operation of the initiator and one of the target
for each write, with one tag for both. What the tags are, and how long they and
the batches live, is all that differs, and nothing of it is left at the end.
-/

namespace Unr.Mpi

open Unr.Uru Unr.Logic

/-! ### Runs that have come to rest -/

/-- Every call has returned, every control message has been handled, and every
operation is complete. -/
structure World.Completed (w : World) : Prop where
  live : ∀ p < w.size, (w.procs p).halted = none
  idle : ∀ p < w.size, (w.procs p).user = .idle
  handled : ∀ p < w.size, ∀ q < w.size,
    (w.procs q).ctrl_received p = ((w.procs p).ctrl_sent q).length
  drained : ∀ p < w.size, (w.procs p).queue = [] ∧ (w.procs p).daemon = .drain

def jobPostings (q i plan start : Nat) (es : List (Nat × Event)) : List Posting :=
  (postings q es).filter fun x =>
    x.write.initiator = i ∧ x.write.plan = plan ∧ x.write.start = start

def transfers (q i plan start : Nat) (es : List (Nat × Event)) : List OpData :=
  (jobPostings q i plan start es).map fun x => x.op.data

def tagged (own : Bool) (q i plan start : Nat) (es : List (Nat × Event)) : List (OpData × Nat) :=
  ((jobPostings q i plan start es).filter (·.own = own)).map fun x => (x.op.data, x.op.tag)

def increment (f q i plan start : Nat) (es : List (Nat × Event)) : BitVec 64 :=
  addedBy f ((applied q es).filter fun e => e.side ≠ .ctrl ∧ e.write.initiator = i ∧
    e.write.plan = plan ∧ e.write.start = start)

/-- Every write of a start of a plan has a tag, and exactly the two operations
of the writes with these tags are posted. -/
structure CarriedOut (size i plan start : Nat) (writes : List Write) (es : List (Nat × Event))
    (tag : Nat → Nat) : Prop where
  own : (tagged true i i plan start es).Perm
    (writes.zipIdx.map fun x => (x.1.ownData, tag x.2))
  peer : ∀ q < size, (tagged false q i plan start es).Perm
    ((writes.zipIdx.filter fun x => x.1.rmt_mem.rank = q).map fun x =>
      (x.1.peerData i, tag x.2))

/-- Of a plan nothing is left: all tags, all ids and all batches that are in
use belong to plans that still exist. -/
structure World.Released (w : World) (i plan : Nat) : Prop where
  gone : ∀ p ∈ (w.procs i).plans, p.plan ≠ plan
  tags : ∀ j, (((w.procs i).mpi_tag j).inUse w.size i).Perm
    (tagsTo j ((w.procs i).plans.flatMap fun p => p.send_batch.map MpiOp.pair))
  ids : ∀ j, (((w.procs i).batch_id j).inUse w.size i).Perm
    (tagsTo j ((w.procs i).plans.flatMap fun p =>
      p.recv_batch.map fun b => (b.dst_rank, b.batch_id)))
  tables : ∀ j < w.size, ∀ id batch, ((w.procs j).recv_batch i)[id]? = some (some batch) →
    ∃ p ∈ (w.procs i).plans, ∃ b ∈ p.recv_batch,
      b.dst_rank = j ∧ b.batch_id = id ∧ batch.plan = p.plan

/-- No tag and no batch id of a process is in use, and no target keeps a batch
of it. -/
structure World.NothingLeft (w : World) (i : Nat) : Prop where
  tags : ∀ j, ((w.procs i).mpi_tag j).inUse w.size i = []
  ids : ∀ j, ((w.procs i).batch_id j).inUse w.size i = []
  tables : ∀ j < w.size, ∀ slot ∈ (w.procs j).recv_batch i, slot = none

/-! ### The initiator -/

section Own

variable {size : Nat} {flags : Nat → Nat → UruFlag} {es : List (Nat × Event)} {w : World}
  {i plan start : Nat} {writes : List Write}

theorem World.Sound.own_initiator (h : World.Sound es w) {q : Nat} {x : Posting}
    (hx : x ∈ postings q es) (hown : x.own = true) : x.write.initiator = q :=
  ((h.posted q x hx).own hown).1

def ownPostings (i plan start : Nat) (es : List (Nat × Event)) : List Posting :=
  (jobPostings i i plan start es).filter (·.own = true)

theorem ownPostings_index (h : History size flags es w) (hdone : w.Completed) (hi : i < w.size)
    (hbegun : Begun (eventsAt i es) plan start writes) :
    (ownPostings i plan start es).map (·.write.index) = List.range writes.length := by
  have hissued := (h.issued (hdone.live i hi)).issued plan start writes hbegun
  rw [hdone.idle i hi] at hissued
  have hall : ownIndices plan start (eventsAt i es) = List.range writes.length :=
    (List.append_nil _).symm.trans hissued
  rw [← hall, ownIndices, ownPostings, jobPostings, List.filter_filter]
  refine map_filter_eq fun x hx => ?_
  have hinitiator := h.sound.own_initiator (q := i) hx
  by_cases hown : x.own = true
  · simp [hown, hinitiator hown]
  · simp [hown]

theorem ownPostings_data (h : History size flags es w) (hdone : w.Completed) (hi : i < w.size)
    (hbegun : Begun (eventsAt i es) plan start writes) {x : Posting}
    (hx : x ∈ ownPostings i plan start es) {wr : Write} (hwr : writes[x.write.index]? = some wr) :
    x.op.data = wr.ownData := by
  obtain ⟨hjob, hown⟩ := List.mem_filter.mp hx
  obtain ⟨hmem, hjob⟩ := List.mem_filter.mp hjob
  obtain ⟨-, rfl, -⟩ := of_decide_eq_true hjob
  have hsound := h.sound.posted i x hmem
  obtain ⟨-, wr', hwrite, hdata⟩ := hsound.own (of_decide_eq_true hown)
  rw [← hsound.plan, ← hsound.index] at hwrite
  have hthis : WriteAt (eventsAt i es) x.write.plan x.write.index wr := by
    rcases hbegun with ⟨hmem, -⟩ | ⟨hmem, -⟩ <;> exact ⟨_, writes, hmem, hwr⟩
  rw [hdata, (h.issued (hdone.live i hi)).writeAt_unique hwrite hthis]

def tagAt (xs : List Posting) (k : Nat) : Nat := (xs[k]?.map fun x => x.op.tag).getD 0

/-- The own operations are those of the writes, one after the other. -/
theorem ownPostings_zipIdx (h : History size flags es w) (hdone : w.Completed) (hi : i < w.size)
    (hbegun : Begun (eventsAt i es) plan start writes) :
    (ownPostings i plan start es).map (fun x => (x.op.data, x.op.tag, x.write.index)) =
      writes.zipIdx.map fun y => (y.1.ownData, tagAt (ownPostings i plan start es) y.2, y.2) := by
  have hindex := ownPostings_index h hdone hi hbegun
  have hlength : (ownPostings i plan start es).length = writes.length := by
    simpa using congrArg List.length hindex
  refine List.ext_getElem (by simp [hlength]) fun k hk hk' => ?_
  rw [List.length_map] at hk
  have hpos : (ownPostings i plan start es)[k].write.index = k := by
    have := List.getElem_of_eq hindex (by simpa using hk)
    simpa using this
  have hget : writes[(ownPostings i plan start es)[k].write.index]? = some writes[k] := by
    rw [hpos]
    exact List.getElem?_eq_getElem (hlength ▸ hk)
  have hdata := ownPostings_data h hdone hi hbegun (List.getElem_mem hk) hget
  simp [hdata, hpos, tagAt, hk]

end Own

/-! ### The targets -/

/-- Two lists of pairs with the same values for every key agree up to order. -/
theorem perm_of_fibres {κ ν : Type} [DecidableEq κ] [DecidableEq ν] {xs ys : List (κ × ν)}
    (h : ∀ k, xs.filterMap (fun x => if x.1 = k then some x.2 else none) =
      ys.filterMap fun y => if y.1 = k then some y.2 else none) : xs.Perm ys := by
  have hcount : ∀ (zs : List (κ × ν)) (k : κ) (v : ν), zs.count (k, v) =
      (zs.filterMap fun z => if z.1 = k then some z.2 else none).count v := by
    intro zs k v
    induction zs with
    | nil => rfl
    | cons z zs ih =>
        obtain ⟨k', v'⟩ := z
        by_cases hk : k' = k
        · subst hk
          simp [List.count_cons, ih]
        · simp [ih, hk]
  refine List.perm_iff_count.mpr fun x => ?_
  rw [hcount, hcount, h]

section Peer

variable {size : Nat} {flags : Nat → Nat → UruFlag} {es : List (Nat × Event)} {w : World}
  {q i plan start : Nat} {writes : List Write}

def peerPostings (q i plan start : Nat) (es : List (Nat × Event)) : List Posting :=
  (jobPostings q i plan start es).filter (·.own = false)

/-- Once everything is handled, a process has posted for another one what that
one has posted itself, with the same tags and in the other direction. -/
theorem sides_perm (h : History size flags es w) (hdone : w.Completed) (hi : i < w.size)
    (hq : q < w.size) :
    (((postings i es).filter fun x => x.own = true ∧ x.op.rank = q).map fun x =>
      ((x.op.tag, x.op.op_type), x.write)).Perm
    (((postings q es).filter fun x => x.own = false ∧ x.write.initiator = i).map fun x =>
      ((x.op.tag, x.op.op_type.flip), x.write)) := by
  have hinv := World.inv_run h.run
  have hlog := h.log (hdone.live i hi)
  have hlog' := h.log (hdone.live q hq)
  have hposts := ((hinv.link i q).live (hdone.live q hq)).2
  rw [hdone.handled i hi q hq, List.take_length, (hdone.drained q hq).2] at hposts
  refine perm_of_fibres fun ⟨t, ty⟩ => ?_
  have hal := (hinv.ini i).aligned q t ty
  rw [hdone.idle i hi, ← hposts] at hal
  simp only [UserPhase.pendingOwn, UserPhase.pendingPeer, DaemonPhase.pendingPosts,
    List.append_nil, hlog, hlog'] at hal
  simp only [ownWrites, announcedWrites, peerLog, List.filterMap_map, List.filterMap_filter,
    List.filter_map] at hal ⊢
  refine Eq.trans ?_ (hal.trans ?_)
  · refine List.filterMap_congr fun x _ => ?_
    simp only [Function.comp_apply, Posting.post, Prod.mk.injEq, decide_eq_true_eq, ← ite_and,
      and_assoc]
    exact if_congr Iff.rfl rfl rfl
  · refine List.filterMap_congr fun x _ => ?_
    have hflip : x.op.op_type.flip = ty ↔ x.op.op_type = ty.flip := by
      cases x.op.op_type <;> cases ty <;> simp [OpType.flip]
    simp only [Function.comp_apply, Posting.post, Prod.mk.injEq, hflip]
    exact if_congr Iff.rfl rfl rfl

theorem peerPostings_perm (h : History size flags es w) (hdone : w.Completed) (hi : i < w.size)
    (hq : q < w.size) :
    ((peerPostings q i plan start es).map fun x => (x.op.tag, x.write.index)).Perm
      (((ownPostings i plan start es).filter fun x => x.op.rank = q).map fun x =>
        (x.op.tag, x.write.index)) := by
  have hsides := ((sides_perm h hdone hi hq).filter fun y =>
    y.2.plan = plan ∧ y.2.start = start).map fun y => (y.1.1, y.2.index)
  simp only [List.filter_map, List.map_map, List.filter_filter] at hsides
  refine List.Perm.trans (List.Perm.of_eq ?_) (hsides.symm.trans (List.Perm.of_eq ?_))
  · simp only [peerPostings, jobPostings, List.filter_filter]
    refine congrArg _ (List.filter_congr fun x _ => ?_)
    simp only [Function.comp_apply, ← Bool.decide_and, decide_eq_decide]
    constructor
    · rintro ⟨hown, hinitiator, hplan, hstart⟩
      exact ⟨⟨hplan, hstart⟩, hown, hinitiator⟩
    · rintro ⟨⟨hplan, hstart⟩, hown, hinitiator⟩
      exact ⟨hown, hinitiator, hplan, hstart⟩
  · simp only [ownPostings, jobPostings, List.filter_filter]
    refine congrArg _ (List.filter_congr fun x hx => ?_)
    simp only [Function.comp_apply, ← Bool.decide_and, decide_eq_decide]
    constructor
    · rintro ⟨⟨hplan, hstart⟩, hown, hrank⟩
      exact ⟨hrank, hown, h.sound.own_initiator hx hown, hplan, hstart⟩
    · rintro ⟨hrank, hown, -, hplan, hstart⟩
      exact ⟨⟨hplan, hstart⟩, hown, hrank⟩

theorem peerPostings_data (h : History size flags es w) (hdone : w.Completed) (hi : i < w.size)
    (hq : q < w.size) (hbegun : Begun (eventsAt i es) plan start writes) {x : Posting}
    (hx : x ∈ peerPostings q i plan start es)
    {wr : Write} (hwr : writes[x.write.index]? = some wr) :
    x.op.data = wr.peerData i := by
  obtain ⟨hjob, hown⟩ := List.mem_filter.mp hx
  obtain ⟨hmem, hjob⟩ := List.mem_filter.mp hjob
  obtain ⟨rfl, rfl, -⟩ := of_decide_eq_true hjob
  have hown := of_decide_eq_true hown
  have hsound := h.sound.posted q x hmem
  obtain ⟨wr', hwrite, hdata⟩ := hsound.peer hown
  rw [← hsound.plan, ← hsound.index] at hwrite
  have hthis : WriteAt (eventsAt x.write.initiator es) x.write.plan x.write.index wr := by
    rcases hbegun with ⟨hmem, -⟩ | ⟨hmem, -⟩ <;> exact ⟨_, writes, hmem, hwr⟩
  have hpost : x.post ∈ (w.procs q).log := by
    rw [h.log (hdone.live q hq)]
    exact List.mem_map_of_mem hmem
  have hrank : x.op.rank = x.write.initiator := ((World.inv_run h.run).peer_post hpost hown).1
  rw [← (h.issued (hdone.live _ hi)).writeAt_unique hwrite hthis, ← hdata, ← hrank]

end Peer

/-- Once a run has come to rest, a start of a plan is carried out. -/
theorem carriedOut {size : Nat} {flags : Nat → Nat → UruFlag} {es : List (Nat × Event)} {w : World}
    {i plan start : Nat} {writes : List Write} (h : History size flags es w)
    (hdone : w.Completed) (hi : i < w.size) (hbegun : Begun (eventsAt i es) plan start writes) :
    CarriedOut w.size i plan start writes es (tagAt (ownPostings i plan start es)) := by
  have hzip := ownPostings_zipIdx h hdone hi hbegun
  refine ⟨List.Perm.of_eq ?_, fun q hq => ?_⟩
  · have hpairs := congrArg (List.map fun y : OpData × Nat × Nat => (y.1, y.2.1)) hzip
    rw [List.map_map, List.map_map] at hpairs
    exact hpairs
  · have hpeers :
        ((peerPostings q i plan start es).map fun x => (x.op.tag, x.write.index)).Perm _ :=
      peerPostings_perm h hdone hi hq
    -- tag and position of a target's operation tell all of it
    have hget : ∀ x ∈ peerPostings q i plan start es, ∃ wr, writes[x.write.index]? = some wr := by
      intro x hx
      have hmem := hpeers.mem_iff.mp (List.mem_map_of_mem hx)
      obtain ⟨y, hy, heq⟩ := List.mem_map.mp hmem
      have hlt : y.write.index ∈ List.range writes.length := by
        rw [← ownPostings_index h hdone hi hbegun]
        exact List.mem_map_of_mem (List.mem_filter.mp hy).1
      rw [← show y.write.index = x.write.index from congrArg Prod.snd heq]
      exact ⟨_, List.getElem?_eq_getElem (List.mem_range.mp hlt)⟩
    let whole : Nat × Nat → OpData × Nat := fun y =>
      (((writes[y.2]?).map (Write.peerData i)).getD ⟨.opSend, 0, 0, 0, none, 0⟩, y.1)
    have hpairs := congrArg (fun ys : List (OpData × Nat × Nat) =>
      (ys.filter fun y => y.1.rank = q).map fun y => whole y.2) hzip
    simp only [List.filter_map, List.map_map] at hpairs
    have hperm := hpeers.map whole
    simp only [List.map_map] at hperm
    refine List.Perm.trans (List.Perm.of_eq ?_)
      (hperm.trans (List.Perm.of_eq (hpairs.trans ?_)))
    · refine List.map_congr_left fun x hx => ?_
      obtain ⟨wr, hwr⟩ := hget x hx
      have hdata := peerPostings_data h hdone hi hq hbegun hx hwr
      simp [whole, hwr, hdata]
    · refine List.map_congr_left fun y hy => ?_
      have hwr := List.mem_zipIdx_iff_getElem?.mp (List.mem_filter.mp hy).1
      simp [whole, hwr]

/-! ### What does not depend on the tags -/

/-- What process `q` transfers for the writes of process `i`. -/
def expected (q i : Nat) (writes : List Write) : List OpData :=
  (if q = i then writes.map Write.ownData else []) ++
    (writes.filter fun wr => wr.rmt_mem.rank = q).map (Write.peerData i)

def totalAdd (f : Nat) (ds : List OpData) : BitVec 64 :=
  ((ds.filter fun d => d.flag_p = some f).map fun d => d.flag_add).sum

theorem totalAdd_perm {f : Nat} {ds ds' : List OpData} (h : ds.Perm ds') :
    totalAdd f ds = totalAdd f ds' :=
  ((h.filter _).map _).foldr_op_eq

section Equal

variable {size : Nat} {flags : Nat → Nat → UruFlag} {es : List (Nat × Event)} {w : World}
  {q i plan start : Nat} {writes : List Write} {tag : Nat → Nat}

theorem CarriedOut.transfers_perm (h : CarriedOut size i plan start writes es tag)
    (hsound : World.Sound es w) (hq : q < size) :
    (transfers q i plan start es).Perm (expected q i writes) := by
  have hfst : ∀ own, (tagged own q i plan start es).map Prod.fst =
      ((jobPostings q i plan start es).filter (·.own = own)).map fun x => x.op.data := by
    intro own
    rw [tagged, List.map_map]
    rfl
  have hown : ((tagged true q i plan start es).map Prod.fst).Perm
      (if q = i then writes.map Write.ownData else []) := by
    by_cases hqi : q = i
    · subst hqi
      rw [if_pos rfl]
      refine (h.own.map Prod.fst).trans (List.Perm.of_eq ?_)
      rw [List.map_map]
      exact (List.map_map (g := Write.ownData) (f := Prod.fst)).symm.trans
        (by rw [List.zipIdx_map_fst])
    · rw [if_neg hqi, hfst]
      refine List.Perm.of_eq ?_
      rw [List.map_eq_nil_iff, List.filter_eq_nil_iff]
      intro x hx hown
      obtain ⟨hmem, hjob⟩ := List.mem_filter.mp hx
      exact hqi ((hsound.own_initiator hmem (of_decide_eq_true hown)).symm.trans
        (of_decide_eq_true hjob).1)
  have hpeer : ((tagged false q i plan start es).map Prod.fst).Perm
      ((writes.filter fun wr => wr.rmt_mem.rank = q).map (Write.peerData i)) := by
    refine ((h.peer q hq).map Prod.fst).trans (List.Perm.of_eq ?_)
    conv_rhs => rw [← List.zipIdx_map_fst 0 writes, List.filter_map]
    rw [List.map_map, List.map_map]
    rfl
  refine List.Perm.trans ?_ (hown.append hpeer)
  rw [hfst, hfst, ← List.map_append]
  refine List.Perm.map _ ?_
  refine (List.filter_append_perm (fun x : Posting => x.own = true) _).symm.trans
    (List.Perm.of_eq ?_)
  congr 1
  refine List.filter_congr fun x _ => ?_
  cases x.own <;> rfl

/-- What entries add, as far as they are operations on data for which `P`
holds, is what their postings add. -/
theorem addedBy_postings (f : Nat) (P : WriteId → Bool) (as : List Entry) :
    addedBy f (as.filter fun e => e.side ≠ .ctrl ∧ P e.write) =
      totalAdd f (((as.filterMap Entry.posting).filter fun x => P x.write).map fun x =>
        x.op.data) := by
  unfold addedBy totalAdd
  congr 1
  induction as with
  | nil => rfl
  | cons e as ih =>
      cases hside : e.side <;> cases hjob : P e.write <;>
        by_cases hflag : e.op.flag_p = some f <;>
          simp_all [Entry.posting, MpiOp.data]

theorem increment_eq (h : History size flags es w) (hdone : w.Completed) (hq : q < w.size)
    (f : Nat) : increment f q i plan start es = totalAdd f (transfers q i plan start es) := by
  obtain ⟨hqueue, hdaemon⟩ := hdone.drained q hq
  have hperm := h.postings_perm (hdone.live q hq)
  rw [Proc.unapplied, hdone.idle q hq, hqueue, hdaemon] at hperm
  simp only [UserPhase.entries, DaemonPhase.entries, List.append_nil] at hperm
  have hadd := addedBy_postings f
    (fun id => id.initiator = i ∧ id.plan = plan ∧ id.start = start) (applied q es)
  simp only [decide_eq_true_eq] at hadd
  exact hadd.trans (totalAdd_perm ((hperm.filter _).map _))

end Equal

/-! ### What is left -/

section Left

variable {size : Nat} {flags : Nat → Nat → UruFlag} {es : List (Nat × Event)} {w : World}
  {i plan start : Nat} {writes : List Write}

theorem released (h : History size flags es w) (hdone : w.Completed) (hi : i < w.size)
    (hgone : ∀ p ∈ (w.procs i).plans, p.plan ≠ plan) : w.Released i plan := by
  have hinv := World.inv_run h.run
  have hnumbers := World.numbers_run h.run i
  have hsize := Nat.zero_lt_of_lt hi
  obtain ⟨hqueue, hdaemon⟩ := hdone.drained i hi
  have htags := hnumbers.tags
  have hids := hnumbers.ids
  simp only [Proc.heldPairs, Proc.batches, hdone.idle i hi, hqueue, hdaemon, UserPhase.tagPairs,
    UserPhase.batches, DaemonPhase.entries, releasing_nil, List.nil_append, List.append_nil]
    at htags hids
  refine ⟨hgone, fun j => ((htags j).held_perm hsize).symm, fun j => ?_, ?_⟩
  · have hpairs := ((hids j).held_perm hsize).symm
    rw [List.map_flatMap] at hpairs
    simp only [List.map_map] at hpairs
    exact hpairs
  · intro j hj id batch hslot
    have hview := ((hinv.link i j).live (hdone.live j hj)).1
    rw [hdone.handled i hi j hj, List.take_length] at hview
    have hkept := (hinv.ini i).view j id batch
    rw [← hview, tableMap, hslot, Proc.batches, hdone.idle i hi] at hkept
    obtain ⟨x, hx, hid, rfl⟩ := hkept.mp rfl
    obtain ⟨p, hp, hmem⟩ := List.mem_flatMap.mp hx
    obtain ⟨b, hb, rfl⟩ := List.mem_map.mp hmem
    exact ⟨p, hp, b, hb, congrArg Prod.fst hid, congrArg Prod.snd hid, rfl⟩

theorem World.Released.nothingLeft (h : w.Released i plan) (hplans : (w.procs i).plans = []) :
    w.NothingLeft i where
  tags j := by
    have htags := h.tags j
    rw [hplans] at htags
    exact List.Perm.eq_nil htags
  ids j := by
    have hids := h.ids j
    rw [hplans] at hids
    exact List.Perm.eq_nil hids
  tables j hj slot hslot := by
    match slot with
    | none => rfl
    | some batch =>
        obtain ⟨id, hid⟩ := List.mem_iff_getElem?.mp hslot
        obtain ⟨p, hp, -⟩ := h.tables j hj id batch hid
        rw [hplans] at hp
        exact nomatch hp

theorem gone_once (h : History size flags es w) (hdone : w.Completed) (hi : i < w.size)
    (hmem : (i, .created plan true writes) ∈ es) : ∀ p ∈ (w.procs i).plans, p.plan ≠ plan := by
  rintro p hp rfl
  have hissued := h.issued (hdone.live i hi)
  obtain ⟨writes', hkept, -⟩ := hissued.plans p hp
  exact nomatch (hissued.created_unique _ _ _ _ _ hkept (mem_eventsAt.mpr hmem)).1

theorem plans_nil (h : History size flags es w) (hdone : w.Completed) (hi : i < w.size)
    (hall : ∀ plan writes, (i, .created plan false writes) ∈ es → (i, .destroyed plan) ∈ es) :
    (w.procs i).plans = [] := by
  have hissued := h.issued (hdone.live i hi)
  refine List.eq_nil_iff_forall_not_mem.mpr fun p hp => ?_
  obtain ⟨writes, hkept, -⟩ := hissued.plans p hp
  exact (hissued.destroyed _ (mem_eventsAt.mpr (hall _ _ (mem_eventsAt.mp hkept)))).2 p hp rfl

end Left

/-- A run in which a plan is created to be used once, and a run in which a plan
for the same writes is created to be kept, started and destroyed: when both
have come to rest, every process has transferred the same for them, with one
tag for the two operations of a write, and has added the same to every flag;
and in neither of them anything of the plan is left. -/
theorem execute_eq_create_start_destroy {size : Nat} {flags flags' : Nat → Nat → UruFlag}
    {es es' : List (Nat × Event)} {w w' : World} (h : History size flags es w)
    (h' : History size flags' es' w') (hdone : w.Completed) (hdone' : w'.Completed)
    {i plan plan' start : Nat} {writes : List Write} (hi : i < size)
    (honce : (i, .created plan true writes) ∈ es)
    (hkept : (i, .created plan' false writes) ∈ es') (hstart : (i, .started plan' start) ∈ es')
    (hdestroy : (i, .destroyed plan') ∈ es') :
    (∀ q < size, (transfers q i plan 0 es).Perm (transfers q i plan' start es')) ∧
    (∃ tag tag', CarriedOut size i plan 0 writes es tag ∧
      CarriedOut size i plan' start writes es' tag') ∧
    (∀ q < size, ∀ f, increment f q i plan 0 es = increment f q i plan' start es') ∧
    (w.Released i plan ∧ w'.Released i plan') ∧
    ((∀ plan writes, (i, .created plan false writes) ∈ es → (i, .destroyed plan) ∈ es) →
      w.NothingLeft i) ∧
    ((∀ plan writes, (i, .created plan false writes) ∈ es' → (i, .destroyed plan) ∈ es') →
      w'.NothingLeft i) := by
  have hsize := World.size_run h.run
  have hsize' := World.size_run h'.run
  have hcarried := carriedOut h hdone (hsize ▸ hi) (.inl ⟨mem_eventsAt.mpr honce, rfl⟩)
  have hcarried' := carriedOut h' hdone' (hsize' ▸ hi)
    (.inr ⟨mem_eventsAt.mpr hkept, mem_eventsAt.mpr hstart⟩)
  rw [hsize] at hcarried
  rw [hsize'] at hcarried'
  have htransfers : ∀ q < size,
      (transfers q i plan 0 es).Perm (transfers q i plan' start es') := fun q hq =>
    (hcarried.transfers_perm h.sound hq).trans (hcarried'.transfers_perm h'.sound hq).symm
  have hreleased := released h hdone (hsize ▸ hi) (gone_once h hdone (hsize ▸ hi) honce)
  have hreleased' := released h' hdone' (hsize' ▸ hi)
    ((h'.issued (hdone'.live i (hsize' ▸ hi))).destroyed _ (mem_eventsAt.mpr hdestroy)).2
  refine ⟨htransfers, ⟨_, _, hcarried, hcarried'⟩, fun q hq f => ?_, ⟨hreleased, hreleased'⟩,
    fun hall => hreleased.nothingLeft (plans_nil h hdone (hsize ▸ hi) hall),
    fun hall => hreleased'.nothingLeft (plans_nil h' hdone' (hsize' ▸ hi) hall)⟩
  rw [increment_eq h hdone (hsize ▸ hq), increment_eq h' hdone' (hsize' ▸ hq)]
  exact totalAdd_perm (htransfers q hq)

/-- A put from process 0 to process 1 with a flag at process 0, and a get from
process 1 with a flag there. -/
def mixedWrites : List Write :=
  [{ sampleWrite .dmaPut 0 1 with loc_flag_p := some 0, loc_flag_add := 1 },
    { sampleWrite .dmaGet 0 1 with rmt_flag_p := some 0, rmt_flag_add := 2 }]

def mixedOps (flag : BitVec 8) : List MpiOp :=
  mixedWrites.zipIdx.map fun x => x.1.recvOp flag 0 x.2 (2 * x.2 + 2)

def stepsOf (rank : Nat) (acts : List ProcAct) : List Act := acts.map (.proc rank)

def testSteps (rank n : Nat) : List Act :=
  stepsOf rank (.testSome (List.replicate n true) :: List.replicate (n + 1) .daemonStep)

def createPlan (once_now : Bool) (flag : BitVec 8) : List Act :=
  stepsOf 0 ([.beginCreate once_now mixedWrites] ++ List.replicate 4 .userStep ++
    [.sortOps (mixedOps flag)] ++ List.replicate 2 .userStep)

def handlePlan : List Act := stepsOf 1 (.recvCtrl 0 :: List.replicate 3 .daemonStep)

/-- The writes are transferred by a plan that is used once. -/
def onceSteps : List Act := createPlan true freeOp ++ handlePlan ++ testSteps 0 3 ++ testSteps 1 2

/-- The writes are transferred by a plan that is started and destroyed. -/
def keptSteps : List Act :=
  createPlan false (keepOp ||| keepReq) ++ [.proc 1 (.recvCtrl 0)] ++
    stepsOf 0 (.beginStart 0 :: List.replicate 4 .userStep) ++ handlePlan ++
    testSteps 0 4 ++ testSteps 1 2 ++
    stepsOf 0 (.beginDestroy 0 :: List.replicate 4 .userStep) ++ testSteps 0 1 ++
    [.proc 1 (.recvCtrl 0)]

theorem completed_once : (World.recorded 2 onceSteps).2.Completed :=
  ⟨by decide +kernel, by decide +kernel, by decide +kernel, by decide +kernel⟩

theorem completed_kept : (World.recorded 2 keptSteps).2.Completed :=
  ⟨by decide +kernel, by decide +kernel, by decide +kernel, by decide +kernel⟩

/-- Both ways transfer the same, with the same effect on the flags. -/
theorem execute_eq_create_start_destroy_mixed :
    (∀ q < 2, (transfers q 0 0 0 (World.recorded 2 onceSteps).1).Perm
      (transfers q 0 0 1 (World.recorded 2 keptSteps).1)) ∧
    ∀ q < 2, ∀ f, increment f q 0 0 0 (World.recorded 2 onceSteps).1 =
      increment f q 0 0 1 (World.recorded 2 keptSteps).1 := by
  have hequal := execute_eq_create_start_destroy (World.history_recorded (by decide +kernel))
    (World.history_recorded (by decide +kernel)) completed_once completed_kept
    (show 0 < 2 by decide)
    (show (0, .created 0 true mixedWrites) ∈ (World.recorded 2 onceSteps).1 by decide +kernel)
    (show (0, .created 0 false mixedWrites) ∈ (World.recorded 2 keptSteps).1 by decide +kernel)
    (show (0, .started 0 1) ∈ (World.recorded 2 keptSteps).1 by decide +kernel)
    (by decide +kernel)
  exact ⟨hequal.1, hequal.2.2.1⟩

end Unr.Mpi
