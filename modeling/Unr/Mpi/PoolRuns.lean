import Unr.Mpi.Numbers

/-!
Tags and ids of batches over whole runs.

At any time the numbers in use are different, from each other and from those
that can be recycled. Over time the events about one number are draws and
returns in turn, and a number is returned at the place that its draw was meant
for. Two processes never use the same tag for writes between them, because
every number carries the rank of the process that drew it.
-/

namespace Unr.Mpi

open Unr.Uru Unr.Logic

/-! ### One draw -/

theorem IntPool.get_fits {size rank num : Nat} {pool pool' : IntPool} (hrank : rank < size)
    (hget : pool.get size rank = .ok (num, pool')) : num < 2 ^ 31 ∧ num % size = rank := by
  obtain ⟨raw, hlt, rfl⟩ : ∃ raw, raw < poolLimit size ∧ num = raw * size + rank := by
    obtain ⟨max, stack⟩ := pool
    cases stack with
    | cons ret stack =>
        simp only [IntPool.get, bind_eq_ok, uruAssert_eq_ok, pure_eq_ok, Prod.mk.injEq] at hget
        obtain ⟨-, hlt, rfl, -⟩ := hget
        exact ⟨ret, hlt, rfl⟩
    | nil =>
        simp only [IntPool.get, bind_eq_ok, uruAssert_eq_ok, pure_eq_ok, Prod.mk.injEq] at hget
        obtain ⟨-, -, -, hlt, rfl, -⟩ := hget
        exact ⟨max, hlt, rfl⟩
  have hbound : (raw + 1) * size ≤ 2100000000 :=
    Nat.le_trans (Nat.mul_le_mul_right size hlt) (Nat.div_mul_le_self _ _)
  rw [Nat.add_mul, Nat.one_mul] at hbound
  exact ⟨by omega, Nat.mul_add_mod_of_lt hrank⟩

def HeldFit (size rank : Nat) (held : List (Nat × Nat)) : Prop :=
  ∀ p ∈ held, p.2 < 2 ^ 31 ∧ p.2 % size = rank

theorem HeldFit.use {size rank : Nat} {pools pools' : Nat → IntPool} {held held' : List (Nat × Nat)}
    (h : HeldFit size rank held) (hrank : rank < size)
    (huse : PoolUse size rank pools held pools' held') : HeldFit size rank held' := by
  cases huse with
  | same hperm => exact fun p hp => h p (hperm.mem_iff.mpr hp)
  | get hget hperm =>
      intro p hp
      rcases List.mem_cons.mp (hperm.mem_iff.mpr hp) with rfl | hp
      · exact IntPool.get_fits hrank hget
      · exact h p hp
  | put _ hperm => exact fun p hp => h p (hperm.mem_iff.mpr (List.mem_cons_of_mem _ hp))

/-! ### The numbers in use at one time -/

/-- The numbers of one kind that process `rank` uses. -/
structure NumbersSafe (size rank : Nat) (pools : Nat → IntPool) (held : List Draw) : Prop where
  /-- Those for one target are different from each other and from those on the
  stack. -/
  distinct : ∀ dst, (tagsTo dst (held.map Draw.pair) ++
    (pools dst).recycle_stack.map (· * size + rank)).Nodup
  /-- The stack holds nothing twice. -/
  stack : ∀ dst, (pools dst).recycle_stack.Nodup
  /-- They fit in an `int` and carry the rank. -/
  fits : ∀ x ∈ held, x.num < 2 ^ 31 ∧ x.num % size = rank
  /-- To return one passes the check and puts back what it was made from. -/
  returns : ∀ x ∈ held, ∃ raw, x.num = raw * size + rank ∧ (pools x.dst).put size rank x.num =
    .ok { pools x.dst with recycle_stack := raw :: (pools x.dst).recycle_stack }

theorem PoolsExact.safe {size rank : Nat} {pools : Nat → IntPool} {held : List Draw}
    (h : PoolsExact size rank pools (held.map Draw.pair)) (hrank : rank < size)
    (hfit : HeldFit size rank (held.map Draw.pair)) : NumbersSafe size rank pools held := by
  have hsize := Nat.zero_lt_of_lt hrank
  have hinj : Function.Injective fun k : Nat => k * size + rank :=
    fun _ _ heq => Nat.eq_of_mul_eq_mul_right hsize (Nat.add_right_cancel heq)
  have hdistinct : ∀ dst, (tagsTo dst (held.map Draw.pair) ++
      (pools dst).recycle_stack.map (· * size + rank)).Nodup :=
    fun dst => (h dst).perm.nodup_iff.mpr ((List.nodup_range' ..).map hinj)
  refine ⟨hdistinct, ?_, ?_, ?_⟩
  · exact fun dst => (List.nodup_append.mp (hdistinct dst)).2.1.of_map _
  · exact fun x hx => hfit _ (List.mem_map_of_mem hx)
  · intro x hx
    have hheld : x.num ∈ tagsTo x.dst (held.map Draw.pair) :=
      List.mem_filterMap.mpr ⟨_, List.mem_map_of_mem hx, if_pos rfl⟩
    have hmem := (h x.dst).perm.mem_iff.mp (List.mem_append_left _ hheld)
    obtain ⟨raw, -, hraw⟩ := List.mem_map.mp hmem
    refine ⟨raw, hraw.symm, ?_⟩
    have hback : (x.num - rank) / size = raw := by
      rw [← hraw, Nat.add_sub_cancel, Nat.mul_div_cancel _ hsize]
    have hres : x.num % size = rank := (hfit _ (List.mem_map_of_mem hx)).2
    simp [IntPool.put, uruAssert, hres, hback]

/-! ### The history of the pools -/

inductive PoolEvent
  | tag (e : LeaseEvent Draw)
  | id (e : LeaseEvent Draw)
  deriving Repr, DecidableEq

def PoolEvent.ofTag : PoolEvent → Option (LeaseEvent Draw)
  | tag e => some e
  | id _ => none

def PoolEvent.ofId : PoolEvent → Option (LeaseEvent Draw)
  | tag _ => none
  | id e => some e

def Proc.poolEvents (size rank : Nat) (proc : Proc) (a : ProcAct) : List PoolEvent :=
  (proc.tagEvents size rank a).map .tag ++ (proc.idEvents size rank a).map .id

/-- A run of `size` processes from the opening of the channel, with everything
that they draw and return. -/
abbrev PoolHistory (size : Nat) (flags : Nat → Nat → UruFlag) :
    List (Nat × PoolEvent) → World → Prop :=
  Recorded World.step (World.report Proc.poolEvents) (World.init size flags)

def tagHistory (q : Nat) (es : List (Nat × PoolEvent)) : List (LeaseEvent Draw) :=
  (located q es).filterMap PoolEvent.ofTag

def idHistory (q : Nat) (es : List (Nat × PoolEvent)) : List (LeaseEvent Draw) :=
  (located q es).filterMap PoolEvent.ofId

/-- The numbers of one kind that process `rank` has drawn and returned. -/
structure NumbersTraced (size rank : Nat) (held : List Draw) (evs : List (LeaseEvent Draw)) :
    Prop where
  /-- Whatever was handed out fits in an `int` and carries the rank. -/
  fits : ∀ x, .take x ∈ evs → x.num < 2 ^ 31 ∧ x.num % size = rank
  /-- A number for one target is drawn and returned in turn, at the place that
  its draw was for, and it is in use after its last draw. -/
  turns : ∀ p : Nat × Nat, life none (evs.filter fun e => e.item.pair = p) =
    some (held.find? (·.pair = p))

section Steps

variable {size rank : Nat} {pools pools' : Nat → IntPool} {held held' : List Draw}
  {es evs : List (LeaseEvent Draw)}

theorem PoolStep.leases (hstep : PoolStep size rank pools held evs pools' held') (hsize : 0 < size)
    (hpools : PoolsOk size rank pools (held.map Draw.pair)) (h : Leases Draw.pair es held) :
    Leases Draw.pair (es ++ evs) held' := by
  cases hstep with
  | same hperm =>
      rw [List.append_nil]
      exact h.of_perm hperm
  | get hget hperm => exact .take h (hpools.get hsize hget).fresh hperm
  | put _ hperm => exact .give h hperm

theorem PoolStep.fits (hstep : PoolStep size rank pools held evs pools' held')
    (hrank : rank < size) :
    ∀ x, .take x ∈ evs → x.num < 2 ^ 31 ∧ x.num % size = rank := by
  intro x hx
  cases hstep with
  | same => exact nomatch hx
  | get hget =>
      cases List.mem_singleton.mp hx
      exact IntPool.get_fits hrank hget
  | put => exact nomatch List.mem_singleton.mp hx

end Steps

structure NumbersLeased (size rank : Nat) (held : List Draw) (evs : List (LeaseEvent Draw)) :
    Prop where
  leases : Leases Draw.pair evs held
  fits : ∀ x, .take x ∈ evs → x.num < 2 ^ 31 ∧ x.num % size = rank

theorem NumbersLeased.step {size rank : Nat} {pools pools' : Nat → IntPool}
    {held held' : List Draw} {es evs : List (LeaseEvent Draw)} {halted : Option Stop}
    (h : NumbersLeased size rank held es) (hrank : rank < size)
    (hpools : PoolsOk size rank pools (held.map Draw.pair))
    (heffect : PoolEffect size rank evs pools held halted pools' held') (hlive : halted = none) :
    NumbersLeased size rank held' (es ++ evs) := by
  obtain ⟨evs', hevs, hstep⟩ := heffect
  obtain rfl := hevs hlive
  refine ⟨hstep.leases (Nat.zero_lt_of_lt hrank) hpools h.leases, fun x hx => ?_⟩
  rcases List.mem_append.mp hx with hx | hx
  · exact h.fits x hx
  · exact hstep.fits hrank x hx

theorem NumbersLeased.traced {size rank : Nat} {held : List Draw} {evs : List (LeaseEvent Draw)}
    (h : NumbersLeased size rank held evs) : NumbersTraced size rank held evs :=
  ⟨h.fits, h.leases.life_eq⟩

@[simp] theorem tags_of_poolEvents {size rank : Nat} {proc : Proc} {a : ProcAct} :
    (proc.poolEvents size rank a).filterMap PoolEvent.ofTag = proc.tagEvents size rank a := by
  simp [Proc.poolEvents, PoolEvent.ofTag, Function.comp_def]

@[simp] theorem ids_of_poolEvents {size rank : Nat} {proc : Proc} {a : ProcAct} :
    (proc.poolEvents size rank a).filterMap PoolEvent.ofId = proc.idEvents size rank a := by
  simp [Proc.poolEvents, PoolEvent.ofId, Function.comp_def]

section Runs

variable {size : Nat} {flags : Nat → Nat → UruFlag} {es : List (Nat × PoolEvent)} {w : World}

theorem PoolHistory.leased (h : PoolHistory size flags es w) {p : Nat}
    (hlive : (w.procs p).halted = none) :
    NumbersLeased size p (w.procs p).heldTags (tagHistory p es) ∧
      NumbersLeased size p (w.procs p).heldIds (idHistory p es) := by
  refine World.report_induct (I := fun p evs proc =>
    NumbersLeased size p proc.heldTags (evs.filterMap PoolEvent.ofTag) ∧
      NumbersLeased size p proc.heldIds (evs.filterMap PoolEvent.ofId)) ?_ ?_ ?_ h p hlive
  · exact fun p => ⟨⟨.nil, fun _ hx => nomatch hx⟩, ⟨.nil, fun _ hx => nomatch hx⟩⟩
  · intro w es rank evs a proc' hrun hinv hrank _ _ hlive' ih hmove
    have hini := hinv.ini rank
    obtain rfl := World.size_run hrun.run
    rw [List.filterMap_append, List.filterMap_append, tags_of_poolEvents, ids_of_poolEvents]
    exact ⟨ih.1.step hrank ((Proc.heldTags_pair _).symm ▸ hini.tags)
        (hmove.tagEffect hini (hinv.daemon rank).tagFree) hlive',
      ih.2.step hrank ((Proc.heldIds_pair _).symm ▸ hini.ids) (hmove.idEffect hini) hlive'⟩
  · intro p evs proc user hrest hrest' ih
    simp only [Proc.heldTags, Proc.heldIds, Proc.batches, hrest.quiet.tagPairs,
      hrest.quiet.batches] at ih
    simp only [Proc.heldTags, Proc.heldIds, Proc.batches, hrest'.quiet.tagPairs,
      hrest'.quiet.batches]
    exact ih

/-- In every run, at every time: the tags and the ids of batches that a process
uses are different from each other and from those it can recycle, fit in an
`int`, carry its rank and can be returned; as long as the process runs, each is
drawn and returned in turn, at the place it was drawn for, and once the process
has neither plans nor operations all are returned; and the tags of two
processes for writes between them are different. -/
theorem numbers_unique (h : PoolHistory size flags es w) :
    (∀ p < size, NumbersSafe size p (w.procs p).mpi_tag (w.procs p).heldTags ∧
      NumbersSafe size p (w.procs p).batch_id (w.procs p).heldIds) ∧
    (∀ p < size, (w.procs p).halted = none →
      NumbersTraced size p (w.procs p).heldTags (tagHistory p es) ∧
        NumbersTraced size p (w.procs p).heldIds (idHistory p es) ∧
        ((w.procs p).user = .idle → (w.procs p).plans = [] → (w.procs p).queue = [] →
          (w.procs p).daemon = .drain →
            (w.procs p).heldTags = [] ∧ (w.procs p).heldIds = [])) ∧
    ∀ p < size, ∀ q < size, p ≠ q →
      (tagsTo q (w.procs p).heldPairs ++ tagsTo p (w.procs q).heldPairs).Nodup := by
  obtain rfl := World.size_run h.run
  have hsafe : ∀ p < w.size, NumbersSafe w.size p (w.procs p).mpi_tag (w.procs p).heldTags ∧
      NumbersSafe w.size p (w.procs p).batch_id (w.procs p).heldIds := by
    intro p hp
    have hexact := World.numbers_run h.run p
    obtain ⟨htags, hids⟩ := World.pools_run (P := fun size rank _ held =>
      rank < size → HeldFit size rank held) (fun _ _ _ _ hx => nomatch hx)
      (fun _ h huse hrank => (h hrank).use hrank huse) h.run p
    have hexact_tags := hexact.tags
    have hexact_ids := hexact.ids
    have htags := htags hp
    have hids := hids hp
    rw [← Proc.heldTags_pair] at hexact_tags htags
    rw [← Proc.heldIds_pair] at hexact_ids hids
    exact ⟨hexact_tags.safe hp htags, hexact_ids.safe hp hids⟩
  refine ⟨hsafe, ?_, ?_⟩
  · intro p _ hlive
    obtain ⟨htags, hids⟩ := PoolHistory.leased h hlive
    refine ⟨htags.traced, hids.traced, fun huser hplans hqueue hdaemon => ?_⟩
    simp [Proc.heldTags, Proc.heldIds, Proc.batches, huser, hplans, hqueue, hdaemon,
      UserPhase.tagPairs, UserPhase.batches, DaemonPhase.entries]
  · intro p hp q hq hne
    have hini := (World.inv_run h.run).ini
    refine List.nodup_append.mpr ⟨(hini p).tags.nodup q, (hini q).tags.nodup p, ?_⟩
    rintro num hnum _ hnum' rfl
    have hmod := ((hini p).tags q).mod_eq hp hnum
    exact hne (hmod.symm.trans (((hini q).tags p).mod_eq hq hnum'))

end Runs

/-- Process 0 writes once to process 1, then both create a plan that writes to
the other. -/
def drawnTwice : List Act :=
  [.proc 0 (.beginCreate true [sampleWrite .dmaPut 0 1]), .proc 0 .userStep, .proc 0 .userStep,
    .proc 0 (.sortOps [(sampleWrite .dmaPut 0 1).recvOp freeOp 0 0 2]), .proc 0 .userStep,
    .proc 0 .userStep, .proc 0 (.testSome [true, true]), .proc 0 .daemonStep, .proc 0 .daemonStep,
    .proc 0 (.beginCreate false [sampleWrite .dmaPut 0 1]), .proc 0 .userStep,
    .proc 1 (.beginCreate false [sampleWrite .dmaPut 1 0]), .proc 1 .userStep]

/-- The tag of the write is returned by the daemon and drawn again. -/
theorem numbers_unique_drawnTwice :
    ∃ es w, PoolHistory 2 (fun _ _ => ⟨0, none, 0, 0⟩) es w ∧
      tagHistory 0 es = [.take ⟨true, 1, 2⟩, .give ⟨true, 1, 2⟩, .take ⟨false, 1, 2⟩] ∧
      life none ((tagHistory 0 es).filter fun e => e.item.pair = (1, 2)) =
        some (some ⟨false, 1, 2⟩) ∧
      (tagsTo 1 (w.procs 0).heldPairs ++ tagsTo 0 (w.procs 1).heldPairs).Nodup ∧
      tagsTo 1 (w.procs 0).heldPairs ++ tagsTo 0 (w.procs 1).heldPairs = [2, 3] := by
  have hreached : (record World.step (World.report Proc.poolEvents)
      (World.init 2 fun _ _ => ⟨0, none, 0, 0⟩) drawnTwice).map (fun r => decide
        (tagHistory 0 r.1 = [.take ⟨true, 1, 2⟩, .give ⟨true, 1, 2⟩, .take ⟨false, 1, 2⟩] ∧
          (r.2.procs 0).halted = none ∧ (r.2.procs 0).heldTags = [⟨false, 1, 2⟩] ∧
          tagsTo 1 (r.2.procs 0).heldPairs ++ tagsTo 0 (r.2.procs 1).heldPairs = [2, 3])) =
      some true := by decide +kernel
  obtain ⟨⟨es, w⟩, hrecord, hw⟩ := Option.map_eq_some_iff.mp hreached
  obtain ⟨htags, hlive, hheld, hpairs⟩ := of_decide_eq_true hw
  have hrun : PoolHistory 2 (fun _ _ => ⟨0, none, 0, 0⟩) es w := Recorded.of_record hrecord
  obtain ⟨-, htraced, hdistinct⟩ := numbers_unique hrun
  have hturns := (htraced 0 (by decide) hlive).1.turns (1, 2)
  rw [hheld] at hturns
  exact ⟨es, w, hrun, htags, hturns, hdistinct 0 (by decide) 1 (by decide) (by decide), hpairs⟩

end Unr.Mpi
