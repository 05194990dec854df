import Unr.Mpi.Cluster
import Unr.Core.SignalRuns
import Unr.Logic.Progress

/-!
A signal over several channels, and the data behind it.

The parts of a send travel on different channels and are applied to the flag in
any order. Between a reset and the time when the check of the signal finds it
triggered, no channel has an operation for the flag left, and the data of every
receive that counts for it are in place.
-/

namespace Unr.Core

open Unr.Uru Unr.Logic

theorem exists_map_eq_of_perm {α β : Type} {f : α → β} {xs : List α} {ys : List β}
    (h : ys.Perm (xs.map f)) : ∃ zs : List α, zs.map f = ys ∧ zs.Perm xs := by
  have hvals : List.Forall₂ (fun y x => y = f x) (xs.map f) xs := by
    rw [← List.forall₂_map_right_iff, List.forall₂_eq_eq_eq]
  obtain ⟨zs, hzs, hperm⟩ := List.perm_comp_forall₂ h hvals
  rw [← List.forall₂_map_right_iff, List.forall₂_eq_eq_eq] at hzs
  exact ⟨zs, hzs.symm, hperm⟩

theorem applyParts_sum (flag : UruFlag) (ps : List Part) :
    (applyParts flag ps).counter = flag.counter + (ps.map Part.sig_add).sum := by
  induction ps generalizing flag with
  | nil => simp
  | cons p ps ih =>
      rw [applyParts_cons, ih, UruFlag.add_counter, List.map_cons, List.sum_cons, add_assoc]

/-- Amounts are added to the flag of a signal, others have still to be added,
and all of them are those of parts of its sends: the counter is zero exactly
when nothing is left to add and no part is missing. -/
theorem Fresh.sum_eq_zero_iff {N : Nat} {flag : UruFlag} {sends : List Send}
    {added left : List (BitVec 64)} (hfresh : Fresh flag N) (hlt : N < 2 ^ 31)
    (hsends : sends.length = N) (hfew : (sends.map fun s => s.non_zeros - 1).sum < 2 ^ 32)
    (hparts : (added ++ left).Subperm ((sends.flatMap Send.parts).map Part.sig_add)) :
    flag.counter + added.sum = 0#64 ↔
      left = [] ∧ (added ++ left).Perm ((sends.flatMap Send.parts).map Part.sig_add) := by
  obtain ⟨here, hhere, hsub⟩ := hparts
  obtain ⟨missing, hmissing⟩ := hsub.exists_perm_append
  replace hmissing := hmissing.trans (hhere.append_right missing)
  obtain ⟨zs, hzs, hperm⟩ := exists_map_eq_of_perm hmissing.symm
  rw [List.append_assoc, List.map_eq_append_iff] at hzs
  obtain ⟨ps, rest, rfl, rfl, hrest⟩ := hzs
  have hround := hfresh.counter_eq_zero_iff (r := ⟨sends, ps ++ rest, hperm⟩) hlt
    ⟨hsends, hfew⟩ rfl
  rw [applyParts_sum] at hround
  rw [hround, ← List.map_eq_nil_iff (f := Part.sig_add), hrest, List.append_eq_nil_iff]
  refine and_congr_right fun hleft => ?_
  constructor
  · rintro rfl
    rw [List.append_nil] at hmissing
    exact hmissing.symm
  · intro hall
    have hlen := (hall.trans hmissing).length_eq
    simp only [List.length_append] at hlen
    exact List.length_eq_zero_iff.mp (by omega)

end Unr.Core

namespace Unr.Mpi

open Unr.Uru Unr.Logic Unr.Core

def MpiOp.counts (f : Nat) (op : MpiOp) : Bool := decide (op.flag_p = some f)

def amountsOf (f : Nat) (xs : List Posting) : List (BitVec 64) :=
  (xs.filter fun x => x.op.counts f).map fun x => x.op.flag_add

namespace Cluster

/-- Nothing but the channels changes flag `f` of process `q`, and the user
takes back no buffer of a receive that counts for it. -/
def spares (q f : Nat) (s : Cluster) : Nat × MemAct → Bool
  | (c, .env p _ flags) => decide (p = q → flags f = ((s.chan c).world.procs q).flags f)
  | (_, .take p e) => decide (¬ (p = q ∧ e.op.counts f))
  | (_, .chan _) | (_, .readByte _ _) | (_, .writeByte _ _) => true

def since (s₀ s : Cluster) (c : Nat) : List (Nat × Event) :=
  (s.chan c).events.drop (s₀.chan c).events.length

/-- What the operations that process `q` has posted since an earlier state are
to add to flag `f`. -/
def amounts (n q f : Nat) (s₀ s : Cluster) : List (BitVec 64) :=
  (List.range n).flatMap fun c => amountsOf f (postings q (since s₀ s c))

def Live (n : Nat) (s : Cluster) : Prop := ∀ c < n, ∀ p, ((s.chan c).world.procs p).halted = none

end Cluster

/-! ### One channel -/

section Channel

variable {s : MemWorld} {q f : Nat}

theorem MemWorld.Base.postings_perm (h : s.Base) (q : Nat) :
    ((applied q s.events ++ (s.world.procs q).unapplied).filterMap Entry.posting).Perm
      (postings q s.events) := by
  have hfst := (h.entries q).map Prod.fst
  rw [numbered_map_fst, List.map_filterMap] at hfst
  have hsame : (fun e : Entry => e.numbered.map Prod.fst) = Entry.posting := by
    funext e
    cases hposting : e.posting <;> simp [Entry.numbered, hposting]
  rwa [hsame] at hfst

/-- What entries without a counting control message add. -/
theorem addedBy_eq_sum {es : List Entry} (h : ∀ e ∈ es, e.side = .ctrl → e.op.flag_p = none) :
    addedBy f es = (amountsOf f (es.filterMap Entry.posting)).sum := by
  induction es with
  | nil => rfl
  | cons e es ih =>
      have hes := ih fun e' he' => h e' (List.mem_cons_of_mem _ he')
      have hsplit : addedBy f (e :: es) = addedBy f [e] + addedBy f es := addedBy_append f [e] es
      rw [hsplit, hes, addedBy_singleton]
      have hposting : ∀ x, e.posting = some x → x.op = e.op → amountsOf f
          ((e :: es).filterMap Entry.posting) =
            if e.op.flag_p = some f then
              e.op.flag_add :: amountsOf f (es.filterMap Entry.posting)
            else amountsOf f (es.filterMap Entry.posting) := by
        intro x hx hop
        rw [List.filterMap_cons, hx]
        by_cases hflag : e.op.flag_p = some f <;> simp [amountsOf, MpiOp.counts, hop, hflag]
      match hside : e.side with
      | .ctrl =>
          have hnone := h e (List.mem_cons_self ..) hside
          have hno : e.posting = none := by simp [Entry.posting, hside]
          simp [hno, hnone]
      | .own =>
          rw [hposting ⟨true, e.op, e.write⟩ (by simp [Entry.posting, hside]) rfl]
          split <;> simp
      | .peer =>
          rw [hposting ⟨false, e.op, e.write⟩ (by simp [Entry.posting, hside]) rfl]
          split <;> simp

/-- The operations that count for a flag, posted since a state in which none
was in hand: some are applied, the others are in hand now. -/
theorem MemWorld.Base.since_perm {s₀ : MemWorld} (hs₀ : s₀.Base) (hs : s.Base)
    {new : List (Nat × Event)} (hev : s.events = s₀.events ++ new)
    (hclear : ∀ e ∈ (s₀.world.procs q).unapplied, e.op.counts f = false) :
    (((applied q new ++ (s.world.procs q).unapplied).filterMap Entry.posting).filter
      fun x => x.op.counts f).Perm ((postings q new).filter fun x => x.op.counts f) := by
  have hold := (hs₀.postings_perm q).filter fun x => x.op.counts f
  have hnow := (hs.postings_perm q).filter fun x => x.op.counts f
  have hnone : ((s₀.world.procs q).unapplied.filterMap Entry.posting).filter
      (fun x => x.op.counts f) = [] := by
    rw [List.filter_eq_nil_iff]
    intro x hx
    obtain ⟨e, he, hposting⟩ := List.mem_filterMap.mp hx
    have hop : x.op = e.op := by
      obtain ⟨op, side, write, pos⟩ := e
      cases side <;> cases hposting <;> rfl
    rw [hop, hclear e he]
    exact Bool.false_ne_true
  rw [List.filterMap_append, List.filter_append, hnone, List.append_nil] at hold
  rw [hev, applied_append, postings_append, List.append_assoc, List.filterMap_append,
    List.filter_append, List.filter_append] at hnow
  exact (List.perm_append_left_iff _).mp ((hold.symm.append_right _).trans hnow)

theorem amountsOf_perm {s₀ : MemWorld} (hs₀ : s₀.Base) (hs : s.Base)
    {new : List (Nat × Event)} (hev : s.events = s₀.events ++ new)
    (hclear : ∀ e ∈ (s₀.world.procs q).unapplied, e.op.counts f = false) :
    (amountsOf f ((applied q new).filterMap Entry.posting) ++
      amountsOf f ((s.world.procs q).unapplied.filterMap Entry.posting)).Perm
      (amountsOf f (postings q new)) := by
  have hperm := (hs₀.since_perm hs hev hclear).map fun x => x.op.flag_add
  rwa [List.filterMap_append, List.filter_append, List.map_append] at hperm

end Channel

/-! ### All channels -/

namespace Cluster

section Since

variable {n q f : Nat} {s₀ s : Cluster} {C : Cluster → Nat × MemAct → Prop}

theorem step_chan_events {a : Nat × MemAct} {s' : Cluster} (hstep : s.step n a = some s')
    (c : Nat) :
    (s'.chan c).events =
      (s.chan c).events ++ if c = a.1 then (s.chan a.1).reports a.2 else [] := by
  obtain ⟨-, t, ht, hself, hother⟩ := step_eq_some hstep
  by_cases hc : c = a.1
  · rw [if_pos hc, hc, hself]
    exact MemWorld.step_events ht
  · rw [if_neg hc, List.append_nil, hother c hc]
    rcases follow_step (s.chan c) t a.2 with hsame | ⟨p, -, hfollow⟩
    · rw [hsame]
    · rw [MemWorld.step_events hfollow]
      exact List.append_nil _

theorem events_run (hrun : Run (step n) C s₀ s) (c : Nat) :
    (s.chan c).events = (s₀.chan c).events ++ since s₀ s c := by
  have hprefix : (s₀.chan c).events <+: (s.chan c).events := by
    refine hrun.invariant (I := fun s => (s₀.chan c).events <+: (s.chan c).events)
      (List.prefix_refl _) fun s a s' _ ih _ hstep => ?_
    rw [step_chan_events hstep]
    exact ih.trans (List.prefix_append _ _)
  rw [since]
  exact (List.prefix_iff_eq_append.mp hprefix).symm

theorem since_step (hrun : Run (step n) C s₀ s) {a : Nat × MemAct} {s' : Cluster} (hC : C s a)
    (hstep : s.step n a = some s') (c : Nat) :
    since s₀ s' c = since s₀ s c ++ if c = a.1 then (s.chan a.1).reports a.2 else [] := by
  have hnow := events_run (.snoc hrun hC hstep) c
  rw [step_chan_events hstep, events_run hrun c, List.append_assoc] at hnow
  exact (List.append_cancel_left hnow).symm

theorem live_step {a : Nat × MemAct} {s' : Cluster} (hstep : s.step n a = some s')
    (hlive : s'.Live n) : s.Live n := by
  obtain ⟨-, t, ht, hself, hother⟩ := step_eq_some hstep
  intro c hc p
  have hp := hlive c hc p
  by_cases heq : c = a.1
  · rw [heq, hself] at hp
    exact heq ▸ MemWorld.live_of_step ht hp
  · rw [hother c heq] at hp
    rcases follow_step (s.chan c) t a.2 with hsame | ⟨r, -, hfollow⟩
    · rwa [hsame] at hp
    · exact MemWorld.live_of_step hfollow hp

theorem live_run (hrun : Run (step n) C s₀ s) (hlive : s.Live n) : s₀.Live n :=
  hrun.invariant (I := fun s => s.Live n → s₀.Live n) id
    (fun _ _ _ _ ih _ hstep hlive => ih (live_step hstep hlive)) hlive

theorem sum_add_at {g : Nat → BitVec 64} {d : BitVec 64} {k : Nat} (hk : k < n) :
    ((List.range n).map fun c => g c + if c = k then d else 0).sum =
      ((List.range n).map g).sum + d := by
  rw [List.sum_map_add, List.sum_map_ite_eq, List.count_eq_one_of_mem List.nodup_range
    (List.mem_range.mpr hk)]
  simp

theorem counter_run {size : Nat} {flags : Nat → Nat → UruFlag} {mem : Nat → Nat → UInt8}
    {D : Cluster → Nat × MemAct → Prop} (hrun₀ : Run (step n) D (init size flags mem) s₀)
    (hspares : ∀ s a, C s a → s.spares q f a = true) (hrun : Run (step n) C s₀ s)
    (hlive : s.Live n) (c : Nat) :
    (((s.chan c).world.procs q).flags f).counter = (((s₀.chan c).world.procs q).flags f).counter +
      ((List.range n).map fun c => addedBy f (applied q (since s₀ s c))).sum := by
  refine hrun.invariant (I := fun s => s.Live n →
    ∀ c, (((s.chan c).world.procs q).flags f).counter =
    (((s₀.chan c).world.procs q).flags f).counter +
      ((List.range n).map fun c => addedBy f (applied q (since s₀ s c))).sum) ?_ ?_ hlive c
  · intro _ c
    have hnone : ∀ c, since s₀ s₀ c = [] := fun c => by rw [since, List.drop_length]
    simp [hnone, applied, eventsAt, addedBy]
  intro s a s' hreach ih hC hstep hlive c
  obtain ⟨hlt, t, ht, hself, -⟩ := step_eq_some hstep
  have hwhole : Run (step n) (fun _ _ => True) (init size flags mem) s' :=
    (hrun₀.mono fun _ _ _ => trivial).trans (.snoc (hreach.mono fun _ _ _ => trivial) trivial hstep)
  have hbegin := agree_run hrun₀ c a.1 q
  have hcounter := MemWorld.step_counter ht (hself ▸ hlive a.1 hlt q) f (by
    intro mem' flags' ha
    have hrule := hspares s a hC
    obtain ⟨k, ma⟩ := a
    obtain rfl : ma = _ := ha
    exact of_decide_eq_true hrule rfl)
  have hadded : ∀ c, addedBy f (applied q (since s₀ s' c)) = addedBy f (applied q (since s₀ s c)) +
      if c = a.1 then addedBy f (applied q ((s.chan a.1).reports a.2)) else 0 := by
    intro c
    rw [since_step hreach hC hstep c, applied_append, addedBy_append]
    split <;> rfl
  rw [(agree_run hwhole c a.1 q).2, hself, hcounter, ih (live_step hstep hlive) a.1, hbegin.2,
    List.map_congr_left fun c _ => hadded c, sum_add_at hlt, add_assoc]

end Since

/-! ### When the check finds the signal triggered -/

theorem posting_eq_some {e : Entry} {x : Posting} (h : e.posting = some x) :
    e.side ≠ .ctrl ∧ x.op = e.op ∧ x.write = e.write := by
  obtain ⟨op, side, write, pos⟩ := e
  cases side with
  | ctrl => cases h
  | own | peer =>
      cases h
      exact ⟨by simp, rfl, rfl⟩

theorem amountsOf_eq_nil_iff {f : Nat} {es : List Entry}
    (hctrl : ∀ e ∈ es, e.side = .ctrl → e.op.flag_p = none) :
    amountsOf f (es.filterMap Entry.posting) = [] ↔ ∀ e ∈ es, e.op.counts f = false := by
  rw [amountsOf, List.map_eq_nil_iff, List.filter_eq_nil_iff]
  constructor
  · intro hall e he
    by_cases hside : e.side = .ctrl
    · simp [MpiOp.counts, hctrl e he hside]
    · obtain ⟨x, hx, hop, -⟩ := numbered_isSome hside
      obtain ⟨x', hx', heq⟩ := Option.map_eq_some_iff.mp hx
      cases heq
      simpa [hop] using hall x (List.mem_filterMap.mpr ⟨e, he, hx'⟩)
  · intro hall x hx
    obtain ⟨e, he, hposting⟩ := List.mem_filterMap.mp hx
    simp [(posting_eq_some hposting).2.1, hall e he]

section Triggered

variable {n size q f N : Nat} {flags : Nat → Nat → UruFlag} {mem : Nat → Nat → UInt8}
  {s₀ s : Cluster} {sends : List Send} {C : Cluster → Nat × MemAct → Prop}

theorem invariants (hrun : Run (step n) (fun s a => s.undisturbed n a = true)
    (init size flags mem) s) (hlive : s.Live n) {c : Nat} (hc : c < n) :
    (s.chan c).Base ∧ (s.chan c).Data :=
  MemWorld.run (chan_run hrun hc) fun p _ => hlive c hc p

/-- The counter of the signal when it has been fresh in `s₀` and the parts of
`sends` are the only operations since then that count for it. -/
theorem counter_eq_zero_iff (hrun₀ : Run (step n) (fun s a => s.undisturbed n a = true)
      (init size flags mem) s₀)
    (hC : ∀ s a, C s a → s.undisturbed n a = true ∧ s.spares q f a = true)
    (hrun : Run (step n) C s₀ s) (hlive : s.Live n)
    (hfresh : Fresh (((s₀.chan 0).world.procs q).flags f) N) (hlt : N < 2 ^ 31)
    (hclear : ∀ c < n, ∀ e ∈ ((s₀.chan c).world.procs q).unapplied, e.op.counts f = false)
    (hsends : sends.length = N) (hfew : (sends.map fun s => s.non_zeros - 1).sum < 2 ^ 32)
    (hposted : (amounts n q f s₀ s).Subperm ((sends.flatMap Send.parts).map Part.sig_add)) :
    (((s.chan 0).world.procs q).flags f).counter = 0#64 ↔
      (∀ c < n, ∀ e ∈ ((s.chan c).world.procs q).unapplied, e.op.counts f = false) ∧
        (amounts n q f s₀ s).Perm ((sends.flatMap Send.parts).map Part.sig_add) := by
  have hlive₀ := live_run hrun hlive
  have hbase₀ : ∀ c < n, (s₀.chan c).Base := fun c hc => (invariants hrun₀ hlive₀ hc).1
  have hbase : ∀ c < n, (s.chan c).Base := fun c hc =>
    (invariants (hrun₀.trans (hrun.mono fun s a h => (hC s a h).1)) hlive hc).1
  set added := (List.range n).flatMap fun c =>
    amountsOf f ((applied q (since s₀ s c)).filterMap Entry.posting) with hadded
  set left := (List.range n).flatMap fun c =>
    amountsOf f (((s.chan c).world.procs q).unapplied.filterMap Entry.posting) with hleft
  have hperm : (added ++ left).Perm (amounts n q f s₀ s) := by
    refine (List.flatMap_append_perm _ _ _).trans (List.Perm.flatMap_left _ fun c hc => ?_)
    have hc' := List.mem_range.mp hc
    exact amountsOf_perm (hbase₀ c hc') (hbase c hc') (events_run hrun c) (hclear c hc')
  -- what the channels have applied is what was to be added by it
  have hsum : (((s.chan 0).world.procs q).flags f).counter =
      (((s₀.chan 0).world.procs q).flags f).counter + added.sum := by
    rw [counter_run hrun₀ (fun s a h => (hC s a h).2) hrun hlive 0, hadded, List.flatMap_def,
      List.sum_flatten, List.map_map]
    congr 2
    refine List.map_congr_left fun c hc => ?_
    refine addedBy_eq_sum fun e he => (hbase c (List.mem_range.mp hc)).ctrl q e ?_
    rw [events_run hrun c, applied_append]
    exact List.mem_append_left _ (List.mem_append_right _ he)
  have hnil : left = [] ↔
      ∀ c < n, ∀ e ∈ ((s.chan c).world.procs q).unapplied, e.op.counts f = false := by
    rw [hleft, List.flatMap_eq_nil_iff]
    refine forall_congr' fun c => ?_
    rw [List.mem_range]
    refine forall_congr' fun hc => amountsOf_eq_nil_iff fun e he => ?_
    exact (hbase c hc).ctrl q e (List.mem_append_right _ he)
  rw [hsum, hfresh.sum_eq_zero_iff hlt hsends hfew (hperm.subperm_right.mpr hposted), hnil]
  exact and_congr_right fun _ => ⟨hperm.symm.trans, hperm.trans⟩

end Triggered

end Cluster

end Unr.Mpi
