import Unr.Verbs.Credits

/-!
The arrays that the daemons of all verbs channels share.

`uri_verbs_channel_daemon` has two static arrays, one for polled completions and
one for the receives that it posts again. They are allocated by the first call,
with the attributes of the device that this call is for, and used by the calls
for all other devices with the attributes of those. The system here has any
number of verbs channels. The daemon thread of a process is in the call for one
of them at a time, while the other threads, the NICs and the network go on with
all of them.
-/

namespace Unr.Verbs

open Unr.Uru Unr.Logic
open Unr.Mpi (MemInfo)

/-! ### The static arrays -/

structure Scratch where
  /-- The number of entries of `wc`. -/
  wc : Nat
  /-- `wr[i].next`, as the index it points to. -/
  wr : List (Option Nat)
  /-- Ghost: the channel of the call that has allocated them. -/
  chan : Nat
  deriving Repr, DecidableEq

def chained (n : Nat) : List (Option Nat) := (List.range n).map fun i => some (i + 1)

def Scratch.alloc (chan : Nat) (dev_attr : IbvDeviceAttr) : Scratch where
  wc := dev_attr.max_cqe
  wr := chained dev_attr.max_srq_wr
  chan := chan

/-- The receives that `ibv_post_srq_recv` finds from a pointer on. The first
argument bounds their number. -/
def follow (wr : List (Option Nat)) : Nat → Option Nat → Prog (List Nat)
  | _, none => .ok []
  | 0, some _ => .error .diverges
  | n + 1, some p => do
      let next ← fetch wr p
      let rest ← follow wr n next
      return p :: rest

/-- The chain is cut behind `num_wr` receives, posted and mended. The result has
the receives that have been posted. -/
def Scratch.post (scratch : Scratch) (num_wr : Nat) : Prog (List Nat × Scratch) := do
  let wr ← store scratch.wr (num_wr - 1) none
  let posted ← follow wr (wr.length + 1) (some 0)
  let wr ← store wr (num_wr - 1) (some num_wr)
  return (posted, { scratch with wr := wr })

/-! ### The channels -/

/-- The call that the daemon thread of a process is in. -/
structure Serving where
  chan : Nat
  /-- `ibv_poll_cq` has returned no completion. -/
  done : Bool
  deriving Repr, DecidableEq

/-- The verbs channels, each with its NICs, and what the daemon threads of the
processes have of their own. -/
structure MultiWorld where
  channels : Nat → World
  scratch : Nat → Option Scratch
  serving : Nat → Option Serving

/-- A step of a daemon thread at the begin or the end of a call, or a step of a
channel. -/
inductive MultiAct
  | call (rank chan : Nat)
  | ret (rank : Nat)
  | step (chan : Nat) (a : Act)
  deriving Repr, DecidableEq

/-- A use of one of the arrays. -/
inductive ScratchUse
  /-- `ibv_poll_cq(cq, num_entries, wc)`, with `wc` of the given size. -/
  | poll (num_entries wc : Nat)
  /-- `num_wr` receives are posted. -/
  | post (num_wr : Nat) (scratch : Scratch)
  deriving Repr, DecidableEq

namespace MultiWorld

def init (size : Nat) (flag_pool : FlagPool) (lkey rkey : MemInfo → BitVec 32)
    (dev_attr : Nat → Nat → IbvDeviceAttr) (flags : Nat → Nat → UruFlag) : MultiWorld where
  channels := fun chan => .init size flag_pool lkey rkey (dev_attr chan) flags
  scratch := fun _ => none
  serving := fun _ => none

def devAttr (s : MultiWorld) (chan rank : Nat) : IbvDeviceAttr :=
  ((s.channels chan).procs rank).dev_attr

def update (s : MultiWorld) (chan : Nat) (w : World) : MultiWorld :=
  { s with channels := fun chan' =>
      if chan' = chan then w
      else { s.channels chan' with procs := fun rank => { (s.channels chan').procs rank with
        flags := (w.procs rank).flags
        pushed := (w.procs rank).pushed
        halted := (w.procs rank).halted } } }

def halt (s : MultiWorld) (chan rank : Nat) (stop : Stop) : MultiWorld :=
  s.update chan ((s.channels chan).setProc rank (((s.channels chan).procs rank).halt stop))

/-- `uri_verbs_channel_daemon` is entered, and allocates the arrays if they are
not there. -/
def enter (s : MultiWorld) (rank chan : Nat) : MultiWorld :=
  { s with
    scratch := Function.update s.scratch rank
      (some ((s.scratch rank).getD (.alloc chan (s.devAttr chan rank))))
    serving := Function.update s.serving rank (some ⟨chan, false⟩) }

/-- `ibv_poll_cq`. Completions behind the end of `wc` are undefined. -/
def poll (s : MultiWorld) (chan rank num_complete : Nat) (scratch : Scratch) :
    Option MultiWorld :=
  ((s.channels chan).step (.proc rank (.poll num_complete))).map fun w =>
    if num_complete ≤ scratch.wc then
      { s.update chan w with
        serving := Function.update s.serving rank (some ⟨chan, num_complete == 0⟩) }
    else s.halt chan rank .undefined

/-- The end of the loop over the completions: `num_wr` receives are posted, as
many as the chain has. -/
def repost (s : MultiWorld) (chan rank num_wr : Nat) (scratch : Scratch) : MultiWorld :=
  let w := s.channels chan
  let proc := w.procs rank
  if num_wr = 0 then s.update chan (w.setProc rank { proc with daemon := .idle })
  else
    match scratch.post num_wr with
    | .ok (posted, scratch) =>
        { s.update chan
            (w.setProc rank { proc with srq := proc.srq + posted.length, daemon := .idle }) with
          scratch := Function.update s.scratch rank (some scratch) }
    | .error stop => s.halt chan rank stop

/-- A step of the daemon thread inside the call for a channel. -/
def daemonStep (s : MultiWorld) (chan rank : Nat) (scratch : Scratch) : Option MultiWorld :=
  match ((s.channels chan).procs rank).daemon with
  | .handling [] num_wr =>
      ((s.channels chan).step (.proc rank .daemonStep)).map fun _ =>
        s.repost chan rank num_wr scratch
  | _ => ((s.channels chan).step (.proc rank .daemonStep)).map (s.update chan)

def step (s : MultiWorld) : MultiAct → Option MultiWorld
  | .call rank chan =>
      if rank < (s.channels chan).size ∧ ((s.channels chan).procs rank).halted = none ∧
          s.serving rank = none then some (s.enter rank chan)
      else none
  | .ret rank =>
      match s.serving rank with
      | some ⟨chan, true⟩ =>
          if ((s.channels chan).procs rank).daemon = .idle then
            some { s with serving := Function.update s.serving rank none }
          else none
      | _ => none
  | .step chan (.proc rank (.poll num_complete)) =>
      match s.serving rank, s.scratch rank with
      | some serving, some scratch =>
          if serving = ⟨chan, false⟩ then s.poll chan rank num_complete scratch else none
      | _, _ => none
  | .step chan (.proc rank .daemonStep) =>
      match s.serving rank, s.scratch rank with
      | some serving, some scratch =>
          if serving.chan = chan then s.daemonStep chan rank scratch else none
      | _, _ => none
  | .step chan a => ((s.channels chan).step a).map (s.update chan)

def uses (s : MultiWorld) : MultiAct → List ScratchUse
  | .step chan (.proc rank (.poll _)) =>
      (s.scratch rank).toList.map fun scratch => .poll (s.devAttr chan rank).max_cqe scratch.wc
  | .step chan (.proc rank .daemonStep) =>
      match ((s.channels chan).procs rank).daemon with
      | .handling [] num_wr =>
          if num_wr = 0 then [] else (s.scratch rank).toList.map (.post num_wr)
      | _ => []
  | _ => []

end MultiWorld

/-- A device needs no more of the arrays than another. No more completions are
polled at once than `max_cqe`, and no more receives are used than
`max_srq_wr`. -/
def IbvDeviceAttr.NeedsAtMost (attr first : IbvDeviceAttr) : Prop :=
  attr.max_cqe ≤ first.max_cqe ∧
    (attr.max_cqe ≤ first.max_srq_wr ∨ attr.max_srq_wr ≤ first.max_srq_wr)

instance (attr first : IbvDeviceAttr) : Decidable (attr.NeedsAtMost first) :=
  inferInstanceAs (Decidable (_ ∧ (_ ∨ _)))

/-- The first call allocates what its own device needs. -/
theorem IbvDeviceAttr.NeedsAtMost.refl (attr : IbvDeviceAttr) : attr.NeedsAtMost attr :=
  ⟨Nat.le_refl _, .inr (Nat.le_refl _)⟩

/-- A call is only made for a device that needs no more than the one of the
first call. -/
def MultiWorld.NoLarger (s : MultiWorld) : MultiAct → Prop
  | .call rank chan => ∀ scratch ∈ s.scratch rank,
      (s.devAttr chan rank).NeedsAtMost (s.devAttr scratch.chan rank)
  | _ => True

instance (s : MultiWorld) (a : MultiAct) : Decidable (s.NoLarger a) :=
  match a with
  | .call _ _ =>
      inferInstanceAs (Decidable (∀ scratch ∈ _, IbvDeviceAttr.NeedsAtMost _ _))
  | .ret _ | .step _ _ => inferInstanceAs (Decidable True)

/-- A use stays inside the arrays: no more completions are asked for than there
are entries, and exactly `num_wr` receives are posted, from the start of `wr`
on, which is afterwards as it was. -/
def ScratchUse.Fits : ScratchUse → Prop
  | .poll num_entries wc => num_entries ≤ wc
  | .post num_wr scratch =>
      num_wr ≤ scratch.wr.length ∧ scratch.post num_wr = .ok (List.range num_wr, scratch)

/-! ### The chain -/

section

variable {n num_wr : Nat}

@[simp] theorem length_chained : (chained n).length = n := by simp [chained]

theorem getElem?_chained {i : Nat} (hi : i < n) : (chained n)[i]? = some (some (i + 1)) := by
  simp [chained, hi]

/-- From receive `k` on, the chain goes up to the cut. -/
theorem follow_cut (hpos : 0 < num_wr) (hle : num_wr ≤ n) {k fuel : Nat} (hk : k < num_wr)
    (hfuel : num_wr - k ≤ fuel) :
    follow ((chained n).set (num_wr - 1) none) fuel (some k) =
      .ok (List.range' k (num_wr - k)) := by
  obtain ⟨d, hd⟩ : ∃ d, num_wr - k = d + 1 := ⟨num_wr - k - 1, by omega⟩
  induction d generalizing k fuel with
  | zero =>
      obtain ⟨fuel, rfl⟩ : ∃ m, fuel = m + 1 := ⟨fuel - 1, by omega⟩
      have hlast : k = num_wr - 1 := by omega
      have hnext : ((chained n).set (num_wr - 1) none)[k]? = some none := by
        rw [hlast, List.getElem?_set_self (by rw [length_chained]; omega)]
      rw [follow, fetch_eq_ok.mpr hnext, ok_bind, hd]
      cases fuel <;> rfl
  | succ d ih =>
      obtain ⟨fuel, rfl⟩ : ∃ m, fuel = m + 1 := ⟨fuel - 1, by omega⟩
      have hnext : ((chained n).set (num_wr - 1) none)[k]? = some (some (k + 1)) := by
        rw [List.getElem?_set_ne (by omega), getElem?_chained (by omega)]
      have hrest : follow ((chained n).set (num_wr - 1) none) fuel (some (k + 1)) =
          .ok (List.range' (k + 1) (num_wr - (k + 1))) := ih (by omega) (by omega) (by omega)
      rw [follow, fetch_eq_ok.mpr hnext, ok_bind, hrest, ok_bind, hd,
        show num_wr - (k + 1) = d + 1 by omega, List.range'_succ (n := d + 1)]
      rfl

/-- As many receives as wanted are posted, and the chain is mended. -/
theorem Scratch.post_eq {scratch : Scratch} (hwr : scratch.wr = chained n) (hpos : 0 < num_wr)
    (hle : num_wr ≤ n) : scratch.post num_wr = .ok (List.range num_wr, scratch) := by
  have hcut : num_wr - 1 < (chained n).length := by
    rw [length_chained]
    omega
  have hcut' : num_wr - 1 < ((chained n).set (num_wr - 1) none).length := by
    rw [List.length_set]
    exact hcut
  have hchain : follow ((chained n).set (num_wr - 1) none)
      (((chained n).set (num_wr - 1) none).length + 1) (some 0) =
        .ok (List.range' 0 (num_wr - 0)) :=
    follow_cut hpos hle hpos (by rw [List.length_set, length_chained]; omega)
  have hmend : ((chained n).set (num_wr - 1) none).set (num_wr - 1) (some num_wr) = chained n := by
    have hlast := getElem?_chained (n := n) (i := num_wr - 1) (by omega)
    rw [show num_wr - 1 + 1 = num_wr by omega] at hlast
    rw [List.set_set]
    obtain ⟨hlt, hlast⟩ := List.getElem?_eq_some_iff.mp hlast
    rw [← hlast, List.set_getElem_self]
  rw [Scratch.post, hwr, store_of_lt hcut, ok_bind, hchain, ok_bind, store_of_lt hcut', hmend,
    ok_bind, Nat.sub_zero, ← List.range_eq_range', ← hwr]
  rfl

end

/-! ### What a call holds -/

/-- The completions of a call: those that are left, and the receives among those
that are not. -/
def DaemonPhase.held : DaemonPhase → Nat
  | .idle => 0
  | .handling rest num_wr | .notifying _ _ _ rest num_wr => rest.length + num_wr

theorem DaemonPhase.held_next (wc : IbvWc) (rest : List IbvWc) (num_wr : Nat) :
    (wc.nextDaemon rest num_wr).held ≤ (DaemonPhase.handling (wc :: rest) num_wr).held := by
  unfold IbvWc.nextDaemon
  split
  · simp only [held, List.length_cons]
    omega
  · split
    all_goals
      simp only [held, List.length_cons]
      omega

structure Proc.Bounded (attr : IbvDeviceAttr) (proc : Proc) : Prop where
  conserves : proc.Conserves
  dev_attr : proc.dev_attr = attr
  held_le : proc.daemon.held ≤ attr.max_cqe

/-- The receives of a call are no more than the device has, nor than it
reports at once. -/
theorem Proc.Bounded.num_wr_le {attr : IbvDeviceAttr} {proc : Proc} (h : proc.Bounded attr)
    {rest : List IbvWc} {num_wr : Nat} (hdaemon : proc.daemon = .handling rest num_wr) :
    num_wr ≤ attr.max_cqe ∧ num_wr ≤ attr.max_srq_wr := by
  have hheld := h.held_le
  have hconserves := h.conserves
  simp only [Proc.Conserves, Proc.awaiting, DaemonPhase.awaiting, hdaemon, h.dev_attr,
    DaemonPhase.held] at hheld hconserves
  omega

section Steps

variable {w w' : World} {a : Act} {dev_attr : Nat → IbvDeviceAttr}

theorem Move.held_le {c d : Multiset Item}
    (hold : ∀ p, (w.procs p).daemon.held ≤ (w.procs p).dev_attr.max_cqe)
    (h : Move w a c d w') (p : Nat) : (w'.procs p).daemon.held ≤ (w'.procs p).dev_attr.max_cqe := by
  have hupdate := fun rank proc =>
    @World.forall_update w rank proc w' fun _ proc => proc.daemon.held ≤ proc.dev_attr.max_cqe
  cases h with
  | execute | silent => exact hold p
  | @poll rank num_complete hrank hidle hmax =>
      refine hupdate _ _ rfl hold ?_ p
      simp only [DaemonPhase.held, List.length_take]
      omega
  | repost => exact hupdate _ _ rfl hold (Nat.zero_le _) p
  | @handle rank num_wr wc rest proc hrank hdaemon hhandle =>
      refine hupdate _ _ rfl hold ?_ p
      rw [Proc.handle_frame hhandle]
      have hrank := hold rank
      rw [hdaemon] at hrank
      exact (DaemonPhase.held_next wc rest num_wr).trans hrank
  | @notify rank dst_rank num_wr rmt_imm_protocol job rest hrank hdaemon =>
      refine hupdate _ _ rfl hold ?_ p
      have hrank := hold rank
      rw [hdaemon] at hrank
      exact hrank
  | _ => exact hupdate _ _ rfl hold (hold _) p

theorem World.step_bounded (hold : ∀ p, (w.procs p).Bounded (dev_attr p))
    (hstep : w.step a = some w') (p : Nat) : (w'.procs p).Bounded (dev_attr p) := by
  obtain ⟨c, d, hmove⟩ := move_of_step hstep
  have hattr := (hmove.dev_attr p).trans (hold p).dev_attr
  refine ⟨hmove.conserves (fun p => (hold p).conserves) p, hattr, ?_⟩
  rw [← hattr]
  refine hmove.held_le (fun p => ?_) p
  rw [(hold p).dev_attr]
  exact (hold p).held_le

theorem World.halt_bounded (hold : ∀ p, (w.procs p).Bounded (dev_attr p)) (rank : Nat) (stop : Stop)
    (p : Nat) : ((w.setProc rank ((w.procs rank).halt stop)).procs p).Bounded (dev_attr p) := by
  refine World.forall_update (P := fun p proc => proc.Bounded (dev_attr p)) rfl hold ?_ p
  obtain ⟨hconserves, hattr, hheld⟩ := hold rank
  exact ⟨hconserves, hattr, hheld⟩

end Steps

/-! ### The invariant -/

structure MultiWorld.Sound (dev_attr : Nat → Nat → IbvDeviceAttr) (s : MultiWorld) : Prop where
  bounded : ∀ chan p, ((s.channels chan).procs p).Bounded (dev_attr chan p)
  scratch : ∀ rank, ∀ scratch ∈ s.scratch rank,
    scratch.wc = (dev_attr scratch.chan rank).max_cqe ∧
      scratch.wr = chained (dev_attr scratch.chan rank).max_srq_wr
  serving : ∀ rank, ∀ serving ∈ s.serving rank, ∃ scratch ∈ s.scratch rank,
    (dev_attr serving.chan rank).NeedsAtMost (dev_attr scratch.chan rank)

namespace MultiWorld

variable {s s' : MultiWorld} {dev_attr : Nat → Nat → IbvDeviceAttr} {chan rank : Nat}

theorem Sound.devAttr (h : s.Sound dev_attr) (chan rank : Nat) :
    s.devAttr chan rank = dev_attr chan rank := (h.bounded chan rank).dev_attr

theorem Sound.update (h : s.Sound dev_attr) {w : World}
    (hw : ∀ p, (w.procs p).Bounded (dev_attr chan p)) : (s.update chan w).Sound dev_attr where
  bounded := by
    intro chan' p
    unfold MultiWorld.update
    dsimp only
    split
    · next heq =>
      subst heq
      exact hw p
    · obtain ⟨hconserves, hattr, hheld⟩ := h.bounded chan' p
      exact ⟨hconserves, hattr, hheld⟩
  scratch := h.scratch
  serving := h.serving

theorem Sound.halt (h : s.Sound dev_attr) (stop : Stop) : (s.halt chan rank stop).Sound dev_attr :=
  h.update (World.halt_bounded (h.bounded chan) rank stop)

theorem Sound.enter (h : s.Sound dev_attr) (hcall : s.NoLarger (.call rank chan)) :
    (s.enter rank chan).Sound dev_attr := by
  have hattr := h.devAttr
  -- the arrays are those of the first call, and the device of this call needs no larger ones
  obtain ⟨scratch, hscratch, hfirst, hneeds⟩ : ∃ scratch,
      (s.scratch rank).getD (.alloc chan (s.devAttr chan rank)) = scratch ∧
        (scratch.wc = (dev_attr scratch.chan rank).max_cqe ∧
          scratch.wr = chained (dev_attr scratch.chan rank).max_srq_wr) ∧
        (dev_attr chan rank).NeedsAtMost (dev_attr scratch.chan rank) := by
    cases hold : s.scratch rank with
    | none =>
        refine ⟨_, rfl, ?_, .refl _⟩
        rw [hattr]
        exact ⟨rfl, rfl⟩
    | some scratch =>
        have hcall := hcall scratch hold
        rw [hattr, hattr] at hcall
        exact ⟨scratch, rfl, h.scratch rank scratch hold, hcall⟩
  unfold MultiWorld.enter
  rw [hscratch]
  constructor
  case bounded => exact h.bounded
  all_goals
    intro p
    dsimp only
    rcases eq_or_ne p rank with rfl | hne
  case scratch.inl =>
    rw [Function.update_self]
    rintro _ ⟨⟩
    exact hfirst
  case serving.inl =>
    rw [Function.update_self, Function.update_self]
    rintro _ ⟨⟩
    exact ⟨scratch, rfl, hneeds⟩
  all_goals rw [Function.update_of_ne hne]
  case scratch.inr => exact h.scratch p
  case serving.inr =>
    rw [Function.update_of_ne hne]
    exact h.serving p

theorem Sound.setServing (h : s.Sound dev_attr) {serving : Option Serving}
    (hserving : ∀ next ∈ serving, ∃ old ∈ s.serving rank, old.chan = next.chan) :
    { s with serving := Function.update s.serving rank serving }.Sound dev_attr where
  bounded := h.bounded
  scratch := h.scratch
  serving := by
    intro p
    dsimp only
    rcases eq_or_ne p rank with rfl | hne
    · rw [Function.update_self]
      intro next hnext
      obtain ⟨old, hold, heq⟩ := hserving next hnext
      obtain ⟨scratch, hscratch, hneeds⟩ := h.serving p old hold
      exact ⟨scratch, hscratch, heq ▸ hneeds⟩
    · rw [Function.update_of_ne hne]
      exact h.serving p

/-- The receives that a call posts again are a part of the chain. -/
theorem Sound.post_eq (h : s.Sound dev_attr) {serving : Serving}
    (hserving : s.serving rank = some serving) {scratch : Scratch}
    (hscratch : s.scratch rank = some scratch) {rest : List IbvWc} {num_wr : Nat}
    (hdaemon : ((s.channels serving.chan).procs rank).daemon = .handling rest num_wr)
    (hpos : 0 < num_wr) :
    num_wr ≤ scratch.wr.length ∧ scratch.post num_wr = .ok (List.range num_wr, scratch) := by
  obtain ⟨-, hwr⟩ := h.scratch rank scratch hscratch
  obtain ⟨scratch', hscratch', -, hneeds⟩ := h.serving rank serving hserving
  cases hscratch.symm.trans hscratch'
  obtain ⟨hcqe, hsrq⟩ := (h.bounded serving.chan rank).num_wr_le hdaemon
  have hle : num_wr ≤ (dev_attr scratch.chan rank).max_srq_wr :=
    hneeds.elim hcqe.trans hsrq.trans
  refine ⟨?_, Scratch.post_eq hwr hpos hle⟩
  rwa [hwr, length_chained]

/-- What is posted again are the receives that have been used, so that the
channel makes the step it would make with arrays of its own. -/
theorem Sound.repost_eq (h : s.Sound dev_attr) {serving : Serving}
    (hserving : s.serving rank = some serving) {scratch : Scratch}
    (hscratch : s.scratch rank = some scratch) {num_wr : Nat}
    (hdaemon : ((s.channels serving.chan).procs rank).daemon = .handling [] num_wr) {w : World}
    (hstep : (s.channels serving.chan).step (.proc rank .daemonStep) = some w) :
    s.repost serving.chan rank num_wr scratch = s.update serving.chan w := by
  simp only [World.step, World.procStep, World.daemonStep, hdaemon, Option.ite_none_right_eq_some]
    at hstep
  obtain ⟨-, hw⟩ := hstep
  cases hw
  rcases Nat.eq_zero_or_pos num_wr with rfl | hpos
  · rw [repost, if_pos rfl]
    rfl
  · obtain ⟨-, hpost⟩ := h.post_eq hserving hscratch hdaemon hpos
    rw [repost, if_neg (Nat.ne_of_gt hpos), hpost]
    dsimp only
    rw [List.length_range, ← hscratch, Function.update_eq_self]
    rfl

theorem Sound.daemonStep (h : s.Sound dev_attr) {serving : Serving}
    (hserving : s.serving rank = some serving) {scratch : Scratch}
    (hscratch : s.scratch rank = some scratch)
    (hstep : s.daemonStep serving.chan rank scratch = some s') : s'.Sound dev_attr := by
  have hupdate : ∀ w, (s.channels serving.chan).step (.proc rank .daemonStep) = some w →
      (s.update serving.chan w).Sound dev_attr := fun w hw =>
    h.update (World.step_bounded (h.bounded serving.chan) hw)
  unfold MultiWorld.daemonStep at hstep
  split at hstep
  · next num_wr hdaemon =>
    obtain ⟨w, hw, rfl⟩ := Option.map_eq_some_iff.mp hstep
    rw [h.repost_eq hserving hscratch hdaemon hw]
    exact hupdate w hw
  · obtain ⟨w, hw, rfl⟩ := Option.map_eq_some_iff.mp hstep
    exact hupdate w hw

theorem Sound.poll (h : s.Sound dev_attr) (hserving : s.serving rank = some ⟨chan, false⟩)
    {scratch : Scratch} {num_complete : Nat}
    (hstep : s.poll chan rank num_complete scratch = some s') : s'.Sound dev_attr := by
  obtain ⟨w, hw, rfl⟩ := Option.map_eq_some_iff.mp hstep
  have hupdate := h.update (World.step_bounded (h.bounded chan) hw)
  split
  · refine hupdate.setServing ?_
    rintro _ ⟨⟩
    exact ⟨_, hserving, rfl⟩
  · exact h.halt .undefined

/-- Completions are polled inside a call, with the arrays there. -/
theorem step_poll_eq_some {num_complete : Nat}
    (h : s.step (.step chan (.proc rank (.poll num_complete))) = some s') :
    ∃ scratch, s.serving rank = some ⟨chan, false⟩ ∧ s.scratch rank = some scratch ∧
      s.poll chan rank num_complete scratch = some s' := by
  unfold MultiWorld.step at h
  dsimp only at h
  split at h
  · next serving scratch hserving hscratch =>
    rw [Option.ite_none_right_eq_some] at h
    obtain ⟨rfl, h⟩ := h
    exact ⟨scratch, hserving, hscratch, h⟩
  · cases h

/-- So is the loop over the completions. -/
theorem step_daemonStep_eq_some (h : s.step (.step chan (.proc rank .daemonStep)) = some s') :
    ∃ serving scratch, s.serving rank = some serving ∧ s.scratch rank = some scratch ∧
      serving.chan = chan ∧ s.daemonStep chan rank scratch = some s' := by
  unfold MultiWorld.step at h
  dsimp only at h
  split at h
  · next serving scratch hserving hscratch =>
    rw [Option.ite_none_right_eq_some] at h
    exact ⟨serving, scratch, hserving, hscratch, h⟩
  · cases h

theorem Sound.step (h : s.Sound dev_attr) {a : MultiAct} (ha : s.NoLarger a)
    (hstep : s.step a = some s') : s'.Sound dev_attr := by
  have hrun := hstep
  unfold MultiWorld.step at hstep
  split at hstep
  · -- a call
    rw [Option.ite_none_right_eq_some] at hstep
    obtain ⟨-, hs⟩ := hstep
    cases hs
    exact h.enter ha
  · -- the end of a call
    split at hstep
    · rw [Option.ite_none_right_eq_some] at hstep
      obtain ⟨-, hs⟩ := hstep
      cases hs
      exact h.setServing (by rintro _ ⟨⟩)
    · cases hstep
  · -- `ibv_poll_cq`
    obtain ⟨scratch, hserving, -, hpoll⟩ := step_poll_eq_some hrun
    exact h.poll hserving hpoll
  · -- the loop over the completions
    obtain ⟨serving, scratch, hserving, hscratch, rfl, hdaemon⟩ := step_daemonStep_eq_some hrun
    exact h.daemonStep hserving hscratch hdaemon
  · -- another thread, or the NICs
    obtain ⟨w, hw, rfl⟩ := Option.map_eq_some_iff.mp hstep
    exact h.update (World.step_bounded (h.bounded _) hw)

/-- In a sound state every use that a step makes of the arrays fits. -/
theorem Sound.fits (h : s.Sound dev_attr) {a : MultiAct} (hstep : s.step a = some s') :
    ∀ use ∈ s.uses a, use.Fits := by
  intro use huse
  unfold uses at huse
  split at huse
  · -- `ibv_poll_cq`
    next chan rank num_complete =>
    obtain ⟨scratch, hscratch, rfl⟩ := List.mem_map.mp huse
    rw [Option.mem_toList] at hscratch
    have hscratch : s.scratch rank = some scratch := hscratch
    obtain ⟨-, hserving, -⟩ := step_poll_eq_some hstep
    obtain ⟨first, hfirst, hcqe, -⟩ := h.serving rank _ hserving
    cases hscratch.symm.trans hfirst
    rw [ScratchUse.Fits, h.devAttr, (h.scratch rank scratch hscratch).1]
    exact hcqe
  · -- receives are posted
    next chan rank =>
    split at huse
    · next num_wr hdaemon =>
      split at huse
      · cases huse
      · next hne =>
        obtain ⟨scratch, hscratch, rfl⟩ := List.mem_map.mp huse
        rw [Option.mem_toList] at hscratch
        obtain ⟨serving, -, hserving, -, rfl, -⟩ := step_daemonStep_eq_some hstep
        exact h.post_eq hserving hscratch hdaemon (Nat.pos_of_ne_zero hne)
    · cases huse
  · cases huse

section Main

variable {size : Nat} {flag_pool : FlagPool} {lkey rkey : MemInfo → BitVec 32}
  {flags : Nat → Nat → UruFlag}

theorem sound_run (hrun : Run step NoLarger (init size flag_pool lkey rkey dev_attr flags) s) :
    s.Sound dev_attr := by
  refine hrun.invariant ?_ fun _ _ _ _ hsound ha hstep => hsound.step ha hstep
  exact {
    bounded := fun _ _ => ⟨rfl, rfl, Nat.zero_le _⟩
    scratch := fun _ _ hscratch => nomatch hscratch
    serving := fun _ _ hserving => nomatch hserving }

/-- As long as the calls are for devices that need no more than the one of the
first call, every use of the arrays stays inside them, whatever the channels and
the order of the calls. -/
theorem scratch_large_enough
    (hrun : Run step NoLarger (init size flag_pool lkey rkey dev_attr flags) s) {a : MultiAct}
    (hstep : s.step a = some s') : ∀ use ∈ s.uses a, use.Fits :=
  (sound_run hrun).fits hstep

end Main

/-- One process. Channel 0 has a device that polls 4 completions at once, the
others have devices that poll `max_cqe`. -/
def twoDevices (max_cqe : Nat) : MultiWorld :=
  init 1 ⟨2, [0]⟩ (fun _ => 0) (fun _ => 0)
    (fun chan _ => if chan = 0 then ⟨4, 8⟩ else ⟨max_cqe, 8⟩) (fun _ _ => ⟨0, none, 0, -1⟩)

/-- A call for channel 0 that finds no completion, and the beginning of one for
channel 1. -/
def oneRound : List MultiAct :=
  [.call 0 0, .step 0 (.proc 0 (.poll 0)), .step 0 (.proc 0 .daemonStep), .ret 0, .call 0 1]

theorem scratch_large_enough_two :
    ∃ s, Run step NoLarger (twoDevices 2) s ∧
      s.uses (.step 1 (.proc 0 (.poll 0))) = [.poll 2 4] ∧ (ScratchUse.poll 2 4).Fits := by
  obtain ⟨s, hexec, ⟨s', hstep⟩, huses⟩ : ∃ s,
      exec step (fun s a => decide (s.NoLarger a)) (twoDevices 2) oneRound = some s ∧
        (∃ s', s.step (.step 1 (.proc 0 (.poll 0))) = some s') ∧
        s.uses (.step 1 (.proc 0 (.poll 0))) = [.poll 2 4] :=
    ⟨_, rfl, ⟨_, rfl⟩, rfl⟩
  have hrun := (Run.of_exec hexec).mono fun _ _ => of_decide_eq_true
  exact ⟨s, hrun, huses, scratch_large_enough hrun hstep _ (by rw [huses]; simp)⟩

/-- A device that polls 8 completions asks for more than there are entries. -/
theorem second_device_overruns :
    ∃ s s', Run step (fun _ _ => True) (twoDevices 8) s ∧
      s.step (.step 1 (.proc 0 (.poll 0))) = some s' ∧
      s.uses (.step 1 (.proc 0 (.poll 0))) = [.poll 8 4] ∧ ¬ (ScratchUse.poll 8 4).Fits := by
  obtain ⟨s, hexec, ⟨s', hstep⟩, huses⟩ : ∃ s,
      exec step (fun _ _ => true) (twoDevices 8) oneRound = some s ∧
        (∃ s', s.step (.step 1 (.proc 0 (.poll 0))) = some s') ∧
        s.uses (.step 1 (.proc 0 (.poll 0))) = [.poll 8 4] :=
    ⟨_, rfl, ⟨_, rfl⟩, rfl⟩
  exact ⟨s, s', (Run.of_exec hexec).mono fun _ _ _ => trivial, hstep, huses, by
    rw [ScratchUse.Fits]
    decide⟩

end MultiWorld

end Unr.Verbs
