import Unr.Verbs.PoolEvents

/-!
The flag pools of a number of processes, while they open channels and take
flags.

Every process has one pool. Opening a verbs channel calls `init_flag_pool` on
all processes together, which exchange the addresses of their arrays. The index
that stands for a flag in an event is relative to the array of the pool that
the processes have at that time, so it is right as long as this is still the
pool that the flag was taken from.
-/

namespace Unr.Verbs

open Unr.Uru Unr.Logic

/-! ### The pool of a process -/

structure UruFlagPool extends FlagPool where
  arr : Nat
  used : Nat
  deriving Repr, DecidableEq

structure HandedFlag where
  flag_p : Nat
  index : Nat
  deriving Repr, DecidableEq

/-- The variables of `flag.c` in a process. -/
structure PoolProc where
  /-- The static variable of `init_flag_pool`. -/
  initialized : Bool
  flag_pool : Option UruFlagPool
  /-- Ghost: the arrays of flags that have been allocated, with their sizes.
  None is ever freed. -/
  blocks : List (Nat × Nat)
  /-- Ghost: the flags that its pools have handed out. -/
  handed : List HandedFlag
  deriving Repr, DecidableEq

namespace PoolProc

def init : PoolProc where
  initialized := false
  flag_pool := none
  blocks := []
  handed := []

/-- An array of `size` flags can be allocated at `arr`. -/
def Fresh (proc : PoolProc) (arr size : Nat) : Prop :=
  0 < arr ∧ ∀ block ∈ proc.blocks, block.1 + block.2 ≤ arr ∨ arr + size ≤ block.1

instance (proc : PoolProc) (arr size : Nat) : Decidable (proc.Fresh arr size) :=
  inferInstanceAs (Decidable (_ ∧ _))

/-- `init_flag_pool`, with the array that `uru_calloc` returns and the arrays of
all processes. -/
def initFlagPool (proc : PoolProc) (env : Option (BitVec 64)) (arr : Nat) (rmt_base : List Nat) :
    Prog PoolProc :=
  if proc.initialized then .ok proc
  else do
    -- nothing assigns to `initialized`
    let flag_pool ← Verbs.initFlagPool env rmt_base
    return { proc with
      flag_pool := some { toFlagPool := flag_pool, arr := arr, used := 1 }
      blocks := (arr, flag_pool.size) :: proc.blocks }

/-- `uru_flag_pool_alloc`. Without a pool the flag is allocated by itself. -/
def uruFlagPoolAlloc (proc : PoolProc) (single : Nat) : Prog (Nat × PoolProc) :=
  match proc.flag_pool with
  | some flag_pool =>
      if flag_pool.used = flag_pool.size then .error (.exit .errorExit)
      else
        let ret := flag_pool.arr + flag_pool.used
        .ok (ret, { proc with
          flag_pool := some { flag_pool with used := flag_pool.used + 1 }
          handed := proc.handed ++ [⟨ret, flag_pool.used⟩] })
  | none => .ok (single, { proc with blocks := (single, 1) :: proc.blocks })

end PoolProc

/-! ### All processes -/

/-- The processes, and what `atoi` returns for `URU_NUM_FLAGS` on each. -/
structure PoolWorld where
  size : Nat
  env : Nat → Option (BitVec 64)
  procs : Nat → PoolProc

/-- The steps of the processes. Addresses are chosen by the allocators. -/
inductive PoolAct
  /-- All processes open a verbs channel. -/
  | openChannel (arrs : List Nat)
  | alloc (rank single : Nat)
  deriving Repr, DecidableEq

namespace PoolWorld

def init (size : Nat) (env : Nat → Option (BitVec 64)) : PoolWorld := ⟨size, env, fun _ => .init⟩

def numFlags (w : PoolWorld) (rank : Nat) : Nat :=
  match w.env rank with
  | some num_flags => num_flags.toNat
  | none => 65536

/-- What `init_flag_pool` does on one process, when `MPI_Allgather` has
collected `arrs`. -/
def initOn (w : PoolWorld) (arrs : List Nat) (rank : Nat) : Prog PoolProc :=
  (w.procs rank).initFlagPool (w.env rank) (arrs.getD rank 0) arrs

def openChannel (w : PoolWorld) (arrs : List Nat) : Option PoolWorld :=
  if arrs.length = w.size ∧ (∀ rank < w.size, (w.initOn arrs rank).isOk ∧
      (w.procs rank).Fresh (arrs.getD rank 0) (w.numFlags rank)) then
    some { w with procs := fun rank => (w.initOn arrs rank).toOption.getD (w.procs rank) }
  else none

/-- A step that stops a process ends the run. -/
def step (w : PoolWorld) : PoolAct → Option PoolWorld
  | .openChannel arrs => w.openChannel arrs
  | .alloc rank single =>
      if rank < w.size ∧ (w.procs rank).Fresh single 1 then
        ((w.procs rank).uruFlagPoolAlloc single).toOption.map fun result =>
          { w with procs := Function.update w.procs rank result.2 }
      else none

end PoolWorld

/-! ### What a flag is good for -/

def Proc.countEvent (proc : Proc) (flag_p : Nat) : Proc :=
  { proc with
    flags := Function.update proc.flags flag_p (flagEvent (proc.flags flag_p)).1
    pushed := proc.pushed ++ (flagEvent (proc.flags flag_p)).2.toList }

namespace PoolWorld

def RoundTrips (w : PoolWorld) (r q : Nat) (flag : HandedFlag) : Prop :=
  ∃ here there event, (w.procs q).flag_pool = some here ∧ (w.procs r).flag_pool = some there ∧
    uriVerbsEventFill w.size here.toFlagPool r flag.flag_p (-1#64) = .ok event ∧
    event.toNat = flag.index ∧
    ∀ proc : Proc, proc.eventProgress there.toFlagPool r event = .ok (proc.countEvent flag.flag_p)

/-- The flags that have been handed out are good. -/
structure FlagsGood (w : PoolWorld) : Prop where
  /-- Every process can name them. -/
  round_trip : ∀ r < w.size, ∀ flag ∈ (w.procs r).handed, ∀ q < w.size, w.RoundTrips r q flag
  /-- No two share an index. -/
  distinct : ∀ r < w.size, ((w.procs r).handed.map (·.index)).Nodup
  /-- No event of a flag is taken for none. -/
  nonzero : ∀ r < w.size, ∀ flag ∈ (w.procs r).handed, flag.index ≠ 0

/-- A pool that is there stays, with its array and with those of the other
processes. -/
def Keeps (w w' : PoolWorld) : Prop :=
  ∀ r < w.size, ∀ pool, (w.procs r).flag_pool = some pool →
    ∃ used, (w'.procs r).flag_pool = some { pool with used := used }

/-- The first channel is opened, or a flag is taken whose index all processes
can name. -/
def FirstOpen (w : PoolWorld) : PoolAct → Prop
  | .openChannel _ => ∀ rank < w.size, (w.procs rank).flag_pool = none
  | .alloc rank _ => ∀ flag_pool ∈ (w.procs rank).flag_pool,
      ∀ q < w.size, ∀ there ∈ (w.procs q).flag_pool, flag_pool.used < there.size

instance (w : PoolWorld) (a : PoolAct) : Decidable (w.FirstOpen a) :=
  match a with
  | .openChannel _ => inferInstanceAs (Decidable (∀ rank < w.size, _ = none))
  | .alloc _ _ => inferInstanceAs (Decidable (∀ flag_pool ∈ _, ∀ q < w.size, ∀ there ∈ _, _))

end PoolWorld

/-! ### The invariant -/

namespace PoolWorld

/-- The processes have the pools `pools`, with the arrays `arrs`. -/
structure Agrees (w : PoolWorld) (pools : Nat → UruFlagPool) (arrs : List Nat) : Prop where
  flag_pool : ∀ r < w.size, (w.procs r).flag_pool = some (pools r)
  rmt_base : ∀ r < w.size, (pools r).rmt_base = arrs
  arr : ∀ r < w.size, arrs[r]? = some (pools r).arr
  size_le : ∀ r < w.size, (pools r).size ≤ 2 ^ 32
  used_pos : ∀ r < w.size, 0 < (pools r).used
  /-- The flags are those between the reserved one and the next one. -/
  handed : ∀ r < w.size, ∀ flag ∈ (w.procs r).handed,
    flag.flag_p = (pools r).arr + flag.index ∧ 0 < flag.index ∧ flag.index < (pools r).used
  distinct : ∀ r < w.size, ((w.procs r).handed.map (·.index)).Nodup
  /-- The indices are in the pools of all processes. -/
  fits : ∀ r < w.size, ∀ flag ∈ (w.procs r).handed, ∀ q < w.size, flag.index < (pools q).size

structure Closed (w : PoolWorld) : Prop where
  flag_pool : ∀ r < w.size, (w.procs r).flag_pool = none
  handed : ∀ r < w.size, (w.procs r).handed = []
  initialized : ∀ r < w.size, (w.procs r).initialized = false

variable {w w' : PoolWorld} {pools : Nat → UruFlagPool} {arrs : List Nat}

/-- An index of the pools is an event, which names the flag. -/
theorem Agrees.round_trips (h : w.Agrees pools arrs) {r q : Nat} (hr : r < w.size)
    (hq : q < w.size) {flag : HandedFlag} (hflag : flag ∈ (w.procs r).handed) :
    w.RoundTrips r q flag := by
  obtain ⟨hflag_p, hpos, -⟩ := h.handed r hr flag hflag
  have hfits := h.fits r hr flag hflag q hq
  have hsize := h.size_le q hq
  have hval : (BitVec.ofNat 32 flag.index).toNat = flag.index := by
    rw [BitVec.toNat_ofNat]
    exact Nat.mod_eq_of_lt (by omega)
  have hne : BitVec.ofNat 32 flag.index ≠ 0 := by
    intro hzero
    rw [hzero] at hval
    exact absurd hval.symm (Nat.ne_of_gt hpos)
  have hbase : (pools q).rmt_base[r]? = some (pools r).arr := by rw [h.rmt_base q hq, h.arr r hr]
  refine ⟨pools q, pools r, BitVec.ofNat 32 flag.index, h.flag_pool q hq, h.flag_pool r hr, ?_,
    hval, fun proc => ?_⟩
  · refine uriVerbsEventFill_eq_ok.mpr ⟨rfl, hr, (pools r).arr, hbase, ?_, ?_⟩
    · omega
    · rw [hflag_p, Nat.add_sub_cancel_left]
  · have hown : (pools r).rmt_base[r]? = some (pools r).arr := by rw [h.rmt_base r hr, h.arr r hr]
    rw [Proc.eventProgress_eq _ _ _ hne hown, hval, ← hflag_p]
    rfl

theorem initOn_eq_ok {rank : Nat} {proc : PoolProc} (hnew : (w.procs rank).initialized = false)
    (h : w.initOn arrs rank = .ok proc) :
    ∃ size ≤ 2 ^ 32, proc = { w.procs rank with
      flag_pool := some ⟨⟨size, arrs⟩, arrs.getD rank 0, 1⟩
      blocks := (arrs.getD rank 0, size) :: (w.procs rank).blocks } := by
  unfold initOn PoolProc.initFlagPool at h
  rw [if_neg (by rw [hnew]; exact Bool.false_ne_true)] at h
  obtain ⟨⟨size, rmt_base⟩, hpool, hproc⟩ := bind_eq_ok.mp h
  cases hproc
  obtain ⟨hsize, rfl⟩ := initFlagPool_eq_ok hpool
  exact ⟨size, hsize, rfl⟩

theorem openChannel_eq_some (h : w.openChannel arrs = some w') :
    w'.size = w.size ∧ arrs.length = w.size ∧ ∀ r < w.size, w.initOn arrs r = .ok (w'.procs r) := by
  rw [openChannel, Option.ite_none_right_eq_some] at h
  obtain ⟨⟨hlen, hall⟩, hw⟩ := h
  cases hw
  refine ⟨rfl, hlen, fun r hr => ?_⟩
  have hok := (hall r hr).1
  dsimp only
  cases hinit : w.initOn arrs r with
  | error stop =>
      rw [hinit] at hok
      cases hok
  | ok proc => rfl

theorem Closed.openChannel (h : w.Closed) (hopen : w.openChannel arrs = some w') :
    ∃ pools, w'.Agrees pools arrs := by
  obtain ⟨hsize, hlen, hinit⟩ := openChannel_eq_some hopen
  have hproc : ∀ r < w.size, ∃ size ≤ 2 ^ 32,
      (w'.procs r).flag_pool = some ⟨⟨size, arrs⟩, arrs.getD r 0, 1⟩ ∧
        (w'.procs r).handed = [] := by
    intro r hr
    obtain ⟨size, hle, hproc⟩ := initOn_eq_ok (h.initialized r hr) (hinit r hr)
    rw [hproc]
    exact ⟨size, hle, rfl, h.handed r hr⟩
  choose! size hle hpool hhanded using hproc
  rw [← hsize] at hlen hle hpool hhanded
  refine ⟨fun r => ⟨⟨size r, arrs⟩, arrs.getD r 0, 1⟩, ?_⟩
  constructor
  case flag_pool => exact hpool
  case rmt_base => exact fun _ _ => rfl
  case arr =>
    intro r hr
    rw [← hlen] at hr
    simp [List.getD, List.getElem?_eq_getElem hr]
  case size_le => exact hle
  case used_pos => exact fun _ _ => Nat.one_pos
  all_goals
    intro r hr
    rw [hhanded r hr]
  case handed => exact fun _ hflag => nomatch hflag
  case distinct => exact List.nodup_nil
  case fits => exact fun _ hflag => nomatch hflag

def take (w : PoolWorld) (pool : UruFlagPool) (rank : Nat) : PoolProc :=
  { w.procs rank with
    flag_pool := some { pool with used := pool.used + 1 }
    handed := (w.procs rank).handed ++ [⟨pool.arr + pool.used, pool.used⟩] }

theorem mem_handed_take {pool : UruFlagPool} {rank r : Nat} {flag : HandedFlag}
    (h : flag ∈ (Function.update w.procs rank (w.take pool rank) r).handed) :
    flag ∈ (w.procs r).handed ∨
      r = rank ∧ flag = ⟨pool.arr + pool.used, pool.used⟩ := by
  rcases eq_or_ne r rank with rfl | hne
  · rw [Function.update_self, PoolWorld.take, List.mem_append, List.mem_singleton] at h
    exact h.imp id fun heq => ⟨rfl, heq⟩
  · rw [Function.update_of_ne hne] at h
    exact .inl h

theorem Agrees.take (h : w.Agrees pools arrs) {rank : Nat} (hrank : rank < w.size)
    (hroom : ∀ q < w.size, (pools rank).used < (pools q).size) :
    Agrees { w with procs := Function.update w.procs rank (w.take (pools rank) rank) }
      (Function.update pools rank { pools rank with used := (pools rank).used + 1 }) arrs := by
  -- the pools only change in `used`, and only on this process
  have hnext : ∀ P : UruFlagPool → UruFlagPool → Prop, (∀ pool, P pool pool) →
      P (pools rank) { pools rank with used := (pools rank).used + 1 } → ∀ r,
      P (pools r) (Function.update pools rank
        { pools rank with used := (pools rank).used + 1 } r) := by
    intro P hrefl hP r
    rcases eq_or_ne r rank with rfl | hne
    · rwa [Function.update_self]
    · rw [Function.update_of_ne hne]
      exact hrefl _
  have hbase := hnext (fun pool pool' => pool'.rmt_base = pool.rmt_base) (fun _ => rfl) rfl
  have harr := hnext (fun pool pool' => pool'.arr = pool.arr) (fun _ => rfl) rfl
  have hsize := hnext (fun pool pool' => pool'.size = pool.size) (fun _ => rfl) rfl
  have hused := hnext (fun pool pool' => pool.used ≤ pool'.used) (fun _ => Nat.le_refl _)
    (Nat.le_succ _)
  constructor
  case flag_pool =>
    intro r hr
    dsimp only
    rcases eq_or_ne r rank with rfl | hne
    · rw [Function.update_self, Function.update_self]
      rfl
    · rw [Function.update_of_ne hne, Function.update_of_ne hne]
      exact h.flag_pool r hr
  case rmt_base => exact fun r hr => (hbase r).trans (h.rmt_base r hr)
  case arr =>
    intro r hr
    rw [harr r]
    exact h.arr r hr
  case size_le => exact fun r hr => (hsize r).trans_le (h.size_le r hr)
  case used_pos => exact fun r hr => Nat.lt_of_lt_of_le (h.used_pos r hr) (hused r)
  case handed =>
    intro r hr flag hflag
    rw [harr r]
    rcases mem_handed_take hflag with hold | ⟨rfl, rfl⟩
    · obtain ⟨hflag_p, hpos, hlt⟩ := h.handed r hr flag hold
      exact ⟨hflag_p, hpos, hlt.trans_le (hused r)⟩
    · rw [Function.update_self]
      exact ⟨rfl, h.used_pos r hr, Nat.lt_succ_self _⟩
  -- the new index is above those handed out before
  case distinct =>
    intro r hr
    dsimp only
    rcases eq_or_ne r rank with rfl | hne
    · rw [Function.update_self, PoolWorld.take, List.map_append, List.map_singleton]
      refine List.nodup_append.mpr ⟨h.distinct r hr, List.nodup_singleton _, fun i hi j hj => ?_⟩
      obtain ⟨flag, hflag, rfl⟩ := List.mem_map.mp hi
      rw [List.mem_singleton.mp hj]
      exact Nat.ne_of_lt (h.handed r hr flag hflag).2.2
    · rw [Function.update_of_ne hne]
      exact h.distinct r hr
  case fits =>
    intro r hr flag hflag q hq
    rw [hsize q]
    rcases mem_handed_take hflag with hold | ⟨rfl, rfl⟩
    · exact h.fits r hr flag hold q hq
    · exact hroom q hq

def Sound (w : PoolWorld) : Prop := w.Closed ∨ ∃ pools arrs, w.Agrees pools arrs

theorem Sound.alloc (h : w.Sound) {rank single : Nat} (hroom : w.FirstOpen (.alloc rank single))
    (hstep : w.step (.alloc rank single) = some w') : w'.Sound := by
  rw [step, Option.ite_none_right_eq_some] at hstep
  obtain ⟨⟨hrank, -⟩, hstep⟩ := hstep
  rcases h with h | ⟨pools, arrs, h⟩
  · -- the flag is allocated by itself
    rw [PoolProc.uruFlagPoolAlloc, h.flag_pool rank hrank] at hstep
    cases hstep
    left
    constructor
    all_goals
      intro r hr
      dsimp only
      rcases eq_or_ne r rank with rfl | hne
    case flag_pool.inl => rw [Function.update_self]
    case handed.inl => simpa using h.handed r hr
    case initialized.inl => simpa using h.initialized r hr
    all_goals rw [Function.update_of_ne hne]
    case flag_pool.inr => exact h.flag_pool r hr
    case handed.inr => exact h.handed r hr
    case initialized.inr => exact h.initialized r hr
  · have hpool := h.flag_pool rank hrank
    have hall : ∀ q < w.size, (pools rank).used < (pools q).size :=
      fun q hq => hroom _ hpool q hq _ (h.flag_pool q hq)
    rw [PoolProc.uruFlagPoolAlloc, hpool] at hstep
    simp only [(hall rank hrank).ne, if_false] at hstep
    cases hstep
    exact .inr ⟨_, _, h.take hrank hall⟩

theorem Sound.step (h : w.Sound) {a : PoolAct} (hfirst : w.FirstOpen a)
    (hstep : w.step a = some w') : w'.Sound := by
  cases a with
  | alloc rank single => exact h.alloc hfirst hstep
  | openChannel arrs =>
      rcases h with h | ⟨pools, arrs', h⟩
      · obtain ⟨pools, hpools⟩ := h.openChannel hstep
        exact .inr ⟨pools, arrs, hpools⟩
      · -- only a system without processes can open a second channel
        obtain ⟨hsize, hlen, hinit⟩ := openChannel_eq_some hstep
        have hzero : w.size = 0 := by
          by_contra hne
          have hnone := hfirst 0 (Nat.pos_of_ne_zero hne)
          rw [h.flag_pool 0 (Nat.pos_of_ne_zero hne)] at hnone
          cases hnone
        rw [hzero] at hsize
        left
        constructor <;> exact fun r hr => absurd hr (by omega)

theorem Sound.flagsGood (h : w.Sound) : w.FlagsGood := by
  rcases h with h | ⟨pools, arrs, h⟩
  · constructor
    all_goals
      intro r hr
      rw [h.handed r hr]
    case round_trip => exact fun _ hflag => nomatch hflag
    case distinct => exact List.nodup_nil
    case nonzero => exact fun _ hflag => nomatch hflag
  · exact {
      round_trip := fun r hr flag hflag q hq => h.round_trips hr hq hflag
      distinct := h.distinct
      nonzero := fun r hr flag hflag => Nat.ne_of_gt (h.handed r hr flag hflag).2.1 }

/-- Taking a flag moves the next index on. -/
theorem keeps_alloc {rank single : Nat} (hstep : w.step (.alloc rank single) = some w') :
    w.Keeps w' := by
  rw [step, Option.ite_none_right_eq_some] at hstep
  obtain ⟨-, hstep⟩ := hstep
  obtain ⟨⟨ret, proc⟩, hresult, rfl⟩ := Option.map_eq_some_iff.mp hstep
  intro r hr pool hpool
  dsimp only
  rcases eq_or_ne r rank with rfl | hne
  · rw [Function.update_self]
    rw [PoolProc.uruFlagPoolAlloc, hpool] at hresult
    dsimp only at hresult
    split at hresult
    · cases hresult
    · cases hresult
      exact ⟨pool.used + 1, rfl⟩
  · rw [Function.update_of_ne hne]
    exact ⟨pool.used, hpool⟩

/-- As long as only the first channel is opened, and flags are only taken while
all processes can name their indices, all flags that have been handed out are
good, and no step replaces a pool. -/
theorem flags_good {size : Nat} {env : Nat → Option (BitVec 64)} {w : PoolWorld}
    (hrun : Run step FirstOpen (init size env) w) :
    w.FlagsGood ∧ ∀ a w', w.FirstOpen a → w.step a = some w' → w.Keeps w' := by
  constructor
  · refine Sound.flagsGood (hrun.invariant ?_ fun _ _ _ _ hsound hfirst hstep =>
      hsound.step hfirst hstep)
    exact .inl ⟨fun _ _ => rfl, fun _ _ => rfl, fun _ _ => rfl⟩
  · intro a w' hfirst hstep
    cases a with
    | alloc rank single => exact keeps_alloc hstep
    | openChannel arrs =>
        intro r hr pool hpool
        rw [hfirst r hr] at hpool
        cases hpool

/-- Two processes open a channel and take a flag each. -/
theorem flags_good_two :
    ∃ w, Run step FirstOpen (init 2 fun _ => none) w ∧ w.FlagsGood ∧
      (w.procs 0).handed = [⟨1001, 1⟩] ∧ (w.procs 1).handed = [⟨2001, 1⟩] := by
  have hexec : ∃ w, exec step (fun w a => decide (w.FirstOpen a)) (init 2 fun _ => none)
      [.openChannel [1000, 2000], .alloc 0 1, .alloc 1 1] = some w ∧
        (w.procs 0).handed = [⟨1001, 1⟩] ∧ (w.procs 1).handed = [⟨2001, 1⟩] :=
    ⟨_, rfl, rfl, rfl⟩
  obtain ⟨w, hexec, hhanded⟩ := hexec
  have hrun := (Run.of_exec hexec).mono fun _ _ => of_decide_eq_true
  exact ⟨w, hrun, (flags_good hrun).1, hhanded⟩

/-- A second channel replaces the pools. The flag that process 0 already has is
not in the new one, so that no process can name it any more, and the next flag
gets the same index. -/
theorem second_open_replaces_pools :
    ∃ w w' w'' pool, Run step (fun _ _ => True) (init 1 fun _ => none) w ∧
      w.step (.openChannel [100000]) = some w' ∧ w'.step (.alloc 0 1) = some w'' ∧
      ¬ w.Keeps w' ∧ (w'.procs 0).flag_pool = some pool ∧
      uriVerbsEventFill 1 pool.toFlagPool 0 1001 (-1#64) = .error (.exit .assertExit) ∧
      ¬ w'.FlagsGood ∧ (w''.procs 0).handed = [⟨1001, 1⟩, ⟨100001, 1⟩] := by
  have hexec : ∃ w, exec step (fun _ _ => true) (init 1 fun _ => none)
      [.openChannel [1000], .alloc 0 1] = some w ∧
        ∃ w', w.step (.openChannel [100000]) = some w' ∧ ∃ w'', w'.step (.alloc 0 1) = some w'' ∧
          w'.size = 1 ∧ (w.procs 0).flag_pool = some ⟨⟨65536, [1000]⟩, 1000, 2⟩ ∧
          (w'.procs 0).flag_pool = some ⟨⟨65536, [100000]⟩, 100000, 1⟩ ∧
          (w'.procs 0).handed = [⟨1001, 1⟩] ∧
          (w''.procs 0).handed = [⟨1001, 1⟩, ⟨100001, 1⟩] :=
    ⟨_, rfl, _, rfl, _, rfl, rfl, rfl, rfl, rfl, rfl⟩
  obtain ⟨w, hexec, w', hopen, w'', halloc, hsize, hpool, hpool', hhanded, hhanded'⟩ := hexec
  have hfill : uriVerbsEventFill 1 ⟨65536, [100000]⟩ 0 1001 (-1#64) = .error (.exit .assertExit) :=
    rfl
  refine ⟨w, w', w'', _, (Run.of_exec hexec).mono fun _ _ _ => trivial, hopen, halloc, ?_, hpool',
    hfill, ?_, hhanded'⟩
  · intro hkeeps
    have hw : w.size = 1 := (openChannel_eq_some hopen).1.symm.trans hsize
    obtain ⟨used, hsame⟩ := hkeeps 0 (by omega) _ hpool
    rw [hpool'] at hsame
    cases hsame
  · intro hgood
    obtain ⟨here, -, event, hhere, -, hevent, -⟩ :=
      hgood.round_trip 0 (by omega) ⟨1001, 1⟩ (by simp [hhanded]) 0 (by omega)
    cases hpool'.symm.trans hhere
    rw [hsize, hfill] at hevent
    cases hevent

end PoolWorld

end Unr.Verbs
