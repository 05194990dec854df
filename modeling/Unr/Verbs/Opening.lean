import Unr.Logic.Collective
import Unr.Logic.Record
import Unr.Verbs.Channel

/-!
How all processes open their channels.

`unr_init` and the functions it calls are collective: the processes exchange
host names, the numbers of their queue pairs, the addresses of their ports and
the bases of their flag pools. Which calls a process makes depends on the
channels it has selected and on its ports. The processes come through if these
calls agree; then every queue pair is connected to the one that leads back, and
`qp2rank` finds the rank that a queue pair leads to.
-/

namespace Unr.Verbs

open Unr.Uru
open Unr.Logic

/-! ### Collective calls -/

inductive Collective
  | allgather (bytes : Nat)
  | alltoall (bytes : Nat)
  | allreduceMax (bytes : Nat)
  | commDup
  | barrier
  deriving Repr, DecidableEq

inductive Contribution
  | nothing
  | text (s : List Char)
  | number (n : Nat)
  | numbers (ns : List Nat)
  deriving Repr, DecidableEq

namespace Contribution

def toText : Contribution → List Char
  | .text s => s
  | _ => []

def toNumber : Contribution → Nat
  | .number n => n
  | _ => 0

def toNumbers : Contribution → List Nat
  | .numbers ns => ns
  | _ => []

end Contribution

/-- A process up to the end of a function that makes collective calls. -/
abbrev Coll (β : Type) := Party Stop Collective Contribution β

def mpiAllgather (bytes n : Nat) : Coll (List Nat) := do
  let xs ← Party.collect (.allgather bytes) (.number n)
  return xs.map Contribution.toNumber

def mpiAlltoall (rank bytes : Nat) (send : List Nat) : Coll (List Nat) := do
  let xs ← Party.collect (.alltoall bytes) (.numbers send)
  return xs.map fun x => x.toNumbers.getD rank 0

def mpiAllreduceMax (bytes n : Nat) : Coll Nat := do
  let xs ← Party.collect (.allreduceMax bytes) (.number n)
  return (xs.map Contribution.toNumber).foldl max 0

/-- `MPI_Comm_dup` and `MPI_Barrier`. -/
def mpiSync (k : Collective) : Coll Unit := do
  let _ ← Party.collect k .nothing
  return ()

/-! ### `uru_mpi_init` -/

/-- `uru_mpi_init`. The result is `same_node`. The MPI library fixes
`MPI_MAX_PROCESSOR_NAME`. -/
def uruMpiInit (mpiMaxProcessorName : Nat) (hostname : List Char) : Coll (List Bool) := do
  let hosts ← Party.collect (.allgather mpiMaxProcessorName) (.text hostname)
  return hosts.map fun host => decide (hostname = host.toText)

/-! ### `uri_verbs_channel_open` -/

/-- The device of a channel: what is asked about it before it is used, the
numbers of the queue pairs that are created for the processes, the port, and the
address of the flags. -/
structure VerbsDevice where
  num_device : Nat
  /-- The `device_id` of the channel, or 0 if `URI_VERBS_DEVICE_NUM` is set or
  `TARGET_SYSTEM` is `TH2K`. -/
  open_dev_id : Nat
  max_qp_wr : Int
  /-- `UNR_DIR` is set. -/
  unr_dir : Bool
  qp_num : Nat → Nat
  lid : Nat
  gid : Nat
  active_mtu : Nat
  flag_arr : Nat
  deriving Inhabited

structure IbvQp where
  qp_num : Nat
  dest_qp_num : Nat
  dlid : Nat
  /-- `dgid`, if `is_global` is set. -/
  dgid : Option Nat
  path_mtu : Nat
  deriving Repr, DecidableEq

structure VerbsChannel where
  qp_list : List IbvQp
  qp2rank : Nat → Nat
  flag_pool : FlagPool

/-- An entry of `qp2rank` that has not been set. -/
def noRank : Nat := 2 ^ 32 - 1

/-- The device is opened. The calls of libibverbs return what they are asked
for here and below. -/
def openDevice (dev : VerbsDevice) : Prog Unit := do
  uruAssert (dev.num_device ≠ 0)
  uruAssert (dev.open_dev_id < dev.num_device)
  uruAssert (verbsOutstandingSendRequests < dev.max_qp_wr)

def fillQp2rank (size : Nat) (qp_num : Nat → Nat) : Prog (Nat → Nat) :=
  (List.range size).foldlM (fun qp2rank i => do
    uruAssert (qp_num i < 2 ^ 24)
    return Function.update qp2rank (qp_num i) i) fun _ => noRank

/-- `modify_qp_to_rtr` and `modify_qp_to_rts`. The list of the gids is a null
pointer in a process whose own port has a lid. -/
def modifyQp (qp_num remote_qpn dlid : Nat) (gid_list : Option (List Nat)) (i active_mtu : Nat) :
    Prog IbvQp :=
  if dlid = 0 then
    match gid_list with
    | some gid_list => do
        let dgid ← fetch gid_list i
        return ⟨qp_num, remote_qpn, dlid, some dgid, active_mtu⟩
    | none => throw .undefined
  else return ⟨qp_num, remote_qpn, dlid, none, active_mtu⟩

/-- The gids are exchanged by processes whose ports have no lid. The index of the
gid is found by a script under `UNR_DIR`. -/
def gatherGids (dev : VerbsDevice) : Coll (Option (List Nat)) :=
  if dev.lid = 0 then do
    Party.ofExcept (uruAssert (dev.unr_dir = true))
    let gid_list ← mpiAllgather 16 dev.gid
    return some gid_list
  else return none

/-- The part of `uri_verbs_channel_open` that exchanges LIDs, GIDs and MTUs and
changes the states of the queue pairs. -/
def connectQps (size : Nat) (dev : VerbsDevice) (qp_num_list_recv : List Nat) :
    Coll (List IbvQp) := do
  let lid_list ← mpiAllgather 2 dev.lid
  let gid_list ← gatherGids dev
  let max_mtu ← mpiAllreduceMax 4 dev.active_mtu
  Party.ofExcept ((List.range size).mapM fun i =>
    modifyQp (dev.qp_num i) (qp_num_list_recv.getD i 0) (lid_list.getD i 0) gid_list i max_mtu)

/-- `init_flag_pool`. `env` is what `atoi` returns for `URU_NUM_FLAGS`, if it is
set; it is checked before the call. -/
def shareFlagPool (env : Option (BitVec 64)) (arr : Nat) : Coll FlagPool := do
  let _ ← Party.ofExcept (initFlagPool env [])
  let rmt_base ← mpiAllgather 8 arr
  Party.ofExcept (initFlagPool env rmt_base)

def uriVerbsChannelOpen (size rank : Nat) (env : Option (BitVec 64)) (dev : VerbsDevice) :
    Coll VerbsChannel := do
  Party.ofExcept (openDevice dev)
  let qp2rank ← Party.ofExcept (fillQp2rank size dev.qp_num)
  let qp_num_list_recv ← mpiAlltoall rank 4 ((List.range size).map dev.qp_num)
  let qp_list ← connectQps size dev qp_num_list_recv
  let flag_pool ← shareFlagPool env dev.flag_arr
  mpiSync .barrier
  mpiSync .barrier
  return ⟨qp_list, qp2rank, flag_pool⟩

/-! ### All channels -/

/-- The communicators of `uri_mpi_channel_open`. -/
def uriMpiChannelOpen (thread_multiple : Bool) : Coll Unit := do
  Party.ofExcept (uruAssert (thread_multiple = true))
  mpiSync .commDup
  mpiSync .commDup

inductive Device
  | mpi
  | verbs (dev : VerbsDevice)
  deriving Inhabited

inductive Opened
  | mpi
  | verbs (channel : VerbsChannel)

structure Config where
  hostname : List Char
  /-- `MPI_Query_thread` reports `MPI_THREAD_MULTIPLE`. -/
  thread_multiple : Bool
  /-- `URU_NUM_FLAGS`. -/
  num_flags : Option (BitVec 64)
  /-- `avail_channels`. -/
  channels : List Device

section

variable (size rank : Nat) (cfg : Config)

def channelOpen : Device → Coll Opened
  | .mpi => do
      uriMpiChannelOpen cfg.thread_multiple
      return .mpi
  | .verbs dev => do
      let channel ← uriVerbsChannelOpen size rank cfg.num_flags dev
      return .verbs channel

def openChannels : List Device → Coll (List Opened)
  | [] => return []
  | d :: rest => do
      let channel ← channelOpen size rank cfg d
      let channels ← openChannels rest
      return channel :: channels

def unrInit (mpiMaxProcessorName : Nat) : Coll (List Bool × List Opened) := do
  let same_node ← uruMpiInit mpiMaxProcessorName cfg.hostname
  let channels ← openChannels size rank cfg cfg.channels
  return (same_node, channels)

end

/-! ### What is exchanged -/

section Exchange

variable {size : Nat} {β : Type} {ps : Nat → Coll β} {res : Nat → β} (hpos : 0 < size)

include hpos

theorem lockstep_allgather {bytes : Nat} {n : Nat → Nat} {f : Nat → List Nat → Coll β}
    (h : ∀ p < size, ps p = mpiAllgather bytes (n p) >>= f p) :
    Lockstep size ps res ↔ Lockstep size (fun p => f p ((List.range size).map n)) res := by
  rw [lockstep_call hpos (fun p => .number (n p))
    (fun p xs => f p (xs.map Contribution.toNumber)) h]
  simp [Contribution.toNumber, Function.comp_def]

theorem lockstep_alltoall {bytes : Nat} {n : Nat → List Nat} {f : Nat → List Nat → Coll β}
    (h : ∀ p < size, ps p = mpiAlltoall p bytes (n p) >>= f p) :
    Lockstep size ps res ↔
      Lockstep size (fun p => f p ((List.range size).map fun q => (n q).getD p 0)) res := by
  rw [lockstep_call hpos (fun p => .numbers (n p))
    (fun p xs => f p (xs.map fun x => x.toNumbers.getD p 0)) h]
  simp [Contribution.toNumbers, Function.comp_def]

theorem lockstep_allreduce {bytes : Nat} {n : Nat → Nat} {f : Nat → Nat → Coll β}
    (h : ∀ p < size, ps p = mpiAllreduceMax bytes (n p) >>= f p) :
    Lockstep size ps res ↔
      Lockstep size (fun p => f p (((List.range size).map n).foldl max 0)) res := by
  rw [lockstep_call hpos (fun p => .number (n p))
    (fun p xs => f p ((xs.map Contribution.toNumber).foldl max 0)) h]
  simp [Contribution.toNumber, Function.comp_def]

/-- Ports with and without a lid do not get along, and one without a lid needs
`UNR_DIR`. -/
theorem lockstep_gids {dev : Nat → VerbsDevice} {bytes : Nat} {n : Nat → Nat}
    {f : Nat → Option (List Nat) → Nat → Coll β}
    (h : ∀ p < size, ps p = gatherGids (dev p) >>= fun gid_list =>
      mpiAllreduceMax bytes (n p) >>= f p gid_list) :
    Lockstep size ps res ↔ (∀ p < size, ∀ q < size, (dev p).lid = 0 ↔ (dev q).lid = 0) ∧
      (∀ p < size, (dev p).lid = 0 → (dev p).unr_dir = true) ∧
      Lockstep size (fun p => f p
        (if (dev p).lid = 0 then some ((List.range size).map fun q => (dev q).gid) else none)
        (((List.range size).map n).foldl max 0)) res := by
  have hlidless : ∀ p < size, (dev p).lid = 0 →
      ps p = Party.ofExcept (uruAssert ((dev p).unr_dir = true)) >>= fun _ =>
        mpiAllgather 16 (dev p).gid >>= fun gid_list =>
          mpiAllreduceMax bytes (n p) >>= f p (some gid_list) := by
    intro p hp hlid
    rw [h p hp, gatherGids, if_pos hlid]
    simp only [bind_assoc, pure_bind]
  have hdir : Lockstep size ps res → ∀ p < size, (dev p).lid = 0 → (dev p).unr_dir = true := by
    intro hall p hp hlid
    obtain ⟨_, hc⟩ := ok_of_lockstep hall hp (hlidless p hp hlid)
    exact uruAssert_eq_ok.mp hc
  have hwith : ∀ p < size, (dev p).lid = 0 → (dev p).unr_dir = true →
      ps p = mpiAllgather 16 (dev p).gid >>= fun gid_list =>
        mpiAllreduceMax bytes (n p) >>= f p (some gid_list) := by
    intro p hp hlid hset
    have hok : uruAssert ((dev p).unr_dir = true) = .ok () := uruAssert_eq_ok.mpr hset
    rw [hlidless p hp hlid, hok, Party.ofExcept_ok, Party.done_bind]
  have hwithout : ∀ p < size, (dev p).lid ≠ 0 →
      ps p = mpiAllreduceMax bytes (n p) >>= f p none := by
    intro p hp hlid
    rw [h p hp, gatherGids, if_neg hlid]
    simp only [pure_bind]
  by_cases hagree : ∀ p < size, ∀ q < size, (dev p).lid = 0 ↔ (dev q).lid = 0
  · rw [and_iff_right hagree]
    by_cases hlid : (dev 0).lid = 0
    · have hall : ∀ p < size, (dev p).lid = 0 := fun p hp => (hagree p hp 0 hpos).mpr hlid
      have hgo : (∀ p < size, (dev p).lid = 0 → (dev p).unr_dir = true) → (Lockstep size ps res ↔
          Lockstep size (fun p => f p
            (if (dev p).lid = 0 then some ((List.range size).map fun q => (dev q).gid) else none)
            (((List.range size).map n).foldl max 0)) res) := by
        intro hset
        rw [lockstep_allgather hpos fun p hp => hwith p hp (hall p hp) (hset p hp (hall p hp)),
          lockstep_allreduce hpos fun p _ => rfl]
        exact lockstep_congr fun p hp => by rw [if_pos (hall p hp)]
      exact ⟨fun h' => ⟨hdir h', (hgo (hdir h')).mp h'⟩, fun h' => (hgo h'.1).mpr h'.2⟩
    · have hall : ∀ p < size, (dev p).lid ≠ 0 := fun p hp hp' =>
        hlid ((hagree p hp 0 hpos).mp hp')
      rw [and_iff_right fun p hp hlid => absurd hlid (hall p hp),
        lockstep_allreduce hpos fun p hp => hwithout p hp (hall p hp)]
      exact lockstep_congr fun p hp => by rw [if_neg (hall p hp)]
  · -- a process without a lid meets one that has one
    refine iff_of_false (fun hmeet => ?_) fun h => hagree h.1
    obtain ⟨p, hp, q, hq, hlid, hlid'⟩ : ∃ p < size, ∃ q < size,
        (dev p).lid = 0 ∧ (dev q).lid ≠ 0 := by
      by_contra hnone
      push Not at hnone
      exact hagree fun p hp q hq => ⟨hnone p hp q hq, hnone q hq p hp⟩
    exact not_lockstep_of_kinds hp hq (hwith p hp hlid (hdir hmeet p hp hlid))
      (hwithout q hq hlid') (by simp) hmeet

theorem lockstep_sync {k : Collective} {f : Nat → Coll β}
    (h : ∀ p < size, ps p = mpiSync k >>= fun _ => f p) :
    Lockstep size ps res ↔ Lockstep size f res :=
  lockstep_call hpos (fun _ => .nothing) (fun p _ => f p) fun p hp => (h p hp).trans rfl

end Exchange

/-! ### What a process sets up -/

theorem openDevice_eq_ok {dev : VerbsDevice} : openDevice dev = .ok () ↔
    dev.open_dev_id < dev.num_device ∧ verbsOutstandingSendRequests < dev.max_qp_wr := by
  simp only [openDevice, bind_eq_ok, uruAssert_eq_ok]
  constructor
  · rintro ⟨-, -, -, hid, hwr⟩
    exact ⟨hid, hwr⟩
  · rintro ⟨hid, hwr⟩
    exact ⟨(), Nat.ne_zero_of_lt hid, (), hid, hwr⟩

def qp2rankOf (size : Nat) (qp_num : Nat → Nat) : Nat → Nat :=
  (List.range size).foldl (fun qp2rank i => Function.update qp2rank (qp_num i) i) fun _ => noRank

theorem qp2rankOf_succ (size : Nat) (qp_num : Nat → Nat) :
    qp2rankOf (size + 1) qp_num =
      Function.update (qp2rankOf size qp_num) (qp_num size) size := by
  rw [qp2rankOf, List.range_succ, List.foldl_append]
  rfl

theorem fillQp2rank_eq_ok {size : Nat} {qp_num qp2rank : Nat → Nat} :
    fillQp2rank size qp_num = .ok qp2rank ↔
      (∀ i < size, qp_num i < 2 ^ 24) ∧ qp2rank = qp2rankOf size qp_num := by
  induction size generalizing qp2rank with
  | zero =>
      simp only [fillQp2rank, List.range_zero, List.foldlM_nil, pure_eq_ok, Nat.not_lt_zero,
        false_implies, implies_true, true_and]
      exact ⟨fun h => h.symm, fun h => h.symm⟩
  | succ size ih =>
      rw [fillQp2rank, List.range_succ, List.foldlM_append, bind_eq_ok]
      simp only [List.foldlM_cons, List.foldlM_nil, bind_pure]
      rw [qp2rankOf_succ]
      constructor
      · rintro ⟨m, hm, h⟩
        obtain ⟨hlt, rfl⟩ := ih.mp hm
        obtain ⟨_, hassert, h⟩ := bind_eq_ok.mp h
        rw [pure_eq_ok] at h
        refine ⟨fun i hi => ?_, h.symm⟩
        obtain hi | rfl := Nat.lt_succ_iff_lt_or_eq.mp hi
        · exact hlt i hi
        · exact uruAssert_eq_ok.mp hassert
      · rintro ⟨hlt, rfl⟩
        refine ⟨qp2rankOf size qp_num, ih.mpr ⟨fun i hi => hlt i (Nat.lt_succ_of_lt hi), rfl⟩, ?_⟩
        exact bind_eq_ok.mpr ⟨(), uruAssert_eq_ok.mpr (hlt size (Nat.lt_succ_self _)), rfl⟩

/-- The rank that a queue pair leads to. -/
theorem qp2rankOf_qp_num {size : Nat} {qp_num : Nat → Nat} {q : Nat} (hq : q < size)
    (hinj : ∀ i < size, qp_num i = qp_num q → i = q) : qp2rankOf size qp_num (qp_num q) = q := by
  induction size with
  | zero => exact absurd hq (Nat.not_lt_zero _)
  | succ size ih =>
      rw [qp2rankOf_succ]
      obtain hlt | rfl := Nat.lt_succ_iff_lt_or_eq.mp hq
      · have hne : qp_num q ≠ qp_num size := fun heq => hlt.ne' (hinj size (by omega) heq.symm)
        rw [Function.update_of_ne hne]
        exact ih hlt fun i hi => hinj i (by omega)
      · rw [Function.update_self]

/-- `init_flag_pool` accepts the number of flags. -/
def FlagsFit (env : Option (BitVec 64)) : Prop :=
  ∀ num_flags ∈ env, 0 < num_flags.toNat ∧ num_flags.toNat ≤ 2 ^ 32

def numFlags (env : Option (BitVec 64)) : Nat := (env.map BitVec.toNat).getD 65536

theorem initFlagPool_eq_ok_iff {env : Option (BitVec 64)} {rmt_base : List Nat}
    {flag_pool : FlagPool} : initFlagPool env rmt_base = .ok flag_pool ↔
      FlagsFit env ∧ flag_pool = ⟨numFlags env, rmt_base⟩ := by
  cases env with
  | none =>
      simp only [initFlagPool, FlagsFit, numFlags, Except.ok.injEq]
      simpa using eq_comm
  | some num_flags =>
      simp only [initFlagPool, FlagsFit, numFlags, bind_eq_ok, uruAssert_eq_ok, pure_eq_ok]
      simpa using fun _ _ => eq_comm

section Setup

variable (size : Nat) (dev : Nat → VerbsDevice)

def maxMtu : Nat := ((List.range size).map fun p => (dev p).active_mtu).foldl max 0

def qpOf (p i : Nat) : IbvQp where
  qp_num := (dev p).qp_num i
  dest_qp_num := (dev i).qp_num p
  dlid := (dev i).lid
  dgid := if (dev i).lid = 0 then some (dev i).gid else none
  path_mtu := maxMtu size dev

def channelOf (env : Nat → Option (BitVec 64)) (p : Nat) : VerbsChannel where
  qp_list := (List.range size).map (qpOf size dev p)
  qp2rank := qp2rankOf size (dev p).qp_num
  flag_pool := ⟨numFlags (env p), (List.range size).map fun q => (dev q).flag_arr⟩

end Setup

section Verbs

variable {size : Nat} {dev : Nat → VerbsDevice} {β : Type} {ps : Nat → Coll β} {res : Nat → β}

theorem modifyQps {p : Nat} (hp : p < size)
    (hagree : ∀ p < size, ∀ q < size, (dev p).lid = 0 ↔ (dev q).lid = 0) :
    ((List.range size).mapM fun i => modifyQp ((dev p).qp_num i)
      (((List.range size).map fun q => ((List.range size).map (dev q).qp_num).getD p 0).getD i 0)
      (((List.range size).map fun q => (dev q).lid).getD i 0)
      (if (dev p).lid = 0 then some ((List.range size).map fun q => (dev q).gid) else none)
      i (maxMtu size dev)) = .ok ((List.range size).map (qpOf size dev p)) := by
  refine mapM_range_map fun i hi => ?_
  have hnum : (((List.range size).map fun q =>
      ((List.range size).map (dev q).qp_num).getD p 0).getD i 0) = (dev i).qp_num p := by
    simp [List.getD, hi, hp]
  have hlid : (((List.range size).map fun q => (dev q).lid).getD i 0) = (dev i).lid := by
    simp [List.getD, hi]
  rw [hnum, hlid]
  unfold modifyQp
  by_cases hzero : (dev i).lid = 0
  · have hgid : ((List.range size).map fun q => (dev q).gid)[i]? = some (dev i).gid := by
      simp [hi]
    rw [if_pos hzero, if_pos ((hagree p hp i hi).mpr hzero)]
    simp only [fetch, hgid, qpOf, if_pos hzero]
    rfl
  · rw [if_neg hzero, qpOf, if_neg hzero]
    rfl

theorem lockstep_connect (hpos : 0 < size) {f : Nat → List IbvQp → Coll β}
    (h : ∀ p < size, ps p = connectQps size (dev p)
      ((List.range size).map fun q => ((List.range size).map (dev q).qp_num).getD p 0) >>= f p) :
    Lockstep size ps res ↔ (∀ p < size, ∀ q < size, (dev p).lid = 0 ↔ (dev q).lid = 0) ∧
      (∀ p < size, (dev p).lid = 0 → (dev p).unr_dir = true) ∧
      Lockstep size (fun p => f p ((List.range size).map (qpOf size dev p))) res := by
  simp only [connectQps, bind_assoc] at h
  rw [lockstep_allgather hpos h, lockstep_gids hpos fun p _ => rfl]
  refine and_congr_right fun hagree => and_congr_right fun _ => lockstep_congr fun p hp => ?_
  have hqps := modifyQps hp hagree
  rw [maxMtu] at hqps
  rw [hqps]
  rfl

theorem lockstep_flagPool (hpos : 0 < size) {env : Nat → Option (BitVec 64)} {arr : Nat → Nat}
    {f : Nat → FlagPool → Coll β}
    (h : ∀ p < size, ps p = shareFlagPool (env p) (arr p) >>= f p) :
    Lockstep size ps res ↔ (∀ p < size, FlagsFit (env p)) ∧
      Lockstep size (fun p => f p ⟨numFlags (env p), (List.range size).map arr⟩) res := by
  simp only [shareFlagPool, bind_assoc] at h
  have hfit : Lockstep size ps res → ∀ p < size, FlagsFit (env p) := fun hall p hp => by
    obtain ⟨c, hc⟩ := ok_of_lockstep hall hp (h p hp)
    exact (initFlagPool_eq_ok_iff.mp hc).1
  have hgo : (∀ p < size, FlagsFit (env p)) → (Lockstep size ps res ↔
      Lockstep size (fun p => f p ⟨numFlags (env p), (List.range size).map arr⟩) res) := by
    intro hfit
    have hok : ∀ (p : Nat) (base : List Nat), p < size →
        initFlagPool (env p) base = .ok ⟨numFlags (env p), base⟩ := fun p base hp =>
      initFlagPool_eq_ok_iff.mpr ⟨hfit p hp, rfl⟩
    have hpool : ∀ p < size, ps p = mpiAllgather 8 (arr p) >>= fun base =>
        Party.ofExcept (initFlagPool (env p) base) >>= f p := fun p hp => by
      rw [h p hp, hok p [] hp]
      rfl
    rw [lockstep_allgather hpos hpool]
    exact lockstep_congr fun p hp => by rw [hok p _ hp, Party.ofExcept_ok, Party.done_bind]
  exact ⟨fun hall => ⟨hfit hall, (hgo (hfit hall)).mp hall⟩, fun hall => (hgo hall.1).mpr hall.2⟩

/-- A channel that all processes open. -/
structure VerbsReady (size : Nat) (dev : Nat → VerbsDevice) (env : Nat → Option (BitVec 64)) :
    Prop where
  opens : ∀ p < size, (dev p).open_dev_id < (dev p).num_device ∧
    verbsOutstandingSendRequests < (dev p).max_qp_wr
  qp_num : ∀ p < size, ∀ i < size, (dev p).qp_num i < 2 ^ 24
  lid : ∀ p < size, ∀ q < size, (dev p).lid = 0 ↔ (dev q).lid = 0
  unr_dir : ∀ p < size, (dev p).lid = 0 → (dev p).unr_dir = true
  flags : ∀ p < size, FlagsFit (env p)

theorem lockstep_verbs (hpos : 0 < size) {env : Nat → Option (BitVec 64)}
    {f : Nat → VerbsChannel → Coll β}
    (h : ∀ p < size, ps p = uriVerbsChannelOpen size p (env p) (dev p) >>= f p) :
    Lockstep size ps res ↔ VerbsReady size dev env ∧
      Lockstep size (fun p => f p (channelOf size dev env p)) res := by
  simp only [uriVerbsChannelOpen, bind_assoc, pure_bind] at h
  have hopens : Lockstep size ps res → ∀ p < size, openDevice (dev p) = .ok () :=
    fun hall p hp => by
      obtain ⟨⟨⟩, hc⟩ := ok_of_lockstep hall hp (h p hp)
      exact hc
  have hnums : Lockstep size ps res → ∀ p < size, ∀ i < size, (dev p).qp_num i < 2 ^ 24 :=
    fun hall p hp => by
      have hfill := h p hp
      rw [hopens hall p hp, Party.ofExcept_ok, Party.done_bind] at hfill
      obtain ⟨c, hc⟩ := ok_of_lockstep hall hp hfill
      exact (fillQp2rank_eq_ok.mp hc).1
  have hgo : (∀ p < size, openDevice (dev p) = .ok ()) →
      (∀ p < size, ∀ i < size, (dev p).qp_num i < 2 ^ 24) → (Lockstep size ps res ↔
        ((∀ p < size, ∀ q < size, (dev p).lid = 0 ↔ (dev q).lid = 0) ∧
          (∀ p < size, (dev p).lid = 0 → (dev p).unr_dir = true) ∧
            (∀ p < size, FlagsFit (env p)) ∧
              Lockstep size (fun p => f p (channelOf size dev env p)) res)) := by
    intro hopens hnums
    have hfilled : ∀ p < size, ps p = mpiAlltoall p 4 ((List.range size).map (dev p).qp_num) >>=
        fun recv => connectQps size (dev p) recv >>= fun qp_list =>
          shareFlagPool (env p) (dev p).flag_arr >>= fun flag_pool =>
            mpiSync .barrier >>= fun _ => mpiSync .barrier >>= fun _ =>
              f p ⟨qp_list, qp2rankOf size (dev p).qp_num, flag_pool⟩ := fun p hp => by
      rw [h p hp, hopens p hp, fillQp2rank_eq_ok.mpr ⟨hnums p hp, rfl⟩]
      rfl
    rw [lockstep_alltoall hpos hfilled, lockstep_connect hpos fun p _ => rfl,
      lockstep_flagPool hpos fun p _ => rfl, lockstep_sync hpos fun p _ => rfl,
      lockstep_sync hpos fun p _ => rfl]
    rfl
  constructor
  · intro hall
    obtain ⟨hlid, hdir, hflags, hrest⟩ := (hgo (hopens hall) (hnums hall)).mp hall
    exact ⟨⟨fun p hp => openDevice_eq_ok.mp (hopens hall p hp), hnums hall, hlid, hdir, hflags⟩,
      hrest⟩
  · rintro ⟨⟨hopens, hqp, hlid, hdir, hflags⟩, hrest⟩
    exact (hgo (fun p hp => openDevice_eq_ok.mpr (hopens p hp)) hqp).mpr
      ⟨hlid, hdir, hflags, hrest⟩

end Verbs

/-! ### All channels of all processes -/

/-- What decides which calls the opening of a channel makes. -/
inductive DeviceKind
  | mpi
  | verbs (has_lid : Bool)
  deriving Repr, DecidableEq

def Device.kind : Device → DeviceKind
  | .mpi => .mpi
  | .verbs dev => .verbs (decide (dev.lid ≠ 0))

def Device.Ready (size : Nat) (cfg : Config) : Device → Prop
  | .mpi => cfg.thread_multiple = true
  | .verbs dev => dev.open_dev_id < dev.num_device ∧
      verbsOutstandingSendRequests < dev.max_qp_wr ∧ (∀ i < size, dev.qp_num i < 2 ^ 24) ∧
        (dev.lid = 0 → dev.unr_dir = true) ∧ FlagsFit cfg.num_flags

def Device.firstCall : Device → Collective
  | .mpi => .commDup
  | .verbs _ => .alltoall 4

def deviceAt (channels : List Device) (j : Nat) : VerbsDevice :=
  match channels[j]? with
  | some (.verbs dev) => dev
  | _ => default

def openedAt (size : Nat) (env : Nat → Option (BitVec 64)) (channels : Nat → List Device)
    (p j : Nat) : Device → Opened
  | .mpi => .mpi
  | .verbs _ => .verbs (channelOf size (fun q => deviceAt (channels q) j) env p)

def openedOf (size : Nat) (env : Nat → Option (BitVec 64)) (channels : Nat → List Device)
    (p : Nat) : List Opened :=
  (channels p).mapIdx (openedAt size env channels p)

/-- All processes have selected the same kinds of channels, in the same
order. -/
def Agree (size : Nat) (channels : Nat → List Device) : Prop :=
  ∀ p < size, ∀ q < size, (channels p).map Device.kind = (channels q).map Device.kind

section Channels

variable {size : Nat} {cfg : Nat → Config} {β : Type} {ps : Nat → Coll β} {res : Nat → β}

theorem lockstep_mpi (hpos : 0 < size) {f : Nat → Coll β} {thread_multiple : Nat → Bool}
    (h : ∀ p < size, ps p = uriMpiChannelOpen (thread_multiple p) >>= fun _ => f p) :
    Lockstep size ps res ↔ (∀ p < size, thread_multiple p = true) ∧ Lockstep size f res := by
  simp only [uriMpiChannelOpen, bind_assoc] at h
  have hthreads : Lockstep size ps res → ∀ p < size, thread_multiple p = true := fun hall p hp => by
    obtain ⟨c, hc⟩ := ok_of_lockstep hall hp (h p hp)
    exact uruAssert_eq_ok.mp hc
  have hgo : (∀ p < size, thread_multiple p = true) →
      (Lockstep size ps res ↔ Lockstep size f res) := by
    intro hthreads
    have hdup : ∀ p < size, ps p = mpiSync .commDup >>= fun _ => mpiSync .commDup >>= fun _ =>
        f p := fun p hp => by
      have hok : uruAssert (thread_multiple p = true) = .ok () :=
        uruAssert_eq_ok.mpr (hthreads p hp)
      rw [h p hp, hok]
      rfl
    rw [lockstep_sync hpos hdup, lockstep_sync hpos fun p _ => rfl]
  exact ⟨fun hall => ⟨hthreads hall, (hgo (hthreads hall)).mp hall⟩,
    fun hall => (hgo hall.1).mpr hall.2⟩

theorem channelOpen_first (size p : Nat) (cfg : Config) (d : Device) (g : Opened → Coll β) :
    (∃ e, channelOpen size p cfg d >>= g = .fail e) ∨
      ∃ x next, channelOpen size p cfg d >>= g = .call d.firstCall x next := by
  cases d with
  | mpi =>
      simp only [channelOpen, uriMpiChannelOpen, bind_assoc]
      by_cases hthreads : cfg.thread_multiple = true
      · have hok : uruAssert (cfg.thread_multiple = true) = .ok () := uruAssert_eq_ok.mpr hthreads
        rw [hok]
        exact .inr ⟨_, _, rfl⟩
      · rw [uruAssert, if_neg hthreads]
        exact .inl ⟨_, rfl⟩
  | verbs dev =>
      simp only [channelOpen, uriVerbsChannelOpen, bind_assoc]
      cases openDevice dev with
      | error e => exact .inl ⟨e, rfl⟩
      | ok =>
          cases fillQp2rank size dev.qp_num with
          | ok qp2rank => exact .inr ⟨_, _, rfl⟩
          | error e => exact .inl ⟨e, rfl⟩

/-- Processes that do not begin alike do not come through. -/
theorem not_lockstep_of_first {p q : Nat} (hp : p < size) (hq : q < size) {d : Device}
    {g : Opened → Coll β} (hcall : ps p = channelOpen size p (cfg p) d >>= g)
    (hother : (∃ b, ps q = .done b) ∨ ∃ d' g',
      ps q = channelOpen size q (cfg q) d' >>= g' ∧ d.firstCall ≠ d'.firstCall) :
    ¬ Lockstep size ps res := by
  obtain ⟨e, he⟩ | ⟨x, next, hnext⟩ := channelOpen_first size p (cfg p) d g
  · exact not_lockstep_of_fail hp (hcall.trans he)
  · obtain ⟨b, hb⟩ | ⟨d', g', hcall', hne⟩ := hother
    · exact not_lockstep_of_done hp hq (hcall.trans hnext) hb
    · obtain ⟨e, he⟩ | ⟨x', next', hnext'⟩ := channelOpen_first size q (cfg q) d' g'
      · exact not_lockstep_of_fail hq (hcall'.trans he)
      · exact not_lockstep_of_kinds hp hq (hcall.trans hnext) (hcall'.trans hnext') hne

theorem channelOf_congr {dev dev' : Nat → VerbsDevice} {env : Nat → Option (BitVec 64)} {p : Nat}
    (hp : p < size) (h : ∀ q < size, dev q = dev' q) :
    channelOf size dev env p = channelOf size dev' env p := by
  have hmap : ∀ {α : Type} (f : VerbsDevice → α),
      ((List.range size).map fun q => f (dev q)) = (List.range size).map fun q => f (dev' q) :=
    fun f => List.map_congr_left fun q hq => by rw [h q (List.mem_range.mp hq)]
  have hmtu : maxMtu size dev = maxMtu size dev' := by
    rw [maxMtu, maxMtu, hmap (·.active_mtu)]
  have hqps : (List.range size).map (qpOf size dev p) =
      (List.range size).map (qpOf size dev' p) := by
    refine List.map_congr_left fun i hi => ?_
    rw [qpOf, qpOf, hmtu, h p hp, h i (List.mem_range.mp hi)]
  rw [channelOf, channelOf, hqps, h p hp, hmap (·.flag_arr)]

theorem openedOf_cons {env : Nat → Option (BitVec 64)} {channels rest : Nat → List Device}
    {d : Nat → Device} (hchannels : ∀ q < size, channels q = d q :: rest q) {p : Nat}
    (hp : p < size) : openedOf size env channels p =
      openedAt size env channels p 0 (d p) :: openedOf size env rest p := by
  rw [openedOf, hchannels p hp, List.mapIdx_cons, openedOf]
  congr 1
  refine congrFun (congrArg _ (funext fun j => funext fun d' => ?_)) _
  cases d' with
  | mpi => rfl
  | verbs dev =>
      simp only [openedAt]
      rw [channelOf_congr hp fun q hq => ?_]
      rw [deviceAt, hchannels q hq, List.getElem?_cons_succ, deviceAt]

theorem agree_cons {channels rest : Nat → List Device} {d : Nat → Device}
    (hchannels : ∀ q < size, channels q = d q :: rest q) :
    Agree size channels ↔
      (∀ p < size, ∀ q < size, (d p).kind = (d q).kind) ∧ Agree size rest := by
  constructor
  · intro h
    refine ⟨fun p hp q hq => ?_, fun p hp q hq => ?_⟩ <;>
      · have hpq := h p hp q hq
        rw [hchannels p hp, hchannels q hq, List.map_cons, List.map_cons, List.cons.injEq] at hpq
        first | exact hpq.1 | exact hpq.2
  · rintro ⟨hkind, hrest⟩ p hp q hq
    rw [hchannels p hp, hchannels q hq, List.map_cons, List.map_cons, hkind p hp q hq,
      hrest p hp q hq]

theorem Device.firstCall_of_kind {d d' : Device} (h : d.kind = d'.kind) :
    d.firstCall = d'.firstCall := by
  cases d <;> cases d' <;> first | rfl | cases h

theorem ready_nil {channels : Nat → List Device} {b : Nat → List Opened → β}
    {env : Nat → Option (BitVec 64)} (hchannels : ∀ p < size, channels p = []) :
    (Agree size channels ∧ (∀ p < size, ∀ d ∈ channels p, d.Ready size (cfg p)) ∧
        ∀ p < size, b p (openedOf size env channels p) = res p) ↔
      ∀ p < size, b p [] = res p := by
  have hagree : Agree size channels := fun p hp q hq => by rw [hchannels p hp, hchannels q hq]
  have hready : ∀ p < size, ∀ d ∈ channels p, d.Ready size (cfg p) := fun p hp d hd => by
    rw [hchannels p hp] at hd
    cases hd
  rw [and_iff_right hagree, and_iff_right hready]
  exact forall₂_congr fun p hp => by rw [openedOf, hchannels p hp, List.mapIdx_nil]

theorem ready_cons {channels rest : Nat → List Device} {d : Nat → Device}
    {b : Nat → List Opened → β} {env : Nat → Option (BitVec 64)}
    (hchannels : ∀ q < size, channels q = d q :: rest q) :
    (Agree size channels ∧ (∀ p < size, ∀ d ∈ channels p, d.Ready size (cfg p)) ∧
        ∀ p < size, b p (openedOf size env channels p) = res p) ↔
      ((∀ p < size, ∀ q < size, (d p).kind = (d q).kind) ∧
          ∀ p < size, (d p).Ready size (cfg p)) ∧
        Agree size rest ∧ (∀ p < size, ∀ d ∈ rest p, d.Ready size (cfg p)) ∧
          ∀ p < size, b p (openedAt size env channels p 0 (d p) :: openedOf size env rest p) =
            res p := by
  have hready : (∀ p < size, ∀ d ∈ channels p, d.Ready size (cfg p)) ↔
      (∀ p < size, (d p).Ready size (cfg p)) ∧
        ∀ p < size, ∀ d ∈ rest p, d.Ready size (cfg p) := by
    rw [← forall₂_and]
    refine forall₂_congr fun p hp => ?_
    rw [hchannels p hp, List.forall_mem_cons]
  have hopened : (∀ p < size, b p (openedOf size env channels p) = res p) ↔
      ∀ p < size, b p (openedAt size env channels p 0 (d p) :: openedOf size env rest p) =
        res p :=
    forall₂_congr fun p hp => by rw [openedOf_cons hchannels hp]
  rw [agree_cons hchannels, hready, hopened]
  tauto

theorem eq_mpi_of_firstCall {d : Device} (h : d.firstCall = Device.mpi.firstCall) : d = .mpi := by
  cases d with
  | mpi => rfl
  | verbs => cases h

theorem eq_verbs_of_firstCall {d : Device} {dev₀ : VerbsDevice}
    (h : d.firstCall = (Device.verbs dev₀).firstCall) : ∃ dev, d = .verbs dev := by
  cases d with
  | mpi => cases h
  | verbs dev => exact ⟨dev, rfl⟩

theorem ready_mpi {d : Nat → Device} (hd : ∀ p < size, d p = .mpi) :
    ((∀ p < size, ∀ q < size, (d p).kind = (d q).kind) ∧ ∀ p < size, (d p).Ready size (cfg p)) ↔
      ∀ p < size, (cfg p).thread_multiple = true := by
  have hready : (∀ p < size, (d p).Ready size (cfg p)) ↔
      ∀ p < size, (cfg p).thread_multiple = true :=
    forall₂_congr fun p hp => by rw [hd p hp, Device.Ready]
  rw [hready, and_iff_right fun p hp q hq => by rw [hd p hp, hd q hq]]

theorem ready_verbs {d : Nat → Device} {dev : Nat → VerbsDevice}
    (hd : ∀ p < size, d p = .verbs (dev p)) :
    ((∀ p < size, ∀ q < size, (d p).kind = (d q).kind) ∧ ∀ p < size, (d p).Ready size (cfg p)) ↔
      VerbsReady size dev fun q => (cfg q).num_flags := by
  have hkinds : (∀ p < size, ∀ q < size, (d p).kind = (d q).kind) ↔
      ∀ p < size, ∀ q < size, (dev p).lid = 0 ↔ (dev q).lid = 0 := by
    refine forall₄_congr fun p hp q hq => ?_
    rw [hd p hp, hd q hq, Device.kind, Device.kind, DeviceKind.verbs.injEq, decide_eq_decide,
      not_iff_not]
  have hready : (∀ p < size, (d p).Ready size (cfg p)) ↔
      ∀ p < size, (Device.verbs (dev p)).Ready size (cfg p) :=
    forall₂_congr fun p hp => by rw [hd p hp]
  rw [hkinds, hready]
  constructor
  · rintro ⟨hlid, hall⟩
    refine ⟨fun p hp => ?_, fun p hp => ?_, hlid, fun p hp => ?_, fun p hp => ?_⟩ <;>
      obtain ⟨hid, hwr, hqp, hdir, hflags⟩ := hall p hp
    · exact ⟨hid, hwr⟩
    · exact hqp
    · exact hdir
    · exact hflags
  · intro hall
    refine ⟨hall.lid, fun p hp => ?_⟩
    obtain ⟨hid, hwr⟩ := hall.opens p hp
    exact ⟨hid, hwr, hall.qp_num p hp, hall.unr_dir p hp, hall.flags p hp⟩

theorem openChannels_cons {p : Nat} {channels : List Device} {b : List Opened → β} {P : Coll β}
    (h : P = openChannels size p (cfg p) channels >>= fun opened => .done (b opened))
    {d : Device} {rest : List Device} (hchannels : channels = d :: rest) :
    P = channelOpen size p (cfg p) d >>= fun channel =>
      openChannels size p (cfg p) rest >>= fun opened => .done (b (channel :: opened)) := by
  rw [h, hchannels, openChannels]
  simp only [bind_assoc, pure_bind]

theorem lockstep_openChannels (hpos : 0 < size) {channels : Nat → List Device}
    {b : Nat → List Opened → β}
    (h : ∀ p < size, ps p = openChannels size p (cfg p) (channels p) >>= fun opened =>
      .done (b p opened)) :
    Lockstep size ps res ↔
      Agree size channels ∧ (∀ p < size, ∀ d ∈ channels p, d.Ready size (cfg p)) ∧
        ∀ p < size, b p (openedOf size (fun q => (cfg q).num_flags) channels p) = res p := by
  induction hlist : channels 0 generalizing channels ps b with
  | nil =>
      have hdone : ∀ p < size, channels p = [] → ps p = .done (b p []) := fun p hp hnil => by
        rw [h p hp, hnil]
        rfl
      by_cases hall : ∀ p < size, channels p = []
      · rw [lockstep_done_iff fun p hp => hdone p hp (hall p hp), ready_nil hall]
      · push Not at hall
        obtain ⟨p, hp, hne⟩ := hall
        obtain ⟨d, rest, hp'⟩ := List.exists_cons_of_ne_nil hne
        refine iff_of_false ?_ fun hagree => ?_
        · exact not_lockstep_of_first hp hpos (openChannels_cons (h p hp) hp')
            (.inl ⟨_, hdone 0 hpos hlist⟩)
        · have hkinds := hagree.1 p hp 0 hpos
          rw [hp', hlist] at hkinds
          cases hkinds
  | cons d₀ rest₀ ih =>
      by_cases hsame : ∀ p < size, ∃ d rest, channels p = d :: rest ∧ d.firstCall = d₀.firstCall
      · choose! d rest hchannels hfirst using hsame
        have hrest : rest 0 = rest₀ := by
          have hcons := hchannels 0 hpos
          rw [hlist] at hcons
          exact (List.cons.inj hcons).2.symm
        rw [ready_cons hchannels]
        cases d₀ with
        | mpi =>
            have hmpi : ∀ p < size, d p = .mpi := fun p hp => eq_mpi_of_firstCall (hfirst p hp)
            have hps : ∀ p < size, ps p = uriMpiChannelOpen (cfg p).thread_multiple >>= fun _ =>
                openChannels size p (cfg p) (rest p) >>= fun opened =>
                  .done (b p (.mpi :: opened)) := fun p hp => by
              rw [openChannels_cons (h p hp) (hchannels p hp), hmpi p hp, channelOpen]
              simp only [bind_assoc, pure_bind]
            rw [lockstep_mpi hpos hps, ih (fun p _ => rfl) hrest, ready_mpi hmpi]
            refine and_congr_right fun _ => and_congr_right fun _ => and_congr_right fun _ => ?_
            exact forall₂_congr fun p hp => by rw [hmpi p hp, openedAt]
        | verbs dev₀ =>
            have hverbs : ∀ p < size, ∃ dev, d p = .verbs dev := fun p hp =>
              eq_verbs_of_firstCall (hfirst p hp)
            choose! dev hdev using hverbs
            have hps : ∀ p < size, ps p = uriVerbsChannelOpen size p (cfg p).num_flags (dev p) >>=
                fun channel => openChannels size p (cfg p) (rest p) >>= fun opened =>
                  .done (b p (.verbs channel :: opened)) := fun p hp => by
              rw [openChannels_cons (h p hp) (hchannels p hp), hdev p hp, channelOpen]
              simp only [bind_assoc, pure_bind]
            rw [lockstep_verbs hpos hps, ih (fun p _ => rfl) hrest, ready_verbs hdev]
            refine and_congr_right fun _ => and_congr_right fun _ => and_congr_right fun _ => ?_
            refine forall₂_congr fun p hp => ?_
            rw [hdev p hp, openedAt, channelOf_congr hp fun q hq => ?_]
            rw [deviceAt, hchannels q hq, List.getElem?_cons_zero, hdev q hq]
      · push Not at hsame
        obtain ⟨p, hp, hne⟩ := hsame
        refine iff_of_false ?_ fun hagree => ?_
        · cases hp' : channels p with
          | nil =>
              refine not_lockstep_of_first hpos hp (openChannels_cons (h 0 hpos) hlist)
                (.inl ⟨b p [], ?_⟩)
              rw [h p hp, hp']
              rfl
          | cons d rest =>
              exact not_lockstep_of_first hp hpos (openChannels_cons (h p hp) hp')
                (.inr ⟨_, _, openChannels_cons (h 0 hpos) hlist, hne d rest hp'⟩)
        · have hkinds := hagree.1 p hp 0 hpos
          cases hp' : channels p with
          | nil =>
              rw [hp', hlist] at hkinds
              cases hkinds
          | cons d rest =>
              rw [hp', hlist] at hkinds
              exact hne d rest hp' (Device.firstCall_of_kind (List.cons.inj hkinds).1)

end Channels

/-! ### Runs -/

section Runs

variable {mpiMaxProcessorName size : Nat} {cfg : Nat → Config}
variable {res : Nat → List Bool × List Opened}

def start (mpiMaxProcessorName size : Nat) (cfg : Nat → Config) :
    Meeting Stop Collective Contribution (List Bool × List Opened) :=
  .init fun p => unrInit size p (cfg p) mpiMaxProcessorName

/-- The channels of the processes can be opened. -/
structure Openable (size : Nat) (cfg : Nat → Config) : Prop where
  agree : Agree size fun p => (cfg p).channels
  ready : ∀ p < size, ∀ d ∈ (cfg p).channels, d.Ready size (cfg p)

def sameNode (size : Nat) (cfg : Nat → Config) (p : Nat) : List Bool :=
  (List.range size).map fun q => decide ((cfg p).hostname = (cfg q).hostname)

def initOf (size : Nat) (cfg : Nat → Config) (p : Nat) : List Bool × List Opened :=
  (sameNode size cfg p, openedOf size (fun q => (cfg q).num_flags) (fun q => (cfg q).channels) p)

theorem lockstep_unrInit :
    Lockstep size (fun p => unrInit size p (cfg p) mpiMaxProcessorName) res ↔
    Openable size cfg ∧ ∀ p < size, res p = initOf size cfg p := by
  obtain rfl | hpos := Nat.eq_zero_or_pos size
  · refine iff_of_true (lockstep_done fun p hp => absurd hp (Nat.not_lt_zero p)) ⟨⟨?_, ?_⟩, ?_⟩ <;>
      exact fun p hp => absurd hp (Nat.not_lt_zero p)
  · have hhosts : ∀ p < size, unrInit size p (cfg p) mpiMaxProcessorName =
        .call (.allgather mpiMaxProcessorName) (.text (cfg p).hostname) fun hosts =>
          openChannels size p (cfg p) (cfg p).channels >>= fun opened => .done
            (hosts.map fun host => decide ((cfg p).hostname = host.toText), opened) :=
              fun p _ => rfl
    rw [lockstep_call hpos _ _ hhosts, lockstep_openChannels hpos fun p _ => rfl, and_assoc.symm]
    refine and_congr ⟨fun h => ⟨h.1, h.2⟩, fun h => ⟨h.agree, h.ready⟩⟩ ?_
    refine forall₂_congr fun p _ => ?_
    rw [initOf, sameNode, List.map_map]
    exact eq_comm

/-- The processes come through `unr_init` exactly if they have selected the
same kinds of channels in the same order, with ports that agree in having a
lid, and each can open its channels. Then no order of the steps keeps them from
it: every run is bounded, and one that can go no further has come through. -/
theorem unr_init_comes_through_iff (mpiMaxProcessorName size : Nat) (cfg : Nat → Config) :
    ((∃ s, Run (Meeting.step size) (fun _ _ => True) (start mpiMaxProcessorName size cfg) s ∧
        ∀ p < size, ∃ r, s.party p = .done r) ↔ Openable size cfg) ∧
    (Openable size cfg → ∃ n, ∀ m s,
      Steps (Meeting.step size) (fun _ _ => True) (start mpiMaxProcessorName size cfg) m s →
        m ≤ n ∧ (Stuck (Meeting.step size) (fun _ _ => True) s →
          ∀ p < size, ∃ r, s.party p = .done r)) := by
  have hlockstep : Openable size cfg →
      Lockstep size (fun p => unrInit size p (cfg p) mpiMaxProcessorName) (initOf size cfg) :=
    fun hopenable => lockstep_unrInit.mpr ⟨hopenable, fun p _ => rfl⟩
  refine ⟨⟨?_, fun hopenable => ?_⟩, fun hopenable => ?_⟩
  · rintro ⟨s, hrun, hdone⟩
    choose! r hr using hdone
    exact (lockstep_unrInit.mp (Meeting.lockstep_of_run hrun hr)).1
  · obtain ⟨s, hrun, hdone⟩ := Meeting.exists_run_of_lockstep (hlockstep hopenable)
    exact ⟨s, hrun, fun p hp => ⟨_, hdone p hp⟩⟩
  · obtain ⟨n, hn⟩ := Meeting.lockstep_steps (hlockstep hopenable)
    refine ⟨n, fun m s hsteps => ⟨(hn m s hsteps).1, fun hstuck p hp => ?_⟩⟩
    exact ⟨_, (hn m s hsteps).2 hstuck p hp⟩

/-- The channels `a` and `b` of two processes `p` and `q` lead to each other. -/
structure Connected (size p q : Nat) (dev dev' : VerbsDevice) (a b : VerbsChannel) : Prop where
  qps : ∃ x y, a.qp_list[q]? = some x ∧ b.qp_list[p]? = some y ∧ x.qp_num = dev.qp_num q ∧
    x.dest_qp_num = y.qp_num ∧ y.dest_qp_num = x.qp_num ∧ x.dlid = dev'.lid ∧
      (dev'.lid = 0 → x.dgid = some dev'.gid) ∧ x.path_mtu = y.path_mtu
  /-- The daemon finds the process that a queue pair leads to. -/
  qp2rank : (∀ i < size, dev.qp_num i = dev.qp_num q → i = q) → a.qp2rank (dev.qp_num q) = q
  rmt_base : a.flag_pool.rmt_base[q]? = some dev'.flag_arr

theorem connected_channelOf (dev : Nat → VerbsDevice) (env : Nat → Option (BitVec 64)) {p q : Nat}
    (hp : p < size) (hq : q < size) :
    Connected size p q (dev p) (dev q) (channelOf size dev env p) (channelOf size dev env q) := by
  refine ⟨⟨qpOf size dev p q, qpOf size dev q p, ?_, ?_, rfl, rfl, rfl, rfl, ?_, rfl⟩, ?_, ?_⟩
  · simp [channelOf, hq]
  · simp [channelOf, hp]
  · intro hlid
    rw [qpOf, if_pos hlid]
  · exact qp2rankOf_qp_num hq
  · simp [channelOf, hq]

theorem openedOf_verbs {env : Nat → Option (BitVec 64)} {channels : Nat → List Device} {p j : Nat}
    {dev : VerbsDevice} (h : (channels p)[j]? = some (.verbs dev)) :
    (openedOf size env channels p)[j]? =
      some (.verbs (channelOf size (fun q => deviceAt (channels q) j) env p)) := by
  rw [openedOf, List.getElem?_mapIdx, h]
  rfl

theorem Agree.verbs {channels : Nat → List Device} (h : Agree size channels) {p q j : Nat}
    (hp : p < size) (hq : q < size) {dev : VerbsDevice}
    (hdev : (channels p)[j]? = some (.verbs dev)) :
    ∃ dev', (channels q)[j]? = some (.verbs dev') := by
  have hkind := congrArg (·[j]?) (h p hp q hq)
  simp only [List.getElem?_map, hdev, Option.map_some] at hkind
  obtain ⟨d, hd, hkind⟩ := Option.map_eq_some_iff.mp hkind.symm
  cases d with
  | mpi => cases hkind
  | verbs dev' => exact ⟨dev', hd⟩

/-- In whatever order the processes have come through `unr_init`, each two of
them agree on whether they are on the same node, and each verbs channel of one
leads to the channel of the other at the same place. -/
theorem queue_pairs_connected {s : Meeting Stop Collective Contribution (List Bool × List Opened)}
    (hrun : Run (Meeting.step size) (fun _ _ => True) (start mpiMaxProcessorName size cfg) s)
    (hdone : ∀ p < size, s.party p = .done (res p)) {p q : Nat} (hp : p < size) (hq : q < size) :
    (res p).1[q]? = some (decide ((cfg p).hostname = (cfg q).hostname)) ∧
    (res q).1[p]? = (res p).1[q]? ∧
    ∀ (j : Nat) (dev : VerbsDevice), (cfg p).channels[j]? = some (.verbs dev) →
      ∃ dev' a b, (cfg q).channels[j]? = some (.verbs dev') ∧ (res p).2[j]? = some (.verbs a) ∧
        (res q).2[j]? = some (.verbs b) ∧ Connected size p q dev dev' a b := by
  obtain ⟨hopenable, hres⟩ := lockstep_unrInit.mp (Meeting.lockstep_of_run hrun hdone)
  rw [hres p hp, hres q hq]
  have hsame : ∀ p < size, ∀ q < size, (initOf size cfg p).1[q]? =
      some (decide ((cfg p).hostname = (cfg q).hostname)) := fun p _ q hq => by
    simp [initOf, sameNode, hq]
  refine ⟨hsame p hp q hq, ?_, fun j dev hdev => ?_⟩
  · rw [hsame p hp q hq, hsame q hq p hp, decide_eq_decide.mpr eq_comm]
  · obtain ⟨dev', hdev'⟩ := hopenable.agree.verbs hp hq hdev
    refine ⟨dev', _, _, hdev', openedOf_verbs hdev, openedOf_verbs hdev', ?_⟩
    have hat := connected_channelOf (fun q => deviceAt (cfg q).channels j)
      (fun q => (cfg q).num_flags) hp hq
    simpa only [deviceAt, hdev, hdev'] using hat

def pairDevice (p : Nat) : VerbsDevice where
  num_device := 1
  open_dev_id := 0
  max_qp_wr := 16384
  unr_dir := true
  qp_num := fun i => 16 * p + i
  lid := 0
  gid := 100 + p
  active_mtu := 4
  flag_arr := 4096 * (p + 1)

/-- Two processes on one node, each with the MPI channel and a port without a
lid. -/
def pairConfig (p : Nat) : Config where
  hostname := ['a']
  thread_multiple := true
  num_flags := none
  channels := [.mpi, .verbs (pairDevice p)]

theorem openable_pair : Openable 2 pairConfig := by
  refine ⟨fun p _ q _ => rfl, fun p hp d hd => ?_⟩
  obtain rfl | rfl : d = .mpi ∨ d = .verbs (pairDevice p) := by
    simpa [pairConfig] using hd
  · rfl
  · refine ⟨Nat.zero_lt_one, ?_, fun i hi => ?_, fun _ => rfl, ?_⟩
    · dsimp only [pairDevice, verbsOutstandingSendRequests]
      decide
    · dsimp only [pairDevice]
      omega
    · intro num_flags hmem
      cases hmem

theorem queue_pairs_connected_pair : ∃ s a b,
    Run (Meeting.step 2) (fun _ _ => True) (start 256 2 pairConfig) s ∧
      s.party 0 = .done ([true, true], [.mpi, .verbs a]) ∧
      s.party 1 = .done ([true, true], [.mpi, .verbs b]) ∧ a.qp2rank 1 = 1 ∧
      a.flag_pool.rmt_base[1]? = some 8192 := by
  obtain ⟨s, hrun, hdone⟩ := Meeting.exists_run_of_lockstep
    (lockstep_unrInit.mpr ⟨openable_pair, fun p _ => rfl⟩)
  obtain ⟨-, -, hverbs⟩ :=
    queue_pairs_connected hrun hdone (p := 0) (q := 1) (by decide) (by decide)
  obtain ⟨dev', a, b, hdev', ha, hb, hconnected⟩ := hverbs 1 _ rfl
  cases hdev'
  refine ⟨s, a, b, hrun, ?_, ?_, ?_, hconnected.rmt_base⟩
  · cases ha
    exact hdone 0 (by decide)
  · cases hb
    exact hdone 1 (by decide)
  · exact hconnected.qp2rank fun i hi => by simp [pairDevice]

end Runs

end Unr.Verbs
