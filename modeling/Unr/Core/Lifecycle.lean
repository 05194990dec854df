import Unr.Core.Layout
import Unr.Core.Selection
import Unr.Logic.Progress

/-!
From `unr_init` to `unr_finalize`.

The user thread and the daemon thread of a process share three flags: that the
library has been initialised, that the daemon is to go on, and that it still
runs. The user may call both functions at any time and as often as it likes.
A state also keeps what the channel modules have been called for, in order.

What the modules see is one word: each channel is opened, then all of them are
polled in whole rounds, then each is closed.
-/

namespace Unr.Core

open Unr.Uru Unr.Logic

structure Selected where
  t : ChannelTable
  inter_channels : List Nat
  intra_channels : List Nat
  inter_nodup : inter_channels.Nodup
  intra_nodup : intra_channels.Nodup

namespace Selected

variable (cfg : Selected)

def avail_channels : List Nat :=
  cfg.inter_channels ++ newChannels cfg.inter_channels cfg.intra_channels

/-- The entries of both lists, each with its place in the first list if it is
an entry of the second one. -/
def entries : List (Nat × Option Nat) :=
  (cfg.inter_channels.map fun c => (c, none)) ++
    cfg.intra_channels.zip (cfg.intra_channels.map fun c => cfg.inter_channels.findIdx? (· == c))

def checks : Prog Unit := do
  let _ ← checkGroup cfg.t cfg.inter_channels []
  let _ ← checkGroup cfg.t cfg.intra_channels []
  return ()

/-- What the two variables select is such a pair of lists. -/
theorem of_unrSelect (t : ChannelTable) {names : List CString} {env : Locality → CString}
    {inter intra : List (Option Nat)} (h : unrSelect names (bothSet env) = .ok (inter, intra)) :
    ∃ cfg : Selected, cfg.t = t ∧ inter = cfg.inter_channels.map some ∧
      intra = cfg.intra_channels.map some ∧ cfg.inter_channels ≠ [] ∧ cfg.intra_channels ≠ [] ∧
      ∀ c ∈ cfg.avail_channels, c < names.length := by
  obtain ⟨inter_channels, intra_channels, hinter, hintra,
    ⟨hlt, hne, hnodup⟩, hlt', hne', hnodup'⟩ :=
    unrSelect_accepted h
  refine ⟨⟨t, inter_channels, intra_channels, hnodup, hnodup'⟩, rfl, hinter, hintra, hne, hne',
    fun c hc => ?_⟩
  rcases List.mem_append.mp hc with hc | hc
  · exact hlt c hc
  · exact hlt' c (List.mem_of_mem_filter hc)

end Selected

inductive ModuleCall
  | channelOpen (c : Nat)
  | channelDaemon (c : Nat)
  | channelClose (c : Nat)
  deriving Repr, DecidableEq

inductive UserPhase
  /-- Outside `unr_init` and `unr_finalize`. -/
  | idle
  /-- In the loop that opens the channels, before the entries `rest`. -/
  | opening (rest : List (Nat × Option Nat)) (unr_mem_t_size : Nat)
  /-- In `unr_finalize`, before `daemon_thread_continue = 0`. -/
  | clearing
  /-- In the loop that waits for the daemon. -/
  | waiting
  /-- Before `MPI_Type_free`. -/
  | freeing
  /-- In the loop that closes the channels, before the channels `rest`. -/
  | closing (rest : List Nat)
  deriving Repr, DecidableEq

inductive ThreadPhase
  /-- Before `pthread_create`. -/
  | absent
  /-- Before the test of `daemon_thread_continue`. -/
  | test
  /-- In the loop over the channels, before the channels `rest`. -/
  | polling (rest : List Nat)
  /-- Before `daemon_thread_running = 0`. -/
  | leaving
  | gone
  deriving Repr, DecidableEq

structure Library where
  unr_initialized : Bool
  daemon_thread_continue : Bool
  daemon_thread_running : Bool
  /-- The three datatypes of `unr_init` exist. -/
  types : Bool
  chs : Nat → UriChannelT
  user : UserPhase
  daemon : ThreadPhase
  halted : Option Stop
  /-- Ghost: the calls of module functions so far. -/
  calls : List ModuleCall
  /-- Ghost: the calls of `unr_finalize` so far. -/
  finalizes : Nat

def Library.start : Library where
  unr_initialized := false
  daemon_thread_continue := true
  daemon_thread_running := true
  types := false
  chs := registered
  user := .idle
  daemon := .absent
  halted := none
  calls := []
  finalizes := 0

namespace Library

variable (cfg : Selected)

def halt (s : Library) (e : Stop) : Library := { s with halted := some e }

/-- `uri_channel_open`. A module is not called for a channel that is open. -/
def openChannel (s : Library) (c unr_mem_t_size : Nat) : Library :=
  { s with
    chs := uriChannelOpen s.chs c unr_mem_t_size
    calls := if (s.chs c).opened then s.calls else s.calls ++ [.channelOpen c] }

def pollChannel (s : Library) (c : Nat) : Library :=
  if (s.chs c).opened then { s with calls := s.calls ++ [.channelDaemon c] }
  else s.halt (.exit .assertExit)

def closeChannel (s : Library) (c : Nat) : Library :=
  if (s.chs c).opened then
    { s with
      chs := Function.update s.chs c { s.chs c with opened := false }
      calls := s.calls ++ [.channelClose c] }
  else s.halt (.exit .assertExit)

/-- The user thread goes on. `none` in the loop that waits, as long as the
daemon runs. -/
def userStep (s : Library) : Option Library :=
  match s.user with
  | .idle => none
  | .opening ((_, some _) :: rest) size => some { s with user := .opening rest size }
  | .opening ((c, none) :: rest) size =>
      some { s.openChannel c size with
        user := .opening rest (wrap64 (size + (cfg.t.attr c).mem_h_size)) }
  | .opening [] _ =>
      match cfg.checks with
      | .ok _ => some { s with types := true, daemon := .test, user := .idle }
      | .error e => some (s.halt e)
  | .clearing => some { s with daemon_thread_continue := false, user := .waiting }
  | .waiting => if s.daemon_thread_running then none else some { s with user := .freeing }
  | .freeing =>
      -- `MPI_Type_free` has set the handles to `MPI_DATATYPE_NULL`, which it does not accept
      if s.types then some { s with types := false, user := .closing cfg.avail_channels }
      else some (s.halt .undefined)
  | .closing (c :: rest) => some { s.closeChannel c with user := .closing rest }
  | .closing [] => some { s with user := .idle }

def daemonStep (s : Library) : Option Library :=
  match s.daemon with
  | .absent | .gone => none
  | .test =>
      some { s with
        daemon := if s.daemon_thread_continue then .polling cfg.avail_channels else .leaving }
  | .polling (c :: rest) => some { s.pollChannel c with daemon := .polling rest }
  | .polling [] => some { s with daemon := .test }
  | .leaving => some { s with daemon_thread_running := false, daemon := .gone }

end Library

inductive LibAct
  | callInit
  | callFinalize
  | user
  | daemon
  deriving Repr, DecidableEq

/-- The process takes a step. MPI has been initialized and is not finalized,
which both functions assert, and the functions of the modules return. -/
def Library.step (cfg : Selected) (s : Library) (a : LibAct) : Option Library :=
  if s.halted ≠ none then none
  else match a with
    | .callInit =>
        if s.user ≠ .idle then none
        else if s.unr_initialized then some s
        else some { s with unr_initialized := true, user := .opening cfg.entries sizeofUnrMem }
    | .callFinalize =>
        if s.user ≠ .idle then none
        else some { s with user := .clearing, finalizes := s.finalizes + 1 }
    | .user => s.userStep cfg
    | .daemon => s.daemonStep cfg

/-! ### What the modules see -/

def rounds (cs : List Nat) (n : Nat) : List ModuleCall :=
  (List.replicate n (cs.map ModuleCall.channelDaemon)).flatten

/-- The calls of a whole life with `n` rounds of the daemon. -/
def lifeOf (cs : List Nat) (n : Nat) : List ModuleCall :=
  cs.map .channelOpen ++ rounds cs n ++ cs.map .channelClose

theorem rounds_succ (cs : List Nat) (n : Nat) :
    rounds cs (n + 1) = rounds cs n ++ cs.map .channelDaemon := by
  rw [rounds, List.replicate_succ', List.flatten_append, List.flatten_singleton, rounds]

/-! ### Where a process is in its life -/

def ThreadPhase.unpolled : ThreadPhase → List Nat
  | .polling rest => rest
  | .absent | .test | .leaving | .gone => []

/-- The user has not got past the loop that waits: its phase, how often it has
called `unr_finalize`, and `daemon_thread_continue`. -/
inductive BeforeEnd : UserPhase → Nat → Bool → Prop
  | idle : BeforeEnd .idle 0 true
  | clearing : BeforeEnd .clearing 1 true
  | waiting : BeforeEnd .waiting 1 false

inductive Library.Stage (cfg : Selected) (s : Library) : Prop
  /-- `unr_init` has not been called. -/
  | fresh (halted : s.halted = none) (initialized : s.unr_initialized = false)
      (daemon : s.daemon = .absent) (running : s.daemon_thread_running = true)
      (user : BeforeEnd s.user s.finalizes s.daemon_thread_continue)
      (opened : ∀ c, (s.chs c).opened = false) (calls : s.calls = [])
  /-- The channels are being opened. -/
  | opening (rest : List (Nat × Option Nat)) (size : Nat) (halted : s.halted = none)
      (initialized : s.unr_initialized = true) (daemon : s.daemon = .absent)
      (running : s.daemon_thread_running = true)
      (continues : s.daemon_thread_continue = true) (user : s.user = .opening rest size)
      (finalizes : s.finalizes = 0) (suffix : opensOf rest <:+ cfg.avail_channels)
      (opened : ∀ c, (s.chs c).opened = true ↔ c ∈ cfg.avail_channels ∧ c ∉ opensOf rest)
      (calls : s.calls ++ (opensOf rest).map .channelOpen = cfg.avail_channels.map .channelOpen)
  /-- The daemon runs. -/
  | alive (n : Nat) (polled : List ModuleCall) (halted : s.halted = none)
      (initialized : s.unr_initialized = true)
      (types : s.types = true) (running : s.daemon_thread_running = true)
      (daemon : s.daemon ≠ .absent ∧ s.daemon ≠ .gone)
      (leaving : s.daemon = .leaving → s.daemon_thread_continue = false)
      (user : BeforeEnd s.user s.finalizes s.daemon_thread_continue)
      (opened : ∀ c, (s.chs c).opened = true ↔ c ∈ cfg.avail_channels)
      (suffix : s.daemon.unpolled <:+ cfg.avail_channels)
      (calls : s.calls = cfg.avail_channels.map .channelOpen ++ polled)
      (whole : polled ++ s.daemon.unpolled.map .channelDaemon = rounds cfg.avail_channels n)
  /-- The daemon has left, and the user has not closed a channel yet. -/
  | left (n : Nat) (halted : s.halted = none) (initialized : s.unr_initialized = true)
      (types : s.types = true) (running : s.daemon_thread_running = false)
      (daemon : s.daemon = .gone) (continues : s.daemon_thread_continue = false)
      (user : s.user = .waiting ∨ s.user = .freeing)
      (finalizes : s.finalizes = 1)
      (opened : ∀ c, (s.chs c).opened = true ↔ c ∈ cfg.avail_channels)
      (calls : s.calls = cfg.avail_channels.map .channelOpen ++ rounds cfg.avail_channels n)
  /-- The channels are being closed. -/
  | closing (n : Nat) (rest : List Nat) (halted : s.halted = none)
      (initialized : s.unr_initialized = true) (types : s.types = false)
      (running : s.daemon_thread_running = false) (daemon : s.daemon = .gone)
      (continues : s.daemon_thread_continue = false)
      (user : s.user = .closing rest) (finalizes : s.finalizes = 1)
      (suffix : rest <:+ cfg.avail_channels)
      (opened : ∀ c, (s.chs c).opened = true ↔ c ∈ rest)
      (calls : s.calls ++ rest.map .channelClose = lifeOf cfg.avail_channels n)
  /-- `unr_finalize` has returned. -/
  | closed (n : Nat) (initialized : s.unr_initialized = true) (types : s.types = false)
      (running : s.daemon_thread_running = false) (daemon : s.daemon = .gone)
      (continues : s.daemon_thread_continue = false)
      (user : s.user = .idle ∧ 1 ≤ s.finalizes ∧ s.halted = none ∨
        (s.user = .clearing ∨ s.user = .waiting) ∧ 2 ≤ s.finalizes ∧ s.halted = none ∨
        s.user = .freeing ∧ 2 ≤ s.finalizes ∧ (s.halted = none ∨ s.halted = some .undefined))
      (opened : ∀ c, (s.chs c).opened = false)
      (calls : s.calls = lifeOf cfg.avail_channels n)
  /-- The channels do not fit together. -/
  | refused (e : Stop) (checks : cfg.checks = .error e) (halted : s.halted = some e)
      (finalizes : s.finalizes = 0) (daemon : s.daemon = .absent)
      (calls : s.calls = cfg.avail_channels.map .channelOpen)

/-! ### A step of a life -/

@[simp] theorem opensOf_cons_none (c : Nat) (rest : List (Nat × Option Nat)) :
    opensOf ((c, none) :: rest) = c :: opensOf rest := by
  simp [opensOf]

@[simp] theorem opensOf_cons_some (c j : Nat) (rest : List (Nat × Option Nat)) :
    opensOf ((c, some j) :: rest) = opensOf rest := by
  simp [opensOf]

theorem Selected.opensOf_entries (cfg : Selected) : opensOf cfg.entries = cfg.avail_channels := by
  have happend : opensOf cfg.entries = opensOf (cfg.inter_channels.map fun c => (c, none)) ++
      opensOf (cfg.intra_channels.zip
        (cfg.intra_channels.map fun c => cfg.inter_channels.findIdx? (· == c))) :=
    List.filterMap_append
  rw [happend, opensOf_inter, opensOf_intra, avail_channels]

theorem Selected.avail_nodup (cfg : Selected) : cfg.avail_channels.Nodup :=
  nodup_avail cfg.inter_nodup cfg.intra_nodup

theorem Selected.head_of_suffix {cfg : Selected} {c : Nat} {rest : List Nat}
    (h : c :: rest <:+ cfg.avail_channels) :
    c ∈ cfg.avail_channels ∧ c ∉ rest ∧ rest <:+ cfg.avail_channels := by
  refine ⟨h.subset List.mem_cons_self, ?_, (List.suffix_cons c rest).trans h⟩
  exact (List.nodup_cons.mp (h.sublist.nodup cfg.avail_nodup)).1

section BeforeEnd

variable {user : UserPhase} {finalizes : Nat} {continues : Bool}

theorem BeforeEnd.of_idle (h : BeforeEnd user finalizes continues) (huser : user = .idle) :
    finalizes = 0 ∧ continues = true := by
  cases h with
  | idle => exact ⟨rfl, rfl⟩
  | clearing | waiting => cases huser

theorem BeforeEnd.callFinalize (h : BeforeEnd user finalizes continues) (huser : user = .idle) :
    BeforeEnd .clearing (finalizes + 1) continues := by
  obtain ⟨rfl, rfl⟩ := h.of_idle huser
  exact .clearing

theorem BeforeEnd.of_cleared (h : BeforeEnd user finalizes continues) (hcont : continues = false) :
    user = .waiting ∧ finalizes = 1 := by
  cases h with
  | idle | clearing => cases hcont
  | waiting => exact ⟨rfl, rfl⟩

end BeforeEnd

namespace Library

variable {cfg : Selected} {s s' : Library}

/-- Before the end the user only clears `daemon_thread_continue`, as long as the
daemon runs. -/
theorem userStep_beforeEnd (h : BeforeEnd s.user s.finalizes s.daemon_thread_continue)
    (hrunning : s.daemon_thread_running = true) (hs : s.userStep cfg = some s') :
    s' = { s with daemon_thread_continue := false, user := .waiting } ∧
      BeforeEnd s'.user s'.finalizes s'.daemon_thread_continue := by
  unfold userStep at hs
  generalize huser : s.user = user at h hs
  generalize hfin : s.finalizes = finalizes at h
  generalize s.daemon_thread_continue = continues at h
  cases h with
  | idle => cases hs
  | clearing =>
      simp only [Option.some.injEq] at hs
      subst hs
      refine ⟨by rw [← hfin], ?_⟩
      change BeforeEnd .waiting s.finalizes false
      rw [hfin]
      exact .waiting
  | waiting => simp [hrunning] at hs

theorem openChannel_of_closed {c : Nat} (size : Nat) (h : (s.chs c).opened = false) :
    s.openChannel c size = { s with
      chs := Function.update s.chs c { s.chs c with
        opened := true, mem_h_offset := size, opens := (s.chs c).opens + 1 }
      calls := s.calls ++ [.channelOpen c] } := by
  simp [openChannel, uriChannelOpen, h]

theorem Stage.callInit (h : s.Stage cfg) (hs : s.step cfg .callInit = some s') : s'.Stage cfg := by
  simp only [step, ne_eq, ite_not, Option.ite_none_right_eq_some] at hs
  obtain ⟨hhalted, huser, hs⟩ := hs
  cases h with
  | fresh halted initialized daemon running user opened calls =>
      simp only [initialized, Bool.false_eq_true, if_false, Option.some.injEq] at hs
      subst hs
      obtain ⟨hfin, hcont⟩ := user.of_idle huser
      refine .opening cfg.entries sizeofUnrMem halted rfl daemon running hcont rfl hfin ?_ ?_ ?_
      · rw [cfg.opensOf_entries]
      · intro c
        simp [cfg.opensOf_entries, opened]
      · rw [calls, cfg.opensOf_entries, List.nil_append]
  | opening rest size halted initialized daemon running continues user =>
      cases huser.symm.trans user
  | alive n polled halted initialized types running daemon leaving user opened suffix calls
      whole =>
      simp only [initialized, if_true, Option.some.injEq] at hs
      subst hs
      exact .alive n polled halted initialized types running daemon leaving user opened suffix
        calls whole
  | left n halted initialized types running daemon continues user =>
      cases user with
      | inl h | inr h => cases huser.symm.trans h
  | closing n rest halted initialized types running daemon continues user =>
      cases huser.symm.trans user
  | closed n initialized types running daemon continues user opened calls =>
      simp only [initialized, if_true, Option.some.injEq] at hs
      subst hs
      exact .closed n initialized types running daemon continues user opened calls
  | refused e checks halted => cases hhalted.symm.trans halted

theorem Stage.callFinalize (h : s.Stage cfg) (hs : s.step cfg .callFinalize = some s') :
    s'.Stage cfg := by
  simp only [step, ne_eq, ite_not, Option.ite_none_right_eq_some, Option.some.injEq] at hs
  obtain ⟨hhalted, huser, rfl⟩ := hs
  cases h with
  | fresh halted initialized daemon running user opened calls =>
      exact .fresh halted initialized daemon running (user.callFinalize huser) opened calls
  | opening rest size halted initialized daemon running continues user =>
      cases huser.symm.trans user
  | alive n polled halted initialized types running daemon leaving user opened suffix calls
      whole =>
      exact .alive n polled halted initialized types running daemon leaving
        (user.callFinalize huser) opened suffix calls whole
  | left n halted initialized types running daemon continues user =>
      cases user with
      | inl h | inr h => cases huser.symm.trans h
  | closing n rest halted initialized types running daemon continues user =>
      cases huser.symm.trans user
  | closed n initialized types running daemon continues user opened calls =>
      obtain ⟨-, hfin, hnone⟩ | ⟨h | h, -⟩ | ⟨h, -⟩ := user
      · exact .closed n initialized types running daemon continues
          (.inr (.inl ⟨.inl rfl, Nat.succ_le_succ hfin, hnone⟩)) opened calls
      · cases huser.symm.trans h
      · cases huser.symm.trans h
      · cases huser.symm.trans h
  | refused e checks halted => cases hhalted.symm.trans halted

theorem Stage.open {rest : List (Nat × Option Nat)} {size : Nat} (halted : s.halted = none)
    (initialized : s.unr_initialized = true) (daemon : s.daemon = .absent)
    (running : s.daemon_thread_running = true) (continues : s.daemon_thread_continue = true)
    (user : s.user = .opening rest size) (finalizes : s.finalizes = 0)
    (suffix : opensOf rest <:+ cfg.avail_channels)
    (opened : ∀ c, (s.chs c).opened = true ↔ c ∈ cfg.avail_channels ∧ c ∉ opensOf rest)
    (calls : s.calls ++ (opensOf rest).map .channelOpen = cfg.avail_channels.map .channelOpen)
    (hs : s.userStep cfg = some s') : s'.Stage cfg := by
  unfold userStep at hs
  rw [user] at hs
  match rest with
  | [] =>
      have hall : ∀ c, (s.chs c).opened = true ↔ c ∈ cfg.avail_channels := by
        intro c
        simp [opened, opensOf]
      have hcalls : s.calls = cfg.avail_channels.map .channelOpen := by
        simpa [opensOf] using calls
      cases hchecks : cfg.checks with
      | error e =>
          simp only [hchecks, Option.some.injEq] at hs
          subst hs
          exact .refused e hchecks rfl finalizes daemon hcalls
      | ok _ =>
          simp only [hchecks, Option.some.injEq] at hs
          subst hs
          refine .alive 0 [] halted initialized rfl running ⟨ThreadPhase.noConfusion,
            ThreadPhase.noConfusion⟩ ThreadPhase.noConfusion ?_ hall List.nil_suffix ?_ rfl
          · rw [finalizes, continues]
            exact .idle
          · rw [hcalls, List.append_nil]
  | (c, some j) :: rest =>
      simp only [Option.some.injEq] at hs
      subst hs
      rw [opensOf_cons_some] at suffix calls
      simp only [opensOf_cons_some] at opened
      exact .opening rest size halted initialized daemon running continues rfl finalizes suffix
        opened calls
  | (c, none) :: rest =>
      simp only [Option.some.injEq] at hs
      subst hs
      rw [opensOf_cons_none] at suffix calls
      simp only [opensOf_cons_none] at opened
      obtain ⟨hmem, hfresh, hsuffix⟩ := cfg.head_of_suffix suffix
      have hclosed : (s.chs c).opened = false := by
        rw [← Bool.not_eq_true, opened]
        exact fun h => h.2 List.mem_cons_self
      rw [openChannel_of_closed size hclosed]
      refine .opening rest _ halted initialized daemon running continues rfl finalizes hsuffix ?_ ?_
      · intro c'
        by_cases hc : c' = c
        · subst hc
          simp [hmem, hfresh]
        · simp [opened, hc]
      · rw [List.append_assoc, List.singleton_append, ← List.map_cons]
        exact calls

theorem Stage.close {n : Nat} {rest : List Nat} (halted : s.halted = none)
    (initialized : s.unr_initialized = true) (types : s.types = false)
    (running : s.daemon_thread_running = false) (daemon : s.daemon = .gone)
    (continues : s.daemon_thread_continue = false) (user : s.user = .closing rest)
    (finalizes : s.finalizes = 1) (suffix : rest <:+ cfg.avail_channels)
    (opened : ∀ c, (s.chs c).opened = true ↔ c ∈ rest)
    (calls : s.calls ++ rest.map .channelClose = lifeOf cfg.avail_channels n)
    (hs : s.userStep cfg = some s') : s'.Stage cfg := by
  unfold userStep at hs
  rw [user] at hs
  match rest with
  | [] =>
      simp only [Option.some.injEq] at hs
      subst hs
      refine .closed n initialized types running daemon continues
        (.inl ⟨rfl, finalizes.ge, halted⟩) ?_ (by simpa using calls)
      intro c
      simpa using opened c
  | c :: rest =>
      simp only [Option.some.injEq] at hs
      subst hs
      obtain ⟨-, hfresh, hsuffix⟩ := cfg.head_of_suffix suffix
      rw [closeChannel, if_pos ((opened c).mpr List.mem_cons_self)]
      refine .closing n rest halted initialized types running daemon continues rfl finalizes
        hsuffix ?_ ?_
      · intro c'
        by_cases hc : c' = c
        · subst hc
          simp [hfresh]
        · simp [opened, hc]
      · rw [List.append_assoc, List.singleton_append, ← List.map_cons]
        exact calls

theorem Stage.userStep (h : s.Stage cfg) (hhalted : s.halted = none)
    (hs : s.userStep cfg = some s') : s'.Stage cfg := by
  cases h with
  | fresh halted initialized daemon running user opened calls =>
      obtain ⟨rfl, huser⟩ := userStep_beforeEnd user running hs
      exact .fresh halted initialized daemon running huser opened calls
  | opening rest size halted initialized daemon running continues user finalizes suffix opened
      calls =>
      exact .open halted initialized daemon running continues user finalizes suffix opened calls hs
  | alive n polled halted initialized types running daemon leaving user opened suffix calls
      whole =>
      obtain ⟨rfl, huser⟩ := userStep_beforeEnd user running hs
      exact .alive n polled halted initialized types running daemon (fun _ => rfl) huser opened
        suffix calls whole
  | left n halted initialized types running daemon continues user finalizes opened calls =>
      unfold Library.userStep at hs
      cases user with
      | inl h =>
          rw [h] at hs
          dsimp only at hs
          rw [if_neg (by simp [running]), Option.some.injEq] at hs
          subst hs
          exact .left n halted initialized types running daemon continues (.inr rfl) finalizes
            opened calls
      | inr h =>
          simp only [h, types, if_true, Option.some.injEq] at hs
          subst hs
          exact .closing n cfg.avail_channels halted initialized rfl running daemon continues rfl
            finalizes (List.suffix_refl _) opened (by rw [calls, lifeOf])
  | closing n rest halted initialized types running daemon continues user finalizes suffix opened
      calls =>
      exact .close halted initialized types running daemon continues user finalizes suffix opened
        calls hs
  | closed n initialized types running daemon continues user opened calls =>
      unfold Library.userStep at hs
      obtain ⟨h, -⟩ | ⟨h | h, hfin, -⟩ | ⟨h, hfin, -⟩ := user
      · simp [h] at hs
      · simp only [h, Option.some.injEq] at hs
        subst hs
        exact .closed n initialized types running daemon rfl
          (.inr (.inl ⟨.inr rfl, hfin, hhalted⟩)) opened calls
      · rw [h] at hs
        dsimp only at hs
        rw [if_neg (by simp [running]), Option.some.injEq] at hs
        subst hs
        exact .closed n initialized types running daemon continues
          (.inr (.inr ⟨rfl, hfin, .inl hhalted⟩)) opened calls
      · simp only [h, types, Bool.false_eq_true, if_false, Option.some.injEq] at hs
        subst hs
        exact .closed n initialized types running daemon continues
          (.inr (.inr ⟨h, hfin, .inr rfl⟩)) opened calls
  | refused e checks halted => cases hhalted.symm.trans halted

/-- The daemon thread goes on. It finds every channel of its round open. -/
theorem Stage.daemonStep (h : s.Stage cfg) (hhalted : s.halted = none)
    (hs : s.daemonStep cfg = some s') : s'.Stage cfg := by
  unfold Library.daemonStep at hs
  cases h with
  | fresh _ _ daemon => simp [daemon] at hs
  | opening _ _ _ _ daemon => simp [daemon] at hs
  | left _ _ _ _ _ daemon => simp [daemon] at hs
  | closing _ _ _ _ _ _ daemon => simp [daemon] at hs
  | closed _ _ _ _ daemon => simp [daemon] at hs
  | refused _ _ halted => cases hhalted.symm.trans halted
  | alive n polled halted initialized types running daemon leaving user opened suffix calls
      whole =>
      match hdaemon : s.daemon with
      | .absent => exact absurd hdaemon daemon.1
      | .gone => exact absurd hdaemon daemon.2
      | .test =>
          rw [hdaemon] at hs whole
          simp only [Option.some.injEq] at hs
          subst hs
          rw [ThreadPhase.unpolled, List.map_nil, List.append_nil] at whole
          by_cases hcont : s.daemon_thread_continue = true
          · rw [if_pos hcont]
            refine .alive (n + 1) polled halted initialized types running
              ⟨ThreadPhase.noConfusion, ThreadPhase.noConfusion⟩ ThreadPhase.noConfusion user
              opened (List.suffix_refl _) calls ?_
            rw [ThreadPhase.unpolled, rounds_succ, whole]
          · rw [if_neg hcont]
            refine .alive n polled halted initialized types running
              ⟨ThreadPhase.noConfusion, ThreadPhase.noConfusion⟩ (fun _ => by simpa using hcont)
              user opened List.nil_suffix calls ?_
            rw [ThreadPhase.unpolled, List.map_nil, List.append_nil, whole]
      | .polling [] =>
          rw [hdaemon] at hs whole
          simp only [Option.some.injEq] at hs
          subst hs
          exact .alive n polled halted initialized types running
            ⟨ThreadPhase.noConfusion, ThreadPhase.noConfusion⟩ ThreadPhase.noConfusion user
            opened List.nil_suffix calls whole
      | .polling (c :: rest) =>
          rw [hdaemon] at hs whole suffix
          simp only [Option.some.injEq] at hs
          subst hs
          obtain ⟨hmem, -, hsuffix⟩ := cfg.head_of_suffix suffix
          rw [pollChannel, if_pos ((opened c).mpr hmem)]
          refine .alive n (polled ++ [.channelDaemon c]) halted initialized types running
            ⟨ThreadPhase.noConfusion, ThreadPhase.noConfusion⟩ ThreadPhase.noConfusion user
            opened hsuffix ?_ ?_
          · rw [calls, List.append_assoc]
          · rw [List.append_assoc, List.singleton_append]
            exact whole
      | .leaving =>
          rw [hdaemon] at hs whole
          simp only [Option.some.injEq] at hs
          subst hs
          rw [ThreadPhase.unpolled, List.map_nil, List.append_nil] at whole
          have hcont := leaving hdaemon
          obtain ⟨huser, hfin⟩ := user.of_cleared hcont
          exact .left n halted initialized types rfl rfl hcont (.inl huser) hfin opened
            (by rw [calls, whole])

theorem Stage.step {a : LibAct} (h : s.Stage cfg) (hs : s.step cfg a = some s') :
    s'.Stage cfg := by
  cases a with
  | callInit => exact h.callInit hs
  | callFinalize => exact h.callFinalize hs
  | user =>
      simp only [Library.step, ne_eq, ite_not, Option.ite_none_right_eq_some] at hs
      exact h.userStep hs.1 hs.2
  | daemon =>
      simp only [Library.step, ne_eq, ite_not, Option.ite_none_right_eq_some] at hs
      exact h.daemonStep hs.1 hs.2

theorem stage_of_run {C : Library → LibAct → Prop} (hrun : Run (Library.step cfg) C .start s) :
    s.Stage cfg :=
  hrun.invariant (I := Stage cfg) (.fresh rfl rfl rfl rfl .idle (fun _ => rfl) rfl)
    fun _ _ _ _ h _ hs => h.step hs

/-! ### The whole life -/

theorem Stage.calls_isPrefix (h : s.Stage cfg) : ∃ n, s.calls <+: lifeOf cfg.avail_channels n := by
  cases h with
  | fresh _ _ _ _ _ _ calls => exact ⟨0, calls ▸ List.nil_prefix⟩
  | opening rest _ _ _ _ _ _ _ _ _ _ calls =>
      refine ⟨0, (List.prefix_append _ ((opensOf rest).map .channelOpen)).trans ?_⟩
      rw [calls, lifeOf, List.append_assoc]
      exact List.prefix_append _ _
  | alive n polled _ _ _ _ _ _ _ _ _ calls whole =>
      refine ⟨n, (List.prefix_append _ (s.daemon.unpolled.map .channelDaemon)).trans ?_⟩
      rw [calls, List.append_assoc, whole, lifeOf]
      exact List.prefix_append _ _
  | left n _ _ _ _ _ _ _ _ _ calls =>
      refine ⟨n, ?_⟩
      rw [calls, lifeOf]
      exact List.prefix_append _ _
  | closing n rest _ _ _ _ _ _ _ _ _ _ calls =>
      exact ⟨n, calls ▸ List.prefix_append _ _⟩
  | closed n _ _ _ _ _ _ _ calls => exact ⟨n, calls ▸ List.prefix_rfl⟩
  | refused _ _ _ _ _ calls =>
      refine ⟨0, ?_⟩
      rw [calls, lifeOf, List.append_assoc]
      exact List.prefix_append _ _

/-- All channels are open, and have been polled since they were opened. -/
structure InUse (cfg : Selected) (s : Library) : Prop where
  finalizes : s.finalizes = 0
  opened : ∀ c, (s.chs c).opened = true ↔ c ∈ cfg.avail_channels
  calls : ∃ polled n, s.calls = cfg.avail_channels.map .channelOpen ++ polled ∧
    polled <+: rounds cfg.avail_channels n

structure Finished (cfg : Selected) (s : Library) : Prop where
  finalizes : 1 ≤ s.finalizes
  opened : ∀ c, (s.chs c).opened = false
  calls : ∃ n, s.calls = lifeOf cfg.avail_channels n

/-- Between the calls of the user, all channels are open or all have been
closed. -/
theorem Stage.idle (h : s.Stage cfg) (huser : s.user = .idle) (hinit : s.unr_initialized = true)
    (hhalted : s.halted = none) : s.InUse cfg ∨ s.Finished cfg := by
  cases h with
  | fresh _ initialized => cases hinit.symm.trans initialized
  | opening _ _ _ _ _ _ _ user => cases huser.symm.trans user
  | alive n polled halted _ _ _ _ _ user opened suffix calls whole =>
      exact .inl ⟨(user.of_idle huser).1, opened, polled, n, calls,
        whole ▸ List.prefix_append _ _⟩
  | left _ _ _ _ _ _ _ user =>
      cases user with
      | inl h | inr h => cases huser.symm.trans h
  | closing _ _ _ _ _ _ _ _ user => cases huser.symm.trans user
  | closed n _ _ _ _ _ user opened calls =>
      obtain ⟨-, hfin, -⟩ | ⟨h | h, -⟩ | ⟨h, -⟩ := user
      · exact .inr ⟨hfin, opened, n, calls⟩
      · cases huser.symm.trans h
      · cases huser.symm.trans h
      · cases huser.symm.trans h
  | refused _ _ halted => cases hhalted.symm.trans halted

/-- A process ends in a call of `unr_init` that finds channels that do not fit
together, or in a second call of `unr_finalize`. -/
theorem Stage.halted {e : Stop} (h : s.Stage cfg) (hhalted : s.halted = some e) :
    cfg.checks = .error e ∧ s.calls = cfg.avail_channels.map .channelOpen ∨
      e = .undefined ∧ 2 ≤ s.finalizes ∧ ∃ n, s.calls = lifeOf cfg.avail_channels n := by
  cases h with
  | fresh halted | opening _ _ halted | alive _ _ halted | left _ halted | closing _ _ halted =>
      cases halted.symm.trans hhalted
  | closed n _ _ _ _ _ user opened calls =>
      obtain ⟨-, -, hnone⟩ | ⟨-, -, hnone⟩ | ⟨-, hfin, hnone | hsome⟩ := user
      · cases hnone.symm.trans hhalted
      · cases hnone.symm.trans hhalted
      · cases hnone.symm.trans hhalted
      · cases hsome.symm.trans hhalted
        exact .inr ⟨rfl, hfin, n, calls⟩
  | refused e' checks halted _ _ calls =>
      cases halted.symm.trans hhalted
      exact .inl ⟨checks, calls⟩

theorem Stage.not_halted (h : s.Stage cfg) (hfin : s.finalizes = 1) : s.halted = none := by
  cases h with
  | fresh halted | opening _ _ halted | alive _ _ halted | left _ halted | closing _ _ halted =>
      exact halted
  | closed n _ _ _ _ _ user =>
      obtain ⟨-, -, hnone⟩ | ⟨-, htwo, -⟩ | ⟨-, htwo, -⟩ := user
      · exact hnone
      · omega
      · omega
  | refused _ _ _ finalizes => omega

/-- Channels that `unr_init` has opened are polled in whole rounds until
`unr_finalize` closes them, whatever the user calls and however the two threads
take turns. -/
theorem channels_used_in_order (cfg : Selected)
    (hrun : Run (Library.step cfg) (fun _ _ => True) .start s) :
    (∃ n, s.calls <+: lifeOf cfg.avail_channels n) ∧
      (s.user = .idle → s.unr_initialized = true → s.halted = none →
        s.InUse cfg ∨ s.Finished cfg) ∧
      ∀ e, s.halted = some e →
        cfg.checks = .error e ∧ s.calls = cfg.avail_channels.map .channelOpen ∨
          e = .undefined ∧ 2 ≤ s.finalizes ∧ ∃ n, s.calls = lifeOf cfg.avail_channels n := by
  have hstage := stage_of_run hrun
  exact ⟨hstage.calls_isPrefix, hstage.idle, fun e => hstage.halted⟩

/-- One channel between nodes, and another one besides it inside a node. -/
def mpiPair : Selected where
  t := ⟨List.replicate 2 ⟨.mpi, 4096, 8⟩, by decide, by decide⟩
  inter_channels := [0]
  intra_channels := [0, 1]
  inter_nodup := by decide
  intra_nodup := by decide

/-- `unr_init`, and half a round of the daemon; then `unr_finalize` up to its
loop. -/
def toWait : List LibAct :=
  [.callInit, .user, .user, .user, .user, .daemon, .daemon, .callFinalize, .user]

/-- The rest of `unr_finalize`, and a second call of it. -/
def finalizeTwice : List LibAct :=
  [.daemon, .daemon, .daemon, .daemon, .user, .user, .user, .user, .user, .callFinalize, .user,
    .user, .user]

theorem run_of_exec {as : List LibAct}
    (h : exec (Library.step cfg) (fun _ _ => true) .start as = some s) :
    Run (Library.step cfg) (fun _ _ => True) .start s :=
  (Run.of_exec h).mono fun _ _ _ => trivial

theorem channels_used_in_order_pair : ∃ s, Run (Library.step mpiPair) (fun _ _ => True) .start s ∧
    s.calls = [.channelOpen 0, .channelOpen 1, .channelDaemon 0, .channelDaemon 1,
      .channelClose 0, .channelClose 1] ∧
    s.halted = some .undefined ∧ 2 ≤ s.finalizes ∧
    ∃ n, s.calls = lifeOf mpiPair.avail_channels n := by
  obtain ⟨s, hexec, hcalls, hhalted⟩ : ∃ s,
      exec (Library.step mpiPair) (fun _ _ => true) .start (toWait ++ finalizeTwice) = some s ∧
        s.calls = [.channelOpen 0, .channelOpen 1, .channelDaemon 0, .channelDaemon 1,
          .channelClose 0, .channelClose 1] ∧ s.halted = some .undefined := ⟨_, rfl, rfl, rfl⟩
  have hrun := run_of_exec hexec
  refine ⟨s, hrun, hcalls, hhalted, ?_⟩
  obtain ⟨hchecks, -⟩ | ⟨-, h⟩ := (channels_used_in_order mpiPair hrun).2.2 .undefined hhalted
  · have hok : mpiPair.checks = .ok () := rfl
    cases hok.symm.trans hchecks
  · exact h

end Library

/-! ### The end of the wait -/

def LibAct.OfThread (a : LibAct) : Prop := a = .user ∨ a = .daemon

def UserPhase.work (avail : List Nat) : UserPhase → Nat
  | .idle | .opening .. => 0
  | .clearing => avail.length + 4
  | .waiting => avail.length + 3
  | .freeing => avail.length + 2
  | .closing rest => rest.length + 1

def ThreadPhase.work : ThreadPhase → Nat
  | .absent | .gone => 0
  | .test => 2
  | .polling rest => rest.length + 3
  | .leaving => 1

/-- The first call of `unr_finalize` after `unr_init`, past
`daemon_thread_continue = 0`. -/
structure Library.Ending (cfg : Selected) (s : Library) : Prop where
  stage : s.Stage cfg
  initialized : s.unr_initialized = true
  finalizes : s.finalizes = 1
  continues : s.daemon_thread_continue = false

namespace Library

variable {cfg : Selected} {s s' t : Library}

def work (cfg : Selected) (s : Library) : Nat := s.user.work cfg.avail_channels + s.daemon.work

theorem Ending.not_opening (h : s.Ending cfg) (rest : List (Nat × Option Nat)) (size : Nat) :
    s.user ≠ .opening rest size := by
  intro huser
  have hfin := h.finalizes
  have hcont := h.continues
  cases h.stage with
  | fresh _ initialized => cases h.initialized.symm.trans initialized
  | opening _ _ _ _ _ _ _ _ finalizes => omega
  | alive _ _ _ _ _ _ _ _ user => cases huser.symm.trans (user.of_cleared hcont).1
  | left _ _ _ _ _ _ _ user =>
      cases user with
      | inl h | inr h => cases huser.symm.trans h
  | closing _ _ _ _ _ _ _ _ user => cases huser.symm.trans user
  | closed _ _ _ _ _ _ user =>
      obtain ⟨h, -⟩ | ⟨h | h, -⟩ | ⟨h, -⟩ := user <;> cases huser.symm.trans h
  | refused _ _ _ finalizes => omega

theorem pollChannel_frame (s : Library) (c : Nat) : ∃ calls halted,
    s.pollChannel c = { s with calls := calls, halted := halted } := by
  unfold pollChannel
  split
  · exact ⟨_, s.halted, rfl⟩
  · exact ⟨s.calls, _, rfl⟩

theorem closeChannel_frame (s : Library) (c : Nat) : ∃ chs calls halted,
    s.closeChannel c = { s with chs := chs, calls := calls, halted := halted } := by
  unfold closeChannel
  split
  · exact ⟨_, _, s.halted, rfl⟩
  · exact ⟨s.chs, s.calls, _, rfl⟩

/-- Every step of the user in `unr_finalize` but the last one, with which the
process ends, leads on. -/
theorem userStep_work (hopening : ∀ rest size, s.user ≠ .opening rest size)
    (hs : s.userStep cfg = some s') :
    (s'.halted = none → s'.work cfg < s.work cfg) ∧ s'.finalizes = s.finalizes ∧
      s'.unr_initialized = s.unr_initialized ∧
      (s.daemon_thread_continue = false → s'.daemon_thread_continue = false) := by
  unfold userStep at hs
  match huser : s.user with
  | .idle => simp [huser] at hs
  | .opening rest size => exact absurd huser (hopening rest size)
  | .clearing =>
      rw [huser] at hs
      simp only [Option.some.injEq] at hs
      subst hs
      exact ⟨fun _ => by simp [work, huser, UserPhase.work], rfl, rfl, fun _ => rfl⟩
  | .waiting =>
      rw [huser] at hs
      simp only [Option.ite_none_left_eq_some, Option.some.injEq] at hs
      obtain ⟨-, rfl⟩ := hs
      exact ⟨fun _ => by simp [work, huser, UserPhase.work], rfl, rfl, fun h => h⟩
  | .freeing =>
      rw [huser] at hs
      by_cases htypes : s.types = true
      · rw [if_pos htypes, Option.some.injEq] at hs
        subst hs
        exact ⟨fun _ => by simp [work, huser, UserPhase.work], rfl, rfl, fun h => h⟩
      · rw [if_neg htypes, Option.some.injEq] at hs
        subst hs
        exact ⟨fun h => absurd h (Option.some_ne_none _), rfl, rfl, fun h => h⟩
  | .closing [] =>
      rw [huser] at hs
      simp only [Option.some.injEq] at hs
      subst hs
      exact ⟨fun _ => by simp [work, huser, UserPhase.work], rfl, rfl, fun h => h⟩
  | .closing (c :: rest) =>
      rw [huser] at hs
      simp only [Option.some.injEq] at hs
      obtain ⟨chs, calls, halted, hclose⟩ := s.closeChannel_frame c
      rw [hclose] at hs
      subst hs
      exact ⟨fun _ => by simp [work, huser, UserPhase.work], rfl, rfl, fun h => h⟩

theorem daemonStep_work (hcont : s.daemon_thread_continue = false)
    (hs : s.daemonStep cfg = some s') :
    s'.work cfg < s.work cfg ∧ s'.finalizes = s.finalizes ∧
      s'.unr_initialized = s.unr_initialized ∧ s'.daemon_thread_continue = false := by
  unfold daemonStep at hs
  match hdaemon : s.daemon with
  | .absent | .gone => simp [hdaemon] at hs
  | .test =>
      rw [hdaemon] at hs
      simp only [Option.some.injEq] at hs
      subst hs
      rw [if_neg (by simp [hcont])]
      exact ⟨by simp [work, hdaemon, ThreadPhase.work], rfl, rfl, hcont⟩
  | .polling [] =>
      rw [hdaemon] at hs
      simp only [Option.some.injEq] at hs
      subst hs
      exact ⟨by simp [work, hdaemon, ThreadPhase.work], rfl, rfl, hcont⟩
  | .polling (c :: rest) =>
      rw [hdaemon] at hs
      simp only [Option.some.injEq] at hs
      obtain ⟨calls, halted, hpoll⟩ := s.pollChannel_frame c
      rw [hpoll] at hs
      subst hs
      exact ⟨by simp [work, hdaemon, ThreadPhase.work], rfl, rfl, hcont⟩
  | .leaving =>
      rw [hdaemon] at hs
      simp only [Option.some.injEq] at hs
      subst hs
      exact ⟨by simp [work, hdaemon, ThreadPhase.work], rfl, rfl, hcont⟩

theorem Ending.step {a : LibAct} (h : s.Ending cfg) (ha : a.OfThread)
    (hs : s.step cfg a = some s') : s'.Ending cfg ∧ s'.work cfg < s.work cfg := by
  have hstage := h.stage.step hs
  obtain rfl | rfl := ha
  · simp only [Library.step, ne_eq, ite_not, Option.ite_none_right_eq_some] at hs
    obtain ⟨hlt, hfin, hinit, hcont⟩ := userStep_work h.not_opening hs.2
    have hfin' : s'.finalizes = 1 := hfin.trans h.finalizes
    exact ⟨⟨hstage, hinit.trans h.initialized, hfin', hcont h.continues⟩,
      hlt (hstage.not_halted hfin')⟩
  · simp only [Library.step, ne_eq, ite_not, Option.ite_none_right_eq_some] at hs
    obtain ⟨hlt, hfin, hinit, hcont⟩ := daemonStep_work h.continues hs.2
    exact ⟨⟨hstage, hinit.trans h.initialized, hfin.trans h.finalizes, hcont⟩, hlt⟩

theorem Stage.waiting (h : s.Stage cfg) (huser : s.user = .waiting) (hfirst : s.finalizes = 1) :
    s.daemon_thread_continue = false := by
  have hbefore : ∀ {finalizes continues}, BeforeEnd s.user finalizes continues →
      continues = false := by
    intro finalizes continues hb
    rw [huser] at hb
    cases hb
    rfl
  cases h with
  | fresh _ _ _ _ user => exact hbefore user
  | opening _ _ _ _ _ _ _ user => cases huser.symm.trans user
  | alive _ _ _ _ _ _ _ _ user => exact hbefore user
  | left _ _ _ _ _ _ continues | closing _ _ _ _ _ _ _ continues | closed _ _ _ _ _ continues =>
      exact continues
  | refused _ _ _ finalizes => omega

theorem Stage.daemon_work (h : s.Stage cfg) :
    s.daemon.work ≤ cfg.avail_channels.length + 3 := by
  cases h with
  | fresh _ _ daemon | opening _ _ _ _ daemon | refused _ _ _ _ daemon =>
      simp [daemon, ThreadPhase.work]
  | left _ _ _ _ _ daemon | closing _ _ _ _ _ _ daemon | closed _ _ _ _ daemon =>
      simp [daemon, ThreadPhase.work]
  | alive _ _ _ _ _ _ _ _ _ _ suffix =>
      match hdaemon : s.daemon with
      | .absent | .gone | .test | .leaving => simp [ThreadPhase.work]
      | .polling rest =>
          rw [hdaemon] at suffix
          exact Nat.add_le_add_right suffix.length_le 3

/-- Where neither thread can go on, `unr_finalize` has returned. -/
theorem Ending.stuck (h : s.Ending cfg)
    (hstuck : Stuck (Library.step cfg) (fun _ a => a.OfThread) s) :
    s.user = .idle ∧ s.halted = none ∧ ∃ n, s.calls = lifeOf cfg.avail_channels n := by
  have hnone := h.stage.not_halted h.finalizes
  have huserStep : s.userStep cfg = none := by
    simpa [Library.step, hnone] using hstuck .user (.inl rfl)
  have hdaemonStep : s.daemonStep cfg = none := by
    simpa [Library.step, hnone] using hstuck .daemon (.inr rfl)
  have hfin := h.finalizes
  cases h.stage with
  | fresh _ initialized => cases h.initialized.symm.trans initialized
  | opening rest size _ _ _ _ _ user => exact absurd user (h.not_opening rest size)
  | alive n polled _ _ _ _ daemon =>
      -- the daemon has work in every round, and after it
      unfold daemonStep at hdaemonStep
      match hphase : s.daemon with
      | .absent => exact absurd hphase daemon.1
      | .gone => exact absurd hphase daemon.2
      | .test | .polling [] | .polling (c :: rest) | .leaving => simp [hphase] at hdaemonStep
  | left n _ _ types running _ _ user =>
      unfold userStep at huserStep
      cases user with
      | inl h => simp [h, running] at huserStep
      | inr h => simp [h, types] at huserStep
  | closing n rest _ _ _ _ _ _ user =>
      unfold userStep at huserStep
      cases rest <;> simp [user] at huserStep
  | closed n _ _ _ _ _ user _ calls =>
      obtain ⟨huser, -⟩ | ⟨-, htwo, -⟩ | ⟨-, htwo, -⟩ := user
      · exact ⟨huser, hnone, n, calls⟩
      · omega
      · omega
  | refused _ _ _ finalizes => omega

/-- Without `unr_init` nothing ends the wait. -/
structure Waits (cfg : Selected) (s : Library) : Prop where
  stage : s.Stage cfg
  initialized : s.unr_initialized = false
  user : s.user = .waiting

theorem Waits.step {a : LibAct} (h : s.Waits cfg) (hs : s.step cfg a = some s') : s'.Waits cfg := by
  cases h.stage with
  | fresh _ _ daemon running =>
      simp only [Library.step, ne_eq, ite_not, Option.ite_none_right_eq_some] at hs
      cases a with
      | callInit | callFinalize => simp [h.user] at hs
      | user => simp [Library.userStep, h.user, running] at hs
      | daemon => simp [Library.daemonStep, daemon] at hs
  | opening _ _ _ initialized | alive _ _ _ initialized | left _ _ initialized
  | closing _ _ _ initialized | closed _ initialized =>
      cases h.initialized.symm.trans initialized
  | refused _ _ halted => simp [Library.step, halted] at hs

/-- The wait of the first `unr_finalize` comes to an end if and only if
`unr_init` has been called. The daemon ends its round first, then all channels
are closed: that takes two steps for each channel and six more, in whatever
order the threads take them. -/
theorem finalize_returns_iff (cfg : Selected)
    (hrun : Run (Library.step cfg) (fun _ _ => True) .start s) (huser : s.user = .waiting)
    (hfirst : s.finalizes = 1) :
    (s.unr_initialized = true →
      ∀ n t, Steps (Library.step cfg) (fun _ a => a.OfThread) s n t →
        n ≤ 2 * cfg.avail_channels.length + 6 ∧
          (Stuck (Library.step cfg) (fun _ a => a.OfThread) t →
            t.user = .idle ∧ t.halted = none ∧ ∃ k, t.calls = lifeOf cfg.avail_channels k)) ∧
      (s.unr_initialized = false →
        ∀ t, Run (Library.step cfg) (fun _ _ => True) s t → t.user = .waiting) := by
  have hstage := stage_of_run hrun
  refine ⟨fun hinit n t hsteps => ?_, fun hinit t hrun' => ?_⟩
  · have hending : s.Ending cfg := ⟨hstage, hinit, hfirst, hstage.waiting huser hfirst⟩
    obtain ⟨ht, hle⟩ := hsteps.measure (fun _ _ _ h ha hs => h.step ha hs) hending
    have hdaemon := hstage.daemon_work
    have hwork : s.work cfg = cfg.avail_channels.length + 3 + s.daemon.work := by
      rw [work, huser, UserPhase.work]
    exact ⟨by omega, ht.stuck⟩
  · exact (hrun'.invariant (I := Waits cfg) ⟨hstage, hinit, huser⟩
      fun _ _ _ _ h _ hs => h.step hs).user

theorem finalize_returns_iff_pair : ∃ s, Run (Library.step mpiPair) (fun _ _ => True) .start s ∧
    s.user = .waiting ∧ s.daemon = .polling [1] ∧
    ∀ n t, Steps (Library.step mpiPair) (fun _ a => a.OfThread) s n t → n ≤ 10 := by
  obtain ⟨s, hexec, huser, hdaemon, hfin, hinit⟩ : ∃ s,
      exec (Library.step mpiPair) (fun _ _ => true) .start toWait = some s ∧
        s.user = .waiting ∧ s.daemon = .polling [1] ∧ s.finalizes = 1 ∧
        s.unr_initialized = true := ⟨_, rfl, rfl, rfl, rfl, rfl⟩
  have hrun := run_of_exec hexec
  have hreturns := (finalize_returns_iff mpiPair hrun huser hfin).1 hinit
  exact ⟨s, hrun, huser, hdaemon, fun n t hsteps => (hreturns n t hsteps).1⟩

end Library

end Unr.Core
