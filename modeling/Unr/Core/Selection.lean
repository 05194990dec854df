import Unr.Core.Channels
import Unr.Logic.Buffer
import Unr.Logic.Loop

/-!
The channels that the user selects with `UNR_INTER` and `UNR_INTRA`.

`unr_init` allocates one array for three lists of channels, each with as many
slots as there are registered channels: the available channels, the inter-node
channels and the intra-node channels. It stores the selected channels as it
reads the two variables, and only then looks for repeated ones.
-/

namespace Unr.Core

open Unr.Uru Unr.Logic

/-! ### Reading the variables -/

abbrev CString := List Char

/-- The tokens that calls of `strtok` with `,` return. -/
def strtok (env : CString) : List CString := (env.splitOn ',').filter (· ≠ [])

/-- `find_channel`. The names are those of `uri_channel_arr`; `none` is the null
pointer. -/
def findChannel (names : List CString) (name : CString) : Option Nat :=
  names.findIdx? (· = name)

/-- Whether a list is for channels between nodes or inside a node. -/
inductive Locality
  | inter | intra
  deriving Repr, DecidableEq

/-- `channels`, counted from `avail_channels`. -/
def Locality.channels (m : Nat) : Locality → Nat
  | .inter => m
  | .intra => m + m

/-- The array behind `unr_channels`, and the numbers of channels. -/
structure Selection where
  slots : List (Option Nat)
  num_channels : Locality → Nat

def Selection.init (m : Nat) : Selection where
  slots := List.replicate (3 * m) none
  num_channels := fun _ => 0

section

variable (names : List CString) (env : Locality → Option CString) (k : Locality)

/-- A turn of the loop over the tokens. -/
def storeChannel (s : Selection) (token : CString) : Prog Selection := do
  let num_channels := s.num_channels k + 1
  let channel := findChannel names token
  let slots ← store s.slots (k.channels names.length + (num_channels - 1)) channel
  uruAssert (channel ≠ none)
  return ⟨slots, Function.update s.num_channels k num_channels⟩

def selectChannels (s : Selection) : Prog Selection :=
  match env k with
  | none => storeChannel names k s ['m', 'p', 'i']
  | some env => do
      let s ← (strtok env).foldlM (storeChannel names k) s
      uruAssert (0 < s.num_channels k)
      return s

def readEnv : Prog Selection := do
  let s ← selectChannels names env .inter (.init names.length)
  selectChannels names env .intra s

def checkDuplicate (s : Selection) : Prog (List (Option Nat)) := do
  let off := k.channels names.length
  if ¬ off + s.num_channels k ≤ s.slots.length then
    throw .undefined
  let channels := slice s.slots off (s.num_channels k)
  uruAssert channels.Nodup
  return channels

/-- The two lists that `unr_init` goes on with. -/
def unrSelect : Prog (List (Option Nat) × List (Option Nat)) := do
  let s ← readEnv names env
  let inter ← checkDuplicate names .inter s
  let intra ← checkDuplicate names .intra s
  return (inter, intra)

/-- The state in which the token behind `done` is looked up. -/
def beforeStore (done : List CString) : Prog Selection :=
  match k with
  | .inter => done.foldlM (storeChannel names .inter) (.init names.length)
  | .intra => do
      let s ← selectChannels names env .inter (.init names.length)
      done.foldlM (storeChannel names .intra) s

end

/-! ### What a list leaves in the array -/

section

variable {names : List CString} {k : Locality} {s s' : Selection} {tokens : List CString}

theorem findChannel_of_mem {name : CString} (h : name ∈ names) :
    ∃ c < names.length, findChannel names name = some c := by
  have hsome : (findChannel names name).isSome := by
    rw [findChannel, List.findIdx?_isSome, List.any_eq_true]
    exact ⟨name, h, by simp⟩
  obtain ⟨c, hc⟩ := Option.isSome_iff_exists.mp hsome
  exact ⟨c, (List.findIdx?_eq_some_iff_findIdx_eq.mp hc).1, hc⟩

theorem mem_of_findChannel {name : CString} (h : findChannel names name ≠ none) : name ∈ names := by
  by_contra hnot
  refine h (List.findIdx?_eq_none_iff.mpr fun x hx => ?_)
  simpa using fun heq : x = name => hnot (heq ▸ hx)

def Selection.append (names : List CString) (k : Locality) (s : Selection)
    (tokens : List CString) : Selection where
  slots := splice s.slots (k.channels names.length + s.num_channels k)
    (tokens.map (findChannel names))
  num_channels := Function.update s.num_channels k (s.num_channels k + tokens.length)

theorem Selection.append_nil : s.append names k [] = s := by
  simp [Selection.append, splice]

theorem Selection.append_cons {token : CString}
    (hroom : k.channels names.length + s.num_channels k < s.slots.length) :
    (s.append names k [token]).append names k tokens = s.append names k (token :: tokens) := by
  have hslots : splice (splice s.slots (k.channels names.length + s.num_channels k)
      [findChannel names token]) _ (tokens.map (findChannel names)) = splice s.slots _ _ :=
    splice_splice_adjacent hroom.le
  simp only [Selection.append, List.map_cons, List.map_nil, Function.update_self,
    Function.update_idem, List.length_cons, List.length_nil] at hslots ⊢
  rw [← Nat.add_assoc, hslots, Nat.zero_add, Nat.add_assoc, Nat.add_comm 1]
  rfl

/-- A turn stores its channel in the next slot, if there is one. -/
theorem storeChannel_eq_ok_iff {token : CString} :
    storeChannel names k s token = .ok s' ↔
      k.channels names.length + s.num_channels k < s.slots.length ∧ token ∈ names ∧
        s' = s.append names k [token] := by
  simp only [storeChannel, bind_eq_ok, store_eq_ok, uruAssert_eq_ok, pure_eq_ok,
    Nat.add_sub_cancel]
  constructor
  · rintro ⟨slots, ⟨hroom, rfl⟩, -, hfound, rfl⟩
    exact ⟨hroom, mem_of_findChannel hfound, by rw [Selection.append, set_eq_splice hroom]; rfl⟩
  · rintro ⟨hroom, hmem, rfl⟩
    obtain ⟨c, -, hfound⟩ := findChannel_of_mem hmem
    refine ⟨_, ⟨hroom, rfl⟩, (), by simp [hfound], ?_⟩
    rw [Selection.append, set_eq_splice hroom]
    rfl

/-- The loop over the tokens runs to its end exactly if there are slots for all
of them and all of them name a channel. -/
theorem storeChannels_eq_ok_iff :
    tokens.foldlM (storeChannel names k) s = .ok s' ↔
      (tokens = [] ∨ k.channels names.length + s.num_channels k + tokens.length ≤ s.slots.length) ∧
        (∀ token ∈ tokens, token ∈ names) ∧ s' = s.append names k tokens := by
  induction tokens generalizing s with
  | nil =>
      rw [Selection.append_nil, List.foldlM_nil, pure_eq_ok]
      constructor
      · rintro rfl
        exact ⟨.inl rfl, fun _ h => (nomatch h), rfl⟩
      · rintro ⟨-, -, rfl⟩
        rfl
  | cons token tokens ih =>
      simp only [List.foldlM_cons, bind_eq_ok, storeChannel_eq_ok_iff, ih]
      have hnext : ∀ (_ : k.channels names.length + s.num_channels k < s.slots.length),
          (s.append names k [token]).slots.length = s.slots.length ∧
            (s.append names k [token]).num_channels k = s.num_channels k + 1 := fun hroom =>
        ⟨length_splice (Nat.succ_le_of_lt hroom), Function.update_self ..⟩
      constructor
      · rintro ⟨-, ⟨hroom, hmem, rfl⟩, hrest, hall, rfl⟩
        obtain ⟨hlen, hnum⟩ := hnext hroom
        refine ⟨.inr ?_, List.forall_mem_cons.mpr ⟨hmem, hall⟩, Selection.append_cons hroom⟩
        rw [hlen, hnum] at hrest
        rcases hrest with rfl | hrest
        · exact Nat.succ_le_of_lt hroom
        · rw [List.length_cons]
          omega
      · rintro ⟨hroom, hall, rfl⟩
        obtain ⟨hmem, hall⟩ := List.forall_mem_cons.mp hall
        have hroom : k.channels names.length + s.num_channels k + (tokens.length + 1) ≤
            s.slots.length := hroom.resolve_left (List.cons_ne_nil _ _)
        have hone : k.channels names.length + s.num_channels k < s.slots.length := by omega
        obtain ⟨hlen, hnum⟩ := hnext hone
        refine ⟨_, ⟨hone, hmem, rfl⟩, .inr ?_, hall, (Selection.append_cons hone).symm⟩
        rw [hlen, hnum]
        omega

end

/-! ### Both lists -/

section

variable {names : List CString} {env : Locality → CString}

abbrev bothSet (env : Locality → CString) : Locality → Option CString := fun k => some (env k)

def selected (names inter intra : List CString) : Selection :=
  ((Selection.init names.length).append names .inter inter).append names .intra intra

theorem selectChannels_eq_ok_iff {k : Locality} {s s' : Selection} :
    selectChannels names (bothSet env) k s = .ok s' ↔
      (strtok (env k) = [] ∨
        k.channels names.length + s.num_channels k + (strtok (env k)).length ≤ s.slots.length) ∧
      (∀ token ∈ strtok (env k), token ∈ names) ∧ s' = s.append names k (strtok (env k)) ∧
      0 < s.num_channels k + (strtok (env k)).length := by
  simp only [selectChannels, bind_eq_ok, storeChannels_eq_ok_iff, uruAssert_eq_ok, pure_eq_ok]
  constructor
  · rintro ⟨_, ⟨hroom, hall, rfl⟩, -, hpos, rfl⟩
    exact ⟨hroom, hall, rfl, by simpa [Selection.append] using hpos⟩
  · rintro ⟨hroom, hall, rfl, hpos⟩
    exact ⟨_, ⟨hroom, hall, rfl⟩, (), by simpa [Selection.append] using hpos, rfl⟩

/-- The first list has the slots up to the end of the array. -/
theorem selectInter_eq_ok_iff {s' : Selection} :
    selectChannels names (bothSet env) .inter (.init names.length) = .ok s' ↔
      0 < (strtok (env .inter)).length ∧ (strtok (env .inter)).length ≤ 2 * names.length ∧
      (∀ token ∈ strtok (env .inter), token ∈ names) ∧
      s' = (Selection.init names.length).append names .inter (strtok (env .inter)) := by
  rw [selectChannels_eq_ok_iff]
  simp only [Locality.channels, Selection.init, List.length_replicate, Nat.zero_add, Nat.add_zero]
  constructor
  · rintro ⟨hroom, hall, rfl, hpos⟩
    have hroom := hroom.resolve_left (List.ne_nil_of_length_pos hpos)
    exact ⟨hpos, by omega, hall, rfl⟩
  · rintro ⟨hpos, hroom, hall, rfl⟩
    exact ⟨.inr (by omega), hall, rfl, hpos⟩

theorem append_inter {inter : List CString} (h : inter.length ≤ 2 * names.length) :
    ((Selection.init names.length).append names .inter inter).slots.length = 3 * names.length ∧
      ((Selection.init names.length).append names .inter inter).num_channels .inter = inter.length ∧
      ((Selection.init names.length).append names .inter inter).num_channels .intra = 0 := by
  refine ⟨?_, ?_, rfl⟩
  · rw [Selection.append, length_splice]
    · simp [Selection.init]
    · simp only [Selection.init, Locality.channels, List.length_map, List.length_replicate]
      omega
  · simp [Selection.append, Selection.init]

/-- Both variables are read exactly if the lists name channels, and no list
reaches over the end of the array. -/
theorem readEnv_eq_ok_iff {s' : Selection} :
    readEnv names (bothSet env) = .ok s' ↔
      (∀ k, 0 < (strtok (env k)).length ∧ ∀ token ∈ strtok (env k), token ∈ names) ∧
      (strtok (env .inter)).length ≤ 2 * names.length ∧
      (strtok (env .intra)).length ≤ names.length ∧
      s' = selected names (strtok (env .inter)) (strtok (env .intra)) := by
  simp only [readEnv, bind_eq_ok, selectInter_eq_ok_iff]
  constructor
  · rintro ⟨s, ⟨hpos, hroom, hall, rfl⟩, hintra⟩
    obtain ⟨hlen, -, hnum⟩ := append_inter hroom
    obtain ⟨hroom', hall', rfl, hpos'⟩ := selectChannels_eq_ok_iff.mp hintra
    rw [hnum, Nat.zero_add] at hpos'
    have hroom' := hroom'.resolve_left (List.ne_nil_of_length_pos hpos')
    rw [hlen, hnum, Locality.channels] at hroom'
    refine ⟨fun k => ?_, hroom, by omega, rfl⟩
    cases k with
    | inter => exact ⟨hpos, hall⟩
    | intra => exact ⟨hpos', hall'⟩
  · rintro ⟨hall, hroom, hroom', rfl⟩
    obtain ⟨hlen, -, hnum⟩ := append_inter hroom
    refine ⟨_, ⟨(hall .inter).1, hroom, (hall .inter).2, rfl⟩, selectChannels_eq_ok_iff.mpr
      ⟨.inr ?_, (hall .intra).2, rfl, ?_⟩⟩
    · rw [hlen, hnum, Locality.channels]
      omega
    · rw [hnum, Nat.zero_add]
      exact (hall .intra).1

/-! ### The accepted lists -/

section Selected

variable {inter intra : List CString} (hinter : inter.length ≤ 2 * names.length)
  (hintra : intra.length ≤ names.length)
include hinter hintra

/-- What the two lists leave in a slot: the second list is stored over the
first. -/
theorem selected_slot (p : Nat) :
    (selected names inter intra).slots[p]? =
      if 2 * names.length ≤ p ∧ p < 2 * names.length + intra.length then
        (intra.map (findChannel names))[p - 2 * names.length]?
      else if names.length ≤ p ∧ p < names.length + inter.length then
        (inter.map (findChannel names))[p - names.length]?
      else (List.replicate (3 * names.length) none)[p]? := by
  obtain ⟨hlen, -, hnum⟩ := append_inter hinter
  have hoff : Locality.intra.channels names.length +
      ((Selection.init names.length).append names .inter inter).num_channels .intra =
        2 * names.length := by
    rw [hnum, Locality.channels]
    omega
  have hfirst : Locality.inter.channels names.length +
      (Selection.init names.length).num_channels .inter = names.length := rfl
  rw [selected, Selection.append, hoff, getElem?_splice (by rw [List.length_map, hlen]; omega),
    Selection.append, hfirst, getElem?_splice, List.length_map, List.length_map]
  · rfl
  · simp only [Selection.init, List.length_map, List.length_replicate]
    omega

theorem selected_num : (selected names inter intra).slots.length = 3 * names.length ∧
    (selected names inter intra).num_channels .inter = inter.length ∧
    (selected names inter intra).num_channels .intra = intra.length := by
  obtain ⟨hlen, hnum, hnum'⟩ := append_inter hinter
  refine ⟨?_, ?_, ?_⟩
  · rw [selected, Selection.append, length_splice, hlen]
    rw [hlen, hnum', List.length_map, Locality.channels]
    omega
  · rw [selected, Selection.append]
    simp only [ne_eq, reduceCtorEq, not_false_eq_true, Function.update_of_ne]
    exact hnum
  · rw [selected, Selection.append]
    simp only [Function.update_self]
    rw [hnum', Nat.zero_add]

theorem slice_selected_intra :
    slice (selected names inter intra).slots (2 * names.length) intra.length =
      intra.map (findChannel names) := by
  apply List.ext_getElem?
  intro i
  rcases Nat.lt_or_ge i intra.length with hi | hi
  · rw [getElem?_slice i hi, selected_slot hinter hintra, if_pos (by omega),
      Nat.add_sub_cancel_left]
  · rw [slice, List.getElem?_take_eq_none hi, List.getElem?_eq_none (by simpa using hi)]

/-- So are the inter-node channels, if they stay in their slots. -/
theorem slice_selected_inter (hroom : inter.length ≤ names.length) :
    slice (selected names inter intra).slots names.length inter.length =
      inter.map (findChannel names) := by
  apply List.ext_getElem?
  intro i
  rcases Nat.lt_or_ge i inter.length with hi | hi
  · rw [getElem?_slice i hi, selected_slot hinter hintra, if_neg (by omega), if_pos (by omega),
      Nat.add_sub_cancel_left]
  · rw [slice, List.getElem?_take_eq_none hi, List.getElem?_eq_none (by simpa using hi)]

/-- Even if they do not, what is read are registered channels. -/
theorem mem_slice_selected_inter (hall : ∀ token ∈ inter ++ intra, token ∈ names)
    {c : Option Nat} (hc : c ∈ slice (selected names inter intra).slots names.length inter.length) :
    c ∈ (List.range names.length).map some := by
  obtain ⟨i, hi, hslot⟩ := mem_slice.mp hc
  have hfound : ∃ token ∈ inter ++ intra, findChannel names token = c := by
    rw [selected_slot hinter hintra] at hslot
    split at hslot
    · obtain ⟨token, htoken, heq⟩ := List.mem_map.mp (List.mem_of_getElem? hslot)
      exact ⟨token, List.mem_append_right _ htoken, heq⟩
    · rw [if_pos (by omega)] at hslot
      obtain ⟨token, htoken, heq⟩ := List.mem_map.mp (List.mem_of_getElem? hslot)
      exact ⟨token, List.mem_append_left _ htoken, heq⟩
  obtain ⟨token, htoken, rfl⟩ := hfound
  obtain ⟨c, hlt, hfind⟩ := findChannel_of_mem (hall token htoken)
  exact List.mem_map.mpr ⟨c, List.mem_range.mpr hlt, hfind.symm⟩

end Selected

/-- Accepted lists are the lists in the variables. A list of inter-node channels
that has run into the slots of the others is not accepted: it is longer than
there are channels, so that one of them is in it twice. -/
theorem selection_exact {inter intra : List (Option Nat)}
    (h : unrSelect names (bothSet env) = .ok (inter, intra)) :
    inter = (strtok (env .inter)).map (findChannel names) ∧
      intra = (strtok (env .intra)).map (findChannel names) := by
  simp only [unrSelect, checkDuplicate, bind_eq_ok, throw_if_eq_ok, uruAssert_eq_ok, pure_eq_ok,
    Prod.mk.injEq, readEnv_eq_ok_iff] at h
  obtain ⟨_, ⟨hall, hroom, hroom', rfl⟩, _, ⟨-, -, hnodup, rfl⟩, _, ⟨-, -, -, rfl⟩, rfl, rfl⟩ := h
  obtain ⟨-, hnum, hnum'⟩ := selected_num hroom hroom'
  rw [hnum] at hnodup ⊢
  rw [hnum']
  have hfits : (strtok (env .inter)).length ≤ names.length := by
    by_contra hlong
    have hsub := List.Nodup.subperm hnodup fun c hc => mem_slice_selected_inter hroom hroom'
      (fun token htoken => (List.mem_append.mp htoken).elim ((hall .inter).2 token)
        ((hall .intra).2 token)) hc
    have hle := hsub.length_le
    rw [List.length_map, List.length_range, Locality.channels, length_slice] at hle
    · exact hlong hle
    · rw [(selected_num hroom hroom').1]
      omega
  refine ⟨slice_selected_inter hroom hroom' hfits, ?_⟩
  have hoff : Locality.intra.channels names.length = 2 * names.length := by
    rw [Locality.channels]
    omega
  rw [hoff]
  exact slice_selected_intra hroom hroom'

theorem exists_positions {tokens : List CString} (hall : ∀ token ∈ tokens, token ∈ names) :
    ∃ channels : List Nat, tokens.map (findChannel names) = channels.map some ∧
      ∀ c ∈ channels, c < names.length := by
  induction tokens with
  | nil => exact ⟨[], rfl, fun _ h => nomatch h⟩
  | cons token tokens ih =>
      obtain ⟨hmem, hall⟩ := List.forall_mem_cons.mp hall
      obtain ⟨channels, hchannels, hlt⟩ := ih hall
      obtain ⟨c, hc, hfind⟩ := findChannel_of_mem hmem
      refine ⟨c :: channels, ?_, List.forall_mem_cons.mpr ⟨hc, hlt⟩⟩
      rw [List.map_cons, List.map_cons, hfind, hchannels]

/-- Accepted lists pass the checks that `unrInit` begins with. -/
theorem unrSelect_accepted {inter intra : List (Option Nat)}
    (h : unrSelect names (bothSet env) = .ok (inter, intra)) :
    ∃ inter_channels intra_channels : List Nat,
      inter = inter_channels.map some ∧ intra = intra_channels.map some ∧
      ((∀ c ∈ inter_channels, c < names.length) ∧ inter_channels ≠ [] ∧ inter_channels.Nodup) ∧
      (∀ c ∈ intra_channels, c < names.length) ∧ intra_channels ≠ [] ∧ intra_channels.Nodup := by
  obtain ⟨hinter, hintra⟩ := selection_exact h
  simp only [unrSelect, checkDuplicate, bind_eq_ok, throw_if_eq_ok, uruAssert_eq_ok, pure_eq_ok,
    Prod.mk.injEq, readEnv_eq_ok_iff] at h
  obtain ⟨_, ⟨hall, -⟩, _, ⟨-, -, hnodup, rfl⟩, _, ⟨-, -, hnodup', rfl⟩, rfl, rfl⟩ := h
  rw [hinter] at hnodup ⊢
  rw [hintra] at hnodup' ⊢
  obtain ⟨inter_channels, heq, hlt⟩ := exists_positions (hall .inter).2
  obtain ⟨intra_channels, heq', hlt'⟩ := exists_positions (hall .intra).2
  refine ⟨inter_channels, intra_channels, heq, heq', ⟨hlt, ?_, ?_⟩, hlt', ?_, ?_⟩
  · have hlen := congrArg List.length heq
    rw [List.length_map, List.length_map] at hlen
    exact List.ne_nil_of_length_pos (hlen ▸ (hall .inter).1)
  · rw [heq] at hnodup
    exact List.Nodup.of_map some hnodup
  · have hlen := congrArg List.length heq'
    rw [List.length_map, List.length_map] at hlen
    exact List.ne_nil_of_length_pos (hlen ▸ (hall .intra).1)
  · rw [heq'] at hnodup'
    exact List.Nodup.of_map some hnodup'

/-! ### Where the stores go -/

/-- Every store stays within the slots of its list, so that the second list does
not change the first, and the lists that are accepted are those in the
variables. -/
structure SelectionSafe (names : List CString) (env : Locality → CString) : Prop where
  /-- The store of a token stays within the slots of its list. -/
  within : ∀ k done token rest, strtok (env k) = done ++ token :: rest →
    beforeStore names (bothSet env) k done ≠ .error .undefined ∧
    ∀ s, beforeStore names (bothSet env) k done = .ok s → s.num_channels k < names.length
  /-- The inter-node channels are still there after the second list. -/
  kept : ∀ s s', selectChannels names (bothSet env) .inter (.init names.length) = .ok s →
    readEnv names (bothSet env) = .ok s' →
    ∀ i < s.num_channels .inter, s'.slots[names.length + i]? = s.slots[names.length + i]?
  exact : ∀ inter intra, unrSelect names (bothSet env) = .ok (inter, intra) →
    inter = (strtok (env .inter)).map (findChannel names) ∧
      intra = (strtok (env .intra)).map (findChannel names)

theorem beforeStore_inter (env : Locality → CString) {done : List CString}
    (hroom : done.length ≤ 2 * names.length) (hall : ∀ token ∈ done, token ∈ names) :
    ∃ s, beforeStore names (bothSet env) .inter done = .ok s ∧
      s.num_channels .inter = done.length := by
  have hrun := (storeChannels_eq_ok_iff (k := .inter) (s := .init names.length)).mpr
    ⟨.inr (by
      simp only [Locality.channels, Selection.init, List.length_replicate]
      omega), hall, rfl⟩
  exact ⟨_, hrun, (append_inter hroom).2.1⟩

theorem beforeStore_intra (hpos : 0 < (strtok (env .inter)).length)
    (hinter : (strtok (env .inter)).length ≤ 2 * names.length)
    (hknown : ∀ token ∈ strtok (env .inter), token ∈ names) {done : List CString}
    (hroom : done.length ≤ names.length) (hall : ∀ token ∈ done, token ∈ names) :
    ∃ s, beforeStore names (bothSet env) .intra done = .ok s ∧
      s.num_channels .intra = done.length := by
  obtain ⟨hlen, -, hnum⟩ := append_inter hinter
  refine ⟨selected names (strtok (env .inter)) done, ?_, (selected_num hinter hroom).2.2⟩
  rw [beforeStore, selectInter_eq_ok_iff.mpr ⟨hpos, hinter, hknown, rfl⟩, ok_bind]
  refine storeChannels_eq_ok_iff.mpr ⟨.inr ?_, hall, rfl⟩
  rw [hlen, hnum, Locality.channels]
  omega

/-- An empty first list stops the process. -/
theorem beforeStore_of_empty (hempty : strtok (env .inter) = []) (done : List CString) :
    beforeStore names (bothSet env) .intra done = .error (.exit .assertExit) := by
  simp only [beforeStore, selectChannels, hempty]
  rfl

theorem exists_turn {tokens : List CString} {m : Nat} (h : m < tokens.length) :
    ∃ done token rest, tokens = done ++ token :: rest ∧ done.length = m := by
  refine ⟨tokens.take m, tokens[m], tokens.drop (m + 1), ?_, ?_⟩
  · rw [← List.drop_eq_getElem_cons h, List.take_append_drop]
  · rw [List.length_take]
    omega

section Known

variable (hknown : ∀ k, ∀ token ∈ strtok (env k), token ∈ names)
include hknown

theorem lengths_le_of_within (h : ∀ k done token rest, strtok (env k) = done ++ token :: rest →
      ∀ s, beforeStore names (bothSet env) k done = .ok s → s.num_channels k < names.length) :
    (strtok (env .inter)).length ≤ names.length ∧
      (strtok (env .inter) = [] ∨ (strtok (env .intra)).length ≤ names.length) := by
  have hinter : (strtok (env .inter)).length ≤ names.length := by
    by_contra hlong
    obtain ⟨done, token, rest, hsplit, hdone⟩ := exists_turn (Nat.lt_of_not_le hlong)
    have hall : ∀ t ∈ done, t ∈ names := fun t ht => hknown .inter t (by rw [hsplit]; simp [ht])
    obtain ⟨s, hs, hnum⟩ := beforeStore_inter env (by omega) hall
    have hlt := h .inter done token rest hsplit s hs
    omega
  refine ⟨hinter, ?_⟩
  by_contra hbad
  obtain ⟨hne, hlong⟩ := not_or.mp hbad
  obtain ⟨done, token, rest, hsplit, hdone⟩ := exists_turn (Nat.lt_of_not_le hlong)
  have hall : ∀ t ∈ done, t ∈ names := fun t ht => hknown .intra t (by rw [hsplit]; simp [ht])
  obtain ⟨s, hs, hnum⟩ := beforeStore_intra (List.length_pos_iff.mpr hne) (by omega)
    (hknown .inter) (by omega) hall
  have hlt := h .intra done token rest hsplit s hs
  omega

theorem within_of_lengths_le (hinter : (strtok (env .inter)).length ≤ names.length)
    (hintra : strtok (env .inter) = [] ∨ (strtok (env .intra)).length ≤ names.length)
    (k : Locality) (done : List CString) (token : CString) (rest : List CString)
    (hsplit : strtok (env k) = done ++ token :: rest) :
    beforeStore names (bothSet env) k done ≠ .error .undefined ∧
      ∀ s, beforeStore names (bothSet env) k done = .ok s → s.num_channels k < names.length := by
  have hlen := congrArg List.length hsplit
  rw [List.length_append, List.length_cons] at hlen
  have hall : ∀ t ∈ done, t ∈ names := fun t ht => hknown k t (by rw [hsplit]; simp [ht])
  have hlt : ∀ {result : Prog Selection} {s : Selection}, result = .ok s →
      s.num_channels k < names.length →
      result ≠ .error .undefined ∧ ∀ s', result = .ok s' → s'.num_channels k < names.length := by
    rintro _ s rfl hnum
    constructor
    · rintro ⟨⟩
    · rintro s' ⟨⟩
      exact hnum
  cases k with
  | inter =>
      obtain ⟨s, hs, hnum⟩ := beforeStore_inter env (by omega) hall
      exact hlt hs (by omega)
  | intra =>
      by_cases hempty : strtok (env .inter) = []
      · rw [beforeStore_of_empty hempty]
        constructor
        · rintro ⟨⟩
        · rintro s ⟨⟩
      · have hintra := hintra.resolve_left hempty
        obtain ⟨s, hs, hnum⟩ := beforeStore_intra (List.length_pos_iff.mpr hempty) (by omega)
          (hknown .inter) (by omega) hall
        exact hlt hs (by omega)

end Known

theorem inter_kept {s s' : Selection}
    (hs : selectChannels names (bothSet env) .inter (.init names.length) = .ok s)
    (hs' : readEnv names (bothSet env) = .ok s') (hfits : s.num_channels .inter ≤ names.length)
    {i : Nat} (hi : i < s.num_channels .inter) :
    s'.slots[names.length + i]? = s.slots[names.length + i]? := by
  obtain ⟨-, hroom, -, rfl⟩ := selectInter_eq_ok_iff.mp hs
  obtain ⟨-, -, hroom', rfl⟩ := readEnv_eq_ok_iff.mp hs'
  obtain ⟨hlen, -, hnum'⟩ := append_inter hroom
  rw [selected, Selection.append, getElem?_splice, if_neg]
  all_goals rw [hnum', Locality.channels]
  · omega
  · rw [List.length_map, hlen]
    omega

/-- For lists of known channels the selection is safe exactly if neither list
has more names than there are channels. -/
theorem selection_safe_iff (hknown : ∀ k, ∀ token ∈ strtok (env k), token ∈ names) :
    SelectionSafe names env ↔ (strtok (env .inter)).length ≤ names.length ∧
      (strtok (env .inter) = [] ∨ (strtok (env .intra)).length ≤ names.length) := by
  constructor
  · intro h
    exact lengths_le_of_within hknown fun k done token rest hsplit =>
      (h.within k done token rest hsplit).2
  · rintro ⟨hinter, hintra⟩
    refine ⟨within_of_lengths_le hknown hinter hintra, fun s s' hs hs' i hi => ?_,
      fun _ _ => selection_exact⟩
    -- the slots of the second list are behind those of the first
    refine inter_kept hs hs' ?_ hi
    obtain ⟨-, hroom, -, rfl⟩ := selectInter_eq_ok_iff.mp hs
    rw [(append_inter hroom).2.1]
    exact hinter

def mpiVerbs : Locality → CString
  | .inter => ['v', 'e', 'r', 'b', 's', '1', ',', 'v', 'e', 'r', 'b', 's', '0']
  | .intra => ['m', 'p', 'i', ',', ',', 'v', 'e', 'r', 'b', 's', '0', ',',
      'v', 'e', 'r', 'b', 's', '1']

/-- Three channels, of which the first list names two and the second all. -/
theorem selection_safe_iff_verbs :
    SelectionSafe [['m', 'p', 'i'], ['v', 'e', 'r', 'b', 's', '0'], ['v', 'e', 'r', 'b', 's', '1']]
        mpiVerbs ∧
      (strtok (mpiVerbs .inter)).length = 2 ∧ (strtok (mpiVerbs .intra)).length = 3 := by
  refine ⟨(selection_safe_iff fun k => ?_).mpr ⟨by decide, .inr (by decide)⟩, by decide, by decide⟩
  cases k <;> decide

/-- Lists that name the only channel three times and once. -/
def mpiThrice : Locality → CString
  | .inter => ['m', 'p', 'i', ',', 'm', 'p', 'i', ',', 'm', 'p', 'i']
  | .intra => ['m', 'p', 'i']

/-- With one channel, the second name of a list goes into the slot of the other
list, and the third one behind the end of the array, before anything has looked
for repeated names. -/
theorem repeated_names_leave_array :
    (∀ k, ∀ token ∈ strtok (mpiThrice k), token ∈ [['m', 'p', 'i']]) ∧
      unrSelect [['m', 'p', 'i']] (bothSet mpiThrice) = .error .undefined ∧
      ¬ SelectionSafe [['m', 'p', 'i']] mpiThrice := by
  have hknown : ∀ k, ∀ token ∈ strtok (mpiThrice k), token ∈ [['m', 'p', 'i']] := by
    intro k
    cases k <;> decide
  refine ⟨hknown, rfl, fun hsafe => ?_⟩
  have hwithin := hsafe.within .inter [['m', 'p', 'i']] ['m', 'p', 'i'] [['m', 'p', 'i']] rfl
  have hstore := hwithin.2 _ rfl
  exact absurd hstore (by decide)

end

end Unr.Core
