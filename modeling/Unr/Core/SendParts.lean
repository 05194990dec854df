import Unr.Core.Split

/-!
The parts of one send and the two counts they move.

A send that `unr_rdma_plan_create` has divided reaches its signal as one
addition for every channel with a share. Two integers describe any collection
of parts that have been added so far: how many messages it has taken off the
signal, and how many sub-messages it has announced but not yet delivered.
-/

namespace Unr.Core

open Unr.Uru Unr.Logic

/-- A non-empty send at the moment `unr_rdma_plan_create` divides it: the
group selected for it, its size, the cursor of the group and the scratch
array left by the sends before it. -/
structure Send where
  group : ChannelGroup
  blk : Nat
  accepted : group.Accepted blk
  size : Nat
  size_pos : 0 < size
  size_lt : size < 2 ^ 64
  next_channel_id : Nat
  cursor_lt : next_channel_id < group.num
  scratch : List Nat
  room : group.num ≤ scratch.length

namespace Send

def div_plan_wrt_size (s : Send) : List Nat :=
  match divPlanWrtSize s.group s.size s.next_channel_id s.scratch with
  | .ok (div, _) => div
  | .error _ => []

def sig_add_arr (s : Send) : List (BitVec 64) :=
  sigAddArr s.scratch.length s.group.num s.div_plan_wrt_size

def non_zeros (s : Send) : Nat := nonZeros s.group.num s.div_plan_wrt_size

theorem split (s : Send) : SplitOf s.group.num s.size s.scratch s.div_plan_wrt_size := by
  obtain ⟨div, cursor', hrun, hsplit, -⟩ :=
    divPlanWrtSize_spec s.accepted s.size_lt s.cursor_lt s.room
  simpa only [div_plan_wrt_size, hrun] using hsplit

theorem sum_pos (s : Send) : 0 < (s.div_plan_wrt_size.take s.group.num).sum := by
  rw [s.split.sum]
  exact s.size_pos

theorem non_zeros_pos (s : Send) : 0 < s.non_zeros := nonZeros_pos s.sum_pos

end Send

/-- The part of a send that travels on one channel of the group. -/
structure Part where
  send : Send
  channel : Nat

namespace Part

/-- The amount the part adds to the signals of the send. -/
def sig_add (p : Part) : BitVec 64 := p.send.sig_add_arr.getD p.channel 0

def isFirst (p : Part) : Bool :=
  p.channel == firstPart p.send.group.num p.send.div_plan_wrt_size

/-- Messages taken off the signal by the part. -/
def messages (p : Part) : ℤ := if p.isFirst then 1 else 0

/-- Sub-messages announced by the part, minus the one it may itself be. -/
def outstanding (p : Part) : ℤ := if p.isFirst then (p.send.non_zeros : ℤ) - 1 else -1

end Part

def Send.parts (s : Send) : List Part :=
  ((List.range s.group.num).filter fun j => s.div_plan_wrt_size.getD j 0 ≠ 0).map (Part.mk s)

def messages (ps : List Part) : ℤ := (ps.map Part.messages).sum

def outstanding (ps : List Part) : ℤ := (ps.map Part.outstanding).sum

@[simp] theorem messages_nil : messages [] = 0 := rfl
@[simp] theorem outstanding_nil : outstanding [] = 0 := rfl

@[simp] theorem messages_cons (p : Part) (ps : List Part) :
    messages (p :: ps) = p.messages + messages ps := by simp [messages]

@[simp] theorem outstanding_cons (p : Part) (ps : List Part) :
    outstanding (p :: ps) = p.outstanding + outstanding ps := by simp [outstanding]

@[simp] theorem messages_append (ps qs : List Part) :
    messages (ps ++ qs) = messages ps + messages qs := by simp [messages]

@[simp] theorem outstanding_append (ps qs : List Part) :
    outstanding (ps ++ qs) = outstanding ps + outstanding qs := by simp [outstanding]

theorem messages_perm {ps qs : List Part} (h : ps.Perm qs) : messages ps = messages qs :=
  (h.map _).sum_eq

theorem outstanding_perm {ps qs : List Part} (h : ps.Perm qs) :
    outstanding ps = outstanding qs :=
  (h.map _).sum_eq

theorem Part.sig_add_eq {s : Send} {p : Part} (hp : p ∈ s.parts) :
    p.sig_add = packed 64 32 (-p.messages) p.outstanding := by
  obtain ⟨j, hj, rfl⟩ := List.mem_map.mp hp
  rw [List.mem_filter, List.mem_range] at hj
  obtain ⟨hlt, hdiv⟩ := hj
  have hword := sigAddArr_getD s.scratch.length s.sum_pos hlt s.room (by simpa using hdiv)
  rw [Part.sig_add, Send.sig_add_arr]
  simp only [hword, Part.messages, Part.outstanding, Part.isFirst, beq_iff_eq, Send.non_zeros]
  split <;> rfl

/-! ### The counts of a whole send -/

/-- `non_zeros` counts the channels of the group that have a share. -/
theorem nonZeros_eq_length {n : Nat} {div : List Nat} (hroom : n ≤ div.length) :
    nonZeros n div = ((List.range n).filter fun j => div.getD j 0 ≠ 0).length := by
  have htake : div.take n = (List.range n).map fun j => div.getD j 0 := by
    apply List.ext_getElem (by simpa using hroom)
    intro j h₁ h₂
    have hj : j < div.length := by simp at h₁; omega
    simp [List.getD, List.getElem?_eq_getElem hj]
  rw [← List.countP_eq_length_filter, nonZeros, htake, List.countP_map]
  rfl

theorem messages_nonneg (ps : List Part) : 0 ≤ messages ps := by
  apply List.sum_nonneg
  intro x hx
  obtain ⟨p, -, rfl⟩ := List.mem_map.mp hx
  unfold Part.messages
  split <;> decide

/-- Where the two counts of a collection come from: its first parts and the
others. -/
theorem outstanding_eq (ps : List Part) :
    outstanding ps = ((ps.filter Part.isFirst).map
      fun p => (p.send.non_zeros : ℤ) - 1).sum - ps.countP (!Part.isFirst ·) := by
  induction ps with
  | nil => rfl
  | cons p ps ih =>
      cases hp : p.isFirst with
      | true => simp [Part.outstanding, hp, ih, add_sub_assoc]
      | false =>
          simp only [outstanding_cons, Part.outstanding, hp, ih, List.filter_cons,
            List.countP_cons, Bool.false_eq_true, if_false, Bool.not_false, if_true]
          push_cast
          ring

theorem messages_eq (ps : List Part) : messages ps = ps.countP Part.isFirst := by
  induction ps with
  | nil => rfl
  | cons p ps ih =>
      cases hp : p.isFirst with
      | true => simp [Part.messages, hp, ih, add_comm]
      | false => simp [Part.messages, hp, ih]

namespace Send

theorem parts_length (s : Send) : s.parts.length = s.non_zeros := by
  rw [parts, List.length_map, non_zeros, nonZeros_eq_length s.split.room]

theorem countP_isFirst (s : Send) : s.parts.countP Part.isFirst = 1 := by
  obtain ⟨hlt, hdiv⟩ := firstPart_spec s.sum_pos
  have hnodup : ((List.range s.group.num).filter
      fun j => s.div_plan_wrt_size.getD j 0 ≠ 0).Nodup := List.nodup_range.filter _
  have hmem : firstPart s.group.num s.div_plan_wrt_size ∈ (List.range s.group.num).filter
      fun j => s.div_plan_wrt_size.getD j 0 ≠ 0 :=
    List.mem_filter.mpr ⟨List.mem_range.mpr hlt, by simpa using hdiv⟩
  rw [parts, List.countP_map]
  exact List.count_eq_one_of_mem hnodup hmem

theorem countP_not_isFirst (s : Send) :
    s.parts.countP (!Part.isFirst ·) = s.non_zeros - 1 := by
  have hsplit := List.length_eq_countP_add_countP Part.isFirst (l := s.parts)
  rw [s.parts_length, s.countP_isFirst] at hsplit
  simp only [Bool.not_eq_true] at hsplit
  have hsame : s.parts.countP (fun a => decide (a.isFirst = false)) =
      s.parts.countP (!Part.isFirst ·) := by
    congr 1
    funext p
    cases p.isFirst <;> rfl
  omega

@[simp] theorem messages_parts (s : Send) : messages s.parts = 1 := by
  rw [messages_eq, s.countP_isFirst]
  rfl

/-- What a send announces is what it delivers. -/
@[simp] theorem outstanding_parts (s : Send) : outstanding s.parts = 0 := by
  have hsend : ∀ p ∈ s.parts.filter Part.isFirst, (p.send.non_zeros : ℤ) - 1 =
      (s.non_zeros : ℤ) - 1 := by
    intro p hp
    obtain ⟨j, -, rfl⟩ := List.mem_map.mp (List.mem_of_mem_filter hp)
    rfl
  have hpos := s.non_zeros_pos
  rw [outstanding_eq, s.countP_not_isFirst, List.map_congr_left hsend, List.map_const',
    List.sum_replicate, ← List.countP_eq_length_filter, s.countP_isFirst,
    Nat.cast_sub hpos]
  simp

end Send

/-! ### The counts of all the sends of a round -/

theorem messages_flatMap (sends : List Send) :
    messages (sends.flatMap Send.parts) = sends.length := by
  induction sends with
  | nil => rfl
  | cons s sends ih =>
      rw [List.flatMap_cons, messages_append, ih, s.messages_parts, List.length_cons]
      push_cast
      ring

theorem outstanding_flatMap (sends : List Send) :
    outstanding (sends.flatMap Send.parts) = 0 := by
  induction sends with
  | nil => rfl
  | cons s sends ih => rw [List.flatMap_cons, outstanding_append, ih, s.outstanding_parts]; rfl

theorem countP_not_isFirst_flatMap (sends : List Send) :
    (sends.flatMap Send.parts).countP (!Part.isFirst ·) =
      (sends.map fun s => s.non_zeros - 1).sum := by
  induction sends with
  | nil => rfl
  | cons s sends ih =>
      rw [List.flatMap_cons, List.countP_append, ih, s.countP_not_isFirst, List.map_cons,
        List.sum_cons]

end Unr.Core
