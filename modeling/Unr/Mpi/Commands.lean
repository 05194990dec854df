import Unr.Mpi.Channel
import Unr.Logic.Replay

/-!
What the control messages from one process to another make the receiver do,
as the sender sees it.

The sender thinks of the table of the receiver as a partial map from ids to
batches. Replaying everything it has sent gives the map that the receiver will
have once it has caught up, and the operations it will have posted by then.
-/

namespace Unr.Mpi

open Unr.Logic

/-! ### Operations up to what identifies them -/

/-- The part of an operation that both sides of a write share, up to the
direction. -/
structure Key where
  rank : Nat
  tag : Nat
  op_type : OpType
  plan : Nat
  index : Nat
  deriving Repr, DecidableEq

def MpiOp.key (op : MpiOp) : Key := ⟨op.rank, op.tag, op.op_type, op.plan, op.index⟩

def Key.flip (k : Key) : Key := { k with op_type := k.op_type.flip }

/-- The writes of one start among operations for process `j` with tag `t`, on
the side `ty`. -/
def selected (rank start j t : Nat) (ty : OpType) (ks : List Key) : List WriteId :=
  ks.filterMap fun k =>
    if k.rank = j ∧ k.tag = t ∧ k.op_type = ty then some ⟨rank, k.plan, start, k.index⟩ else none

def tagsTo (j : Nat) (ps : List (Nat × Nat)) : List Nat :=
  ps.filterMap fun p => if p.1 = j then some p.2 else none

def MpiOp.pair (op : MpiOp) : Nat × Nat := (op.rank, op.tag)

section Selected

variable {rank start j t : Nat} {ty : OpType}

@[simp] theorem selected_nil : selected rank start j t ty [] = [] := rfl

@[simp] theorem selected_append (ks ks' : List Key) :
    selected rank start j t ty (ks ++ ks') =
      selected rank start j t ty ks ++ selected rank start j t ty ks' :=
  List.filterMap_append

theorem selected_cons (k : Key) (ks : List Key) :
    selected rank start j t ty (k :: ks) =
      selected rank start j t ty [k] ++ selected rank start j t ty ks :=
  selected_append [k] ks

@[simp] theorem tagsTo_nil : tagsTo j [] = [] := rfl

@[simp] theorem tagsTo_append (ps ps' : List (Nat × Nat)) :
    tagsTo j (ps ++ ps') = tagsTo j ps ++ tagsTo j ps' :=
  List.filterMap_append

theorem tagsTo_cons (p : Nat × Nat) (ps : List (Nat × Nat)) :
    tagsTo j (p :: ps) = (if p.1 = j then [p.2] else []) ++ tagsTo j ps := by
  by_cases h : p.1 = j <;> simp [tagsTo, h]

theorem tagsTo_perm {ps ps' : List (Nat × Nat)} (h : ps.Perm ps') :
    (tagsTo j ps).Perm (tagsTo j ps') :=
  h.filterMap _

theorem selected_flip (ks : List Key) :
    selected rank start j t ty.flip (ks.map Key.flip) = selected rank start j t ty ks := by
  induction ks with
  | nil => rfl
  | cons k ks ih =>
      have hty : k.op_type.flip = ty.flip ↔ k.op_type = ty := by
        cases k.op_type <;> cases ty <;> simp [OpType.flip]
      rw [List.map_cons, selected_cons, ih, selected_cons k]
      congr 1
      simp only [selected, Key.flip, List.filterMap_cons, List.filterMap_nil, hty]

theorem selected_eq_nil {ks : List Key} (h : ∀ k ∈ ks, k.rank ≠ j) :
    selected rank start j t ty ks = [] := by
  apply List.filterMap_eq_nil_iff.mpr
  intro k hk
  rw [if_neg fun hsel => h k hk hsel.1]

/-- Operations with different tags are selected one at a time. -/
theorem length_selected_le {ops : List MpiOp} :
    (selected rank start j t ty (ops.map MpiOp.key)).length ≤
      (tagsTo j (ops.map MpiOp.pair)).count t := by
  induction ops with
  | nil => simp
  | cons op ops ih =>
      rw [List.map_cons, List.map_cons, selected_cons, tagsTo_cons, List.length_append,
        List.count_append]
      refine Nat.add_le_add ?_ ih
      by_cases hrank : op.rank = j
      · by_cases htag : op.tag = t
        · by_cases hty : op.op_type = ty <;>
            simp [selected, MpiOp.key, MpiOp.pair, hrank, htag, hty]
        · simp [selected, MpiOp.key, MpiOp.pair, hrank, htag]
      · simp [selected, MpiOp.key, MpiOp.pair, hrank]

theorem selected_perm {ks ks' : List Key} (hperm : ks.Perm ks')
    (hle : (selected rank start j t ty ks).length ≤ 1) :
    selected rank start j t ty ks = selected rank start j t ty ks' := by
  have hsel : (selected rank start j t ty ks).Perm (selected rank start j t ty ks') :=
    hperm.filterMap _
  match hks : selected rank start j t ty ks with
  | [] =>
      rw [hks] at hsel
      exact hsel.nil_eq
  | [w] =>
      rw [hks] at hsel
      exact List.singleton_perm.mp hsel
  | _ :: _ :: _ =>
      rw [hks] at hle
      simp at hle

end Selected

/-! ### Replaying messages -/

/-- The operation a receiver posts for an operation of a batch of `src`. -/
def peerPost (src start : Nat) (op : MpiOp) : Post :=
  ⟨op.op_type, op.rank, op.tag, false, ⟨src, op.plan, start, op.index⟩⟩

abbrev BatchMap := Nat → Option OpBatch

/-- What a message of process `src` does to the table kept for it, what it
posts, and the state of the table it is meant for. -/
def batchHandler (src : Nat) : Handler BatchMap CtrlMsg Post where
  step V msg :=
    match msg with
    | .createOpBatch batch_id batch => Function.update V batch_id (some batch)
    | .destroyOpBatch batch_id _ => Function.update V batch_id none
    | _ => V
  out V msg :=
    match msg with
    | .startOpBatch batch_id _ start =>
        match V batch_id with
        | some batch => batch.ops.map (peerPost src start)
        | none => []
    | .executeOpBatch batch => batch.ops.map (peerPost src 0)
    | _ => []
  ok V msg :=
    match msg with
    | .createOpBatch batch_id _ => V batch_id = none
    | .destroyOpBatch batch_id plan | .startOpBatch batch_id plan _ =>
        ∃ batch, V batch_id = some batch ∧ batch.plan = plan
    | .executeOpBatch _ => True

def emptyMap : BatchMap := fun _ => none

/-- The writes with tag `t` among posts of a receiver whose other side is
`ty`. -/
def announcedWrites (t : Nat) (ty : OpType) (posts : List Post) : List WriteId :=
  posts.filterMap fun x => if x.tag = t ∧ x.op_type = ty.flip then some x.write else none

/-- The writes of its own that a process has posted for process `j` with tag
`t`. -/
def ownWrites (j t : Nat) (ty : OpType) (log : List Post) : List WriteId :=
  log.filterMap fun x =>
    if x.own ∧ x.rank = j ∧ x.tag = t ∧ x.op_type = ty then some x.write else none

@[simp] theorem announcedWrites_nil (t : Nat) (ty : OpType) : announcedWrites t ty [] = [] := rfl

@[simp] theorem announcedWrites_append (t : Nat) (ty : OpType) (xs ys : List Post) :
    announcedWrites t ty (xs ++ ys) = announcedWrites t ty xs ++ announcedWrites t ty ys :=
  List.filterMap_append

@[simp] theorem ownWrites_append (j t : Nat) (ty : OpType) (xs ys : List Post) :
    ownWrites j t ty (xs ++ ys) = ownWrites j t ty xs ++ ownWrites j t ty ys :=
  List.filterMap_append

theorem announcedWrites_addressed {rank start j t : Nat} {ty : OpType} {ops : List MpiOp}
    (hrank : ∀ op ∈ ops, op.rank = j) :
    announcedWrites t ty ((addressed rank ops).map (peerPost rank start)) =
      selected rank start j t ty.flip (ops.map MpiOp.key) := by
  induction ops with
  | nil => rfl
  | cons op ops ih =>
      have hop := hrank op (by simp)
      have hops := ih fun op' h => hrank op' (by simp [h])
      rw [List.map_cons, selected_cons, ← hops]
      by_cases hsel : op.tag = t ∧ op.op_type = ty.flip <;>
        simp [announcedWrites, addressed, peerPost, selected, MpiOp.key, hop, hsel]

theorem ownWrites_post {rank start j t : Nat} {ty : OpType} (op : MpiOp) :
    ownWrites j t ty [⟨op.op_type, op.rank, op.tag, true, ⟨rank, op.plan, start, op.index⟩⟩] =
      selected rank start j t ty [op.key] := by
  simp only [ownWrites, selected, MpiOp.key, List.filterMap_cons, List.filterMap_nil, true_and]

/-! ### The receivers of a plan -/

/-- A group of operations for one process. -/
def Uniform (ops : List MpiOp) : Prop :=
  ∃ op rest, ops = op :: rest ∧ ∀ op' ∈ rest, op'.rank = op.rank

theorem receivers_flatten (ops : List MpiOp) : (receivers ops).flatten = ops := by
  induction ops with
  | nil => rfl
  | cons op ops ih =>
      unfold receivers
      split
      · rename_i op' g groups hrec
        rw [hrec] at ih
        split <;> simp_all
      · rename_i groups hrec
        simp_all

theorem receivers_uniform (ops : List MpiOp) : ∀ g ∈ receivers ops, Uniform g := by
  induction ops with
  | nil => simp [receivers]
  | cons op ops ih =>
      have hsingle : Uniform [op] := ⟨op, [], rfl, by simp⟩
      unfold receivers
      split
      · rename_i op' g groups hrec
        rw [hrec] at ih
        split
        · rename_i hsame
          intro g' hg'
          rcases List.mem_cons.mp hg' with rfl | hg'
          · obtain ⟨first, rest, heq, hrest⟩ := ih (op' :: g) (by simp)
            obtain ⟨rfl, rfl⟩ := List.cons_eq_cons.mp heq
            refine ⟨op, op' :: g, rfl, fun x hx => ?_⟩
            rcases List.mem_cons.mp hx with rfl | hx
            · exact hsame
            · rw [hrest x hx, hsame]
          · exact ih g' (by simp [hg'])
        · intro g' hg'
          rcases List.mem_cons.mp hg' with rfl | hg'
          · exact hsingle
          · exact ih g' hg'
      · intro g' hg'
        rcases List.mem_cons.mp hg' with rfl | hg'
        · exact hsingle
        · exact ih g' hg'

end Unr.Mpi
