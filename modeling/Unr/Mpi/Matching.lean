import Unr.Mpi.WorldInv

/-!
Data messages between two distinct processes reach the write they belong to.

A tag carries the rank of the process that has drawn it. Between two distinct
processes it therefore decides which of them is the initiator: on one side of
the channel every post with this tag is an own post, on the other side every
one is for a batch of the initiator. Both sides follow one sequence of writes,
the one in which the initiator has announced them.
-/

namespace Unr.Mpi

open Unr.Uru Unr.Logic

/-- The operations of a type that a process has posted for a process and a
tag. -/
def Proc.posts (proc : Proc) (op_type : OpType) (rank tag : Nat) : List Post :=
  proc.log.filter fun x => x.op_type = op_type ∧ x.rank = rank ∧ x.tag = tag

/-- Matching in MPI: the `k`-th send from `p` to `q` with a tag goes to the
`k`-th receive that `q` has posted for `p` and the tag. -/
def World.Matched (w : World) (p q tag : Nat) (s r : Post) : Prop :=
  ∃ k : Nat, ((w.procs p).posts .opSend q tag)[k]? = some s ∧
    ((w.procs q).posts .opRecv p tag)[k]? = some r

theorem eq_of_common {α : Type} {xs ys zs : List α} {k : Nat} {x y : α} (hxs : xs <+: zs)
    (hys : ys <+: zs) (hx : xs[k]? = some x) (hy : ys[k]? = some y) : x = y := by
  obtain ⟨xs', rfl⟩ := hxs
  obtain ⟨ys', heq⟩ := hys
  have hzx : (xs ++ xs')[k]? = some x := by
    rw [List.getElem?_append_left (List.getElem?_eq_some_iff.mp hx).1, hx]
  have hzy : (ys ++ ys')[k]? = some y := by
    rw [List.getElem?_append_left (List.getElem?_eq_some_iff.mp hy).1, hy]
  rw [heq, hzx] at hzy
  exact Option.some.inj hzy

theorem map_filter_eq {α β : Type} {P : α → Bool} {g : α → β} {f : α → Option β} {xs : List α}
    (h : ∀ x ∈ xs, f x = if P x then some (g x) else none) :
    (xs.filter P).map g = xs.filterMap f := by
  induction xs with
  | nil => rfl
  | cons x xs ih =>
      have hx := h x (by simp)
      have ih := ih fun y hy => h y (List.mem_cons_of_mem _ hy)
      cases hP : P x <;> simp [hP] at hx <;> simp [hx, hP, ih]

namespace World.Inv

variable {w : World}

/-- A post for a batch of process `i` is to `i` and has a tag of `i`. -/
theorem peer_post (h : w.Inv) {q : Nat} {x : Post} (hx : x ∈ (w.procs q).log)
    (hpeer : x.own = false) :
    x.rank = x.write.initiator ∧ x.tag % w.size = x.write.initiator := by
  have hmem : x ∈ peerLog x.write.initiator (w.procs q).log := by
    simp [peerLog, hx, hpeer]
  have hout := (h.link x.write.initiator q).posts.subset hmem
  obtain ⟨-, -, hrank, htag⟩ := outputs_from ((h.ini x.write.initiator).sent q) x hout
  exact ⟨hrank, htag⟩

/-- With a tag of the process itself, what it posts for another one is its
own. -/
theorem posts_own (h : w.Inv) {p q tag : Nat} (hpq : p ≠ q) (htag : tag % w.size = p)
    (ty : OpType) :
    ((w.procs p).posts ty q tag).map (·.write) = ownWrites q tag ty (w.procs p).log := by
  refine map_filter_eq fun x hx => ?_
  simp only [decide_eq_true_eq]
  refine if_congr ⟨?_, ?_⟩ rfl rfl
  · rintro ⟨-, hrank, ht, hty⟩
    exact ⟨hty, hrank, ht⟩
  · rintro ⟨hty, hrank, ht⟩
    refine ⟨?_, hrank, ht, hty⟩
    by_contra hown
    obtain ⟨hinitiator, hmod⟩ := h.peer_post hx (by simpa using hown)
    exact hpq (by rw [← htag, ← ht, hmod, ← hinitiator, hrank])

theorem posts_peer (h : w.Inv) {p q tag : Nat} (hpq : p ≠ q) (htag : tag % w.size = p)
    (ty : OpType) :
    ((w.procs q).posts ty.flip p tag).map (·.write) =
      announcedWrites tag ty (peerLog p (w.procs q).log) := by
  rw [announcedWrites, peerLog, List.filterMap_filter]
  refine map_filter_eq fun x hx => ?_
  simp only [decide_eq_true_eq, ← ite_and]
  refine if_congr ⟨?_, ?_⟩ rfl rfl
  · rintro ⟨⟨hown, hinitiator⟩, ht, hty⟩
    exact ⟨hty, (h.peer_post hx hown).1.trans hinitiator, ht⟩
  · rintro ⟨hty, hrank, ht⟩
    have hown : x.own = false := by
      by_contra hown
      exact hpq (by rw [← htag, ← ht, ((h.ini q).own x hx (by simpa using hown)).2])
    exact ⟨⟨hown, (h.peer_post hx hown).1.symm.trans hrank⟩, ht, hty⟩

/-- Own posts and the posts of the other process follow one sequence of
writes. -/
theorem same_write (h : w.Inv) {p q tag k : Nat} (hpq : p ≠ q) (htag : tag % w.size = p)
    (ty : OpType) {x y : Post} (hx : ((w.procs p).posts ty q tag)[k]? = some x)
    (hy : ((w.procs q).posts ty.flip p tag)[k]? = some y) : x.write = y.write := by
  have hxs : ((w.procs p).posts ty q tag).map (·.write) <+:
      ownWrites q tag ty (w.procs p).log ++ (w.procs p).user.pendingOwn p q tag ty := by
    rw [h.posts_own hpq htag]
    exact List.prefix_append _ _
  have hys : ((w.procs q).posts ty.flip p tag).map (·.write) <+:
      ownWrites q tag ty (w.procs p).log ++ (w.procs p).user.pendingOwn p q tag ty := by
    rw [h.posts_peer hpq htag, (h.ini p).aligned]
    exact ((h.link p q).posts.filterMap _).trans (List.prefix_append _ _)
  refine eq_of_common hxs hys (k := k) ?_ ?_
  · rw [List.getElem?_map, hx]
    rfl
  · rw [List.getElem?_map, hy]
    rfl

end World.Inv

/-- In every run, whatever plans the processes create, start and destroy and in
whatever order the steps are taken, a send from one process to another is
matched with the receive of the same write. -/
theorem matched_same_write {C : World → Act → Prop} {size : Nat}
    {flags : Nat → Nat → UruFlag} {w : World}
    (hrun : Run World.step C (World.init size flags) w) {p q tag : Nat}
    (hpq : p ≠ q) {s r : Post} (hmatched : w.Matched p q tag s r) : s.write = r.write := by
  have h := World.inv_run hrun
  obtain ⟨k, hs, hr⟩ := hmatched
  -- whose tag it is: that of the sender or that of the receiver
  have hlog : ∀ {i j : Nat} {x : Post} {ty : OpType}, x ∈ (w.procs i).posts ty j tag →
      tag % w.size = i ∨ tag % w.size = j := by
    intro i j x ty hx
    obtain ⟨hmem, hsel⟩ := List.mem_filter.mp hx
    obtain ⟨-, hrank, htag⟩ := of_decide_eq_true hsel
    cases hown : x.own with
    | true => exact .inl (htag ▸ ((h.ini i).own x hmem hown).2)
    | false =>
        obtain ⟨hinitiator, hmod⟩ := h.peer_post hmem hown
        exact .inr (by rw [← htag, hmod, ← hinitiator, hrank])
  rcases hlog (List.mem_of_getElem? hs) with htag | htag
  · exact h.same_write hpq htag .opSend hs hr
  · exact (h.same_write (Ne.symm hpq) htag .opRecv hr hs).symm

/-- Process 0 puts to process 1, which posts the receive when it has got the
message. -/
def putRun : List Act :=
  [.proc 0 (.beginCreate true [sampleWrite .dmaPut 0 1]), .proc 0 .userStep,
    .proc 0 .userStep, .proc 0 (.sortOps [(sampleWrite .dmaPut 0 1).recvOp freeOp 0 0 2]),
    .proc 0 .userStep, .proc 0 .userStep, .proc 1 (.recvCtrl 0), .proc 1 .daemonStep]

/-- Process 0 finds the put complete and puts once more. It draws the tag that
has been returned. -/
def putAgainRun : List Act :=
  putRun ++ [.proc 0 (.testSome [true, true]), .proc 0 .daemonStep, .proc 0 .daemonStep,
    .proc 0 .daemonStep, .proc 0 (.beginCreate true [sampleWrite .dmaPut 0 1]), .proc 0 .userStep,
    .proc 0 .userStep, .proc 0 (.sortOps [(sampleWrite .dmaPut 0 1).recvOp freeOp 1 0 2]),
    .proc 0 .userStep, .proc 0 .userStep, .proc 1 .daemonStep, .proc 1 (.recvCtrl 0),
    .proc 1 .daemonStep]

/-- The second of the two sends with this tag, and its receive. -/
theorem matched_same_write_put :
    (0 : Nat) ≠ 1 ∧
    (((World.after (fun _ _ => true) 2 putAgainRun).procs 0).posts .opSend 1 2).length = 2 ∧
    (World.after (fun _ _ => true) 2 putAgainRun).Matched 0 1 2
      ⟨.opSend, 1, 2, true, ⟨0, 1, 0, 0⟩⟩ ⟨.opRecv, 0, 2, false, ⟨0, 1, 0, 0⟩⟩ ∧
    (⟨0, 1, 0, 0⟩ : WriteId) = ⟨0, 1, 0, 0⟩ := by
  have hmatched : (World.after (fun _ _ => true) 2 putAgainRun).Matched 0 1 2
      ⟨.opSend, 1, 2, true, ⟨0, 1, 0, 0⟩⟩ ⟨.opRecv, 0, 2, false, ⟨0, 1, 0, 0⟩⟩ :=
    ⟨1, by decide +kernel, by decide +kernel⟩
  exact ⟨by decide, by decide +kernel, hmatched,
    matched_same_write (World.run_after (by decide +kernel)) (by decide) hmatched⟩

end Unr.Mpi
