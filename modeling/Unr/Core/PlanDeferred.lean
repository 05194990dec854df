import Unr.Core.PlanChecks

/-!
Plans whose creation is put off until they are started.

If the regions of a plan are not known yet, `unr_rdma_plan_create` copies the
arrays it was given and `unr_plan_start` calls it again with the copies. The
arrays are blocks of memory here and the arguments are pointers, so that what
the caller does to its own arrays in the meantime can be told apart from what
happens to the copies.
-/

namespace Unr.Core

open Unr.Uru

/-! ### Memory -/

/-- An allocated block: an array of one of the types that are passed. -/
inductive Block
  | blks (xs : List UnrBlk)
  | sigs (xs : List UnrSig)
  | sizes (xs : List Nat)
  | types (xs : List UruTransfer)
  deriving Repr, DecidableEq

namespace Block

def length : Block → Nat
  | .blks xs => xs.length
  | .sigs xs => xs.length
  | .sizes xs => xs.length
  | .types xs => xs.length

def take (n : Nat) : Block → Block
  | .blks xs => .blks (xs.take n)
  | .sigs xs => .sigs (xs.take n)
  | .sizes xs => .sizes (xs.take n)
  | .types xs => .types (xs.take n)

def blks? : Block → Option (List UnrBlk)
  | .blks xs => some xs
  | _ => none

def sigs? : Block → Option (List UnrSig)
  | .sigs xs => some xs
  | _ => none

def sizes? : Block → Option (List Nat)
  | .sizes xs => some xs
  | _ => none

def types? : Block → Option (List UruTransfer)
  | .types xs => some xs
  | _ => none

end Block

/-- The blocks that are allocated, by their addresses. Address 0 is the null
pointer. -/
abbrev Heap := Nat → Option Block

def dmaPutAllPtr : Nat := 3

def dmaGetAllPtr : Nat := 4

/-- `malloc`. It may fail; the addresses it returns are free, and beyond the
pointers with a special meaning. -/
structure Allocator where
  malloc : Heap → Option Nat
  fresh : ∀ heap p, malloc heap = some p → heap p = none ∧ dmaGetAllPtr < p

/-- `uru_malloc` and `memcpy` of the first `n` entries of an array. -/
def Heap.dup (alloc : Allocator) (heap : Heap) (p n : Nat) : Prog (Heap × Nat) :=
  match alloc.malloc heap with
  | none => .error (.exit .eventOverflow)  -- `exit(1)`
  | some q =>
      match heap p with
      | some block =>
          if n ≤ block.length then .ok (Function.update heap q (some (block.take n)), q)
          else .error .undefined
      | none => .error .undefined

/-- An array of at least `n` entries. -/
def Heap.load {α : Type} (view : Block → Option (List α)) (heap : Heap) (p n : Nat) :
    Prog (Fin n → α) :=
  match (heap p).bind view with
  | some xs =>
      if h : n ≤ xs.length then .ok fun i => xs.get (i.castLE h)
      else .error .undefined
  | none => .error .undefined

/-! ### The arguments -/

/-- The arguments of `unr_rdma_plan_create` that a plan keeps. -/
structure PlanArgs where
  once_now : Bool
  num_sends : Nat
  loc_blk_arr : Nat
  loc_sig_arr : Nat
  loc_offset_arr : Nat
  size_arr : Nat
  rmt_blk_arr : Nat
  rmt_sig_arr : Nat
  rmt_offset_arr : Nat
  dma_type_arr : Nat
  deriving Repr, DecidableEq

def Heap.loadOption {α : Type} (view : Block → Option (List α)) (heap : Heap) (p n : Nat) :
    Prog (Option (Fin n → α)) :=
  if p = 0 then .ok none else do
    let xs ← heap.load view p n
    return some xs

def Heap.loadTypes (heap : Heap) (p n : Nat) : Prog (DmaTypeArr n) :=
  if p = dmaPutAllPtr then .ok .dmaPutAll
  else if p = dmaGetAllPtr then .ok .dmaGetAll
  else do
    let types ← heap.load Block.types? p n
    return .each types

def PlanArgs.load (args : PlanArgs) (heap : Heap) : Prog PlanPara := do
  let loc_blk_arr ← heap.load Block.blks? args.loc_blk_arr args.num_sends
  let rmt_blk_arr ← heap.load Block.blks? args.rmt_blk_arr args.num_sends
  let loc_sig_arr ← heap.loadOption Block.sigs? args.loc_sig_arr args.num_sends
  let rmt_sig_arr ← heap.loadOption Block.sigs? args.rmt_sig_arr args.num_sends
  let loc_offset_arr ← heap.loadOption Block.sizes? args.loc_offset_arr args.num_sends
  let rmt_offset_arr ← heap.loadOption Block.sizes? args.rmt_offset_arr args.num_sends
  let size_arr ← heap.loadOption Block.sizes? args.size_arr args.num_sends
  let dma_type_arr ← heap.loadTypes args.dma_type_arr args.num_sends
  return {
    once_now := args.once_now
    num_sends := args.num_sends
    loc_blk_arr := loc_blk_arr
    loc_sig_arr := loc_sig_arr
    loc_offset_arr := loc_offset_arr
    size_arr := size_arr
    rmt_blk_arr := rmt_blk_arr
    rmt_sig_arr := rmt_sig_arr
    rmt_offset_arr := rmt_offset_arr
    dma_type_arr := dma_type_arr }

def Heap.dupOption (alloc : Allocator) (heap : Heap) (p n : Nat) : Prog (Heap × Nat) :=
  if p = 0 then .ok (heap, 0) else heap.dup alloc p n

/-- The copy of `dma_type_arr`, unless it is one of the two reserved pointers. -/
def Heap.dupTypes (alloc : Allocator) (heap : Heap) (p n : Nat) : Prog (Heap × Nat) :=
  if p = dmaPutAllPtr ∨ p = dmaGetAllPtr then .ok (heap, p) else heap.dup alloc p n

def PlanArgs.copy (args : PlanArgs) (alloc : Allocator) (heap : Heap) :
    Prog (Heap × PlanArgs) := do
  uruAssert (0 < args.num_sends)
  let (heap, loc_blk_arr) ← heap.dup alloc args.loc_blk_arr args.num_sends
  let (heap, rmt_blk_arr) ← heap.dup alloc args.rmt_blk_arr args.num_sends
  let (heap, loc_sig_arr) ← heap.dupOption alloc args.loc_sig_arr args.num_sends
  let (heap, rmt_sig_arr) ← heap.dupOption alloc args.rmt_sig_arr args.num_sends
  let (heap, loc_offset_arr) ← heap.dupOption alloc args.loc_offset_arr args.num_sends
  let (heap, rmt_offset_arr) ← heap.dupOption alloc args.rmt_offset_arr args.num_sends
  let (heap, size_arr) ← heap.dupOption alloc args.size_arr args.num_sends
  let (heap, dma_type_arr) ← heap.dupTypes alloc args.dma_type_arr args.num_sends
  return (heap, { args with
    loc_blk_arr := loc_blk_arr
    loc_sig_arr := loc_sig_arr
    loc_offset_arr := loc_offset_arr
    size_arr := size_arr
    rmt_blk_arr := rmt_blk_arr
    rmt_sig_arr := rmt_sig_arr
    rmt_offset_arr := rmt_offset_arr
    dma_type_arr := dma_type_arr })

def PlanArgs.arrays (args : PlanArgs) : List Nat :=
  [args.loc_blk_arr, args.rmt_blk_arr, args.loc_sig_arr, args.rmt_sig_arr, args.loc_offset_arr,
    args.rmt_offset_arr, args.size_arr, args.dma_type_arr].filter (dmaGetAllPtr < ·)

def PlanArgs.free (args : PlanArgs) (heap : Heap) : Heap :=
  args.arrays.foldl (fun heap p => Function.update heap p none) heap

/-! ### The two calls -/

/-- `unr_plan_t`. The entries of `uri_plan_h_arr` that are not null are given by
the arguments they were created with. -/
structure UnrPlanObj where
  status : Nat
  uri_plans : List UriPlanCreate
  para : Option PlanArgs
  deriving Repr, DecidableEq

section

variable (alloc : Allocator) (mpi : UruMpi) (ch : UnrChannels)

/-- `unr_rdma_plan_create` with `create_later = 0`. -/
def planCreateFirst (heap : Heap) (args : PlanArgs) : Prog (Heap × UnrPlanObj) := do
  let a ← args.load heap
  let mem_synced ← memSynced ch a
  if mem_synced then
    let uri_plans ← planNow mpi ch a
    return (heap, { status := 2, uri_plans := uri_plans, para := none })
  else
    if args.once_now then
      throw (.exit .errorExit)
    let (heap, para) ← args.copy alloc heap
    return (heap, { status := 1, uri_plans := [], para := some para })

/-- `unr_rdma_plan_create` with `create_later = 1`. The pointer to the
parameters stays behind. -/
def planCreateLater (heap : Heap) (plan : UnrPlanObj) : Prog (Heap × UnrPlanObj) :=
  match plan.para with
  | none => .error .undefined
  | some para => do
      let a ← para.load heap
      let uri_plans ← planNow mpi ch a
      return (para.free heap, { plan with status := 2, uri_plans := uri_plans })

/-- `unr_plan_start`. The last component lists the plans that are started. -/
def unrPlanStart (heap : Heap) (plan : UnrPlanObj) :
    Prog (Heap × UnrPlanObj × List UriPlanCreate) := do
  if plan.status ≠ 2 then
    uruAssert (plan.status = 1)
    let (heap, plan) ← planCreateLater mpi ch heap plan
    return (heap, plan, plan.uri_plans)
  else
    return (heap, plan, plan.uri_plans)

end

/-! ### Arrays and their copies -/

def Reads {α : Type} (view : Block → Option (List α)) : Prop :=
  ∀ block xs, view block = some xs →
    block.length = xs.length ∧ ∀ n, view (block.take n) = some (xs.take n)

theorem reads_blks : Reads Block.blks? := by
  rintro (xs | xs | xs | xs) ys h <;> cases h
  exact ⟨rfl, fun _ => rfl⟩

theorem reads_sigs : Reads Block.sigs? := by
  rintro (xs | xs | xs | xs) ys h <;> cases h
  exact ⟨rfl, fun _ => rfl⟩

theorem reads_sizes : Reads Block.sizes? := by
  rintro (xs | xs | xs | xs) ys h <;> cases h
  exact ⟨rfl, fun _ => rfl⟩

theorem reads_types : Reads Block.types? := by
  rintro (xs | xs | xs | xs) ys h <;> cases h
  exact ⟨rfl, fun _ => rfl⟩

def Heap.Extends (heap heap' : Heap) : Prop := ∀ p block, heap p = some block → heap' p = some block

theorem Heap.Extends.refl (heap : Heap) : heap.Extends heap := fun _ _ h => h

theorem Heap.Extends.trans {h₁ h₂ h₃ : Heap} (h : h₁.Extends h₂) (h' : h₂.Extends h₃) :
    h₁.Extends h₃ := fun p block hp => h' p block (h p block hp)

/-- `q` in `heap'` is what `p` was in `heap`: the same special pointer, or a
copy of the first `n` entries. -/
def Copied (special : Nat → Prop) (heap : Heap) (p : Nat) (heap' : Heap) (q n : Nat) : Prop :=
  (special p ∧ p = q) ∨
    (¬ special p ∧ dmaGetAllPtr < q ∧ ∃ block, heap p = some block ∧ n ≤ block.length ∧
      heap' q = some (block.take n))

/-- The pointers that stand for themselves: none for the blocks, the null
pointer for an array that may be missing, the reserved ones for the types. -/
def never (_ : Nat) : Prop := False

def isNull (p : Nat) : Prop := p = 0

def isReserved (p : Nat) : Prop := p = dmaPutAllPtr ∨ p = dmaGetAllPtr

section

variable {alloc : Allocator} {heap heap' heap'' : Heap} {p q n : Nat} {α : Type}
  {view : Block → Option (List α)}

theorem Heap.load_eq_ok {f : Fin n → α} (h : heap.load view p n = .ok f) :
    ∃ block xs, heap p = some block ∧ view block = some xs ∧
      ∃ hn : n ≤ xs.length, f = fun i => xs.get (i.castLE hn) := by
  unfold Heap.load at h
  cases hp : heap p with
  | none =>
      rw [hp] at h
      cases h
  | some block =>
      cases hview : view block with
      | none =>
          rw [hp, Option.bind_some, hview] at h
          cases h
      | some xs =>
          rw [hp, Option.bind_some, hview] at h
          dsimp only at h
          split at h
          · rename_i hn
            cases h
            exact ⟨block, xs, rfl, hview, hn, rfl⟩
          · cases h

theorem Heap.load_copied (hreads : Reads view) {f : Fin n → α}
    (hload : heap.load view p n = .ok f) {block : Block} (hp : heap p = some block)
    (hq : heap' q = some (block.take n)) : heap'.load view q n = .ok f := by
  obtain ⟨block', xs, hp', hview, hn, rfl⟩ := Heap.load_eq_ok hload
  cases hp.symm.trans hp'
  have htake := (hreads block xs hview).2 n
  have hlen : n ≤ (xs.take n).length := by rw [List.length_take]; omega
  unfold Heap.load
  rw [hq, Option.bind_some, htake]
  dsimp only
  rw [dif_pos hlen]
  congr 1
  funext i
  exact List.getElem_take

theorem Heap.dup_spec (h : heap.dup alloc p n = .ok (heap', q)) :
    heap.Extends heap' ∧ dmaGetAllPtr < q ∧ ∃ block, heap p = some block ∧ n ≤ block.length ∧
      heap' q = some (block.take n) := by
  unfold Heap.dup at h
  cases halloc : alloc.malloc heap with
  | none =>
      rw [halloc] at h
      cases h
  | some r =>
      obtain ⟨hfree, hlow⟩ := alloc.fresh heap r halloc
      cases hp : heap p with
      | none =>
          rw [halloc, hp] at h
          cases h
      | some block =>
          rw [halloc, hp] at h
          dsimp only at h
          split at h
          · rename_i hn
            cases h
            refine ⟨fun r block' hr => ?_, hlow, block, rfl, hn, Function.update_self _ _ _⟩
            rw [Function.update_of_ne, hr]
            rintro rfl
            rw [hfree] at hr
            cases hr
          · cases h

theorem Heap.copied_dup (h : heap.dup alloc p n = .ok (heap', q)) :
    heap.Extends heap' ∧ Copied never heap p heap' q n := by
  obtain ⟨hext, hcopy⟩ := Heap.dup_spec h
  exact ⟨hext, .inr ⟨id, hcopy⟩⟩

theorem Heap.copied_dupOption (h : heap.dupOption alloc p n = .ok (heap', q)) :
    heap.Extends heap' ∧ Copied isNull heap p heap' q n := by
  unfold Heap.dupOption at h
  split at h
  · rename_i hp
    cases h
    exact ⟨Heap.Extends.refl _, .inl ⟨hp, hp⟩⟩
  · rename_i hp
    obtain ⟨hext, hcopy⟩ := Heap.dup_spec h
    exact ⟨hext, .inr ⟨hp, hcopy⟩⟩

theorem Heap.copied_dupTypes (h : heap.dupTypes alloc p n = .ok (heap', q)) :
    heap.Extends heap' ∧ Copied isReserved heap p heap' q n := by
  unfold Heap.dupTypes at h
  split at h
  · rename_i hp
    cases h
    exact ⟨Heap.Extends.refl _, .inl ⟨hp, rfl⟩⟩
  · rename_i hp
    obtain ⟨hext, hcopy⟩ := Heap.dup_spec h
    exact ⟨hext, .inr ⟨hp, hcopy⟩⟩

/-- A copy made after some others is a copy of the original, and neither later
copies nor the caller change it. -/
theorem Copied.widen {special : Nat → Prop} {heap₀ : Heap} (h : Copied special heap p heap' q n)
    (hext : heap₀.Extends heap) (halive : ¬ special p → ∃ block, heap₀ p = some block)
    (hext' : heap'.Extends heap'') {final : Heap} (hkeep : dmaGetAllPtr < q → final q = heap'' q) :
    Copied special heap₀ p final q n := by
  rcases h with h | ⟨hp, hq, block, hblock, hn, hcopy⟩
  · exact .inl h
  · obtain ⟨block', hblock'⟩ := halive hp
    cases hblock.symm.trans (hext p block' hblock')
    exact .inr ⟨hp, hq, block, hblock', hn, by rw [hkeep hq, hext' q _ hcopy]⟩

theorem Heap.alive_of_load {f : Fin n → α} (h : heap.load view p n = .ok f) :
    ∃ block, heap p = some block := by
  obtain ⟨block, -, hp, -⟩ := Heap.load_eq_ok h
  exact ⟨block, hp⟩

theorem Heap.loadOption_of_ne {f : Option (Fin n → α)} (hp : ¬ isNull p) :
    heap.loadOption view p n = .ok f ↔ ∃ g, heap.load view p n = .ok g ∧ some g = f := by
  have hp' : ¬ p = 0 := hp
  simp only [Heap.loadOption, if_neg hp', bind_eq_ok, pure_eq_ok]

theorem Heap.loadTypes_of_ne {f : DmaTypeArr n} (hp : ¬ isReserved p) :
    heap.loadTypes p n = .ok f ↔ ∃ g, heap.load Block.types? p n = .ok g ∧ .each g = f := by
  have h₁ : ¬ p = dmaPutAllPtr := fun h => hp (.inl h)
  have h₂ : ¬ p = dmaGetAllPtr := fun h => hp (.inr h)
  simp only [Heap.loadTypes, if_neg h₁, if_neg h₂, bind_eq_ok, pure_eq_ok]

theorem Heap.alive_of_loadOption {f : Option (Fin n → α)}
    (h : heap.loadOption view p n = .ok f) (hp : ¬ isNull p) : ∃ block, heap p = some block := by
  obtain ⟨g, hg, -⟩ := (Heap.loadOption_of_ne hp).mp h
  exact Heap.alive_of_load hg

theorem Heap.alive_of_loadTypes {f : DmaTypeArr n} (h : heap.loadTypes p n = .ok f)
    (hp : ¬ isReserved p) : ∃ block, heap p = some block := by
  obtain ⟨g, hg, -⟩ := (Heap.loadTypes_of_ne hp).mp h
  exact Heap.alive_of_load hg

theorem Copied.load (hreads : Reads view) {f : Fin n → α} (hload : heap.load view p n = .ok f)
    (h : Copied never heap p heap' q n) : heap'.load view q n = .ok f := by
  rcases h with ⟨hfalse, -⟩ | ⟨-, -, block, hp, -, hcopy⟩
  · exact hfalse.elim
  · exact Heap.load_copied hreads hload hp hcopy

theorem Copied.loadOption (hreads : Reads view) {f : Option (Fin n → α)}
    (hload : heap.loadOption view p n = .ok f) (h : Copied isNull heap p heap' q n) :
    heap'.loadOption view q n = .ok f := by
  rcases h with ⟨hnull, rfl⟩ | ⟨hp, hq, block, hblock, -, hcopy⟩
  · obtain rfl : p = 0 := hnull
    exact hload
  · have hq' : ¬ isNull q := fun hnull : q = 0 => by
      rw [hnull] at hq
      exact Nat.not_lt_zero _ hq
    obtain ⟨g, hg, rfl⟩ := (Heap.loadOption_of_ne hp).mp hload
    exact (Heap.loadOption_of_ne hq').mpr ⟨g, Heap.load_copied hreads hg hblock hcopy, rfl⟩

theorem Copied.loadTypes {f : DmaTypeArr n} (hload : heap.loadTypes p n = .ok f)
    (h : Copied isReserved heap p heap' q n) : heap'.loadTypes q n = .ok f := by
  rcases h with ⟨hreserved, rfl⟩ | ⟨hp, hq, block, hblock, -, hcopy⟩
  · rcases hreserved with rfl | rfl <;> exact hload
  · have hq' : ¬ isReserved q := by
      rintro (rfl | rfl) <;> exact absurd hq (by decide)
    obtain ⟨g, hg, rfl⟩ := (Heap.loadTypes_of_ne hp).mp hload
    exact (Heap.loadTypes_of_ne hq').mpr ⟨g, Heap.load_copied reads_types hg hblock hcopy, rfl⟩

/-- The call returns, or memory is exhausted and the process ends with
`exit(1)`. -/
def Returns {β : Type} (x : Prog β) : Prop := (∃ r, x = .ok r) ∨ x = .error (.exit .eventOverflow)

theorem Returns.bind {β γ : Type} {x : Prog β} {f : β → Prog γ} (hx : Returns x)
    (hf : ∀ r, x = .ok r → Returns (f r)) : Returns (x >>= f) := by
  rcases hx with ⟨r, rfl⟩ | rfl
  · exact hf r rfl
  · exact .inr rfl

theorem Heap.dup_returns (hreads : Reads view) {f : Fin n → α}
    (hload : heap.load view p n = .ok f) (hext : heap.Extends heap') :
    Returns (heap'.dup alloc p n) := by
  obtain ⟨block, xs, hp, hview, hn, -⟩ := Heap.load_eq_ok hload
  have hlength := (hreads block xs hview).1
  unfold Heap.dup
  cases alloc.malloc heap' with
  | none => exact .inr rfl
  | some q =>
      rw [hext p block hp]
      dsimp only
      rw [if_pos (by omega)]
      exact .inl ⟨_, rfl⟩

theorem Heap.dupOption_returns (hreads : Reads view) {f : Option (Fin n → α)}
    (hload : heap.loadOption view p n = .ok f) (hext : heap.Extends heap') :
    Returns (heap'.dupOption alloc p n) := by
  unfold Heap.dupOption
  split
  · exact .inl ⟨_, rfl⟩
  · rename_i hp
    obtain ⟨g, hg, -⟩ := (Heap.loadOption_of_ne hp).mp hload
    exact Heap.dup_returns hreads hg hext

theorem Heap.dupTypes_returns {f : DmaTypeArr n} (hload : heap.loadTypes p n = .ok f)
    (hext : heap.Extends heap') : Returns (heap'.dupTypes alloc p n) := by
  unfold Heap.dupTypes
  split
  · exact .inl ⟨_, rfl⟩
  · rename_i hp
    obtain ⟨g, hg, -⟩ := (Heap.loadTypes_of_ne hp).mp hload
    exact Heap.dup_returns reads_types hg hext

end

/-! ### The parameters -/

theorem copy_returns {alloc : Allocator} {heap : Heap} {args : PlanArgs} {a : PlanPara}
    (hload : args.load heap = .ok a) (hnum : 0 < args.num_sends) :
    Returns (args.copy alloc heap) := by
  simp only [PlanArgs.load, bind_eq_ok, pure_eq_ok] at hload
  obtain ⟨loc_blk, hloc_blk, rmt_blk, hrmt_blk, loc_sig, hloc_sig, rmt_sig, hrmt_sig, loc_offset,
    hloc_offset, rmt_offset, hrmt_offset, size, hsize, types, htypes, -⟩ := hload
  rw [PlanArgs.copy, uruAssert_bind, if_pos hnum]
  refine (Heap.dup_returns reads_blks hloc_blk (Heap.Extends.refl heap)).bind ?_
  rintro ⟨h₁, q₁⟩ hq₁
  have e₁ := (Heap.copied_dup hq₁).1
  refine (Heap.dup_returns reads_blks hrmt_blk e₁).bind ?_
  rintro ⟨h₂, q₂⟩ hq₂
  have e₂ := e₁.trans (Heap.copied_dup hq₂).1
  refine (Heap.dupOption_returns reads_sigs hloc_sig e₂).bind ?_
  rintro ⟨h₃, q₃⟩ hq₃
  have e₃ := e₂.trans (Heap.copied_dupOption hq₃).1
  refine (Heap.dupOption_returns reads_sigs hrmt_sig e₃).bind ?_
  rintro ⟨h₄, q₄⟩ hq₄
  have e₄ := e₃.trans (Heap.copied_dupOption hq₄).1
  refine (Heap.dupOption_returns reads_sizes hloc_offset e₄).bind ?_
  rintro ⟨h₅, q₅⟩ hq₅
  have e₅ := e₄.trans (Heap.copied_dupOption hq₅).1
  refine (Heap.dupOption_returns reads_sizes hrmt_offset e₅).bind ?_
  rintro ⟨h₆, q₆⟩ hq₆
  have e₆ := e₅.trans (Heap.copied_dupOption hq₆).1
  refine (Heap.dupOption_returns reads_sizes hsize e₆).bind ?_
  rintro ⟨h₇, q₇⟩ hq₇
  have e₇ := e₆.trans (Heap.copied_dupOption hq₇).1
  refine (Heap.dupTypes_returns htypes e₇).bind ?_
  rintro ⟨h₈, q₈⟩ -
  exact .inl ⟨_, rfl⟩

/-- The copies hold what the arguments held, until the arrays that belong to
the plan are changed. -/
theorem load_copy {alloc : Allocator} {heap heap' : Heap} {args para : PlanArgs} {a : PlanPara}
    (hload : args.load heap = .ok a) (hcopy : args.copy alloc heap = .ok (heap', para))
    {final : Heap} (hkeep : ∀ p ∈ para.arrays, final p = heap' p) : para.load final = .ok a := by
  simp only [PlanArgs.load, bind_eq_ok, pure_eq_ok] at hload
  obtain ⟨loc_blk, hloc_blk, rmt_blk, hrmt_blk, loc_sig, hloc_sig, rmt_sig, hrmt_sig, loc_offset,
    hloc_offset, rmt_offset, hrmt_offset, size, hsize, types, htypes, rfl⟩ := hload
  simp only [PlanArgs.copy, bind_eq_ok, uruAssert_eq_ok, pure_eq_ok, Prod.exists] at hcopy
  obtain ⟨_, -, h₁, q₁, hq₁, h₂, q₂, hq₂, h₃, q₃, hq₃, h₄, q₄, hq₄, h₅, q₅, hq₅, h₆, q₆, hq₆,
    h₇, q₇, hq₇, h₈, q₈, hq₈, hfinal⟩ := hcopy
  cases hfinal
  obtain ⟨e₁, c₁⟩ := Heap.copied_dup hq₁
  obtain ⟨e₂, c₂⟩ := Heap.copied_dup hq₂
  obtain ⟨e₃, c₃⟩ := Heap.copied_dupOption hq₃
  obtain ⟨e₄, c₄⟩ := Heap.copied_dupOption hq₄
  obtain ⟨e₅, c₅⟩ := Heap.copied_dupOption hq₅
  obtain ⟨e₆, c₆⟩ := Heap.copied_dupOption hq₆
  obtain ⟨e₇, c₇⟩ := Heap.copied_dupOption hq₇
  obtain ⟨e₈, c₈⟩ := Heap.copied_dupTypes hq₈
  -- what precedes and what follows each copy
  have b₂ := e₁
  have b₃ := b₂.trans e₂
  have b₄ := b₃.trans e₃
  have b₅ := b₄.trans e₄
  have b₆ := b₅.trans e₅
  have b₇ := b₆.trans e₆
  have b₈ := b₇.trans e₇
  have a₇ := e₈
  have a₆ := e₇.trans a₇
  have a₅ := e₆.trans a₆
  have a₄ := e₅.trans a₅
  have a₃ := e₄.trans a₄
  have a₂ := e₃.trans a₃
  have a₁ := e₂.trans a₂
  have hown : ∀ q ∈ [q₁, q₂, q₃, q₄, q₅, q₆, q₇, q₈], dmaGetAllPtr < q → final q = heap' q := by
    intro q hq hlt
    exact hkeep q (List.mem_filter.mpr ⟨hq, by simpa using hlt⟩)
  simp only [PlanArgs.load, bind_eq_ok, pure_eq_ok]
  refine ⟨loc_blk, ?_, rmt_blk, ?_, loc_sig, ?_, rmt_sig, ?_, loc_offset, ?_, rmt_offset, ?_,
    size, ?_, types, ?_, rfl⟩
  · exact (c₁.widen (Heap.Extends.refl _) (fun _ => Heap.alive_of_load hloc_blk) a₁
      (hown q₁ (by simp))).load reads_blks hloc_blk
  · exact (c₂.widen b₂ (fun _ => Heap.alive_of_load hrmt_blk) a₂
      (hown q₂ (by simp))).load reads_blks hrmt_blk
  · exact (c₃.widen b₃ (Heap.alive_of_loadOption hloc_sig) a₃
      (hown q₃ (by simp))).loadOption reads_sigs hloc_sig
  · exact (c₄.widen b₄ (Heap.alive_of_loadOption hrmt_sig) a₄
      (hown q₄ (by simp))).loadOption reads_sigs hrmt_sig
  · exact (c₅.widen b₅ (Heap.alive_of_loadOption hloc_offset) a₅
      (hown q₅ (by simp))).loadOption reads_sizes hloc_offset
  · exact (c₆.widen b₆ (Heap.alive_of_loadOption hrmt_offset) a₆
      (hown q₆ (by simp))).loadOption reads_sizes hrmt_offset
  · exact (c₇.widen b₇ (Heap.alive_of_loadOption hsize) a₇
      (hown q₇ (by simp))).loadOption reads_sizes hsize
  · exact (c₈.widen b₈ (Heap.alive_of_loadTypes htypes) (Heap.Extends.refl _)
      (hown q₈ (by simp))).loadTypes htypes

/-! ### Creation, change of memory, start -/

/-- The remote region of send `i` is not known yet. -/
def Unsynced (ch : UnrChannels) (a : PlanPara) (i : Fin a.num_sends) : Prop :=
  ((ch.rmt_mem_arr.getD (a.rmt_blk_arr i).dst_rank.toNat []).length : ℤ) ≤
    (a.rmt_blk_arr i).mem_idx

/-- What the plan does when it is started with memory in the state `heap` and
the regions in the state `ch`. -/
structure StartsAs (mpi : UruMpi) (ch : UnrChannels) (heap : Heap) (plan : UnrPlanObj)
    (a : PlanPara) : Prop where
  /-- A start before the regions are known does not return. -/
  early : ∀ i, a.size i ≠ 0 → Unsynced ch a i → ∀ result, unrPlanStart mpi ch heap plan ≠ .ok result
  /-- A start that returns has built and started the whole plan, and no later
  start builds it again. -/
  whole : ∀ heap' plan' started, unrPlanStart mpi ch heap plan = .ok (heap', plan', started) →
    plan'.status = 2 ∧ planNow mpi ch a = .ok plan'.uri_plans ∧ started = plan'.uri_plans ∧
      ∀ ch' heap'', unrPlanStart mpi ch' heap'' plan' = .ok (heap'', plan', plan'.uri_plans)

theorem unrPlanStart_created {mpi : UruMpi} {ch : UnrChannels} {heap : Heap} {plan : UnrPlanObj}
    (hstatus : plan.status = 2) :
    unrPlanStart mpi ch heap plan = .ok (heap, plan, plan.uri_plans) := by
  rw [unrPlanStart, if_neg (not_not.mpr hstatus)]
  rfl

theorem unrPlanStart_deferred {mpi : UruMpi} {ch : UnrChannels} {heap : Heap} {para : PlanArgs}
    {a : PlanPara} (hload : para.load heap = .ok a) :
    unrPlanStart mpi ch heap { status := 1, uri_plans := [], para := some para } =
      (planNow mpi ch a).map fun uri_plans =>
        (para.free heap,
         { status := 2, uri_plans := uri_plans, para := some para }, uri_plans) := by
  have hne : (1 : Nat) ≠ 2 := by decide
  simp only [unrPlanStart, if_pos hne, uruAssert_bind, if_true, planCreateLater, hload, ok_bind]
  cases planNow mpi ch a with
  | error stop => rfl
  | ok uri_plans => rfl

theorem startsAs_deferred {mpi : UruMpi} {ch : UnrChannels} {heap : Heap} {para : PlanArgs}
    {a : PlanPara} (hload : para.load heap = .ok a) :
    StartsAs mpi ch heap { status := 1, uri_plans := [], para := some para } a where
  early := by
    intro i hsize hunsynced result hresult
    rw [unrPlanStart_deferred hload] at hresult
    cases hnow : planNow mpi ch a with
    | error stop =>
        rw [hnow] at hresult
        cases hresult
    | ok uri_plans =>
        have hknown := (sendPasses_of_planNow hnow i hsize).rmt_mem.2
        exact absurd hknown (not_lt.mpr hunsynced)
  whole := by
    intro heap' plan' started hstart
    rw [unrPlanStart_deferred hload] at hstart
    cases hnow : planNow mpi ch a with
    | error stop =>
        rw [hnow] at hstart
        cases hstart
    | ok uri_plans =>
        rw [hnow] at hstart
        cases hstart
        exact ⟨rfl, rfl, rfl, fun _ _ => unrPlanStart_created rfl⟩

theorem num_sends_of_load {heap : Heap} {args : PlanArgs} {a : PlanPara}
    (hload : args.load heap = .ok a) : a.num_sends = args.num_sends := by
  simp only [PlanArgs.load, bind_eq_ok, pure_eq_ok] at hload
  obtain ⟨_, -, _, -, _, -, _, -, _, -, _, -, _, -, _, -, rfl⟩ := hload
  rfl

theorem num_sends_pos_of_memSynced {ch : UnrChannels} {a : PlanPara}
    (h : memSynced ch a = .ok false) : 0 < a.num_sends := by
  by_contra hnone
  have hzero : List.finRange a.num_sends = [] := by
    rw [← List.length_eq_zero_iff, List.length_finRange]
    omega
  rw [memSynced, hzero] at h
  cases h

/-- A plan that is put off is created unless memory is exhausted, and becomes,
whatever happens to the arrays of the caller, the plan that an immediate call
would create at the time of its start. -/
theorem deferred_plan_exact {alloc : Allocator} {mpi : UruMpi} {ch : UnrChannels} {heap : Heap}
    {args : PlanArgs} {a : PlanPara} (hload : args.load heap = .ok a)
    (honce : args.once_now = false) (hunsynced : memSynced ch a = .ok false) :
    Returns (planCreateFirst alloc mpi ch heap args) ∧
      ∀ heap' plan, planCreateFirst alloc mpi ch heap args = .ok (heap', plan) →
        plan.status = 1 ∧ ∃ para, plan.para = some para ∧
          ∀ later, (∀ p ∈ para.arrays, later p = heap' p) → ∀ ch',
            StartsAs mpi ch' later plan a ∧
            (memSynced ch' a = .ok true →
              (unrPlanStart mpi ch' later plan).map (fun r => (r.2.1.status, r.2.1.uri_plans)) =
                (planCreateFirst alloc mpi ch' heap args).map fun r =>
                  (r.2.status, r.2.uri_plans)) := by
  have hfirst : planCreateFirst alloc mpi ch heap args = args.copy alloc heap >>= fun r =>
      .ok (r.1, { status := 1, uri_plans := [], para := some r.2 }) := by
    simp only [planCreateFirst, hload, hunsynced, honce, ok_bind, Bool.false_eq_true, if_false]
    rfl
  constructor
  · rw [hfirst]
    have hnum := num_sends_pos_of_memSynced hunsynced
    rw [num_sends_of_load hload] at hnum
    exact (copy_returns hload hnum).bind fun r _ => .inl ⟨_, rfl⟩
  · intro heap' plan hcreate
    rw [hfirst] at hcreate
    obtain ⟨⟨heap₁, para⟩, hcopy, heq⟩ := bind_eq_ok.mp hcreate
    cases heq
    refine ⟨rfl, para, rfl, fun later hkeep ch' => ?_⟩
    have hpara := load_copy hload hcopy hkeep
    refine ⟨startsAs_deferred hpara, fun hsynced => ?_⟩
    rw [unrPlanStart_deferred hpara]
    simp only [planCreateFirst, hload, hsynced, ok_bind, if_true]
    cases planNow mpi ch' a with
    | error stop => rfl
    | ok uri_plans => rfl

/-- The allocator that takes the first free address below 100. -/
def firstFree : Allocator where
  malloc := fun heap => (List.range 100).find? fun p => (heap p).isNone && decide (dmaGetAllPtr < p)
  fresh := by
    intro heap p h
    simpa using List.find?_some h

/-- A put and a get, each with its own direction, no signals and no offsets on
the remote side. -/
def callerHeap : Heap := fun p =>
  if p = 10 then some (.blks [⟨0, 0, 0, 8192, none, none⟩, ⟨0, 0, 0, 8192, none, none⟩])
  else if p = 20 then some (.blks [⟨1, 0, 0, 8192, none, none⟩, ⟨1, 0, 0, 8192, none, none⟩])
  else if p = 30 then some (.sizes [0, 4096])
  else if p = 40 then some (.sizes [100, 5000])
  else if p = 50 then some (.types [.dmaPut, .dmaGet])
  else none

def callerArgs : PlanArgs where
  once_now := false
  num_sends := 2
  loc_blk_arr := 10
  loc_sig_arr := 0
  loc_offset_arr := 30
  size_arr := 40
  rmt_blk_arr := 20
  rmt_sig_arr := 0
  rmt_offset_arr := 0
  dma_type_arr := 50

theorem deferred_plan_exact_two_sends :
    ∃ heap plan para, planCreateFirst firstFree rankZero (channelsWith []) callerHeap callerArgs =
        .ok (heap, plan) ∧ plan.para = some para ∧
      (unrPlanStart rankZero (channelsWith [region 1])
          (fun p => if p ∈ para.arrays then heap p else none) plan).map
          (fun r => (r.2.1.status, r.2.1.uri_plans)) =
        (planCreateFirst firstFree rankZero (channelsWith [region 1]) callerHeap callerArgs).map
          fun r => (r.2.status, r.2.uri_plans) := by
  have hload : callerArgs.load callerHeap = .ok _ := rfl
  have hcreate : planCreateFirst firstFree rankZero (channelsWith []) callerHeap callerArgs =
      .ok _ := rfl
  obtain ⟨-, hdeferred⟩ :=
    @deferred_plan_exact firstFree rankZero (channelsWith []) _ _ _ hload rfl rfl
  obtain ⟨-, para, hpara, hstart⟩ := hdeferred _ _ hcreate
  exact ⟨_, _, para, hcreate, hpara,
    (hstart (fun p => if p ∈ para.arrays then _ else none) (fun p hp => if_pos hp)
      (channelsWith [region 1])).2 rfl⟩

end Unr.Core
