import Unr.Mpi.History

/-!
What a process posts itself for a plan.

A plan that is used once is begun when it is created, any other plan whenever
it is started. Until the call returns, the positions that are posted and those
that it has still to post are all positions of the plan, in order; afterwards
all of them are posted.
-/

namespace Unr.Mpi

open Unr.Uru Unr.Logic

def ownIndices (plan start : Nat) (evs : List Event) : List Nat :=
  (evs.filterMap Event.posting).filterMap fun x =>
    if x.own = true ∧ x.write.plan = plan ∧ x.write.start = start then some x.write.index else none

def UserPhase.toIssue (plan start : Nat) : UserPhase → List Nat
  | creating true plan' rest _ send_ops _ _ =>
      if plan' = plan ∧ 0 = start then List.range' send_ops.length rest.length else []
  | starting p start' _ ops _ =>
      if p.plan = plan ∧ start' = start then ops.map (·.index) else []
  | _ => []

def Begun (evs : List Event) (plan start : Nat) (writes : List Write) : Prop :=
  (.created plan true writes ∈ evs ∧ start = 0) ∨
    (.created plan false writes ∈ evs ∧ .started plan start ∈ evs)

/-- The call that a process is in, as its events tell. -/
def UserPhase.Recalls (evs : List Event) (plans : List Plan) : UserPhase → Prop
  | creating once_now plan rest _ send_ops _ _ =>
      (∃ writes, .created plan once_now writes ∈ evs ∧
        send_ops.length + rest.length = writes.length ∧ writes.drop send_ops.length = rest) ∧
      (∀ p ∈ plans, p.plan ≠ plan) ∧ .destroyed plan ∉ evs
  | announcing once_now plan send_ops _ _ _ =>
      (∃ writes, .created plan once_now writes ∈ evs ∧
        send_ops.map (·.index) = List.range writes.length) ∧
      (∀ p ∈ plans, p.plan ≠ plan) ∧ .destroyed plan ∉ evs
  | starting p start _ _ _ => .started p.plan start ∈ evs
  | _ => True

/-- The invariant of a process and its events. -/
structure Issued (evs : List Event) (proc : Proc) : Prop where
  created_lt : ∀ plan once_now writes, .created plan once_now writes ∈ evs → plan < proc.next_plan
  /-- A plan is created once. -/
  created_unique : ∀ plan once_now writes once_now' writes', .created plan once_now writes ∈ evs →
    .created plan once_now' writes' ∈ evs → once_now = once_now' ∧ writes = writes'
  next_pos : proc.next_start ≠ 0
  started_lt : ∀ plan start, .started plan start ∈ evs →
    start ≠ 0 ∧ start < proc.next_start ∧ plan < proc.next_plan
  posted_lt : ∀ x ∈ evs.filterMap Event.posting, x.own = true →
    x.write.start < proc.next_start ∧ (x.write.start = 0 → x.write.plan < proc.next_plan)
  /-- What is posted and what is still to be posted are all writes. -/
  issued : ∀ plan start writes, Begun evs plan start writes →
    ownIndices plan start evs ++ proc.user.toIssue plan start = List.range writes.length
  plans : ∀ p ∈ proc.plans, ∃ writes, .created p.plan false writes ∈ evs ∧
    p.send_batch.map (·.index) = List.range writes.length
  numbers : (proc.plans.map (·.plan)).Nodup
  destroyed : ∀ plan, .destroyed plan ∈ evs →
    plan < proc.next_plan ∧ ∀ p ∈ proc.plans, p.plan ≠ plan
  user : proc.user.Recalls evs proc.plans

def Event.Minor : Event → Prop
  | posted _ | applied _ => True
  | _ => False

section Events

variable {plan start : Nat} {evs new : List Event}

@[simp] theorem ownIndices_append :
    ownIndices plan start (evs ++ new) =
      ownIndices plan start evs ++ ownIndices plan start new := by
  simp [ownIndices]

theorem mem_append_minor (evs : List Event) (h : ∀ e ∈ new, e.Minor) :
    (∀ plan once_now writes, Event.created plan once_now writes ∈ evs ++ new ↔
      .created plan once_now writes ∈ evs) ∧
    (∀ plan start, Event.started plan start ∈ evs ++ new ↔ .started plan start ∈ evs) ∧
    ∀ plan, Event.destroyed plan ∈ evs ++ new ↔ .destroyed plan ∈ evs := by
  have hmem : ∀ {e : Event}, ¬ e.Minor → (e ∈ evs ++ new ↔ e ∈ evs) := fun he =>
    List.mem_append.trans ⟨fun hmem => hmem.resolve_right fun hnew => he (h _ hnew), .inl⟩
  exact ⟨fun _ _ _ => hmem id, fun _ _ => hmem id, fun _ => hmem id⟩

end Events

namespace Issued

variable {w : World} {rank : Nat} {evs new : List Event} {proc proc' : Proc}

theorem init (flags : Nat → UruFlag) : Issued [] (.init flags) where
  created_lt := nofun
  created_unique := nofun
  next_pos := Nat.one_ne_zero
  started_lt := nofun
  posted_lt := nofun
  issued _ _ _ h := by rcases h with ⟨h, -⟩ | ⟨h, -⟩ <;> exact nomatch h
  plans := nofun
  numbers := List.nodup_nil
  destroyed := nofun
  user := trivial

/-- A step that begins nothing and keeps the plans. -/
theorem proceed (h : Issued evs proc) (hnew : ∀ e ∈ new, e.Minor)
    (hplan : proc'.next_plan = proc.next_plan) (hstart : proc'.next_start = proc.next_start)
    (hplans : proc'.plans = proc.plans)
    (hposted : ∀ x ∈ new.filterMap Event.posting, x.own = true →
      x.write.start < proc.next_start ∧ (x.write.start = 0 → x.write.plan < proc.next_plan))
    (hissue : ∀ plan start, proc.user.toIssue plan start =
      ownIndices plan start new ++ proc'.user.toIssue plan start)
    (huser : proc'.user.Recalls (evs ++ new) proc.plans) : Issued (evs ++ new) proc' := by
  obtain ⟨hcreated, hstarted, hdestroyed⟩ := mem_append_minor evs hnew
  constructor
  · simpa only [hcreated, hplan] using h.created_lt
  · simpa only [hcreated] using h.created_unique
  · exact hstart ▸ h.next_pos
  · simpa only [hstarted, hplan, hstart] using h.started_lt
  · intro x hx hown
    rw [List.filterMap_append] at hx
    rw [hplan, hstart]
    exact (List.mem_append.mp hx).elim (h.posted_lt x · hown) (hposted x · hown)
  · intro plan start writes hbegun
    simp only [Begun, hcreated, hstarted] at hbegun
    rw [ownIndices_append, List.append_assoc, ← hissue]
    exact h.issued plan start writes hbegun
  · simpa only [hcreated, hplans] using h.plans
  · exact hplans ▸ h.numbers
  · simpa only [hdestroyed, hplan, hplans] using h.destroyed
  · exact hplans.symm ▸ huser

/-- The call on plans that a process is in stays as it was where the step adds
minor events. -/
theorem recalls (h : Issued evs proc) (hnew : ∀ e ∈ new, e.Minor) :
    proc.user.Recalls (evs ++ new) proc.plans := by
  have huser := h.user
  obtain ⟨hcreated, hstarted, hdestroyed⟩ := mem_append_minor evs hnew
  match hphase : proc.user with
  | .creating once_now plan rest tag send_ops recv_ops mpi_op =>
      rw [hphase] at huser
      simpa only [UserPhase.Recalls, hcreated, hdestroyed] using huser
  | .announcing once_now plan send_ops groups recv_batch mpi_op =>
      rw [hphase] at huser
      simpa only [UserPhase.Recalls, hcreated, hdestroyed] using huser
  | .starting p start batches ops mpi_op =>
      rw [hphase] at huser
      exact (hstarted _ _).mpr huser
  | .idle | .destroying .. | .finalizing | .reducing _ | .calling .. | .closed => exact trivial

theorem beginCreate (h : Issued evs proc) (huser : proc.user = .idle) (once_now : Bool)
    (writes : List Write) :
    Issued (evs ++ [.created proc.next_plan once_now writes]) { proc with
      next_plan := proc.next_plan + 1
      user := .creating once_now proc.next_plan writes none [] [] [] } := by
  -- the number is above those of all plans before
  have hfresh : ∀ b ws, .created proc.next_plan b ws ∉ evs := fun b ws hmem =>
    absurd (h.created_lt _ b ws hmem) (Nat.lt_irrefl _)
  have hplans : ∀ p ∈ proc.plans, p.plan ≠ proc.next_plan := by
    intro p hp heq
    obtain ⟨ws, hmem, -⟩ := h.plans p hp
    exact hfresh false ws (heq ▸ hmem)
  have hnone : ∀ plan start, proc.user.toIssue plan start = [] := by
    intro plan start
    rw [huser]
    rfl
  constructor
  · intro plan b ws hmem
    rcases List.mem_append.mp hmem with hmem | hmem
    · exact Nat.lt_succ_of_lt (h.created_lt plan b ws hmem)
    · cases List.mem_singleton.mp hmem
      exact Nat.lt_succ_self _
  · intro plan b ws b' ws' hmem hmem'
    rcases List.mem_append.mp hmem with hmem | hmem <;>
      rcases List.mem_append.mp hmem' with hmem' | hmem'
    · exact h.created_unique plan b ws b' ws' hmem hmem'
    · cases List.mem_singleton.mp hmem'
      exact absurd hmem (hfresh b ws)
    · cases List.mem_singleton.mp hmem
      exact absurd hmem' (hfresh b' ws')
    · cases List.mem_singleton.mp hmem
      cases List.mem_singleton.mp hmem'
      exact ⟨rfl, rfl⟩
  · exact h.next_pos
  · intro plan start hmem
    obtain ⟨hpos, hlt, hplan⟩ := h.started_lt plan start (by simpa using hmem)
    exact ⟨hpos, hlt, Nat.lt_succ_of_lt hplan⟩
  · intro x hx hown
    obtain ⟨hlt, hplan⟩ := h.posted_lt x (by simpa [Event.posting] using hx) hown
    exact ⟨hlt, fun hzero => Nat.lt_succ_of_lt (hplan hzero)⟩
  · intro plan start ws hbegun
    rw [ownIndices_append, show ownIndices plan start [.created proc.next_plan once_now writes] = []
      from rfl, List.append_nil]
    -- for any other plan there is nothing to issue, before and now
    have hold : Begun evs plan start ws → ownIndices plan start evs ++
        UserPhase.toIssue plan start (.creating once_now proc.next_plan writes none [] [] []) =
          List.range ws.length := by
      intro hbegun
      have hplan : proc.next_plan ≠ plan := by
        rintro rfl
        rcases hbegun with ⟨hmem, -⟩ | ⟨hmem, -⟩ <;> exact hfresh _ _ hmem
      have hissued := h.issued plan start ws hbegun
      rw [hnone] at hissued
      cases once_now <;> simpa [UserPhase.toIssue, hplan] using hissued
    rcases hbegun with ⟨hmem, hzero⟩ | ⟨hmem, hstart⟩
    · rcases List.mem_append.mp hmem with hmem | hmem
      · exact hold (.inl ⟨hmem, hzero⟩)
      · cases List.mem_singleton.mp hmem
        subst hzero
        -- nothing has been posted under the new number
        have hempty : ownIndices proc.next_plan 0 evs = [] := by
          refine List.filterMap_eq_nil_iff.mpr fun x hx => if_neg fun hown => ?_
          exact absurd (hown.2.1 ▸ (h.posted_lt x hx hown.1).2 hown.2.2) (Nat.lt_irrefl _)
        simp [hempty, UserPhase.toIssue, List.range_eq_range']
    · have hlt := (h.started_lt plan start (by simpa using hstart)).2.2
      rcases List.mem_append.mp hmem with hmem | hmem
      · exact hold (.inr ⟨hmem, by simpa using hstart⟩)
      · cases List.mem_singleton.mp hmem
        exact absurd hlt (Nat.lt_irrefl _)
  · intro p hp
    obtain ⟨ws, hmem, hindex⟩ := h.plans p hp
    exact ⟨ws, List.mem_append_left _ hmem, hindex⟩
  · exact h.numbers
  · intro plan hmem
    obtain ⟨hlt, hgone⟩ := h.destroyed plan (by simpa using hmem)
    exact ⟨Nat.lt_succ_of_lt hlt, hgone⟩
  · refine ⟨⟨writes, by simp, by simp⟩, hplans, fun hmem => ?_⟩
    exact absurd (h.destroyed _ (by simpa using hmem)).1 (Nat.lt_irrefl _)

theorem beginStart (h : Issued evs proc) (huser : proc.user = .idle) {p : Plan}
    (hp : p ∈ proc.plans) :
    Issued (evs ++ [.started p.plan proc.next_start]) { proc with
      next_start := proc.next_start + 1
      user := .starting p proc.next_start p.recv_batch p.send_batch [] } := by
  obtain ⟨writes, hcreated, hindex⟩ := h.plans p hp
  have hnone : ∀ plan start, proc.user.toIssue plan start = [] := by
    intro plan start
    rw [huser]
    rfl
  constructor
  · intro plan b ws hmem
    exact h.created_lt plan b ws (by simpa using hmem)
  · intro plan b ws b' ws' hmem hmem'
    exact h.created_unique plan b ws b' ws' (by simpa using hmem) (by simpa using hmem')
  · exact Nat.succ_ne_zero _
  · intro plan start hmem
    rcases List.mem_append.mp hmem with hmem | hmem
    · obtain ⟨hpos, hlt, hplan⟩ := h.started_lt plan start hmem
      exact ⟨hpos, Nat.lt_succ_of_lt hlt, hplan⟩
    · cases List.mem_singleton.mp hmem
      exact ⟨h.next_pos, Nat.lt_succ_self _, h.created_lt _ _ _ hcreated⟩
  · intro x hx hown
    obtain ⟨hlt, hplan⟩ := h.posted_lt x (by simpa [Event.posting] using hx) hown
    exact ⟨Nat.lt_succ_of_lt hlt, hplan⟩
  · intro plan start ws hbegun
    rw [ownIndices_append, show ownIndices plan start [.started p.plan proc.next_start] = []
      from rfl, List.append_nil]
    -- for an earlier start there is nothing to issue, before and now
    have hold : start < proc.next_start → Begun evs plan start ws →
        ownIndices plan start evs ++ UserPhase.toIssue plan start
          (.starting p proc.next_start p.recv_batch p.send_batch []) = List.range ws.length := by
      intro hlt hbegun
      have hissued := h.issued plan start ws hbegun
      rw [hnone] at hissued
      simpa [UserPhase.toIssue, Nat.ne_of_gt hlt] using hissued
    rcases hbegun with ⟨hmem, hzero⟩ | ⟨hmem, hstart⟩
    · subst hzero
      exact hold (Nat.pos_of_ne_zero h.next_pos) (.inl ⟨by simpa using hmem, rfl⟩)
    · have hmem : .created plan false ws ∈ evs := by simpa using hmem
      rcases List.mem_append.mp hstart with hstart | hstart
      · exact hold (h.started_lt _ _ hstart).2.1 (.inr ⟨hmem, hstart⟩)
      · cases List.mem_singleton.mp hstart
        -- nothing has been posted under the new number
        have hempty : ownIndices p.plan proc.next_start evs = [] := by
          refine List.filterMap_eq_nil_iff.mpr fun x hx => if_neg fun hown => ?_
          exact absurd (hown.2.2 ▸ (h.posted_lt x hx hown.1).1) (Nat.lt_irrefl _)
        obtain ⟨-, rfl⟩ := h.created_unique _ _ _ _ _ hmem hcreated
        simp [hempty, UserPhase.toIssue, hindex]
  · intro p hp
    obtain ⟨ws, hmem, hindex⟩ := h.plans p hp
    exact ⟨ws, List.mem_append_left _ hmem, hindex⟩
  · exact h.numbers
  · intro plan hmem
    exact h.destroyed plan (by simpa using hmem)
  · exact List.mem_append_right _ (List.mem_singleton_self _)

theorem beginDestroy (h : Issued evs proc) (huser : proc.user = .idle) {p : Plan}
    (hp : p ∈ proc.plans) :
    Issued (evs ++ [.destroyed p.plan]) { proc with
      plans := proc.plans.erase p
      user := .destroying p p.send_batch p.recv_batch [] } := by
  obtain ⟨writes, hcreated, -⟩ := h.plans p hp
  have hnone : ∀ plan start, proc.user.toIssue plan start = [] := by
    intro plan start
    rw [huser]
    rfl
  constructor
  · intro plan b ws hmem
    exact h.created_lt plan b ws (by simpa using hmem)
  · intro plan b ws b' ws' hmem hmem'
    exact h.created_unique plan b ws b' ws' (by simpa using hmem) (by simpa using hmem')
  · exact h.next_pos
  · intro plan start hmem
    exact h.started_lt plan start (by simpa using hmem)
  · intro x hx hown
    exact h.posted_lt x (by simpa [Event.posting] using hx) hown
  · intro plan start ws hbegun
    rw [ownIndices_append, show ownIndices plan start [.destroyed p.plan] = [] from rfl,
      List.append_nil]
    have hissued := h.issued plan start ws (by simpa [Begun] using hbegun)
    rwa [hnone] at hissued
  · intro q hq
    obtain ⟨ws, hmem, hindex⟩ := h.plans q (List.mem_of_mem_erase hq)
    exact ⟨ws, List.mem_append_left _ hmem, hindex⟩
  · exact h.numbers.sublist ((List.erase_sublist).map _)
  · intro plan hmem
    rcases List.mem_append.mp hmem with hmem | hmem
    · obtain ⟨hlt, hgone⟩ := h.destroyed plan hmem
      exact ⟨hlt, fun q hq => hgone q (List.mem_of_mem_erase hq)⟩
    · cases List.mem_singleton.mp hmem
      refine ⟨h.created_lt _ _ _ hcreated, fun q hq heq => ?_⟩
      have hnumbers := ((List.perm_cons_erase hp).map (·.plan)).nodup_iff.mp h.numbers
      exact (List.nodup_cons.mp hnumbers).1 (List.mem_map.mpr ⟨q, hq, heq⟩)
  · exact trivial

theorem writeOnce (h : Issued evs proc) {plan tag : Nat} {wr : Write} {rest : List Write}
    {send_ops recv_ops : List MpiOp} {mpi_op : List Entry}
    (huser : proc.user = .creating true plan (wr :: rest) (some tag) send_ops recv_ops mpi_op)
    {op op' : MpiOp} {recv_ops' : List MpiOp} {mpi_op' : List Entry}
    (hproc : proc'.next_plan = proc.next_plan ∧ proc'.next_start = proc.next_start ∧
      proc'.plans = proc.plans)
    (huser' : proc'.user = .creating true plan rest none (send_ops ++ [op']) recv_ops' mpi_op') :
    Issued (evs ++ [.posted ⟨true, op, ⟨rank, plan, 0, send_ops.length⟩⟩]) proc' := by
  have hphase := h.user
  rw [huser] at hphase
  obtain ⟨⟨writes, hmem, hlength, hdrop⟩, hplans, hgone⟩ := hphase
  refine h.proceed (by simp [Event.Minor]) hproc.1 hproc.2.1 hproc.2.2 ?_ ?_ ?_
  · intro x hx hown
    obtain rfl : x = ⟨true, op, ⟨rank, plan, 0, send_ops.length⟩⟩ := by
      simpa [Event.posting] using hx
    exact ⟨Nat.pos_of_ne_zero h.next_pos, fun _ => h.created_lt _ _ _ hmem⟩
  · intro plan' start
    rw [huser, huser']
    by_cases hthis : plan = plan' ∧ 0 = start <;>
      simp [UserPhase.toIssue, ownIndices, Event.posting, hthis, List.range'_succ]
  · rw [huser']
    refine ⟨⟨writes, by simpa using hmem, ?_, ?_⟩, hplans, by simpa using hgone⟩
    · rw [List.length_append, List.length_singleton, ← hlength, List.length_cons]
      omega
    · rw [List.length_append, List.length_singleton, ← List.drop_drop, hdrop]
      rfl

theorem finishCreate (h : Issued evs proc) {once_now : Bool} {plan : Nat} {send_ops : List MpiOp}
    {recv_batch : List RecvBatch} {mpi_op : List Entry}
    (huser : proc.user = .announcing once_now plan send_ops [] recv_batch mpi_op) :
    Issued evs (proc.finishCreate once_now plan send_ops recv_batch mpi_op) := by
  have hphase := h.user
  have hissued := h.issued
  rw [huser] at hphase hissued
  obtain ⟨⟨writes, hmem, hindex⟩, hplans, hgone⟩ := hphase
  cases once_now with
  | true =>
      exact ⟨h.created_lt, h.created_unique, h.next_pos, h.started_lt, h.posted_lt, hissued,
        h.plans, h.numbers, h.destroyed, trivial⟩
  | false =>
      refine ⟨h.created_lt, h.created_unique, h.next_pos, h.started_lt, h.posted_lt, hissued,
        ?_, ?_, ?_, trivial⟩
      · intro p hp
        rcases List.mem_cons.mp hp with rfl | hp
        · exact ⟨writes, hmem, hindex⟩
        · exact h.plans p hp
      · refine List.nodup_cons.mpr ⟨fun hp => ?_, h.numbers⟩
        obtain ⟨q, hq, heq⟩ := List.mem_map.mp hp
        exact hplans q hq heq
      · intro plan' hmem'
        refine ⟨(h.destroyed plan' hmem').1, fun p hp => ?_⟩
        rcases List.mem_cons.mp hp with rfl | hp
        · rintro rfl
          exact hgone hmem'
        · exact (h.destroyed plan' hmem').2 p hp

theorem move (h : Issued evs proc) (hini : proc.Ini w.size rank) {a : ProcAct}
    (hmove : Move w rank proc a proc') (hlive' : proc'.halted = none) :
    Issued (evs ++ proc.events rank a) proc' := by
  have hphase := h.user
  have hcall := hini.user
  -- a step that posts nothing and leaves what is still to be issued
  have hsilent : ∀ {user : UserPhase} {proc' : Proc}, proc'.user = user →
      proc'.next_plan = proc.next_plan → proc'.next_start = proc.next_start →
      proc'.plans = proc.plans →
      (∀ plan start, user.toIssue plan start = proc.user.toIssue plan start) →
      user.Recalls evs proc.plans → Issued (evs ++ []) proc' := by
    intro user proc' huser hplan hstart hplans hissue hrecalls
    refine h.proceed (by simp) hplan hstart hplans (by simp) ?_ ?_
    · intro plan start
      rw [huser, hissue]
      rfl
    · rw [huser, List.append_nil]
      exact hrecalls
  -- a step of the daemon posts for peers only
  have hdaemon : ∀ {e : Event} {proc' : Proc}, e.Minor →
      (∀ plan start, ownIndices plan start [e] = []) →
      (∀ x ∈ e.posting, x.own = false) → proc'.user = proc.user →
      proc'.next_plan = proc.next_plan → proc'.next_start = proc.next_start →
      proc'.plans = proc.plans → Issued (evs ++ [e]) proc' := by
    intro e proc' hminor hnone hpeer huser hplan hstart hplans
    refine h.proceed (by simpa using hminor) hplan hstart hplans ?_ ?_ ?_
    · intro x hx hown
      obtain ⟨e', he', hx⟩ := List.mem_filterMap.mp hx
      cases (hpeer x (List.mem_singleton.mp he' ▸ hx)).symm.trans hown
    · intro plan start
      rw [huser, hnone]
      rfl
    · rw [huser]
      exact h.recalls (by simpa using hminor)
  cases hmove with
  | userHalt | daemonHalt | recvHalt | postHalt => cases hlive'
  | beginCreate huser => exact h.beginCreate huser _ _
  | @beginStart plan p huser hp =>
      obtain rfl : p.plan = plan := by simpa using List.find?_some hp
      exact h.beginStart huser (List.mem_of_find?_eq_some hp)
  | @beginDestroy plan p huser hp =>
      obtain rfl : p.plan = plan := by simpa using List.find?_some hp
      exact h.beginDestroy huser (List.mem_of_find?_eq_some hp)
  | @sortOps once_now plan send_ops recv_ops sorted mpi_op huser =>
      rw [huser] at hphase hcall
      obtain ⟨⟨writes, hmem, hlength, -⟩, hrest⟩ := hphase
      refine hsilent rfl rfl rfl rfl ?_ ⟨⟨writes, hmem, ?_⟩, hrest⟩
      · intro plan' start
        rw [huser]
        cases once_now <;> simp [UserPhase.toIssue]
      · rw [hcall.index, ← hlength]
        rfl
  | beginClose huser =>
      exact hsilent rfl rfl rfl rfl (fun _ _ => by rw [huser]; rfl) trivial
  | @drawTag once_now _ _ _ _ _ _ _ _ huser =>
      rw [huser] at hphase
      simp only [Proc.events, huser]
      refine hsilent rfl rfl rfl rfl (fun _ _ => ?_) hphase
      rw [huser]
      cases once_now <;> rfl
  | writeOnce huser =>
      simp only [Proc.events, huser]
      exact h.writeOnce huser ⟨rfl, rfl, rfl⟩ rfl
  -- one operation more, one write less
  | @writeKept plan tag wr rest send_ops recv_ops mpi_op huser =>
      rw [huser] at hphase
      obtain ⟨⟨writes, hmem, hlength, hdrop⟩, hrest⟩ := hphase
      simp only [Proc.events, huser]
      refine hsilent rfl rfl rfl rfl (fun _ _ => ?_) ⟨⟨writes, hmem, ?_, ?_⟩, hrest⟩
      · rw [huser]
        rfl
      · rw [List.length_append, List.length_singleton, ← hlength, List.length_cons]
        omega
      · rw [List.length_append, List.length_singleton, ← List.drop_drop, hdrop]
        rfl
  | announceOnce huser | announceKept huser =>
      rw [huser] at hphase
      simp only [Proc.events, huser]
      exact hsilent rfl rfl rfl rfl (fun _ _ => by rw [huser]; rfl) hphase
  | finishCreate huser =>
      simp only [Proc.events, huser, List.append_nil]
      exact h.finishCreate huser
  | startBatch huser =>
      rw [huser] at hphase
      simp only [Proc.events, huser]
      exact hsilent rfl rfl rfl rfl (fun _ _ => by rw [huser]; rfl) hphase
  | @startOp p start op ops mpi_op huser =>
      rw [huser] at hphase hcall
      obtain ⟨hp, -, hops, -⟩ := hcall
      have hplan : op.plan = p.plan :=
        ((hini.plans p hp).own_ops op (hops.subset (by simp))).1.plan_eq
      obtain ⟨hpos, hlt, -⟩ := h.started_lt _ _ hphase
      simp only [Proc.events, huser]
      refine h.proceed (by simp [Event.Minor]) rfl rfl rfl ?_ ?_ ?_
      · intro x hx hown
        obtain rfl : x = ⟨true, op, ⟨rank, op.plan, start, op.index⟩⟩ := by
          simpa [Event.posting] using hx
        exact ⟨hlt, fun hzero => absurd hzero hpos⟩
      · intro plan' start'
        rw [huser]
        by_cases hthis : p.plan = plan' ∧ start = start' <;>
          simp [UserPhase.toIssue, ownIndices, Event.posting, hplan, hthis, Proc.startOp]
      · exact List.mem_append_left _ hphase
  | finishStart huser =>
      simp only [Proc.events, huser]
      refine hsilent rfl rfl rfl rfl (fun _ _ => ?_) trivial
      rw [huser]
      simp [UserPhase.toIssue, Proc.finishCall]
  | destroyOp huser | destroyBatch huser | finishDestroy huser =>
      simp only [Proc.events, huser]
      exact hsilent rfl rfl rfl rfl (fun _ _ => by rw [huser]; rfl) trivial
  | @closeLoop max_arr_tail huser =>
      simp only [Proc.events, huser]
      refine hsilent rfl rfl rfl rfl (fun _ _ => ?_) ?_
      · rw [huser]
        unfold Proc.closeLoop
        split <;> rfl
      · unfold Proc.closeLoop
        split <;> exact trivial
  | recvCreate | recvDestroy | recvStart | recvExecute =>
      exact hsilent rfl rfl rfl rfl (fun _ _ => rfl) hphase
  | @testSome done =>
      refine hsilent rfl rfl rfl rfl (fun plan start => ?_) ?_
      · exact testSome_same proc done (fun user => user.toIssue plan start) fun _ _ => rfl
      · exact testSome_keeps done hphase fun _ => trivial
  | postStarted hposting | postOnce hposting =>
      simp only [Proc.events, hposting]
      exact hdaemon trivial (fun _ _ => rfl) (by rintro _ ⟨⟩; rfl) rfl rfl rfl rfl
  | finishPosting hposting | finishEffects hposting =>
      simp only [Proc.events, hposting]
      exact hsilent rfl rfl rfl rfl (fun _ _ => rfl) hphase
  | keepTag heffects | returnTag heffects =>
      simp only [Proc.events, heffects]
      exact hdaemon trivial (fun _ _ => rfl) (by rintro _ ⟨⟩) rfl rfl rfl rfl

theorem rest (h : Issued evs proc) (hrest : proc.user.Resting) {user : UserPhase}
    (hrest' : user.Resting) : Issued evs { proc with user := user } := by
  have hnone : ∀ {user : UserPhase}, user.Resting → ∀ plan start, user.toIssue plan start = [] := by
    intro user hrest plan start
    cases user <;> first | rfl | cases hrest
  refine ⟨h.created_lt, h.created_unique, h.next_pos, h.started_lt, h.posted_lt, ?_, h.plans,
    h.numbers, h.destroyed, ?_⟩
  · intro plan start writes hbegun
    have hissued := h.issued plan start writes hbegun
    rw [hnone hrest] at hissued
    rwa [hnone hrest']
  · cases user <;> first | exact trivial | cases hrest'

end Issued

theorem History.issued {size : Nat} {flags : Nat → Nat → UruFlag} {es : List (Nat × Event)}
    {w : World} (h : History size flags es w) {p : Nat} (hlive : (w.procs p).halted = none) :
    Issued (eventsAt p es) (w.procs p) := by
  refine h.induct (I := fun _ evs proc => Issued evs proc) (fun p => Issued.init (flags p)) ?_ ?_
    p hlive
  · intro w es rank evs a proc' _ hinv _ _ _ hlive' ih hmove
    exact ih.move (hinv.ini rank) hmove hlive'
  · exact fun _ _ _ _ hrest hrest' ih => ih.rest hrest hrest'

end Unr.Mpi
