import Unr.Mpi.Matching

/-!
Data messages of a process to itself.

A tag of a process for itself is used on both sides of the channel by the same
process, so it does not tell sends for a put from sends for a get. One side of
a write is posted at once and the other when the daemon handles the control
message; in between the tag may already belong to another write. That does no
harm as long as no get starts while the receive of an earlier put with its tag
is still to be posted.
-/

namespace Unr.Mpi

open Unr.Uru Unr.Logic

/-! ### What a process posts for itself -/

def Proc.selfPosts (proc : Proc) (p t : Nat) (op_type : OpType) : List WriteId :=
  (proc.posts op_type p t).map (·.write)

def Proc.selfOwn (proc : Proc) (p t : Nat) (op_type : OpType) : List WriteId :=
  ownWrites p t op_type proc.log

/-- Those for a batch, where the other side has type `op_type`. -/
def Proc.selfPeer (proc : Proc) (p t : Nat) (op_type : OpType) : List WriteId :=
  announcedWrites t op_type (peerLog p proc.log)

def UserPhase.OnceOnly : UserPhase → Prop
  | creating once_now .. | announcing once_now .. => once_now = true
  | starting .. | destroying .. => False
  | _ => True

/-- Tag `t` of process `p` for itself. Either the receives follow the sends and
what is missing is the receives of puts, or one get is waiting for its send,
and its entry holds the tag. -/
inductive SelfTag (p t : Nat) (proc : Proc) : Prop
  | following
      (hposts : proc.selfPosts p t .opSend = proc.selfPosts p t .opRecv ++
        (proc.selfOwn p t .opSend).drop (proc.selfPeer p t .opSend).length)
      (hgets : proc.selfOwn p t .opRecv = proc.selfPeer p t .opRecv)
  | waiting (g : WriteId) (e : Entry)
      (hposts : proc.selfPosts p t .opRecv = proc.selfPosts p t .opSend ++ [g])
      (hgets : proc.selfOwn p t .opRecv = proc.selfPeer p t .opRecv ++ [g])
      (hputs : proc.selfOwn p t .opSend = proc.selfPeer p t .opSend)
      (hmem : e ∈ proc.inHand)
      (hop : e.op.op_type = .opRecv ∧ e.op.rank = p ∧ e.op.tag = t)
      (hfree : hasBit e.op.flag freeTag = true)
      (hpos : e.pos = (proc.selfPosts p t .opSend).length)

structure Proc.SelfOk (p : Nat) (proc : Proc) : Prop where
  plans : proc.plans = []
  once : proc.user.OnceOnly
  tag : ∀ t, SelfTag p t proc

/-! ### Posting -/

section Posting

variable {p t : Nat} {proc proc' : Proc} {x : Post}

theorem selfPosts_post (hlog : proc'.log = proc.log ++ [x]) (ty : OpType) :
    proc'.selfPosts p t ty = proc.selfPosts p t ty ++
      if x.op_type = ty ∧ x.rank = p ∧ x.tag = t then [x.write] else [] := by
  rw [Proc.selfPosts, Proc.posts, hlog, List.filter_append, List.map_append]
  by_cases h : x.op_type = ty ∧ x.rank = p ∧ x.tag = t <;> simp [Proc.selfPosts, Proc.posts, h]

theorem selfOwn_post (hlog : proc'.log = proc.log ++ [x]) (ty : OpType) :
    proc'.selfOwn p t ty = proc.selfOwn p t ty ++
      if x.own = true ∧ x.rank = p ∧ x.tag = t ∧ x.op_type = ty then [x.write] else [] := by
  rw [Proc.selfOwn, hlog, ownWrites_append]
  by_cases h : x.own = true ∧ x.rank = p ∧ x.tag = t ∧ x.op_type = ty <;>
    simp [Proc.selfOwn, ownWrites, h]

theorem selfPeer_post (hlog : proc'.log = proc.log ++ [x]) (ty : OpType) :
    proc'.selfPeer p t ty = proc.selfPeer p t ty ++
      if (x.own = false ∧ x.write.initiator = p) ∧ x.tag = t ∧ x.op_type = ty.flip then
        [x.write] else [] := by
  rw [Proc.selfPeer, hlog, peerLog_append, announcedWrites_append]
  by_cases hpeer : x.own = false ∧ x.write.initiator = p
  · by_cases hsel : x.tag = t ∧ x.op_type = ty.flip <;>
      simp [Proc.selfPeer, announcedWrites, peerLog, hpeer, hsel]
  · simp [Proc.selfPeer, announcedWrites, peerLog, hpeer]

theorem length_selfPosts (ty : OpType) :
    (proc.selfPosts p t ty).length = proc.posted ty p t := by
  rw [Proc.selfPosts, List.length_map, Proc.posts, Proc.posted, List.countP_eq_length_filter]

/-- The other side of a write is posted after the write. -/
theorem selfPeer_ahead {w : World} (h : w.Inv) (honce : (w.procs p).user.OnceOnly)
    (ty : OpType) : (w.procs p).selfPeer p t ty <+: (w.procs p).selfOwn p t ty := by
  have hnone : (w.procs p).user.pendingOwn p p t ty = [] := by
    match huser : (w.procs p).user with
    | .starting .. =>
        rw [huser] at honce
        exact nomatch honce
    | .idle | .creating .. | .announcing .. | .destroying .. | .finalizing | .reducing _
    | .calling .. | .closed => rfl
  have halign := (h.ini p).aligned p t ty
  rw [hnone, List.append_nil] at halign
  rw [Proc.selfOwn, halign]
  exact ((h.link p p).posts.filterMap _).trans (List.prefix_append _ _)

theorem SelfTag.frame (h : SelfTag p t proc)
    (hposts : ∀ ty, proc'.selfPosts p t ty = proc.selfPosts p t ty)
    (hown : ∀ ty, proc'.selfOwn p t ty = proc.selfOwn p t ty)
    (hpeer : ∀ ty, proc'.selfPeer p t ty = proc.selfPeer p t ty)
    (hentries : ∀ e ∈ proc.inHand, e ∈ proc'.inHand) :
    SelfTag p t proc' := by
  cases h with
  | following h₁ h₂ =>
      refine .following ?_ ?_
      · rw [hposts, hposts, hown, hpeer, h₁]
      · rw [hown, hpeer, h₂]
  | waiting g e h₁ h₂ h₃ hmem hop hfree hpos =>
      refine .waiting g e ?_ ?_ ?_ (hentries e hmem) hop hfree ?_
      · rw [hposts, hposts, h₁]
      · rw [hown, hpeer, h₂]
      · rw [hown, hpeer, h₃]
      · rw [hposts, hpos]

theorem SelfTag.same (h : SelfTag p t proc) (hlog : proc'.log = proc.log)
    (hentries : ∀ e ∈ proc.inHand, e ∈ proc'.inHand) :
    SelfTag p t proc' := by
  refine h.frame (fun ty => ?_) (fun ty => ?_) (fun ty => ?_) hentries
  · rw [Proc.selfPosts, Proc.posts, hlog, Proc.selfPosts, Proc.posts]
  · rw [Proc.selfOwn, hlog, Proc.selfOwn]
  · rw [Proc.selfPeer, hlog, Proc.selfPeer]

/-- The other side of a write is posted. It is the oldest put whose receive is
missing, or the get that is waiting. -/
theorem SelfTag.peer (h : SelfTag p t proc) (hlog : proc'.log = proc.log ++ [x])
    (hown : x.own = false) (hrank : x.rank = x.write.initiator)
    (hentries : ∀ e ∈ proc.inHand, e ∈ proc'.inHand)
    (hahead : ∀ ty, proc'.selfPeer p t ty <+: proc'.selfOwn p t ty) : SelfTag p t proc' := by
  have hposts := fun ty => selfPosts_post (p := p) (t := t) hlog ty
  have howns : ∀ ty, proc'.selfOwn p t ty = proc.selfOwn p t ty := by
    intro ty
    rw [selfOwn_post hlog, hown]
    simp
  have hpeers := fun ty => selfPeer_post (p := p) (t := t) hlog ty
  by_cases hsel : x.rank = p ∧ x.tag = t
  · obtain ⟨hp, ht⟩ := hsel
    have hinitiator : x.write.initiator = p := hrank.symm.trans hp
    simp only [hp, ht, hown, hinitiator, and_true, true_and] at hposts hpeers
    cases hty : x.op_type with
    | opRecv =>
        have hsend : proc'.selfPosts p t .opSend = proc.selfPosts p t .opSend := by
          rw [hposts, hty, if_neg (by decide), List.append_nil]
        have hrecv : proc'.selfPosts p t .opRecv = proc.selfPosts p t .opRecv ++ [x.write] := by
          rw [hposts, hty, if_pos rfl]
        have hput : proc'.selfPeer p t .opSend = proc.selfPeer p t .opSend ++ [x.write] := by
          rw [hpeers, hty, if_pos (by decide)]
        have hget : proc'.selfPeer p t .opRecv = proc.selfPeer p t .opRecv := by
          rw [hpeers, hty, if_neg (by decide), List.append_nil]
        obtain ⟨rest, hrest⟩ := hahead .opSend
        rw [howns, hput] at hrest
        have hdrop : (proc.selfOwn p t .opSend).drop (proc.selfPeer p t .opSend).length =
            x.write :: rest := by
          rw [← hrest, List.append_assoc, List.drop_left]
          rfl
        -- the oldest put whose receive was missing has it now
        cases h with
        | following h₁ h₂ =>
            refine .following ?_ (by rw [howns, hget, h₂])
            rw [hsend, hrecv, howns, hput, h₁, hdrop, ← hrest, List.drop_left]
            simp
        | waiting g e h₁ h₂ h₃ =>
            rw [h₃, List.drop_length] at hdrop
            exact nomatch hdrop
    | opSend =>
        have hsend : proc'.selfPosts p t .opSend = proc.selfPosts p t .opSend ++ [x.write] := by
          rw [hposts, hty, if_pos rfl]
        have hrecv : proc'.selfPosts p t .opRecv = proc.selfPosts p t .opRecv := by
          rw [hposts, hty, if_neg (by decide), List.append_nil]
        have hput : proc'.selfPeer p t .opSend = proc.selfPeer p t .opSend := by
          rw [hpeers, hty, if_neg (by decide), List.append_nil]
        have hget : proc'.selfPeer p t .opRecv = proc.selfPeer p t .opRecv ++ [x.write] := by
          rw [hpeers, hty, if_pos (by decide)]
        have hle := hahead .opRecv
        rw [howns, hget] at hle
        -- a send of the peer answers a get, so a get is waiting
        cases h with
        | following h₁ h₂ =>
            have hlen := hle.length_le
            rw [h₂, List.length_append, List.length_singleton] at hlen
            omega
        | waiting g e h₁ h₂ h₃ =>
            rw [h₂] at hle
            have heq := hle.eq_of_length (by simp)
            have hg : x.write = g := by simpa using heq
            refine .following ?_ ?_
            · rw [hsend, hrecv, h₁, howns, hput, h₃, List.drop_length, hg, List.append_nil]
            · rw [howns, hget, h₂, hg]
  · refine h.frame (fun ty => ?_) howns (fun ty => ?_) hentries
    · rw [hposts, if_neg fun h => hsel h.2, List.append_nil]
    · rw [hpeers, if_neg fun h => hsel ⟨hrank.trans h.1.2, h.2.1⟩, List.append_nil]

/-- A write is posted with a tag that no waiting entry holds. -/
theorem SelfTag.own (h : SelfTag p t proc) (hlog : proc'.log = proc.log ++ [x])
    (hown : x.own = true) (hentries : ∀ e ∈ proc.inHand, e ∈ proc'.inHand)
    (hahead : proc.selfPeer p t .opSend <+: proc.selfOwn p t .opSend)
    (hfresh : x.rank = p → x.tag = t → ∀ e ∈ proc.inHand,
      hasBit e.op.flag freeTag = true → ¬ (e.op.rank = p ∧ e.op.tag = t))
    (hclear : x.rank = p → x.tag = t → x.op_type = .opRecv →
      proc.posted .opSend p t ≤ proc.posted .opRecv p t)
    (hentry : ∃ e ∈ proc'.inHand, e.op.op_type = x.op_type ∧ e.op.rank = x.rank ∧
      e.op.tag = x.tag ∧ hasBit e.op.flag freeTag = true ∧
      e.pos = proc.posted x.op_type x.rank x.tag) : SelfTag p t proc' := by
  have hposts := fun ty => selfPosts_post (p := p) (t := t) hlog ty
  have howns := fun ty => selfOwn_post (p := p) (t := t) hlog ty
  have hpeers : ∀ ty, proc'.selfPeer p t ty = proc.selfPeer p t ty := by
    intro ty
    rw [selfPeer_post hlog, hown]
    simp
  by_cases hsel : x.rank = p ∧ x.tag = t
  · obtain ⟨hp, ht⟩ := hsel
    simp only [hp, ht, hown, true_and, and_true] at hposts howns
    -- a waiting entry holds the tag, so the tag could not have been drawn
    cases h with
    | waiting g e h₁ h₂ h₃ hmem hop hfree hpos =>
        exact absurd hop.2 (hfresh hp ht e hmem hfree)
    | following h₁ h₂ =>
        cases hty : x.op_type with
        | opSend =>
            have hsend : proc'.selfPosts p t .opSend = proc.selfPosts p t .opSend ++ [x.write] := by
              rw [hposts, hty, if_pos rfl]
            have hrecv : proc'.selfPosts p t .opRecv = proc.selfPosts p t .opRecv := by
              rw [hposts, hty, if_neg (by decide), List.append_nil]
            refine .following ?_ ?_
            · rw [hsend, hrecv, howns, hpeers, hty, if_pos rfl, h₁,
                List.drop_append_of_le_length hahead.length_le, List.append_assoc]
            · rw [howns, hpeers, hty, if_neg (by decide), h₂, List.append_nil]
        | opRecv =>
            have hsend : proc'.selfPosts p t .opSend = proc.selfPosts p t .opSend := by
              rw [hposts, hty, if_neg (by decide), List.append_nil]
            have hrecv : proc'.selfPosts p t .opRecv =
                proc.selfPosts p t .opRecv ++ [x.write] := by
              rw [hposts, hty, if_pos rfl]
            have hle := hclear hp ht hty
            rw [← length_selfPosts, ← length_selfPosts, h₁, List.length_append] at hle
            -- a get is posted under the tag only when no put waits for its receive
            have hnone : (proc.selfOwn p t .opSend).drop (proc.selfPeer p t .opSend).length =
                [] := List.length_eq_zero_iff.mp (by omega)
            have heq : proc.selfPosts p t .opSend = proc.selfPosts p t .opRecv := by
              rw [h₁, hnone, List.append_nil]
            have hputs : proc.selfOwn p t .opSend = proc.selfPeer p t .opSend := by
              obtain ⟨rest, hrest⟩ := hahead
              rw [← hrest, List.drop_left] at hnone
              rw [← hrest, hnone, List.append_nil]
            obtain ⟨e, hmem, hety, herank, hetag, hfree, hpos⟩ := hentry
            refine .waiting x.write e ?_ ?_ ?_ hmem
              ⟨hety.trans hty, herank.trans hp, hetag.trans ht⟩ hfree ?_
            · rw [hrecv, hsend, heq]
            · rw [howns, hpeers, hty, if_pos rfl, h₂]
            · rw [howns, hpeers, hty, if_neg (by decide), hputs, List.append_nil]
            · rw [hpos, hty, hp, ht, ← length_selfPosts, hsend, heq]
  · refine h.frame (fun ty => ?_) (fun ty => ?_) hpeers hentries
    · rw [hposts, if_neg fun h => hsel h.2, List.append_nil]
    · rw [howns, if_neg fun h => hsel ⟨h.2.1, h.2.2.1⟩, List.append_nil]

end Posting

/-! ### Runs -/

/-- Process `p` uses every plan at once. -/
def onceNow (p : Nat) : Act → Bool
  | .proc rank (.beginCreate once_now _) => rank = p → once_now
  | _ => true

/-- When process `p` posts the receive of a get from itself, every send that it
has posted for itself with this tag has a receive. -/
def getClear (p : Nat) (w : World) : Act → Bool
  | .proc rank .userStep =>
      match (w.procs p).user with
      | .creating _ _ (wr :: _) (some tag) _ _ _ =>
          rank = p → wr.rmt_mem.rank = p → wr.opType = .opRecv →
            (w.procs p).posted .opSend p tag ≤ (w.procs p).posted .opRecv p tag
      | _ => true
  | _ => true

section Runs

variable {w w' : World} {p : Nat}

theorem selfOk_init (flags : Nat → UruFlag) : (Proc.init flags).SelfOk p :=
  ⟨rfl, trivial, fun _ => .following rfl rfl⟩

theorem drawn_fresh {proc : Proc} {size rank : Nat} (h : proc.Ini size rank) {plan tag : Nat}
    {wr : Write} {rest : List Write} {send_ops recv_ops : List MpiOp} {mpi_op : List Entry}
    (huser : proc.user = .creating true plan (wr :: rest) (some tag) send_ops recv_ops mpi_op) :
    ∀ e ∈ proc.inHand, hasBit e.op.flag freeTag = true →
      ¬ (e.op.rank = wr.rmt_mem.rank ∧ e.op.tag = tag) := by
  rintro e hmem hfree ⟨hrank, htag⟩
  have htags := h.tags
  simp only [Proc.heldPairs, huser, UserPhase.tagPairs, drawnPair, if_true, List.append_assoc,
    List.singleton_append] at htags
  have hpair : ∀ {es : List Entry}, e ∈ es → (wr.rmt_mem.rank, tag) ∈ releasing es := by
    intro es he
    rw [← hrank, ← htag]
    exact List.mem_map_of_mem (List.mem_filter.mpr ⟨he, hfree⟩)
  refine htags.fresh ?_
  simp only [Proc.inHand, huser, UserPhase.entries, List.mem_append] at hmem
  refine List.mem_append.mpr ?_
  rw [List.mem_append, List.mem_append]
  rcases hmem with (hmem | hmem) | hmem
  · exact .inl (hpair hmem)
  · exact .inr (.inr (.inl (hpair hmem)))
  · refine .inr (.inr (.inr (hpair ?_)))
    cases hdaemon : proc.daemon with
    | posting =>
        rw [hdaemon] at hmem
        exact hmem
    | drain | effects =>
        rw [hdaemon] at hmem
        cases hmem

theorem Proc.SelfOk.move {a : ProcAct} {proc' : Proc} (h : (w.procs p).SelfOk p) (hinv : w.Inv)
    (hinv' : { w with procs := Function.update w.procs p proc' }.Inv)
    (honce : onceNow p (.proc p a) = true) (hclear : getClear p w (.proc p a) = true)
    (hmove : Move w p (w.procs p) a proc') : proc'.SelfOk p := by
  -- only completed entries leave
  have hkeep : ∀ e ∈ (w.procs p).inHand, (∀ done, a ≠ .testSome done) → e ∈ proc'.inHand := by
    intro e he ha
    rcases hmove.inHand he with he | ⟨done, hdone, -⟩
    · exact he
    · exact absurd hdone (ha done)
  have hsame : (∀ done, a ≠ .testSome done) → proc'.plans = (w.procs p).plans →
      proc'.user.OnceOnly → proc'.log = (w.procs p).log → proc'.SelfOk p := by
    intro ha hplans huser hlog
    refine ⟨hplans.trans h.plans, huser, fun t => (h.tag t).same hlog fun e he => ?_⟩
    exact hkeep e he ha
  have huser := h.once
  cases hmove with
  | @beginCreate once_now _ hidle =>
      have hnow : once_now = true := by simpa [onceNow] using honce
      exact hsame (by simp) rfl hnow rfl
  | sortOps hcreating | drawTag hcreating =>
      rw [hcreating] at huser
      exact hsame (by simp) rfl huser rfl
  | beginStart _ hp | beginDestroy _ hp =>
      rw [h.plans] at hp
      cases hp
  | beginClose => exact hsame (by simp) rfl trivial rfl
  | @writeOnce plan tag wr rest send_ops recv_ops mpi_op hcreating =>
      refine ⟨h.plans, rfl, fun t => ?_⟩
      refine (h.tag t).own (x := ⟨wr.opType, wr.rmt_mem.rank, tag, true, ⟨p, plan, 0,
        send_ops.length⟩⟩) rfl rfl (fun e he => hkeep e he (by simp))
        (selfPeer_ahead hinv h.once _) ?_ ?_ ?_
      · rintro hrank htag e he hfree
        rw [← hrank, ← htag]
        exact drawn_fresh (hinv.ini p) hcreating e he hfree
      · rintro hrank rfl hty
        simp only [getClear, hcreating, decide_eq_true_eq] at hclear
        exact hclear trivial hrank hty
      · refine ⟨(w.procs p).entry (wr.sendOp (freeOp ||| freeTag) plan send_ops.length tag) .own
          ⟨p, plan, 0, send_ops.length⟩, by simp [Proc.inHand, Proc.enter, UserPhase.entries],
          rfl, rfl, rfl, ?_, rfl⟩
        exact show hasBit (freeOp ||| freeTag) freeTag = true by decide
  | writeKept hcreating =>
      rw [hcreating] at huser
      cases huser
  | announceOnce => exact hsame (by simp) rfl rfl rfl
  | announceKept hannouncing =>
      rw [hannouncing] at huser
      cases huser
  | finishCreate hannouncing =>
      rw [hannouncing] at huser
      simp only [UserPhase.OnceOnly] at huser
      subst huser
      exact hsame (by simp) rfl trivial rfl
  | startBatch hstarting | startOp hstarting | finishStart hstarting =>
      rw [hstarting] at huser
      cases huser
  | destroyOp hdestroying | destroyBatch hdestroying | finishDestroy hdestroying =>
      rw [hdestroying] at huser
      cases huser
  | closeLoop =>
      refine hsame (by simp) rfl ?_ rfl
      unfold Proc.closeLoop
      split <;> exact trivial
  | userHalt | daemonHalt | recvCreate | recvDestroy | recvStart | recvExecute | recvHalt
  | keepTag | returnTag | finishEffects | finishPosting => exact hsame (by simp) rfl huser rfl
  | postStarted hdaemon | postOnce hdaemon | postHalt hdaemon =>
      refine ⟨h.plans, huser, fun t => ?_⟩
      refine (h.tag t).peer rfl rfl ?_ (fun e he => hkeep e he (by simp)) fun ty => ?_
      · obtain ⟨plan, hfrom⟩ := hinv.daemon p _ _ _ _ hdaemon _ List.mem_cons_self
        exact hfrom.rank_eq
      · have hahead := selfPeer_ahead (p := p) (t := t) hinv' (by
          simp only [Function.update_self]
          exact huser) ty
        simpa only [Function.update_self] using hahead
  | @testSome done hdaemon hpolls hlen hdone =>
      have hphase := testSome_keeps done huser fun _ => trivial
      refine ⟨h.plans, hphase, fun t => ?_⟩
      cases h.tag t with
      | following h₁ h₂ => exact .following h₁ h₂
      | waiting g e h₁ h₂ h₃ hmem hop hfree hpos =>
          refine .waiting g e h₁ h₂ h₃ ?_ hop hfree hpos
          refine (Move.inHand (.testSome hdaemon hpolls hlen hdone) hmem).resolve_right ?_
          -- no send has been posted for it, so it is not among the completed ones
          rintro ⟨_, ⟨⟩, hreported⟩
          have hcomplete := hdone e hreported
          obtain ⟨hty, hrank, htag⟩ := hop
          simp only [World.complete, hty, hrank, htag, decide_eq_true_eq] at hcomplete
          rw [hpos, length_selfPosts] at hcomplete
          exact Nat.lt_irrefl _ hcomplete

theorem Proc.SelfOk.step {a : Act} (h : (w.procs p).SelfOk p) (hinv : w.Inv)
    (honce : onceNow p a = true) (hclear : getClear p w a = true) (hstep : w.step a = some w') :
    (w'.procs p).SelfOk p := by
  have hinv' := hinv.step hstep
  have huser : ∀ user : UserPhase, user.entries = [] → user.OnceOnly →
      (w.procs p).user.entries = [] → ((w.setUser user).procs p).SelfOk p := by
    intro user hentries honce' hold
    simp only [World.setUser]
    split
    · refine ⟨h.plans, honce', fun t => (h.tag t).same rfl ?_⟩
      simp only [Proc.inHand, hold, hentries]
      exact fun e he => he
    · exact h
  rcases step_cases hstep with ⟨rank, pa, proc', rfl, -, -, hmove, rfl⟩ | ⟨-, hall, rfl⟩ |
    ⟨-, hall, rfl⟩
  · by_cases hrank : rank = p
    · subst hrank
      simp only [Function.update_self]
      exact h.move hinv hinv' honce hclear hmove
    · simp only [Function.update_of_ne (Ne.symm hrank)]
      exact h
  · by_cases hp : p < w.size
    · exact huser _ rfl trivial (by rw [(hall p hp).1]; rfl)
    · simp only [World.setUser, hp, if_false]
      exact h
  · by_cases hp : p < w.size
    · refine huser _ rfl trivial ?_
      have hcontribution := (hall p hp).1
      cases hphase : (w.procs p).user with
      | reducing | idle | finalizing | calling | closed => rfl
      | creating | announcing | starting | destroying =>
          simp [hphase, UserPhase.contribution] at hcontribution
    · simp only [World.setUser, hp, if_false]
      exact h

theorem selfOk_run {size : Nat} {flags : Nat → Nat → UruFlag}
    (hrun : Run World.step (fun w a => (onceNow p a && getClear p w a) = true)
      (World.init size flags) w) : (w.procs p).SelfOk p := by
  have hboth : w.Inv ∧ (w.procs p).SelfOk p :=
    hrun.invariant (I := fun w => w.Inv ∧ (w.procs p).SelfOk p)
      ⟨World.Inv.init size flags, selfOk_init (flags p)⟩
      fun _ _ _ _ h hC hstep =>
        have hC := Bool.and_eq_true_iff.mp hC
        ⟨h.1.step hstep, h.2.step h.1 hC.1 hC.2 hstep⟩
  exact hboth.2

/-- Sends and receives with one tag are matched write by write. -/
theorem SelfTag.matched {tag : Nat} (h : SelfTag p tag (w.procs p)) {s r : Post}
    (hmatched : w.Matched p p tag s r) : s.write = r.write := by
  obtain ⟨k, hs, hr⟩ := hmatched
  have hs' : ((w.procs p).selfPosts p tag .opSend)[k]? = some s.write := by
    rw [Proc.selfPosts, List.getElem?_map, hs]
    rfl
  have hr' : ((w.procs p).selfPosts p tag .opRecv)[k]? = some r.write := by
    rw [Proc.selfPosts, List.getElem?_map, hr]
    rfl
  cases h with
  | following h₁ => exact eq_of_common (List.prefix_refl _) (h₁ ▸ List.prefix_append _ _) hs' hr'
  | waiting g e h₁ => exact eq_of_common (h₁ ▸ List.prefix_append _ _) (List.prefix_refl _) hs' hr'

end Runs

/-- In every run in which process `p` uses every plan at once and every get of
`p` from itself finds the channel of its tag clear, a send of `p` to itself is
matched with the receive of the same write. -/
theorem self_matched_same_write {size p : Nat} {flags : Nat → Nat → UruFlag} {w : World}
    (hrun : Run World.step (fun w a => (onceNow p a && getClear p w a) = true)
      (World.init size flags) w) {tag : Nat} {s r : Post} (hmatched : w.Matched p p tag s r) :
    s.write = r.write :=
  ((selfOk_run hrun).tag tag).matched hmatched

/-- Process 0 puts to itself; the send completes and returns its tag before the
control message is handled. -/
def selfPutRun : List Act :=
  [.beginCreate true [sampleWrite .dmaPut 0 0], .userStep, .userStep,
    .sortOps [(sampleWrite .dmaPut 0 0).recvOp freeOp 0 0 1], .userStep, .userStep,
    .testSome [true, true], .daemonStep, .daemonStep, .daemonStep].map (.proc 0)

def selfGetSteps : List Act :=
  [.beginCreate true [sampleWrite .dmaGet 0 0], .userStep, .userStep].map (.proc 0)

/-- A get after the receive of the put has been posted finds the channel
clear. -/
theorem self_matched_same_write_put_get :
    (World.after (fun w a => onceNow 0 a && getClear 0 w a) 1
      (selfPutRun ++ [.recvCtrl 0, .daemonStep, .daemonStep].map (.proc 0) ++
        selfGetSteps)).Matched 0 0 1
      ⟨.opSend, 0, 1, true, ⟨0, 0, 0, 0⟩⟩ ⟨.opRecv, 0, 1, false, ⟨0, 0, 0, 0⟩⟩ ∧
    (⟨0, 0, 0, 0⟩ : WriteId) = ⟨0, 0, 0, 0⟩ := by
  have hmatched : (World.after (fun w a => onceNow 0 a && getClear 0 w a) 1
      (selfPutRun ++ [.recvCtrl 0, .daemonStep, .daemonStep].map (.proc 0) ++
        selfGetSteps)).Matched 0 0 1
      ⟨.opSend, 0, 1, true, ⟨0, 0, 0, 0⟩⟩ ⟨.opRecv, 0, 1, false, ⟨0, 0, 0, 0⟩⟩ :=
    ⟨0, by decide +kernel, by decide +kernel⟩
  exact ⟨hmatched, self_matched_same_write (World.run_after (by decide +kernel)) hmatched⟩

/-- A get that comes before it takes the data of the put. -/
theorem self_get_takes_put :
    ∃ (w : World) (s r : Post),
      Run World.step (fun _ a => onceNow 0 a = true)
        (World.init 1 fun _ _ => ⟨0, none, 0, 0⟩) w ∧
      w.Matched 0 0 1 s r ∧ s.write ≠ r.write := by
  refine ⟨World.after (fun _ a => onceNow 0 a) 1 (selfPutRun ++ selfGetSteps),
    ⟨.opSend, 0, 1, true, ⟨0, 0, 0, 0⟩⟩, ⟨.opRecv, 0, 1, true, ⟨0, 1, 0, 0⟩⟩,
    World.run_after (by decide +kernel), ⟨0, ?_, ?_⟩, by decide⟩
  · decide +kernel
  · decide +kernel

end Unr.Mpi
