import Unr.Verbs.Rounds

/-!
The receives of a rank.

Every arrival of a request with immediate data takes a receive, and the daemon
posts as many again as it has polled. Nothing tells a sender how many receives
its target has left: its window is about its own completions, which it gets as
soon as the NIC of the target has accepted the request. What is proved here is
therefore a conservation law, and that the receives of a rank of any size can
be used up by a single sender.
-/

namespace Unr.Verbs

open Unr.Uru
open Unr.Logic
open Unr.Mpi (MemInfo)

def IbvWc.ofRecv (wc : IbvWc) : Bool := wc.opcode = .recvRdmaWithImm

/-- The polled arrivals whose receive has not been posted again. -/
def DaemonPhase.awaiting : DaemonPhase → Nat
  | .idle => 0
  | .handling rest num_wr | .notifying _ _ _ rest num_wr => rest.countP IbvWc.ofRecv + num_wr

/-- The arrivals whose receive has not been posted again. -/
def Proc.awaiting (proc : Proc) : Nat :=
  proc.shared_cq.countP IbvWc.ofRecv + proc.daemon.awaiting

def Proc.Conserves (proc : Proc) : Prop :=
  proc.srq + proc.awaiting = proc.dev_attr.max_srq_wr

@[simp] theorem Wqe.ofRecv_sendWc (wqe : Wqe) (success : Bool) :
    (wqe.sendWc success).ofRecv = false := by
  unfold IbvWc.ofRecv Wqe.sendWc
  split <;> rfl

@[simp] theorem Wqe.ofRecv_recvWc (wqe : Wqe) : wqe.recvWc.ofRecv = true := rfl

section Steps

variable {w w' : World} {a : Act} {c d : Multiset Item} {proc proc' : Proc}

theorem Proc.awaiting_poll (n : Nat) (hidle : proc.daemon = .idle) :
    { proc with
      shared_cq := proc.shared_cq.drop n
      daemon := .handling (proc.shared_cq.take n) 0 }.awaiting = proc.awaiting := by
  have hsplit := congrArg (List.countP IbvWc.ofRecv) (List.take_append_drop n proc.shared_cq)
  rw [List.countP_append] at hsplit
  simp only [Proc.awaiting, DaemonPhase.awaiting, hidle]
  omega

theorem DaemonPhase.awaiting_next (wc : IbvWc) (rest : List IbvWc) (num_wr : Nat) :
    (wc.nextDaemon rest num_wr).awaiting = (DaemonPhase.handling (wc :: rest) num_wr).awaiting := by
  unfold IbvWc.nextDaemon
  by_cases hrecv : wc.opcode = .recvRdmaWithImm
  · simp only [hrecv, if_true, awaiting, List.countP_cons, IbvWc.ofRecv, decide_true]
    omega
  · rw [if_neg hrecv]
    split <;> simp [awaiting, IbvWc.ofRecv, hrecv]

theorem Proc.conserves_handle {flag_pool : FlagPool} {rank num_wr : Nat} {wc : IbvWc}
    {rest : List IbvWc} (h : proc.Conserves)
    (hdaemon : proc.daemon = .handling (wc :: rest) num_wr)
    (hhandle : proc.handle flag_pool rank wc rest num_wr = .ok proc') : proc'.Conserves := by
  unfold Proc.Conserves Proc.awaiting at h ⊢
  rw [Proc.handle_frame hhandle]
  simp only [DaemonPhase.awaiting_next, ← hdaemon]
  exact h

theorem Move.conserves (hold : ∀ p, (w.procs p).Conserves) (h : Move w a c d w') :
    ∀ p, (w'.procs p).Conserves := by
  cases h with
  | halt | create | destroy | start | goto | post | submit =>
      exact World.forall_update (P := fun _ => Proc.Conserves) rfl hold (hold _)
  | @poll rank num_complete hrank hidle =>
      refine World.forall_update (P := fun _ => Proc.Conserves) rfl hold ?_
      rw [Proc.Conserves, Proc.awaiting_poll _ hidle]
      exact hold rank
  | @repost rank num_wr hrank hdaemon =>
      refine World.forall_update (P := fun _ => Proc.Conserves) rfl hold ?_
      have hrank := hold rank
      simp only [Proc.Conserves, Proc.awaiting, DaemonPhase.awaiting, hdaemon] at hrank ⊢
      simp only [List.countP_nil] at hrank
      omega
  | @handle rank num_wr wc rest proc hrank hdaemon hhandle =>
      exact World.forall_update (P := fun _ => Proc.Conserves) rfl hold
        (Proc.conserves_handle (hold rank) hdaemon hhandle)
  | @notify rank dst_rank num_wr rmt_imm_protocol job rest hrank hdaemon =>
      refine World.forall_update (P := fun _ => Proc.Conserves) rfl hold ?_
      have hrank := hold rank
      simp only [Proc.Conserves, Proc.awaiting, DaemonPhase.awaiting, hdaemon] at hrank ⊢
      exact hrank
  | @fail i wqe =>
      refine World.forall_update (P := fun _ => Proc.Conserves) rfl hold ?_
      have hsrc := hold wqe.src
      simpa [Proc.Conserves, Proc.awaiting] using hsrc
  | @arrive i wqe hi himm hsrq =>
      refine World.forall_update (P := fun _ => Proc.Conserves) rfl hold ?_
      have hdst := hold wqe.dst
      simp only [Proc.Conserves, Proc.awaiting] at hdst ⊢
      simp only [List.countP_append, List.countP_singleton, Wqe.ofRecv_recvWc, if_true]
      omega
  | @complete i wqe =>
      refine World.forall_update (P := fun _ => Proc.Conserves) rfl hold ?_
      have hsrc := hold wqe.src
      simpa [Proc.Conserves, Proc.awaiting] using hsrc
  | execute | silent => exact hold

theorem Move.dev_attr (h : Move w a c d w') (p : Nat) :
    (w'.procs p).dev_attr = (w.procs p).dev_attr := by
  have hold : ∀ p, (w.procs p).dev_attr = (w.procs p).dev_attr := fun _ => rfl
  have hupdate := fun rank proc =>
    @World.forall_update w rank proc w' fun p proc => proc.dev_attr = (w.procs p).dev_attr
  cases h with
  | handle hrank hdaemon hhandle =>
      exact hupdate _ _ rfl hold (by rw [Proc.handle_frame hhandle]) p
  | execute | silent => rfl
  | _ => exact hupdate _ _ rfl hold rfl p

end Steps

/-- The receives of a rank. Those that are posted and those whose arrival has
not been answered by a new one are `max_srq_wr` together, so that a request
with immediate data finds a receive exactly if fewer than `max_srq_wr` earlier
arrivals await theirs. If it finds one, it takes it and its completion is
reported; if not, it fails at its sender, and the daemon of the sender exits
when it comes to the failed completion. -/
theorem arrival_finds_receive_iff {size : Nat} {flag_pool : FlagPool}
    {lkey rkey : MemInfo → BitVec 32} {dev_attr : Nat → IbvDeviceAttr}
    {flags : Nat → Nat → UruFlag} {w : World}
    (hrun : Run World.step (fun _ _ => True)
      (World.init size flag_pool lkey rkey dev_attr flags) w) (r : Nat) :
    (w.procs r).srq + (w.procs r).awaiting = (dev_attr r).max_srq_wr ∧
      (∀ (i : Nat) (wqe : Wqe), w.sq[i]? = some wqe → wqe.dst = r →
        wqe.wr.opcode = .rdmaWriteWithImm → (wqe.src, wqe.dst) ∉ w.broken →
        ∃ w', w.step (.execute i) = some w' ∧
          if (w.procs r).awaiting < (dev_attr r).max_srq_wr then
            (w'.procs r).srq + 1 = (w.procs r).srq ∧
              (w'.procs r).shared_cq = (w.procs r).shared_cq ++ [wqe.recvWc] ∧
              w'.acked = w.acked ++ [wqe]
          else wqe.sendWc false ∈ (w'.procs wqe.src).shared_cq) ∧
      ∀ (wc : IbvWc) (rest : List IbvWc) (num_wr : Nat), wc.success = false →
        ((w.handle r wc rest num_wr).procs r).halted = some (.exit .errorExit) := by
  -- every receive is posted or awaits its repost
  have hconserves : ∀ p, (w.procs p).Conserves :=
    World.invariant (I := fun w => ∀ p, (w.procs p).Conserves) (fun _ => rfl)
      (fun _ _ _ _ _ _ hold _ hmove => hmove.conserves hold) hrun
  have hattr : ∀ p, (w.procs p).dev_attr = dev_attr p :=
    World.invariant (I := fun w => ∀ p, (w.procs p).dev_attr = dev_attr p) (fun _ => rfl)
      (fun _ _ _ _ _ _ hold _ hmove p => (hmove.dev_attr p).trans (hold p)) hrun
  have hsum : (w.procs r).srq + (w.procs r).awaiting = (dev_attr r).max_srq_wr := by
    rw [← hattr r]
    exact hconserves r
  refine ⟨hsum, ?_, ?_⟩
  · intro i wqe hi hdst himm hbroken
    refine ⟨w.execute i wqe, by simp [World.step, hi], ?_⟩
    subst hdst
    split
    · next hlt =>
      have hpos : (w.procs wqe.dst).srq - 1 + 1 = (w.procs wqe.dst).srq := by omega
      rw [World.execute_of_receive hbroken himm (by omega), World.setProc_self]
      exact ⟨hpos, rfl, rfl⟩
    · next hge =>
      rw [World.execute_of_miss (.inr ⟨himm, by omega⟩)]
      simp [World.pushWc]
  · intro wc rest num_wr hfail
    have hexit : (w.procs r).handle w.flag_pool r wc rest num_wr = .error (.exit .errorExit) := by
      rw [Proc.handle, hfail]
      rfl
    rw [World.handle, hexit]
    simp [Proc.halt]

/-- Three puts with a remote flag have used three of four receives. -/
theorem arrival_finds_receive_iff_three :
    ∃ w : World, w.Shows (putEntry (some 1)) (.resting 3 1) ∧
      (w.procs 1).srq + (w.procs 1).awaiting = 4 := by
  obtain ⟨w, hrun, hshows⟩ := reaches_resting (some 1) (by simp) 3 1
  exact ⟨w, hshows, (arrival_finds_receive_iff hrun 1).1⟩

/-- A single sender, which keeps its own window empty, uses up the receives of a
process that does not poll. -/
theorem receives_used_up (max_srq_wr : Nat) :
    ∃ (w : World) (wqe : Wqe), Run World.step (fun _ _ => True) (World.two max_srq_wr) w ∧
      w.sq = [wqe] ∧ wqe.dst = 1 ∧ wqe.wr.opcode = .rdmaWriteWithImm ∧ w.broken = [] ∧
      w.misses wqe := by
  obtain ⟨w, hrun, hshows⟩ := reaches_resting (some 1) (by simp) max_srq_wr 0
  have hposted : Goes (putEntry (some 1)) _ _ := goes_posted rfl (by decide) max_srq_wr 0
  obtain ⟨w', hrun', hshows'⟩ := hposted _ w hrun hshows
  have hall : 0 + max_srq_wr * (putEntry (some 1)).pr.wr.receives = max_srq_wr :=
    (Nat.zero_add _).trans (Nat.mul_one _)
  rw [hall] at hrun'
  exact ⟨w', _, hrun', hshows'.sq, rfl, rfl, hshows'.broken, rfl, hshows'.srq⟩

/-- The device has 16384 receives. -/
theorem receives_run_out :
    ∃ (w : World) (wqe : Wqe), Run World.step (fun _ _ => True) (World.two 16384) w ∧
      w.sq = [wqe] ∧ wqe.dst = 1 ∧ wqe.wr.opcode = .rdmaWriteWithImm ∧ w.broken = [] ∧
      w.misses wqe :=
  receives_used_up 16384

end Unr.Verbs
