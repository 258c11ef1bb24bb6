import Linqu.OrchestratorDone

/-!
# A completion returns

`propagate_completion` calls itself for a group that completes on the spot.
Such a group was pending before the call and is not pending afterwards, so
the depth is bounded by the slots that hold a pending task, and the fuel that
`complete` gives is never used up. `Onward` is what all the updates of a
completion have in common: no task becomes pending, a finished one stays
finished, and sub-tasks are counted upwards.
-/

set_option autoImplicit false

namespace Linqu.Completion
open Linqu.TaskRing Linqu.DepPool Linqu.Orchestrator
open Linqu.Orchestrator.LinquOrchestratorState Linqu.OrchestrationApi Linqu.Transition
open Linqu.OrchestratorRule Linqu.OrchestratorDone

structure Onward (s s' : State) : Prop where
  window : s'.taskRing.windowSize = s.taskRing.windowSize
  pending : ∀ t, (s'.get t).status = .pending → (s.get t).status = .pending
  isDone : ∀ t, (s.get t).status.isDone = true → (s'.get t).status.isDone = true
  count : ∀ t, (s.get t).subCompleteCount ≤ (s'.get t).subCompleteCount

namespace Onward

variable {s s' s'' : State}

theorem refl (s : State) : Onward s s := ⟨rfl,fun _ => id,fun _ => id,fun _ => le_rfl⟩

theorem trans (h : Onward s s') (h' : Onward s' s'') : Onward s s'' :=
  ⟨h'.window.trans h.window,fun t ht => h.pending t (h'.pending t ht),
    fun t ht => h'.isDone t (h.isDone t ht),fun t => (h.count t).trans (h'.count t)⟩

theorem modify (s : State) (i : ℤ) {f : LinquTaskDescriptor → LinquTaskDescriptor}
    (hs : ∀ d, (f d).status = d.status) (hc : ∀ d, d.subCompleteCount ≤ (f d).subCompleteCount) :
    Onward s (s.modify i f) := by
  have hst : ∀ t, ((s.modify i f).get t).status = (s.get t).status := fun t =>
    get_modify_field LinquTaskDescriptor.status t hs
  refine ⟨rfl,fun t ht => hst t ▸ ht,fun t ht => (hst t).symm ▸ ht,fun t => ?_⟩
  rw [get_modify]
  split
  · exact hc _
  · exact le_rfl

theorem setStatus {i : ℤ} {v : Status} (hv : v ≠ .pending)
    (hd : (s.get i).status.isDone = true → v.isDone = true) : Onward s (s.setStatus i v) := by
  refine ⟨rfl,fun t ht => ?_,fun t ht => ?_,fun t => ?_⟩
  · rw [get_setStatus] at ht
    split at ht
    · exact absurd ht hv
    · exact ht
  · rw [get_setStatus]
    split
    · rename_i hslot
      exact hd (get_eq_of_slot hslot ▸ ht)
    · exact ht
  · exact (setStatus_field LinquTaskDescriptor.subCompleteCount (fun _ _ => rfl) s i t v).ge

theorem check (s : State) (i : ℤ) : Onward s (s.checkTaskConsumed i) := by
  unfold checkTaskConsumed
  split
  · exact setStatus (by simp) fun _ => rfl
  · exact refl s

theorem countSubTask (s : State) (g : ℤ) : Onward s (s.countSubTask g) :=
  modify s g (fun _ => rfl) fun d => Nat.le_succ d.subCompleteCount

theorem releaseProducer (s : State) (p : ℤ) : Onward s (s.releaseProducer p) := by
  have hr : Onward s (s.raiseFanout p) := modify s p (fun _ => rfl) fun _ => le_rfl
  exact hr.trans (check (s.raiseFanout p) p)

theorem notifyConsumer (s : State) (c : ℤ) : Onward s (s.notifyConsumer c) :=
  modify s c (fun _ => rfl) fun _ => le_rfl

end Onward

/-- The slots whose task is pending. -/
def pendingSlots (s : State) : Finset ℕ :=
  (Finset.range s.taskRing.windowSize.toNat).filter (fun i => (s.get i).status = .pending)

theorem Onward.pendingSlots_le {s s' : State} (h : Onward s s') :
    (pendingSlots s').card ≤ (pendingSlots s).card := by
  refine Finset.card_le_card fun i hi => ?_
  rw [pendingSlots, Finset.mem_filter] at hi ⊢
  rw [h.window] at hi
  exact ⟨hi.1,h.pending i hi.2⟩

/-- A pending task that is started frees its slot. -/
theorem pendingSlots_start {s : State} {c : ℤ} (hw : 0 < s.taskRing.windowSize)
    (hc : (s.get c).status = .pending) :
    (pendingSlots (s.setStatus c .running)).card < (pendingSlots s).card := by
  have hon : Onward s (s.setStatus c .running) :=
    Onward.setStatus (by simp) fun hd => by rw [hc] at hd; cases hd
  have hnonneg : 0 ≤ s.taskRing.slot c := Int.emod_nonneg _ hw.ne'
  have hlt : s.taskRing.slot c < s.taskRing.windowSize := Int.emod_lt_of_pos _ hw
  have hslot : s.taskRing.slot ((s.taskRing.slot c).toNat : ℤ) = s.taskRing.slot c := by
    rw [Int.toNat_of_nonneg hnonneg]
    exact Int.emod_emod _ _
  refine Finset.card_lt_card ((Finset.ssubset_iff_of_subset fun i hi => ?_).mpr
    ⟨(s.taskRing.slot c).toNat,?_,?_⟩)
  · rw [pendingSlots, Finset.mem_filter] at hi ⊢
    exact ⟨hi.1,hon.pending i hi.2⟩
  · rw [pendingSlots, Finset.mem_filter, Finset.mem_range, get_eq_of_slot hslot]
    exact ⟨by omega,hc⟩
  · intro hi
    rw [pendingSlots, Finset.mem_filter, get_setStatus, if_pos hslot] at hi
    exact absurd hi.2 (by simp)

/-- What a call of `propagate_completion` with fuel `m` is to satisfy. -/
def Returns (m : ℕ) (propagate : State → ℤ → Except Fault State) : Prop :=
  ∀ s t, 0 < s.taskRing.windowSize → (pendingSlots s).card < m →
    ∃ s', propagate s t = .ok s' ∧ Onward s s'

/-- A loop whose rounds return, returns. -/
theorem foldlM_returns {f : State → ℤ → Except Fault State} {w : State}
    (hf : ∀ u c, Onward w u → ∃ v, f u c = .ok v ∧ Onward u v) (l : List ℤ) :
    ∀ u, Onward w u → ∃ v, l.foldlM f u = .ok v ∧ Onward w v := by
  induction l with
  | nil => exact fun u hu => ⟨u,rfl,hu⟩
  | cons c l ih =>
    intro u hu
    obtain ⟨v,hv,huv⟩ := hf u c hu
    obtain ⟨v',hv',hvv⟩ := ih v (hu.trans huv)
    exact ⟨v',by rw [List.foldlM_cons]; exact bind_ok.mpr ⟨v,hv,hv'⟩,hvv⟩

section Propagate

variable {m : ℕ} {propagate : State → ℤ → Except Fault State} (hprop : Returns m propagate)
include hprop

theorem dispatchSubTask_returns (g : ℤ) (k : Option String) (gp : List LinquParam) (n i : ℕ)
    (sub : LinquSubTaskSpec) {s : State} (hw : 0 < s.taskRing.windowSize)
    (hm : (pendingSlots s).card < m) :
    ∃ s', s.dispatchSubTask propagate g k gp n i sub = .ok s' ∧ Onward s s' := by
  have ha : Onward s (s.assignSubId g) := ⟨rfl,fun _ => id,fun _ => id,fun _ => le_rfl⟩
  unfold dispatchSubTask
  dsimp only
  split
  · exact ⟨_,rfl,ha.trans ⟨rfl,fun _ => id,fun _ => id,fun _ => le_rfl⟩⟩
  · have hc := ha.trans (.countSubTask (s.assignSubId g) g)
    split
    · have hst := hc.trans (.setStatus (i := g) (v := .completed) (by simp) fun _ => rfl)
      obtain ⟨s',hs',h⟩ := hprop (((s.assignSubId g).countSubTask g).setStatus g .completed) g hw
        (lt_of_le_of_lt hst.pendingSlots_le hm)
      exact ⟨s',hs',hst.trans h⟩
    · exact ⟨_,rfl,hc⟩

theorem dispatchFrom_returns (g : ℤ) (k : Option String) (gp : List LinquParam) (n : ℕ)
    (subs : List LinquSubTaskSpec) : ∀ (i : ℕ) (s : State), 0 < s.taskRing.windowSize →
      (pendingSlots s).card < m →
      ∃ s', dispatchFrom propagate (fun _ s => .ok s) g k gp n i subs s = .ok s' ∧ Onward s s' := by
  induction subs with
  | nil => exact fun i s _ _ => ⟨s,rfl,Onward.refl s⟩
  | cons sub rest ih =>
    intro i s hw hm
    obtain ⟨u,hu,hsu⟩ := dispatchSubTask_returns hprop g k gp n i sub hw hm
    obtain ⟨s',hs',hus⟩ := ih (i+1) u (hsu.window ▸ hw) (lt_of_le_of_lt hsu.pendingSlots_le hm)
    refine ⟨s',?_,hsu.trans hus⟩
    rw [dispatchFrom]
    exact bind_ok.mpr ⟨u,hu,hs'⟩

/-- One more fuel than the calls below: the consumer was pending. -/
theorem checkConsumer_returns {s : State} {c : ℤ} (hw : 0 < s.taskRing.windowSize)
    (hm : (pendingSlots s).card < m+1) :
    ∃ s', s.checkConsumer propagate c = .ok s' ∧ Onward s s' := by
  unfold checkConsumer
  split
  · rename_i hsat
    have hstart : ∀ v : Status, v ≠ .pending → Onward s (s.setStatus c v) := fun v hv =>
      Onward.setStatus hv fun hd => by rw [hsat.2] at hd; cases hd
    have hrun := hstart .running (by simp)
    split
    · dsimp only
      split
      · rename_i spec _
        have hlt := pendingSlots_start hw hsat.2
        obtain ⟨u,hu,hsu⟩ := dispatchFrom_returns hprop c (some spec.kernelSo) spec.groupParams
          spec.subTasks.length spec.subTasks 0 (s.setStatus c .running) hw (by omega)
        exact ⟨u.eraseSpec c,bind_ok.mpr ⟨u,hu,rfl⟩,
          (hrun.trans hsu).trans ⟨rfl,fun _ => id,fun _ => id,fun _ => le_rfl⟩⟩
      · exact ⟨_,rfl,hrun⟩
    · exact ⟨_,rfl,hstart .ready (by simp)⟩
  · exact ⟨s,rfl,Onward.refl s⟩

end Propagate

theorem propagate_returns (m : ℕ) : Returns m (propagateCompletion m) := by
  induction m with
  | zero => exact fun s t _ hm => absurd hm (Nat.not_lt_zero _)
  | succ m ih =>
    intro s t hw hm
    have h1 := foldl_rule (P := fun _ u => Onward s u)
      (fun p _ u hu => hu.trans (.releaseProducer u p)) (s.faninList t) (Onward.refl s)
    generalize hs1 : (s.faninList t).foldl LinquOrchestratorState.releaseProducer s = s1 at h1
    have h2 := foldl_rule (P := fun _ u => Onward s u)
      (fun c _ u hu => hu.trans (.notifyConsumer u c)) (s1.fanoutList t) h1
    generalize hs2 : (s1.fanoutList t).foldl LinquOrchestratorState.notifyConsumer s1 = s2 at h2
    obtain ⟨s3,hs3,h3⟩ := foldlM_returns (w := s) (f := checkConsumer (propagateCompletion m))
      (fun u c hu => checkConsumer_returns ih (hu.window ▸ hw)
        (lt_of_le_of_lt hu.pendingSlots_le hm)) (s2.fanoutList t) s2 h2
    refine ⟨s3.checkTaskConsumed t,?_,h3.trans (.check s3 t)⟩
    rw [propagateCompletion, hs1, hs2, checkConsumersReady, hs3]
    rfl

/-- `propagate_completion` returns for every task of every state with a ring. -/
theorem complete_returns {s : State} (hw : 0 < s.taskRing.windowSize) (t : ℤ) :
    ∃ s', s.complete t = .ok s' ∧ Onward (s.setStatus t .completed) s' := by
  refine propagate_returns s.fuel (s.setStatus t .completed) t hw ?_
  have hle := Finset.card_filter_le (Finset.range s.taskRing.windowSize.toNat)
    (fun i => ((s.setStatus t .completed).get i).status = .pending)
  rw [Finset.card_range] at hle
  exact Nat.lt_succ_of_le hle

/-- `on_task_complete` returns for every id. -/
theorem onTaskComplete_returns {s : State} (hw : 0 < s.taskRing.windowSize) (t : ℤ) :
    ∃ s', s.onTaskComplete t = .ok s' := by
  unfold onTaskComplete
  dsimp only
  split
  · rename_i g _
    split
    · obtain ⟨s',hs',-⟩ := complete_returns
        (s := ((s.record (.report t)).eraseSubId t).countSubTask g) hw g
      exact ⟨s',hs'⟩
    · exact ⟨_,rfl⟩
  · split
    · obtain ⟨s',hs',-⟩ := complete_returns (s := s.record (.report t)) hw t
      exact ⟨s',hs'⟩
    · exact ⟨_,rfl⟩

end Linqu.Completion
