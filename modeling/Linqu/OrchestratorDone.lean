import Linqu.OrchestratorCalls

/-!
# Completed tasks

A task is finished once its status is COMPLETED or CONSUMED, or once it has been
retired. The updates of a completion other than marking a task keep the set of
finished tasks; marking a task adds that one task, and counts over the lists of
the others move by its multiplicity.
-/

set_option autoImplicit false

namespace Linqu.OrchestratorDone
open Linqu.TaskRing Linqu.DepPool Linqu.TensorMap Linqu.Orchestrator
open Linqu.Orchestrator.LinquOrchestratorState Linqu.OrchestrationApi
open Linqu.Transition Linqu.OrchestratorRule Linqu.OrchestratorShape Linqu.OrchestratorCalls

def finished (s : State) (t : ℤ) : Bool :=
  decide (t < s.taskRing.lastTaskAlive) || (s.get t).status.isDone

theorem finished_live {s : State} {t : ℤ} (ht : s.taskRing.Live t) :
    finished s t = (s.get t).status.isDone := by
  have hlt : ¬ t < s.taskRing.lastTaskAlive := not_lt.mpr ht.1
  simp [finished, hlt]

theorem finished_dead {s : State} {t : ℤ} (ht : t < s.taskRing.lastTaskAlive) : finished s t = true := by
  simp [finished, ht]

theorem finished_congr {s s' : State} (ha : s'.taskRing.lastTaskAlive = s.taskRing.lastTaskAlive)
    (hs : ∀ t, (s'.get t).status.isDone = (s.get t).status.isDone) : finished s' = finished s := by
  funext t
  rw [finished, finished, ha, hs]

theorem get_raiseFanout (s : State) (i j : ℤ) :
    (s.raiseFanout i).get j = { s.get j with
      fanoutRefcount := (s.get j).fanoutRefcount+
        if s.taskRing.slot j = s.taskRing.slot i then 1 else 0 } := by
  rw [raiseFanout, get_modify]
  split <;> rfl

theorem get_checkTaskConsumed (s : State) (i j : ℤ) :
    (s.checkTaskConsumed i).get j =
      if s.taskRing.slot j = s.taskRing.slot i ∧ (s.get j).status = .completed ∧
          (s.get j).fanoutCount ≤ (s.get j).fanoutRefcount then
        { s.get j with status := .consumed } else s.get j := by
  have hslot : s.taskRing.slot j = s.taskRing.slot i → s.get j = s.get i := fun h => by
    simp only [LinquOrchestratorState.get, LinquTaskRing.get, h]
  unfold checkTaskConsumed
  split
  · rename_i hc
    rw [get_setStatus]
    by_cases h : s.taskRing.slot j = s.taskRing.slot i
    · rw [if_pos h, if_pos ⟨h,by rw [hslot h]; exact hc⟩]
    · rw [if_neg h, if_neg (fun hn => h hn.1)]
  · rename_i hc
    rw [if_neg]
    rintro ⟨h,hn⟩
    rw [hslot h] at hn
    exact hc hn

/-- A field other than the status is not touched by the check. -/
theorem checkTaskConsumed_field {α : Type} (F : LinquTaskDescriptor → α)
    (hF : ∀ d v, F { d with status := v } = F d) (s : State) (i j : ℤ) :
    F ((s.checkTaskConsumed i).get j) = F (s.get j) := by
  rw [get_checkTaskConsumed]
  split
  · exact hF _ _
  · rfl

theorem status_checkTaskConsumed (s : State) (i j : ℤ) :
    ((s.checkTaskConsumed i).get j).status.isDone = (s.get j).status.isDone := by
  rw [get_checkTaskConsumed]
  split
  · rename_i h
    rw [h.2.1]
    rfl
  · rfl

theorem finished_checkTaskConsumed (s : State) (i : ℤ) : finished (s.checkTaskConsumed i) = finished s :=
  finished_congr (frame_checkTaskConsumed s i).alive (status_checkTaskConsumed s i)

theorem finished_modify {s : State} {i : ℤ} {f : LinquTaskDescriptor → LinquTaskDescriptor}
    (hf : ∀ d, (f d).status = d.status) : finished (s.modify i f) = finished s :=
  finished_congr rfl (fun t => congrArg Status.isDone (get_modify_field LinquTaskDescriptor.status t hf))

theorem finished_raiseFanout (s : State) (p : ℤ) : finished (s.raiseFanout p) = finished s :=
  finished_modify fun _ => rfl

theorem finished_notifyConsumer (s : State) (c : ℤ) : finished (s.notifyConsumer c) = finished s :=
  finished_modify fun _ => rfl

theorem finished_countSubTask (s : State) (g : ℤ) : finished (s.countSubTask g) = finished s :=
  finished_modify fun _ => rfl

/-- Giving an unfinished task another unfinished status. -/
theorem finished_setStatus {s : State} {c : ℤ} {v : Status}
    (hc : (s.get c).status.isDone = false) (hv : v.isDone = false) :
    finished (s.setStatus c v) = finished s := by
  refine finished_congr rfl fun t => ?_
  rw [get_setStatus]
  split
  · rename_i h
    have hget : s.get t = s.get c := by
      simp only [LinquOrchestratorState.get, LinquTaskRing.get, h]
    rw [hget, hc]
    exact hv
  · rfl

theorem status_setStatus {s : State} (h : Shape s) {t u : ℤ} (ht : s.taskRing.Live t)
    (hu : s.taskRing.Live u) (v : Status) :
    ((s.setStatus u v).get t).status = if t = u then v else (s.get t).status := by
  rw [get_setStatus, if_congr (h.slot_iff ht hu) rfl rfl]
  split <;> rfl

theorem finished_quiet {s s' : State} (q : Quiet s s') : finished s' = finished s :=
  finished_congr (by rw [q.taskRing]) (fun t => by
    rw [LinquOrchestratorState.get, LinquOrchestratorState.get, q.taskRing])

/-- Only finished tasks are retired. -/
theorem finished_retired {s s' : State} {cursor : ℤ} (r : Retired s s' cursor) : finished s' = finished s := by
  funext t
  have ha : s'.taskRing.lastTaskAlive = cursor := by rw [r.ring]; rfl
  have hle := r.le
  rw [finished, finished, ha, r.get]
  by_cases hd : t < s.taskRing.lastTaskAlive
  · simp [hd, lt_of_lt_of_le hd hle]
  · by_cases hc : t < cursor
    · simp [r.consumed t (not_lt.mp hd) hc, Status.isDone]
    · simp [hd, hc]

theorem get_eq_of_slot {s : State} {t u : ℤ} (h : s.taskRing.slot t = s.taskRing.slot u) :
    s.get t = s.get u := by
  simp only [LinquOrchestratorState.get, LinquTaskRing.get, h]

theorem finished_setCompleted (s : State) (g c : ℤ) :
    finished (s.setStatus g .completed) c = true ↔
      finished s c = true ∨ s.taskRing.slot c = s.taskRing.slot g := by
  have ha : (s.setStatus g .completed).taskRing.lastTaskAlive = s.taskRing.lastTaskAlive := rfl
  simp only [finished, Bool.or_eq_true, decide_eq_true_eq, ha, get_setStatus]
  by_cases h : s.taskRing.slot c = s.taskRing.slot g
  · simp [h, Status.isDone]
  · simp [h]

section Complete

variable {s : State} (hs : Shape s) (g : ℤ)
include hs

/-- The consumers of a live task that a completion adds are its edges to the
completed task. -/
theorem countP_fanout_le {p : ℤ} (hp : s.taskRing.Live p) :
    (s.fanoutList p).countP (finished (s.setStatus g .completed)) ≤
      (s.fanoutList p).countP (finished s)+(s.faninList g).count p := by
  by_cases hex : ∃ t, s.taskRing.Live t ∧ s.taskRing.slot t = s.taskRing.slot g
  · obtain ⟨t,ht,hslot⟩ := hex
    have hlist : s.faninList g = s.faninList t := by
      rw [LinquOrchestratorState.faninList, LinquOrchestratorState.faninList, get_eq_of_slot hslot]
    rw [hlist, ← hs.edges p t hp ht]
    refine countP_le_add_count fun c hc hd => ?_
    rcases (finished_setCompleted s g c).mp hd with hd | hd
    · exact Or.inl hd
    · exact Or.inr ((hs.slot_iff (hs.consumer_live hp hc) ht).mp (hd.trans hslot.symm))
  · refine le_trans (List.countP_mono_left fun c hc hd => ?_) (Nat.le_add_right _ _)
    rcases (finished_setCompleted s g c).mp hd with hd | hd
    · exact hd
    · exact absurd ⟨c,hs.consumer_live hp hc,hd⟩ hex

theorem countP_fanin_le {c : ℤ} (hc : s.taskRing.Live c) :
    (s.faninList c).countP (finished (s.setStatus g .completed)) ≤
      (s.faninList c).countP (finished s)+(s.fanoutList g).count c := by
  have hlive : ∀ p ∈ s.faninList c, finished s p = false → s.taskRing.Live p := by
    intro p hp hd
    have hle := (hs.fanin c hc p hp).2
    refine ⟨?_,lt_of_le_of_lt hle hc.2⟩
    by_contra hlt
    rw [finished_dead (not_le.mp hlt)] at hd
    cases hd
  by_cases hex : ∃ t, s.taskRing.Live t ∧ s.taskRing.slot t = s.taskRing.slot g
  · obtain ⟨t,ht,hslot⟩ := hex
    have hlist : s.fanoutList g = s.fanoutList t := by
      rw [LinquOrchestratorState.fanoutList, LinquOrchestratorState.fanoutList,
        get_eq_of_slot hslot]
    rw [hlist, hs.edges t c ht hc]
    refine countP_le_add_count fun p hp hd => ?_
    rcases (finished_setCompleted s g p).mp hd with hd | hd
    · exact Or.inl hd
    · cases hdp : finished s p with
      | true => exact Or.inl rfl
      | false =>
        exact Or.inr ((hs.slot_iff (hlive p hp hdp) ht).mp (hd.trans hslot.symm))
  · refine le_trans (List.countP_mono_left fun p hp hd => ?_) (Nat.le_add_right _ _)
    rcases (finished_setCompleted s g p).mp hd with hd | hd
    · exact hd
    · cases hdp : finished s p with
      | true => rfl
      | false => exact absurd ⟨p,hlive p hp hdp,hd⟩ hex

/-- The exact counts, for a live task that was not finished. -/
theorem countP_complete {t : ℤ} (ht : s.taskRing.Live t) (hd : finished s t = false) (l : List ℤ)
    (hl : ∀ c ∈ l, c < s.taskRing.currentIndex) :
    l.countP (finished (s.setStatus t .completed)) = l.countP (finished s)+l.count t := by
  refine countP_eq_add_count (fun c hc => ?_) hd
  rw [finished_setCompleted]
  constructor
  · rintro (h | h)
    · exact Or.inl h
    · by_cases hlt : c < s.taskRing.lastTaskAlive
      · exact Or.inl (finished_dead hlt)
      · exact Or.inr ((hs.slot_iff ⟨not_lt.mp hlt,hl c hc⟩ ht).mp h)
  · rintro (h | rfl)
    · exact Or.inl h
    · exact Or.inr rfl

end Complete

section Enter

variable {s s₁ : State} {tid : ℤ} {group : Option ℕ} {prods : List ℤ} {v : Status}

theorem entered_get_old (e : Entered s s₁ tid group prods) {t : ℤ} (ht : s.taskRing.Live t) :
    (s₁.setStatus tid v).get t = s₁.get t := by
  rw [get_setStatus, if_neg]
  simp only [LinquTaskRing.slot, e.window]
  exact e.slot_ne t ht

theorem entered_field {α : Type} (e : Entered s s₁ tid group prods)
    (F : LinquTaskDescriptor → α) (hF : ∀ (d : LinquTaskDescriptor) a b c, F { d with
      depListHead := a, fanoutListHead := b, fanoutCount := c } = F d) {t : ℤ}
    (ht : s.taskRing.Live t) : F ((s₁.setStatus tid v).get t) = F (s.get t) := by
  rw [entered_get_old e ht]
  exact e.field F hF ht

theorem entered_finished_old (e : Entered s s₁ tid group prods) {t : ℤ} (hlt : t < tid) :
    finished (s₁.setStatus tid v) t = finished s t := by
  have ha : (s₁.setStatus tid v).taskRing.lastTaskAlive = s.taskRing.lastTaskAlive := e.alive
  by_cases hd : t < s.taskRing.lastTaskAlive
  · rw [finished_dead hd, finished_dead (ha ▸ hd)]
  · have ht : s.taskRing.Live t := ⟨not_lt.mp hd,e.tid_eq ▸ hlt⟩
    rw [finished, finished, ha, entered_field e LinquTaskDescriptor.status (fun _ _ _ _ => rfl) ht]

theorem entered_finished_new (e : Entered s s₁ tid group prods) (h : Shape s) (hv : v.isDone = false) :
    finished (s₁.setStatus tid v) tid = false := by
  rw [finished_live (show (s₁.setStatus tid v).taskRing.Live tid from e.live_tid h), get_setStatus,
    if_pos rfl]
  exact hv

/-- A new task is not finished, so the counts of the others stay. -/
theorem entered_countP (e : Entered s s₁ tid group prods) (h : Shape s) (hv : v.isDone = false)
    (n : ℕ) {l : List ℤ} (hl : ∀ c ∈ l, c < tid) :
    (List.replicate n tid++l).countP (finished (s₁.setStatus tid v)) = l.countP (finished s) := by
  rw [List.countP_append, List.countP_replicate, entered_finished_new e h hv]
  simp only [Bool.false_eq_true, if_false, Nat.zero_add]
  exact List.countP_congr fun c hc => by rw [entered_finished_old e (hl c hc)]

theorem launched_isDone {found : List ℤ} (hv : Launched group found v) : v.isDone = false := by
  rcases hv with rfl | ⟨rfl,-⟩ <;> rfl

end Enter

theorem mem_liveIds {s : State} (h : Shape s) {t : ℤ} :
    t ∈ s.liveIds ↔ s.taskRing.Live t := by
  have hle := h.ring.alive_le
  simp only [liveIds, List.mem_map, List.mem_range, LinquTaskRing.Live, LinquTaskRing.activeCount]
  constructor
  · rintro ⟨i,hi,rfl⟩
    omega
  · rintro ⟨h1,h2⟩
    exact ⟨(t-s.taskRing.lastTaskAlive).toNat,by omega,by omega⟩

end Linqu.OrchestratorDone
