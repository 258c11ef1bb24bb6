import Linqu.FailedResults

/-!
# Ids of dispatches

A plain task is dispatched under its own id, which the ring has just given out,
and a sub-task under the next negative one. If the dispatcher answers every
dispatch once at most, no id is used for two dispatches.
-/

set_option autoImplicit false

namespace Linqu.DispatchIds
open Linqu.TaskRing Linqu.Orchestrator Linqu.Dispatchers
open Linqu.Orchestrator.LinquOrchestratorState Linqu.OrchestrationApi Linqu.Transition
open Linqu.OrchestratorRule Linqu.OrchestratorShape Linqu.OrchestratorCalls
open Linqu.OrchestratorDone Linqu.Reports Linqu.OrchestratorSteps
open Linqu.GroupCompletion Linqu.LastSubTask Linqu.FailedResults

def plainIds (l : List Event) : List ℤ :=
  l.filterMap fun
    | .dispatch call => match call.origin with
      | .plain => some call.taskId
      | .sub _ _ => none
    | _ => none

theorem dispatchedIds_perm (l : List Event) :
    (dispatchedIds l).Perm (plainIds l++subIds l) := by
  induction l with
  | nil => exact List.Perm.refl _
  | cons e l ih =>
    cases e with
    | dispatch call =>
      have hids : dispatchedIds (.dispatch call::l) = call.taskId::dispatchedIds l := rfl
      cases ho : call.origin with
      | plain =>
        have hplain : plainIds (.dispatch call::l) = call.taskId::plainIds l := by
          simp [plainIds, ho]
        have hsub : subIds (.dispatch call::l) = subIds l := by simp [subIds, ho]
        rw [hids, hplain, hsub]
        exact ih.cons _
      | sub g i =>
        have hplain : plainIds (.dispatch call::l) = plainIds l := by simp [plainIds, ho]
        have hsub : subIds (.dispatch call::l) = call.taskId::subIds l := by simp [subIds, ho]
        rw [hids, hplain, hsub]
        exact (ih.cons _).trans List.perm_middle.symm
    | submit t b => exact ih
    | dispatchFn call => exact ih
    | report t => exact ih

theorem plainIds_append (l l' : List Event) : plainIds (l++l') = plainIds l++plainIds l' :=
  List.filterMap_append

theorem plainIds_subs {l : List Event} (h : ∀ e ∈ l, IsSubDispatch e) : plainIds l = [] := by
  apply List.filterMap_eq_nil_iff.mpr
  intro e he
  obtain ⟨call,g,i,rfl,ho⟩ := h e he
  simp [ho]

/-- Sub-dispatches are no plain ones. -/
theorem plainIds_frame {s s' : State} (f : Frame s s') :
    plainIds s'.trace = plainIds s.trace := by
  obtain ⟨new,hnew,hsub⟩ := f.events
  rw [hnew, plainIds_append, plainIds_subs hsub, List.nil_append]

structure Rising (s : State) : Prop where
  distinct : (plainIds s.trace).Nodup
  given : ∀ t ∈ plainIds s.trace, t < s.taskRing.currentIndex

theorem Rising.same {s s' : State} (h : Rising s) (ht : plainIds s'.trace = plainIds s.trace)
    (hc : s.taskRing.currentIndex ≤ s'.taskRing.currentIndex) : Rising s' := by
  constructor
  · rw [ht]
    exact h.distinct
  · intro t hm
    rw [ht] at hm
    exact (h.given t hm).trans_le hc

theorem Rising.entered {s m e : State} {tid : ℤ} {group : Option ℕ} {prods : List ℤ}
    (h : Rising s) (hw : Eases s m) (he : Entered m e tid group prods) :
    Rising e ∧ ∀ t ∈ plainIds e.trace, t < tid := by
  have hcur := (steady_eases hw).2
  have htrace : plainIds e.trace = plainIds s.trace := by
    rw [he.trace, eases_trace hw]
    rfl
  have htid : tid = s.taskRing.currentIndex := by rw [he.tid_eq, hcur]
  constructor
  · apply h.same htrace
    rw [he.current, htid]
    omega
  · intro t hm
    rw [htrace] at hm
    rw [htid]
    exact h.given t hm

theorem Rising.stage {σ σ' : System} {l : List ℤ} (h : Rising σ.state)
    (hb : σ.state.backend = .dispatcher) (st : Stage σ l σ') : Rising σ'.state := by
  cases st with
  | ease hp hp' he =>
    apply h.same
    · dsimp only
      rw [eases_trace he]
    · exact (steady_eases he).2.ge
  | @task s m e s' pc tid prods target k params hp hw he hs =>
    have hbe : e.backend = .dispatcher := he.backend.trans ((eases_backend hw).trans hb)
    obtain ⟨call,hid,ho,-,-,rfl⟩ := launchTask_dispatcher hbe hs
    obtain ⟨hrise,hless⟩ := h.entered hw he
    have hcons : plainIds ((e.setStatus tid .running).record (.dispatch call)).trace =
        tid::plainIds e.trace := by
      rw [← hid]
      simp [plainIds, LinquOrchestratorState.record, LinquOrchestratorState.setStatus,
        LinquOrchestratorState.modify, ho]
    constructor
    · dsimp only
      rw [hcons]
      exact List.nodup_cons.mpr ⟨fun hm => lt_irrefl _ (hless _ hm),hrise.distinct⟩
    · intro t hm
      dsimp only at hm
      rw [hcons] at hm
      have hcur : ((e.setStatus tid .running).record (.dispatch call)).taskRing.currentIndex =
          tid+1 := he.current
      dsimp only
      rw [hcur]
      rcases List.mem_cons.mp hm with rfl | hm
      · omega
      · have hlt := hless t hm
        omega
  | @park s m e s' pc tid prods k params subs hp hw he hn hs =>
    have hrise := (h.entered hw he).1
    unfold LinquOrchestratorState.launchGroup at hs
    by_cases hz : subs.length = 0
    · rw [if_pos hz] at hs
      have f := frame_complete hs
      exact hrise.same (plainIds_frame f) f.current.ge
    · have hfan : ¬ (e.get tid).faninCount = 0 := fun hf => hn ⟨hz,hf⟩
      rw [if_neg hz, if_neg hfan] at hs
      cases hs
      exact hrise.same rfl le_rfl
  | start hp hw he hn => exact (h.entered hw he).1.same rfl le_rfl
  | dispatch => exact h.same rfl le_rfl

theorem rising_move {σ σ' : System} {a : Act} (hp : Paced σ) (h : Rising σ.state)
    (hm : Moves σ a σ') : Rising σ'.state := by
  rcases moves_cases hp.shape hp.backend hm with ⟨r,rfl,hs,-⟩ | ⟨-,st⟩
  · unfold onCompletion at hs
    by_cases hok : r.status = .completed
    · rw [if_pos hok] at hs
      have f := frame_onTaskComplete hs
      exact h.same ((plainIds_frame f).trans rfl) f.current.ge
    · rw [if_neg hok] at hs
      have hstate : σ'.state = σ.state := (Except.ok.inj hs).symm
      rw [hstate]
      exact h
  · exact h.stage hp.backend st

/-- No id is used for two dispatches. -/
theorem run_distinct {cfg : LinquOrchConfigInternal} {s₀ : State} {acts : List Act} {σ : System}
    (hinit : init .dispatcher cfg = .ok s₀) (hr : Run Moves acts ⟨s₀,.idle⟩ σ)
    (hans : AnswersOnce acts ⟨s₀,.idle⟩) : (dispatchedIds σ.state.trace).Nodup := by
  have h := run_answered hinit hr hans
  have hrise : Paced σ ∧ Rising σ.state := by
    refine run_preserves (P := fun σ => Paced σ ∧ Rising σ.state) ?_ ?_ hr
    · intro σ a σ' hσ hm
      exact ⟨step_paced hσ.1 hm,rising_move hσ.1 hσ.2 hm⟩
    · refine ⟨init_paced hinit,?_⟩
      have htrace := (init_rest hinit).2.1
      constructor
      · dsimp only
        rw [htrace]
        exact List.nodup_nil
      · intro t hm
        dsimp only at hm
        rw [htrace] at hm
        cases hm
  apply (dispatchedIds_perm _).nodup_iff.mpr
  apply List.Nodup.append hrise.2.distinct h.filed.numbered.distinct
  intro t ht hsub
  have hneg := (h.filed.numbered.given t hsub).2
  obtain ⟨e,he,hid⟩ := List.mem_filterMap.mp ht
  cases e with
  | dispatch call =>
    cases ho : call.origin with
    | plain =>
      have hpos := (h.account.plain call he ho).1
      simp only [ho, Option.some.injEq] at hid
      omega
    | sub g i => simp [ho] at hid
  | submit t b => cases hid
  | dispatchFn call => cases hid
  | report t => cases hid

end Linqu.DispatchIds
