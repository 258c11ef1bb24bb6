import Linqu.Completion
import Linqu.Retirement
import Linqu.Reports
import Linqu.Dispatchers

/-!
# Reports of ids that are not out

`on_task_complete` looks an id up in the table of sub-tasks and, if it is not
there, masks it into a ring slot. It has no other way to tell that an id is
not out: the report is ignored exactly when the id is no key of the table and
the task that owns the slot by then is not running. The id stored in the
descriptor is not compared.
-/

set_option autoImplicit false

namespace Linqu.StrayReports
open Linqu.TaskRing Linqu.Orchestrator Linqu.Orchestrator.LinquOrchestratorState
open Linqu.OrchestrationApi Linqu.Transition Linqu.OrchestratorRule Linqu.OrchestratorCalls
open Linqu.OrchestratorDone Linqu.Completion Linqu.Retirement Linqu.Reports
open Linqu.Dispatchers Linqu.MsgTypes

/-- Everything but the record of what was reported is as it was. -/
def Unchanged (s s' : State) : Prop := s' = { s with trace := s'.trace }

/-- No sub-task is out under the id, and the owner of its slot is not running. -/
def Unclaimed (s : State) (id : ℤ) : Prop :=
  s.subDispatchToGroup.lookup id = none ∧ (s.get id).status ≠ .running

instance (s : State) (id : ℤ) : Decidable (Unclaimed s id) := inferInstanceAs (Decidable (_ ∧ _))

theorem Unchanged.get {s s' : State} (h : Unchanged s s') (t : ℤ) : s'.get t = s.get t := by
  rw [LinquOrchestratorState.get, LinquOrchestratorState.get, h]

/-- A report under a key of the table is counted. -/
theorem counted_of_key {s s' : State} {id g : ℤ} (hw : 0 < s.taskRing.windowSize)
    (hg : s.subDispatchToGroup.lookup id = some g) (hs : s.onTaskComplete id = .ok s') :
    (s.get g).subCompleteCount < (s'.get g).subCompleteCount := by
  have hcnt : ∀ u : State, ((u.countSubTask g).get g).subCompleteCount =
      (u.get g).subCompleteCount+1 := fun u => by
    rw [countSubTask, get_modify, if_pos rfl]
  unfold onTaskComplete at hs
  dsimp only at hs
  rw [show (s.record (.report id)).subDispatchToGroup.lookup id = some g from hg] at hs
  dsimp only at hs
  have hlt : (s.get g).subCompleteCount <
      ((((s.record (.report id)).eraseSubId id).countSubTask g).get g).subCompleteCount := by
    rw [hcnt]
    exact Nat.lt_succ_self _
  split at hs
  · obtain ⟨u,hu,h⟩ := complete_returns
      (s := ((s.record (.report id)).eraseSubId id).countSubTask g) hw g
    cases hu.symm.trans hs
    refine hlt.trans_le (le_trans (le_of_eq ?_) (h.count g))
    exact (setStatus_field LinquTaskDescriptor.subCompleteCount (fun _ _ => rfl) _ g g _).symm
  · cases hs
    exact hlt

/-- Otherwise a running owner of the slot is completed. -/
theorem completed_of_running {s s' : State} {id : ℤ} (hw : 0 < s.taskRing.windowSize)
    (hn : s.subDispatchToGroup.lookup id = none) (hr : (s.get id).status = .running)
    (hs : s.onTaskComplete id = .ok s') : (s'.get id).status.isDone = true := by
  unfold onTaskComplete at hs
  dsimp only at hs
  rw [show (s.record (.report id)).subDispatchToGroup.lookup id = none from hn] at hs
  dsimp only at hs
  rw [if_pos (show ((s.record (.report id)).get id).status = .running from hr)] at hs
  obtain ⟨u,hu,h⟩ := complete_returns (s := s.record (.report id)) hw id
  cases hu.symm.trans hs
  refine h.isDone id ?_
  rw [get_setStatus, if_pos rfl]
  rfl

/-- A report is ignored exactly when nothing claims its id. -/
theorem ignored_iff {s : State} (hw : 0 < s.taskRing.windowSize) (id : ℤ) :
    (∃ s', s.onTaskComplete id = .ok s' ∧ Unchanged s s') ↔ Unclaimed s id := by
  constructor
  · rintro ⟨s',hs,hsame⟩
    cases hl : s.subDispatchToGroup.lookup id with
    | some g =>
      have hlt := counted_of_key hw hl hs
      rw [hsame.get] at hlt
      exact absurd hlt (lt_irrefl _)
    | none =>
      refine ⟨hl,fun hr => ?_⟩
      have hd := completed_of_running hw hl hr hs
      rw [hsame.get, hr] at hd
      cases hd
  · rintro ⟨hl,hr⟩
    refine ⟨s.record (.report id),?_,rfl⟩
    unfold onTaskComplete
    dsimp only
    rw [show (s.record (.report id)).subDispatchToGroup.lookup id = none from hl]
    dsimp only
    rw [if_neg (show ((s.record (.report id)).get id).status ≠ .running from hr)]

/-- A message that is too short is taken for a success of task 0. -/
theorem receive_short {d : RemoteDispatcher} {s : State} {payload : List UInt8}
    (hlen : payload.length < 8) {d' : RemoteDispatcher} {s' : State} :
    receive d s payload = .ok (d',s') ↔
      d' = (d.recvTaskComplete payload).2 ∧ s.onTaskComplete 0 = .ok s' := by
  have hr : (d.recvTaskComplete payload).1 = { taskId := 0, status := .completed } := by
    simp [RemoteDispatcher.recvTaskComplete, TaskCompletePayload.deserialize, hlen]
  unfold receive
  rw [bind_ok]
  simp only [onCompletion, hr, if_true]
  constructor
  · rintro ⟨u,hu,h⟩
    cases h
    exact ⟨rfl,hu⟩
  · rintro ⟨rfl,hs⟩
    exact ⟨s',hs,rfl⟩

/-- In every reachable state, for every id: a report changes nothing exactly
when no sub-task is out under the id and the owner of its slot is not running;
a message of fewer than eight bytes does what a report of id 0 does. -/
theorem stray_report_ignored_iff {backend : Backend} {cfg : LinquOrchConfigInternal}
    {s₀ s : State} {ops : List Op} (hinit : init backend cfg = .ok s₀)
    (hrun : Run Steps ops s₀ s) :
    (∀ id, (∃ s', s.onTaskComplete id = .ok s' ∧ Unchanged s s') ↔ Unclaimed s id) ∧
      ∀ (d : RemoteDispatcher) (payload : List UInt8), payload.length < 8 →
        ((∃ d' s', receive d s payload = .ok (d',s') ∧ Unchanged s s') ↔ Unclaimed s 0) := by
  have hw := (repaid_reachable hinit hrun).shape.ring.window_pos
  refine ⟨fun id => ignored_iff hw id,fun d payload hlen => ?_⟩
  simp only [receive_short hlen, and_assoc, exists_and_left, exists_eq_left, ignored_iff hw 0]

/-- The id is that of a task that was never submitted. -/
theorem stray_report_ignored_early : ∃ s₀ s, init .dispatcher twoSlots = .ok s₀ ∧
    Run Steps [.submitTask {} none [] []] s₀ s ∧ ∃ s', s.onTaskComplete 1 = .ok s' ∧
    Unchanged s s' := by
  obtain ⟨s₀,s,h₀,hr,-,ht⟩ := run_of_check (b := .dispatcher) (c := twoSlots)
    (l := [.submitTask {} none [] []]) (g := fun _ => true)
    (t := fun s => decide (Unclaimed s 1)) (by decide +kernel)
  have hfree : Unclaimed s 1 := of_decide_eq_true ht
  exact ⟨s₀,s,h₀,hr,((stray_report_ignored_iff h₀ hr).1 1).mpr hfree⟩

def oneSlot : LinquOrchConfigInternal := { taskRingWindow := 1 }

/-- Task 0 is reported and retired, task 1 takes its slot. -/
def slotReused : List Op :=
  [.scopeBegin,.submitTask {} none [] [],.onTaskComplete 0,.scopeEnd,.submitTask {} none [] []]

/-- A second report of task 0, and an empty message, complete task 1. -/
theorem repeated_report_completes_other : ∃ s₀ s, init .dispatcher oneSlot = .ok s₀ ∧
    Run Steps slotReused s₀ s ∧ ¬ Outstanding s.trace 0 ∧ (s.get 1).status = .running ∧
    (∃ s', s.onTaskComplete 0 = .ok s' ∧ (s'.get 1).status = .completed) ∧
    ∃ d s', receive {} s [] = .ok (d,s') ∧ (s'.get 1).status = .completed := by
  obtain ⟨s₀,s,h₀,hr,-,ht⟩ := run_of_check (b := .dispatcher) (c := oneSlot)
    (l := slotReused) (g := fun _ => true)
    (t := fun s => decide (¬ Outstanding s.trace 0) && decide ((s.get 1).status = .running) &&
      (s.onTaskComplete 0).toOption.any (fun s' => (s'.get 1).status = .completed))
    (by decide +kernel)
  simp only [Bool.and_eq_true, decide_eq_true_eq] at ht
  obtain ⟨⟨hout,hrun⟩,ht⟩ := ht
  cases hs' : s.onTaskComplete 0 with
  | error e =>
    rw [hs'] at ht
    cases ht
  | ok s' =>
    rw [hs'] at ht
    have hc := of_decide_eq_true ht
    exact ⟨s₀,s,h₀,hr,hout,hrun,⟨s',hs',hc⟩,_,s',(receive_short (by decide)).mpr ⟨rfl,hs'⟩,hc⟩

end Linqu.StrayReports
