import Linqu.OrchestratorCalls

/-!
# The dependency lists between two calls

What `Shape` says about the two lists of a task, put in terms of the arena:
the offsets a walk meets, the counters of the descriptor, and the two ends of
an edge. No call needs a condition for it, whatever is reported complete.
-/

set_option autoImplicit false

namespace Linqu.DependencyLists
open Linqu.Chain Linqu.TaskRing Linqu.DepPool Linqu.DepPool.LinquDepListPool
open Linqu.Orchestrator Linqu.Orchestrator.LinquOrchestratorState Linqu.OrchestrationApi
open Linqu.Transition Linqu.OrchestratorRule Linqu.OrchestratorShape Linqu.OrchestratorCalls

/-- The walk from a head passes offsets that get smaller at each step, ends,
and meets the listed tasks. -/
def Listed (p : LinquDepListPool) (head : Option ℕ) (l : List ℤ) : Prop :=
  ∃ offsets, Spans p.next head offsets ∧ offsets.Pairwise (· > ·) ∧
    offsets.map (fun i => (p.pool i).taskId) = l

structure Consistent (s : State) : Prop where
  fanin : ∀ t, s.taskRing.Live t →
    Listed s.depPool (s.get t).depListHead (s.faninList t) ∧
      (s.get t).faninCount = (s.faninList t).length
  fanout : ∀ t, s.taskRing.Live t →
    Listed s.depPool (s.get t).fanoutListHead (s.fanoutList t) ∧
      (s.get t).fanoutCount = 1+(s.fanoutList t).length
  edges : ∀ p c, s.taskRing.Live p → s.taskRing.Live c →
    (s.fanoutList p).count c = (s.faninList c).count p

theorem decreasing {p : LinquDepListPool} (hp : p.Sorted) {o : Option ℕ} {l : List ℕ}
    (h : Spans p.next o l) (ho : p.Below o) : l.Pairwise (· > ·) := by
  induction h with
  | nil => exact List.Pairwise.nil
  | @cons a l rest ih =>
    have ha := ho a rfl
    have hnext : ∀ j, p.next a = some j → j < a := hp.next_lt a ha
    apply List.Pairwise.cons
    · -- every offset behind `a` is below its successor, hence below `a`
      apply chain_mem_step (S := fun i => i < a) _ rest hnext
      intro i hi j hj
      exact (hp.next_lt i (hi.trans ha) j hj).trans hi
    · apply ih
      intro j hj
      exact (hnext j hj).trans ha

theorem listed_tasks {p : LinquDepListPool} (hp : p.Sorted) {o : Option ℕ} (ho : p.Below o) :
    Listed p o (p.tasks o) := by
  obtain ⟨l,hl⟩ := sorted_finite hp ho
  exact ⟨l,hl,decreasing hp hl ho,(tasks_eq hp ho hl).symm⟩

theorem consistent_of_shape {s : State} (h : Shape s) : Consistent s where
  fanin t ht := ⟨listed_tasks h.pool (h.heads t).1,h.faninCount t ht⟩
  fanout t ht := ⟨listed_tasks h.pool (h.heads t).2,h.fanoutCount t ht⟩
  edges := h.edges

theorem shape_rule : TaskCalls (fun _ _ _ _ s => Shape s) (fun _ _ _ => True) where
  shape _ _ _ _ _ h := h
  quiet _ _ _ _ q h := q.shape h
  release p _ _ _ _ s h := h.of_frame (frame_releaseProducer s p)
  notify c _ _ _ s h _ := h.of_frame (frame_notifyConsumer s c)
  skip _ _ _ _ h _ := h
  wake c v _ _ s h _ _ := h.of_frame (frame_setStatus s c v)
  count g _ _ s h := h.of_frame (frame_countSubTask s g)
  complete g _ _ s h := h.of_frame (frame_setStatus s g .completed)
  finish t _ _ s h := h.of_frame (frame_checkTaskConsumed s t)
  advance _ _ _ r h := r.shape h
  enter _ s₁ tid _ _ _ v _ _ _ e _ := e.shape.of_frame (frame_setStatus s₁ tid v)
  scopeBegin s s' h hs := by
    obtain ⟨st,-,hs⟩ := bind_ok.mp hs
    cases hs
    exact h.of_eq rfl rfl rfl
  closeScope s s' h hs := by
    apply closeScope_rule _ _ _ hs
    · intro st n
      exact h.of_eq rfl rfl rfl
    · intro u t hu
      exact hu.of_frame (frame_raiseFanout u t)
    · intro u t hu
      exact hu.of_frame (frame_checkTaskConsumed u t)
  scopeRelease s t h := h.of_frame (frame_checkTaskConsumed s t)

theorem run_shape {ops : List Op} {s s' : State} (h : Shape s) (hr : Run Steps ops s s') :
    Shape s' :=
  run_rule shape_rule.callRule h (guarded_true ops s) hr

/-- In every state between calls, and for every task that is not retired. -/
theorem dependencies_consistent {backend : Backend} {cfg : LinquOrchConfigInternal}
    {ops : List Op} {s₀ s : State} (h₀ : init backend cfg = .ok s₀) (hr : Run Steps ops s₀ s) :
    Consistent s :=
  consistent_of_shape (run_shape (init_shape h₀) hr)

/-- A diamond with a self reference, one end of whose edges is retired. -/
def diamond : List Op :=
  [.scopeBegin,.submitTask {} none [linquMakeOutput 1] [],.scopeEnd,
    .scopeBegin,.submitTask {} none [linquMakeInput 1,linquMakeOutput 2] [],
    .submitTask {} none [linquMakeInput 1,linquMakeOutput 3] [],
    .submitTaskGroup none [linquMakeInput 2,linquMakeInput 3,linquMakeInout 4,linquMakeInout 4]
      [⟨{},none,[]⟩] [] [],
    .onTaskComplete 0,.onTaskComplete 1,.onTaskComplete 2,.tryAdvanceRingPointers]

theorem dependencies_consistent_diamond : ∃ s₀ s, init .dispatcher {} = .ok s₀ ∧
    Run Steps diamond s₀ s ∧ Consistent s ∧ s.taskRing.lastTaskAlive = 1 ∧
    s.faninList 1 = [0] ∧ s.faninList 3 = [3,2,1] ∧ s.fanoutList 3 = [3] := by
  obtain ⟨s₀,s,h₀,hr,-,ht⟩ := run_of_check (b := .dispatcher) (c := {}) (l := diamond)
    (g := fun _ => true)
    (t := fun s => decide (s.taskRing.lastTaskAlive = 1 ∧ s.faninList 1 = [0] ∧ s.faninList 3 = [3,2,1] ∧
      s.fanoutList 3 = [3])) (by decide +kernel)
  exact ⟨s₀,s,h₀,hr,dependencies_consistent h₀ hr,of_decide_eq_true ht⟩

end Linqu.DependencyLists
