import Linqu.Retirement
import Linqu.PlainRuns

/-!
# Quiescence

With every task submitted in a scope, all scopes closed and all completions
delivered, nothing holds a live task any more: `Scoped` gives the token back
and `Plain` says that whatever is not finished is still out.
-/

set_option autoImplicit false

namespace Linqu.Quiescence
open Linqu.TaskRing Linqu.DepPool Linqu.TensorMap Linqu.ScopeStack Linqu.Orchestrator
open Linqu.Orchestrator.LinquOrchestratorState Linqu.OrchestrationApi Linqu.Transition
open Linqu.OrchestratorRule Linqu.OrchestratorShape Linqu.OrchestratorCalls Linqu.OrchestratorDone
open Linqu.Reports Linqu.Retirement Linqu.PlainRuns

/-- The outermost open scope begins at the bottom of the array, so that no
scope holds nothing. -/
structure Cut (st : LinquScopeStack) : Prop where
  empty : st.scopeBegins = [] → st.scopeTasks = []
  bottom : ∀ b ∈ st.scopeBegins.getLast?, b = 0

structure Scoped (s : State) : Prop where
  shape : Shape s
  submitted : ∀ t, s.taskRing.Live t → .submit t true ∈ s.trace
  cut : Cut s.scopeStack

theorem Scoped.of_frame {s s' : State} (h : Scoped s) (f : Frame s s') : Scoped s' :=
  ⟨h.shape.of_frame f,fun t ht => (f.submits t true).mpr (h.submitted t (f.live.mp ht)),
    f.scopeStack ▸ h.cut⟩

theorem scoped_rule : TaskRule (fun _ _ _ _ s => Scoped s) where
  shape _ _ _ _ _ h := h.shape
  quiet _ _ _ _ q h := ⟨q.shape h.shape,fun t ht => (q.submits t true).mpr
    (h.submitted t (q.taskRing ▸ ht)),q.scopeStack ▸ h.cut⟩
  release p _ _ _ _ s h := h.of_frame (frame_releaseProducer s p)
  notify c _ _ _ s h _ := h.of_frame (frame_notifyConsumer s c)
  skip _ _ _ _ h _ := h
  wake c v _ _ s h _ _ := h.of_frame (frame_setStatus s c v)
  count g _ _ s h := h.of_frame (frame_countSubTask s g)
  complete g _ _ s h := h.of_frame (frame_setStatus s g _)
  finish t _ _ s h := h.of_frame (frame_checkTaskConsumed s t)

theorem cut_add {st : LinquScopeStack} (h : Cut st) (hd : 0 ≤ st.depth) {st' : LinquScopeStack}
    (hb : st'.scopeBegins = st.scopeBegins) : Cut st' := by
  refine ⟨fun he => ?_,hb ▸ h.bottom⟩
  rw [hb] at he
  rw [LinquScopeStack.depth, he] at hd
  exact absurd hd (by simp)

theorem Cut.begin {st st' : LinquScopeStack} (h : Cut st) (hs : st.scopeBegin = some st') :
    Cut st' := by
  unfold LinquScopeStack.scopeBegin at hs
  split at hs
  · cases hs
    refine ⟨fun he => (by cases he),fun b hb => ?_⟩
    rcases hl : st.scopeBegins with _ | ⟨c,l⟩
    · simp only [hl, List.getLast?_singleton, Option.mem_def, Option.some.injEq] at hb
      rw [← hb, h.empty hl]
      rfl
    · simp only [hl, List.getLast?_cons_cons] at hb
      exact h.bottom b (hl ▸ hb)
  · cases hs

theorem Cut.pop {st : LinquScopeStack} (h : Cut st) {start : ℕ} {rest : List ℕ}
    (hb : st.scopeBegins = start::rest) :
    Cut { st with scopeTasks := st.scopeTasks.take start, scopeBegins := rest } := by
  refine ⟨fun he => ?_,fun b hm => ?_⟩
  · have hzero : start = 0 := h.bottom start (by rw [hb, show rest = [] from he]; rfl)
    change st.scopeTasks.take start = []
    rw [hzero, List.take_zero]
  · refine h.bottom b ?_
    rw [hb]
    cases rest with
    | nil => cases hm
    | cons c l => rw [List.getLast?_cons_cons]; exact hm

theorem Scoped.closeScope {s s' : State} (h : Scoped s) (hs : s.closeScope = .ok s') :
    Scoped s' := by
  obtain ⟨⟨ids,u⟩,hu,hs⟩ := bind_ok.mp hs
  cases hs
  obtain ⟨start,rest,hb,-,rfl⟩ := popScope_spec hu
  have hpop : Scoped { s with
      scopeStack := { s.scopeStack with
        scopeTasks := s.scopeStack.scopeTasks.take start, scopeBegins := rest }
      scopeEndCount := s.scopeEndCount+1 } :=
    ⟨h.shape.of_eq rfl rfl rfl,h.submitted,h.cut.pop hb⟩
  refine foldl_rule (P := fun _ v => Scoped v) (f := checkTaskConsumed)
    (fun t _ v hv => hv.of_frame (frame_checkTaskConsumed v t)) _ ?_
  refine foldl_rule (P := fun _ v => Scoped v) (f := releaseScopeToken) (fun t _ v hv => ?_) ids
    hpop
  rw [releaseScopeToken]
  split
  · exact hv
  · exact hv.of_frame (frame_raiseFanout v t)

/-- The submissions of a run in which every task is plain and scoped. -/
def PlainScoped (s : State) (group : Option ℕ) (_ : List LinquParam) : Prop :=
  group = none ∧ 0 ≤ s.scopeStack.depth

instance (s : State) (group : Option ℕ) (params : List LinquParam) :
    Decidable (PlainScoped s group params) :=
  inferInstanceAs (Decidable (_ ∧ _))

theorem scoped_calls : TaskCalls (fun _ _ _ _ s => Scoped s) PlainScoped where
  toTaskRule := scoped_rule
  advance _ _ _ r h := ⟨r.shape h.shape,fun t ht => r.rest.trace ▸ h.submitted t (r.live_of ht),
    r.rest.scopeStack ▸ h.cut⟩
  enter s s₁ tid group _ _ v h hc _ e _ := by
    refine Scoped.of_frame ⟨e.shape,fun t ht => ?_,cut_add h.cut hc.2 e.scopeBegins⟩
      (frame_setStatus s₁ tid v)
    rw [e.trace, List.mem_cons]
    rcases (e.live h.shape).mp ht with ht | rfl
    · exact Or.inr (h.submitted t ht)
    · left
      rw [decide_eq_true hc.2]
  scopeBegin s s' h hs := by
    obtain ⟨st,hst,hs⟩ := bind_ok.mp hs
    cases hs
    exact ⟨h.shape.of_eq rfl rfl rfl,h.submitted,h.cut.begin (required_ok.mp hst)⟩
  closeScope _ _ h hs := h.closeScope hs
  scopeRelease s t h := h.of_frame (frame_checkTaskConsumed s t)

theorem init_scoped {backend : Backend} {cfg : LinquOrchConfigInternal} {s : State}
    (h : init backend cfg = .ok s) : Scoped s := by
  obtain ⟨-,-,ht,hb,-,-,-⟩ := init_rest h
  exact ⟨init_shape h,fun t hl => absurd hl (init_not_live h t),
    ⟨fun _ => ht,fun b hm => (by rw [hb] at hm; cases hm)⟩⟩

/-- When all live tasks are consumed the cursor runs to the end. -/
theorem advance_all {s : State} (h : Shape s)
    (hc : ∀ t, s.taskRing.Live t → (s.get t).status = .consumed) :
    s.tryAdvanceRingPointers.taskRing.lastTaskAlive = s.taskRing.currentIndex ∧
      s.tryAdvanceRingPointers.taskRing.activeCount = 0 := by
  obtain ⟨cursor,r⟩ := tryAdvance_retired h
  have hcur : cursor = s.taskRing.currentIndex := by
    refine le_antisymm r.current ?_
    by_contra hlt
    exact r.stop (not_le.mp hlt) (hc cursor ⟨r.le,not_le.mp hlt⟩)
  rw [r.ring, hcur]
  exact ⟨rfl,sub_self s.taskRing.currentIndex⟩

/-- Quiescence reclaims every slot: with plain tasks submitted in scopes and
each dispatched id reported once, a state with no open scope and no id out
retires everything. -/
theorem quiescence_reclaims {backend : Backend} {cfg : LinquOrchConfigInternal} {s₀ s : State}
    {ops : List Op} (hinit : init backend cfg = .ok s₀) (hrun : Run Steps ops s₀ s)
    (hsubmits : Guarded Steps (Admits PlainScoped) ops s₀) (honce : ReportsOnce s.trace)
    (hclosed : s.scopeStack.scopeBegins = []) (hall : ∀ t, ¬ Outstanding s.trace t) :
    s.tryAdvanceRingPointers.taskRing.lastTaskAlive = s.taskRing.currentIndex ∧
      s.tryAdvanceRingPointers.taskRing.activeCount = 0 := by
  have hrep := repaid_reachable hinit hrun
  have hsc := run_rule scoped_calls.callRule (init_scoped hinit) hsubmits hrun
  have hplain : Plain s := by
    refine run_rule plain_calls (init_plain hinit) (guarded_mono (fun u op hc => ?_) hsubmits) hrun
    cases op <;> first | exact trivial | exact fun m hm => (hc m hm).1
  have htr := hplain.tracked honce
  have hdone : ∀ t, s.taskRing.Live t → finished s t = true := by
    intro t ht
    rw [finished_live ht]
    rcases htr.busy t ht with hr | hr
    · exact absurd ((htr.outstanding t).mpr ⟨ht,hr⟩) (hall t)
    · exact hr
  refine advance_all hrep.shape fun t ht => hrep.consumed ht (hdone t ht) (hsc.submitted t ht) ?_
    fun c hc => hdone c (hrep.shape.consumer_live ht hc)
  rw [hsc.cut.empty hclosed]
  exact List.not_mem_nil

/-- A producer and a consumer in nested scopes; the consumer is reported
first, the producer after both scopes are closed. -/
def nestedScopes : List Op :=
  [.scopeBegin,.submitTask {} none [linquMakeOutput 1] [],.scopeBegin,
    .submitTask {} none [linquMakeInput 1] [],.onTaskComplete 1,.scopeEnd,.scopeEnd,
    .onTaskComplete 0]

theorem quiescence_reclaims_nested : ∃ s₀ s, init .dispatcher fourSlots = .ok s₀ ∧
    Run Steps nestedScopes s₀ s ∧ s.taskRing.currentIndex = 2 ∧ s.taskRing.lastTaskAlive = 0 ∧
    s.tryAdvanceRingPointers.taskRing.lastTaskAlive = s.taskRing.currentIndex := by
  obtain ⟨s₀,s,h₀,hr,hs,ht⟩ := run_of_check (b := .dispatcher) (c := fourSlots)
    (l := nestedScopes)
    (g := checkGuarded (fun s group params => decide (PlainScoped s group params))
      nestedScopes)
    (t := fun s => decide (ReportsOnce s.trace ∧ s.scopeStack.scopeBegins = [] ∧
      (∀ t ∈ dispatchedIds s.trace, t ∈ reportedIds s.trace) ∧ s.taskRing.currentIndex = 2 ∧
      s.taskRing.lastTaskAlive = 0)) (by decide +kernel)
  obtain ⟨honce,hclosed,hall,hcur,halive⟩ := of_decide_eq_true ht
  have hg : Guarded Steps (Admits PlainScoped) nestedScopes s₀ :=
    guarded_of_check (fun _ _ _ h => of_decide_eq_true h) nestedScopes s₀ hs
  refine ⟨s₀,s,h₀,hr,hcur,halive,(quiescence_reclaims h₀ hr hg honce hclosed fun t ho => ?_).1⟩
  obtain ⟨hd,hn⟩ := outstanding_iff.mp ho
  exact hn (hall t hd)

end Linqu.Quiescence
