import Linqu.OrchestratorShape

/-!
# Invariants of the API calls

`CallRule` lists what a predicate has to survive: a completion, a move of the
retirement cursor, the end of each submit function, the two ends of a scope.
The back-pressure loops, which only move the cursor and deliver completions,
are dealt with here. A condition on submissions is read in the state in which
the loop has found a slot.
-/

set_option autoImplicit false

namespace Linqu.OrchestratorCalls
open Linqu.TaskRing Linqu.DepPool Linqu.TensorMap Linqu.ScopeStack Linqu.HeapRing
open Linqu.Orchestrator Linqu.Orchestrator.LinquOrchestratorState Linqu.OrchestrationApi
open Linqu.Transition Linqu.OrchestratorRule Linqu.OrchestratorShape

/-- Only the heap ring, the handle counter, the metrics and `done` may differ. -/
structure Metrics (s s' : State) : Prop where
  rest : Rest s s'
  taskRing : s'.taskRing = s.taskRing
  tensorMap : s'.tensorMap = s.tensorMap

/-! The initial state has no task. -/

section Init

variable {backend : Backend} {cfg : LinquOrchConfigInternal} {s : State}

theorem init_spec (h : init backend cfg = .ok s) :
    ∃ taskRing depPool tensorMap, LinquTaskRing.init cfg.taskRingWindow = some taskRing ∧
      LinquDepListPool.init cfg.depPoolCapacity = some depPool ∧
      LinquTensorMap.init cfg.tensormapBuckets cfg.tensormapPool = some tensorMap ∧
      s = { backend, taskRing, depPool, tensorMap,
            heapRing := .init cfg.heapRingCapacity,
            scopeStack := .init maxScopeDepth (cfg.taskRingWindow*maxScopeDepth) } := by
  obtain ⟨r,hr,h⟩ := bind_ok.mp h
  obtain ⟨d,hd,h⟩ := bind_ok.mp h
  obtain ⟨m,hm,h⟩ := bind_ok.mp h
  cases h
  exact ⟨r,d,m,required_ok.mp hr,required_ok.mp hd,required_ok.mp hm,rfl⟩

theorem init_ring (h : init backend cfg = .ok s) :
    0 < s.taskRing.windowSize ∧ s.taskRing.currentIndex = 0 ∧ s.taskRing.lastTaskAlive = 0 ∧
      ∀ t, s.get t = {} := by
  obtain ⟨r,d,m,hr,-,-,rfl⟩ := init_spec h
  unfold LinquTaskRing.init at hr
  split at hr
  · rename_i hw
    cases hr
    exact ⟨by simpa using hw.1,rfl,rfl,fun _ => rfl⟩
  · cases hr

theorem init_not_live (h : init backend cfg = .ok s) (t : ℤ) : ¬ s.taskRing.Live t := by
  obtain ⟨-,h1,h2,-⟩ := init_ring h
  rintro ⟨h3,h4⟩
  omega

theorem init_shape (h : init backend cfg = .ok s) : Shape s := by
  obtain ⟨hw,hcur,halive,hget⟩ := init_ring h
  have hnl := init_not_live h
  obtain ⟨r,d,m,-,hd,hm,rfl⟩ := init_spec h
  unfold LinquTensorMap.init at hm
  split at hm
  · cases hm
    refine ⟨⟨hw,halive.ge,by rw [hcur, halive],?_⟩,LinquDepListPool.init_sorted hd,fun t => ?_,
      fun t ht => absurd ht (hnl t),fun t ht => absurd ht (hnl t),fun t ht => absurd ht (hnl t),
      fun t _ ht => absurd ht (hnl t),fun t ht => absurd ht (hnl t),
      fun t ht => absurd ht (hnl t),fun i hi => (by cases hi),halive.symm⟩
    · rw [hcur, halive]
      omega
    · rw [hget]
      exact ⟨fun i hi => (by cases hi),fun i hi => (by cases hi)⟩
  · cases hm

theorem init_rest (h : init backend cfg = .ok s) :
    s.backend = backend ∧ s.trace = [] ∧ s.scopeStack.scopeTasks = [] ∧
      s.scopeStack.scopeBegins = [] ∧ s.subDispatchToGroup = [] ∧ s.pendingGroupSpecs = [] ∧
      s.nextSubDispatchId = -1 := by
  obtain ⟨r,d,m,-,-,-,rfl⟩ := init_spec h
  exact ⟨rfl,rfl,rfl,rfl,rfl,rfl,rfl⟩

end Init

variable {J : State → Prop} {C : State → Option ℕ → List LinquParam → Prop}

structure CallRule (J : State → Prop) (C : State → Option ℕ → List LinquParam → Prop) : Prop where
  shape : ∀ s, J s → Shape s
  metrics : ∀ s s', Metrics s s' → J s → J s'
  advance : ∀ s s' cursor, Retired s s' cursor → J s → J s'
  report : ∀ s t s', J s → s.onTaskComplete t = .ok s' → J s'
  task : ∀ s s₁ s' tid found target kernelSo params, J s → C s none params →
    producersOf s.taskRing.currentIndex s.tensorMap params = some found →
    Entered s s₁ tid none found.reverse → s₁.launchTask tid target kernelSo params = .ok s' → J s'
  group : ∀ s s₁ s' tid found kernelSo params subs arrivals, J s →
    C s (some (List.length subs)) params →
    producersOf s.taskRing.currentIndex s.tensorMap params = some found →
    Entered s s₁ tid (some (List.length subs)) found.reverse →
    s₁.launchGroup tid kernelSo params subs arrivals = .ok s' → J s'
  scopeBegin : ∀ s s', J s → s.scopeBegin = .ok s' → J s'
  closeScope : ∀ s s', J s → s.closeScope = .ok s' → J s'
  scopeRelease : ∀ s t, J s → J (s.checkTaskConsumed t)

/-- The condition on a submission, once its wait is over. -/
def Admits (C : State → Option ℕ → List LinquParam → Prop) (s : State) : Op → Prop
  | .submitTask _ _ params arrivals => ∀ m, s.waitForSpace arrivals = .ok m → C m none params
  | .submitTaskGroup _ params subs arrivals _ =>
      ∀ m, s.waitForSpace arrivals = .ok m → C m (some subs.length) params
  | _ => True

section Rule

variable (rule : CallRule J C)
include rule

theorem advance_rule {s : State} (h : J s) : J s.tryAdvanceRingPointers := by
  obtain ⟨cursor,hr⟩ := tryAdvance_retired (rule.shape s h)
  exact rule.advance s _ cursor hr h

theorem waitForSpace_rule {arrivals : List (List ℤ)} {s s' : State} (h : J s)
    (hs : s.waitForSpace arrivals = .ok s') : J s' :=
  waitForSpace_keeps (fun _ hu => advance_rule rule hu) rule.report
    (fun s _ hu => rule.metrics s _ ⟨⟨rfl,rfl,rfl,rfl,rfl,rfl,rfl⟩,rfl,rfl⟩ hu) h hs

theorem waitForHeap_rule {size : ℕ} {arrivals : List (List ℤ)} {s s' : State} (h : J s)
    (hs : s.waitForHeap size arrivals = .ok s') : J s' := by
  obtain ⟨u,pos,r,hu,-,rfl⟩ := waitForHeap_keeps (fun _ hu => advance_rule rule hu) rule.report
    (fun s _ hu => rule.metrics s _ ⟨⟨rfl,rfl,rfl,rfl,rfl,rfl,rfl⟩,rfl,rfl⟩ hu) h hs
  exact rule.metrics u _ ⟨⟨rfl,rfl,rfl,rfl,rfl,rfl,rfl⟩,rfl,rfl⟩ hu

theorem allocTensor_rule {size : ℕ} {arrivals : List (List ℤ)} {s s' : State} {handle : UInt64}
    (h : J s) (hs : s.allocTensor size arrivals = .ok (handle,s')) : J s' := by
  have h' : J { s with nextTensorHandle := s.nextTensorHandle+1 } :=
    rule.metrics s _ ⟨⟨rfl,rfl,rfl,rfl,rfl,rfl,rfl⟩,rfl,rfl⟩ h
  unfold allocTensor at hs
  dsimp only at hs
  split at hs
  · cases hs
    exact h'
  · obtain ⟨m,hm,hs⟩ := bind_ok.mp hs
    cases hs
    exact rule.metrics m _ ⟨⟨rfl,rfl,rfl,rfl,rfl,rfl,rfl⟩,rfl,rfl⟩ (waitForHeap_rule rule h' hm)

/-- Every call that returns keeps the predicate. -/
theorem exec_rule {s s' : State} {op : Op} (h : J s) (hc : Admits C s op)
    (hs : Steps s op s') : J s' := by
  unfold Steps at hs
  cases op with
  | submitTask target kernelSo params arrivals =>
    obtain ⟨m,hm,hs⟩ := bind_ok.mp hs
    obtain ⟨⟨tid,e⟩,he,hs⟩ := bind_ok.mp hs
    have hJ := waitForSpace_rule rule h hm
    obtain ⟨found,hf,hent⟩ := enterTask_entered (rule.shape m hJ) he
    exact rule.task m e s' tid found target kernelSo params hJ (hc m hm) hf hent hs
  | submitTaskGroup kernelSo params subs arrivals dispatchArrivals =>
    obtain ⟨m,hm,hs⟩ := bind_ok.mp hs
    obtain ⟨⟨tid,e⟩,he,hs⟩ := bind_ok.mp hs
    have hJ := waitForSpace_rule rule h hm
    obtain ⟨found,hf,hent⟩ := enterTask_entered (rule.shape m hJ) he
    exact rule.group m e s' tid found kernelSo params subs dispatchArrivals hJ (hc m hm) hf hent hs
  | scopeBegin => exact rule.scopeBegin s s' h hs
  | scopeEnd =>
    obtain ⟨m,hm,hs⟩ := bind_ok.mp hs
    cases hs
    exact advance_rule rule (rule.closeScope s m h hm)
  | allocTensor size arrivals =>
    obtain ⟨r,hr,rfl⟩ := map_ok.mp hs
    exact allocTensor_rule rule h hr
  | freeTensor handle =>
    cases hs
    exact rule.metrics s _ ⟨⟨rfl,rfl,rfl,rfl,rfl,rfl,rfl⟩,rfl,rfl⟩ h
  | orchestrationDone =>
    cases hs
    exact rule.metrics s _ ⟨⟨rfl,rfl,rfl,rfl,rfl,rfl,rfl⟩,rfl,rfl⟩ h
  | onTaskComplete t => exact rule.report s t s' h hs
  | onScopeRelease t =>
    cases hs
    exact rule.scopeRelease s t h
  | tryAdvanceRingPointers =>
    cases hs
    exact advance_rule rule h

/-- Every run whose submissions meet the condition keeps the predicate. -/
theorem run_rule {ops : List Op} {s s' : State} (h : J s)
    (hg : Guarded Steps (Admits C) ops s) (hr : Run Steps ops s s') : J s' :=
  run_invariant (P := J) (fun _ _ _ hs hc ht => exec_rule rule hs hc ht) h hg hr

end Rule

theorem guarded_true (ops : List Op) :
    ∀ s, Guarded Steps (Admits (fun _ _ _ => True)) ops s := by
  induction ops with
  | nil => intro s; trivial
  | cons op ops ih =>
    intro s
    exact ⟨by cases op <;> simp [Admits],fun m _ => ih m⟩

/-- A run evaluated: a test of its first and a test of its last state. -/
def checkRun (backend : Backend) (cfg : LinquOrchConfigInternal) (ops : List Op)
    (start test : State → Bool) : Bool :=
  match init backend cfg with
  | .ok s => start s && match ops.foldlM exec s with
    | .ok s' => test s'
    | .error _ => false
  | .error _ => false

theorem run_foldlM (ops : List Op) : ∀ (s s' : State),
    ops.foldlM exec s = .ok s' → Run Steps ops s s' := by
  induction ops with
  | nil => intro s s' h; cases h; rfl
  | cons op ops ih =>
    intro s s' h
    rw [List.foldlM_cons] at h
    obtain ⟨m,hm,h⟩ := bind_ok.mp h
    exact ⟨m,hm,ih m s' h⟩

theorem run_of_check {b : Backend} {c : LinquOrchConfigInternal} {l : List Op}
    {g t : State → Bool} (h : checkRun b c l g t = true) :
    ∃ s₀ s, init b c = .ok s₀ ∧ Run Steps l s₀ s ∧ g s₀ = true ∧ t s = true := by
  unfold checkRun at h
  split at h
  · rename_i s₀ h₀
    obtain ⟨hstart,h⟩ := Bool.and_eq_true_iff.mp h
    split at h
    · rename_i s hs
      exact ⟨s₀,s,h₀,run_foldlM l s₀ s hs,hstart,h⟩
    · cases h
  · cases h

def checkAdmits (test : State → Option ℕ → List LinquParam → Bool) (s : State) : Op → Bool
  | .submitTask _ _ params arrivals =>
    match s.waitForSpace arrivals with
    | .ok m => test m none params
    | .error _ => true
  | .submitTaskGroup _ params subs arrivals _ =>
    match s.waitForSpace arrivals with
    | .ok m => test m (some subs.length) params
    | .error _ => true
  | _ => true

def checkGuarded (test : State → Option ℕ → List LinquParam → Bool) : List Op → State → Bool
  | [], _ => true
  | op::ops, s => checkAdmits test s op &&
    match exec s op with
    | .ok m => checkGuarded test ops m
    | .error _ => true

theorem guarded_of_check {test : State → Option ℕ → List LinquParam → Bool}
    {C : State → Option ℕ → List LinquParam → Prop}
    (htest : ∀ s group params, test s group params = true → C s group params) (ops : List Op) :
    ∀ s, checkGuarded test ops s = true → Guarded Steps (Admits C) ops s := by
  induction ops with
  | nil => intro s _; trivial
  | cons op ops ih =>
    intro s h
    obtain ⟨hop,hrest⟩ := Bool.and_eq_true_iff.mp h
    refine ⟨?_,fun m hm => ih m ?_⟩
    · cases op <;> try trivial
      all_goals
        intro m hm
        simp only [checkAdmits, hm] at hop
        exact htest _ _ _ hop
    · have hm : exec s op = .ok m := hm
      rw [hm] at hrest
      exact hrest

/-- The end of a scope, for a predicate that does not look at the scope stack. -/
theorem closeScope_rule {P : State → Prop} {s s' : State}
    (hpop : ∀ st n, P { s with scopeStack := st, scopeEndCount := n })
    (hraise : ∀ u t, P u → P (u.raiseFanout t))
    (hcheck : ∀ u t, P u → P (u.checkTaskConsumed t)) (h : s.closeScope = .ok s') : P s' := by
  obtain ⟨⟨ids,u⟩,hu,h⟩ := bind_ok.mp h
  cases h
  obtain ⟨⟨ids',st⟩,-,hu⟩ := bind_ok.mp hu
  cases hu
  refine foldl_rule (P := fun _ v => P v) (f := checkTaskConsumed) (fun t _ v hv => hcheck v t hv) _ ?_
  refine foldl_rule (P := fun _ v => P v) (f := releaseScopeToken) (fun t _ v hv => ?_) ids
    (hpop st _)
  rw [releaseScopeToken]
  split
  · exact hv
  · exact hraise v t hv

theorem launchTask_dispatcher {s s' : State} {tid : ℤ} {target : LinquCoordinate}
    {kernelSo : Option String} {params : List LinquParam} (hb : s.backend = .dispatcher)
    (h : s.launchTask tid target kernelSo params = .ok s') :
    ∃ call : DispatchCall, call.taskId = tid ∧ call.origin = .plain ∧
      call.ring = (s.setStatus tid .running).taskRing ∧
      call.depPool = (s.setStatus tid .running).depPool ∧
      s' = (s.setStatus tid .running).record (.dispatch call) := by
  have hb' : (s.setStatus tid .running).backend = .dispatcher := hb
  unfold launchTask at h
  dsimp only at h
  rw [hb'] at h
  cases h
  exact ⟨_,rfl,rfl,rfl,rfl,rfl⟩

/-! Predicates that look at the tasks only. -/

/-- Ring, arena, tensor map, scope stack and submissions are as they were. -/
structure Quiet (s s' : State) : Prop where
  taskRing : s'.taskRing = s.taskRing
  depPool : s'.depPool = s.depPool
  tensorMap : s'.tensorMap = s.tensorMap
  scopeStack : s'.scopeStack = s.scopeStack
  submits : ∀ t b, .submit t b ∈ s'.trace ↔ .submit t b ∈ s.trace

theorem Metrics.quiet {s s' : State} (m : Metrics s s') : Quiet s s' :=
  ⟨m.taskRing,m.rest.depPool,m.tensorMap,m.rest.scopeStack,by simp [m.rest.trace]⟩

theorem quiet_record (s : State) {e : Event} (he : ∀ t b, e ≠ .submit t b) :
    Quiet s (s.record e) := by
  refine ⟨rfl,rfl,rfl,rfl,fun t b => ?_⟩
  change _ ∈ e::s.trace ↔ _
  rw [List.mem_cons, or_iff_right]
  exact fun h => he t b h.symm

theorem Quiet.shape {s s' : State} (q : Quiet s s') (h : Shape s) : Shape s' :=
  h.of_eq q.taskRing q.tensorMap q.depPool

/-- The updates a completion is made of, for a predicate on tasks. The lists
are those of `PropagateRule`. -/
structure TaskRule (I : List ℤ → List ℤ → List ℤ → List ℤ → State → Prop) : Prop where
  shape : ∀ rel ntf busy chk s, I rel ntf busy chk s → Shape s
  quiet : ∀ busy chk s s', Quiet s s' → I [] [] busy chk s → I [] [] busy chk s'
  release : ∀ p rel ntf busy chk s, I (p::rel) ntf busy chk s →
    I rel ntf busy chk (s.releaseProducer p)
  notify : ∀ c ntf busy chk s, I [] (c::ntf) busy chk s → c ∈ chk →
    I [] ntf busy chk (s.notifyConsumer c)
  skip : ∀ c busy chk s, I [] [] busy (c::chk) s → ¬ Satisfied s c → I [] [] busy chk s
  wake : ∀ c v busy chk s, I [] [] busy chk s → (s.get c).status = .pending →
    v = .ready ∨ v = .running → I [] [] busy chk (s.setStatus c v)
  count : ∀ g busy chk s, I [] [] busy chk s → I [] [] busy chk (s.countSubTask g)
  complete : ∀ g busy chk s, I [] [] busy chk s →
    I (s.faninList g) (s.fanoutList g) (g::busy) (s.fanoutList g++chk) (s.setStatus g .completed)
  finish : ∀ t busy chk s, I [] [] (t::busy) chk s → I [] [] busy chk (s.checkTaskConsumed t)

variable {I : List ℤ → List ℤ → List ℤ → List ℤ → State → Prop}

/-- A task that is woken need not be checked any more. -/
theorem TaskRule.wake_skip (rule : TaskRule I) {c : ℤ} {v : Status} {busy chk : List ℤ} {s : State}
    (h : I [] [] busy (c::chk) s) (hs : Satisfied s c) (hv : v = .ready ∨ v = .running) :
    I [] [] busy chk (s.setStatus c v) := by
  refine rule.skip c busy chk _ (rule.wake c v busy _ s h hs.2 hv) ?_
  rintro ⟨-,hp⟩
  rw [get_setStatus, if_pos rfl] at hp
  rcases hv with rfl | rfl <;> cases hp

theorem quiet_dispatchOnly {s s' : State} (h : DispatchOnly s s') : Quiet s s' := by
  have hsub := h.frame.submits
  rw [h.eq] at hsub ⊢
  exact ⟨rfl,rfl,rfl,rfl,hsub⟩

theorem TaskRule.propagateRule (rule : TaskRule I) : PropagateRule I where
  release := rule.release
  notify := rule.notify
  skip := rule.skip
  ready c busy chk s h hs _ := rule.wake_skip h hs (Or.inl rfl)
  run c busy chk s h hs _ _ := rule.wake_skip h hs (Or.inr rfl)
  dispatch c busy chk s s' spec h hs _ hd _ hm := by
    have hr := rule.wake_skip h hs (Or.inr rfl)
    have hq := quiet_dispatchOnly (dispatchFrom_only c _ _ _ _ 0 (s.setStatus c .running) s' hd hm)
    have hm := rule.quiet busy chk _ s' hq hr
    exact rule.quiet busy chk s' _ ⟨rfl,rfl,rfl,rfl,fun _ _ => Iff.rfl⟩ hm
  count g busy chk s _ _ h := by
    have hq : Quiet s (s.assignSubId g) := ⟨rfl,rfl,rfl,rfl,fun _ _ => Iff.rfl⟩
    exact rule.count g busy chk _ (rule.quiet busy chk s _ hq h)
  complete g busy chk s _ _ h := rule.complete g busy chk s h
  erase c busy chk s _ _ h := rule.quiet busy chk s _ ⟨rfl,rfl,rfl,rfl,fun _ _ => Iff.rfl⟩ h
  finish := rule.finish

section TaskRule

variable (rule : TaskRule I)
include rule

theorem propagate_task_rule {fuel : ℕ} {s s' : State} {t : ℤ} {busy chk : List ℤ}
    (h : I [] [] busy chk s)
    (hs : propagateCompletion fuel (s.setStatus t .completed) t = .ok s') :
    I [] [] busy chk s' := by
  have hc := rule.complete t busy chk s h
  have hf := frame_setStatus s t .completed
  rw [← hf.faninList, ← hf.fanoutList] at hc
  exact propagate_rule rule.propagateRule hs hc

theorem onTaskComplete_task_rule {s s' : State} {t : ℤ} (h : I [] [] [] [] s)
    (hs : s.onTaskComplete t = .ok s') : I [] [] [] [] s' := by
  have hr := rule.quiet [] [] s _ (quiet_record s (e := .report t) (by simp)) h
  unfold onTaskComplete at hs
  dsimp only at hs
  split at hs
  · rename_i g hg
    have he : I [] [] [] [] ((s.record (.report t)).eraseSubId t) :=
      rule.quiet [] [] (s.record (.report t)) _ ⟨rfl,rfl,rfl,rfl,fun _ _ => Iff.rfl⟩ hr
    have hcnt := rule.count g [] [] _ he
    split at hs
    · exact propagate_task_rule rule hcnt hs
    · cases hs
      exact hcnt
  · split at hs
    · exact propagate_task_rule rule hr hs
    · cases hs
      exact hr

theorem deliver_task_rule (ids : List ℤ) {s s' : State} (h : I [] [] [] [] s)
    (hs : s.deliver ids = .ok s') : I [] [] [] [] s' :=
  foldlM_rule (P := fun _ s => I [] [] [] [] s)
    (fun _ _ _ _ hm ht => onTaskComplete_task_rule rule hm ht) ids h hs

theorem dispatchSubTask_task_rule {fuel : ℕ} {g : ℤ} {k : Option String} {gp : List LinquParam}
    {n i : ℕ} {sub : LinquSubTaskSpec} {s s' : State} (h : I [] [] [] [] s)
    (hs : s.dispatchSubTask (propagateCompletion fuel) g k gp n i sub = .ok s') :
    I [] [] [] [] s' := by
  have ha : I [] [] [] [] (s.assignSubId g) :=
    rule.quiet [] [] s _ ⟨rfl,rfl,rfl,rfl,fun _ _ => Iff.rfl⟩ h
  unfold dispatchSubTask at hs
  dsimp only at hs
  split at hs
  · cases hs
    exact rule.quiet [] [] _ _ (quiet_record (s.assignSubId g) (by simp)) ha
  · have hc := rule.count g [] [] _ ha
    split at hs
    · exact propagate_task_rule rule hc hs
    · cases hs
      exact hc

/-- The loop of an immediate group, with the completions that come between
two dispatches. -/
theorem dispatchFrom_task_rule {fuel : ℕ} {g : ℤ} {k : Option String} {gp : List LinquParam}
    {n : ℕ} {arrivals : ℕ → List ℤ} (subs : List LinquSubTaskSpec) : ∀ (i : ℕ) (s s' : State),
      I [] [] [] [] s → dispatchFrom (propagateCompletion fuel)
        (fun i s => s.deliver (arrivals i)) g k gp n i subs s = .ok s' → I [] [] [] [] s' := by
  induction subs with
  | nil =>
    intro i s s' h hs
    cases hs
    exact h
  | cons sub rest ih =>
    intro i s s' h hs
    rw [dispatchFrom] at hs
    obtain ⟨m,hm,hs⟩ := bind_ok.mp hs
    obtain ⟨m',hm',hs⟩ := bind_ok.mp hs
    have h1 := dispatchSubTask_task_rule rule h hm
    exact ih (i+1) m' s' (deliver_task_rule rule _ h1 hm') hs

end TaskRule

theorem setStatus_setStatus (s : State) (t : ℤ) (v w : Status) :
    (s.setStatus t v).setStatus t w = s.setStatus t w := by
  simp only [setStatus, LinquOrchestratorState.modify, LinquTaskRing.modify,
    LinquTaskRing.get, LinquTaskRing.slot, Function.update_self, Function.update_idem]

/-- The statuses a new task may be seen with: running, or pending as a group
with sub-tasks and producers. -/
def Launched (group : Option ℕ) (found : List ℤ) (v : Status) : Prop :=
  v = .running ∨ v = .pending ∧ found ≠ [] ∧ ∃ n, group = some n ∧ n ≠ 0

/-- The other calls, for a predicate on tasks. -/
structure TaskCalls (I : List ℤ → List ℤ → List ℤ → List ℤ → State → Prop)
    (C : State → Option ℕ → List LinquParam → Prop) : Prop extends TaskRule I where
  advance : ∀ s s' cursor, Retired s s' cursor → I [] [] [] [] s → I [] [] [] [] s'
  enter : ∀ s s₁ tid group params found v, I [] [] [] [] s → C s group params →
    producersOf s.taskRing.currentIndex s.tensorMap params = some found →
    Entered s s₁ tid group found.reverse → Launched group found v →
    I [] [] [] [] (s₁.setStatus tid v)
  scopeBegin : ∀ s s', I [] [] [] [] s → s.scopeBegin = .ok s' → I [] [] [] [] s'
  closeScope : ∀ s s', I [] [] [] [] s → s.closeScope = .ok s' → I [] [] [] [] s'
  scopeRelease : ∀ s t, I [] [] [] [] s → I [] [] [] [] (s.checkTaskConsumed t)

theorem launchTask_task_rule (rule : TaskRule I) {s s' : State} {tid : ℤ}
    {target : LinquCoordinate} {k : Option String} {params : List LinquParam}
    (h : I [] [] [] [] (s.setStatus tid .running))
    (hs : s.launchTask tid target k params = .ok s') : I [] [] [] [] s' := by
  unfold launchTask at hs
  dsimp only at hs
  split at hs
  · cases hs
    exact rule.quiet [] [] _ _ (quiet_record (s.setStatus tid .running) (by simp)) h
  · have hr := rule.quiet [] [] _ _ (quiet_record (s.setStatus tid .running)
      (e := .dispatchFn ⟨tid,target,k.getD "",params,.plain,(s.setStatus tid .running).taskRing,
        (s.setStatus tid .running).depPool⟩) (by simp)) h
    exact propagate_task_rule rule hr hs
  · exact propagate_task_rule rule h hs

theorem launchGroup_task_rule (rule : TaskRule I) {s s' : State} {tid : ℤ} {k : Option String}
    {params : List LinquParam} {subs : List LinquSubTaskSpec} {arrivals : List (List ℤ)}
    (hrun : I [] [] [] [] (s.setStatus tid .running))
    (hwait : subs.length ≠ 0 → (s.get tid).faninCount ≠ 0 →
      I [] [] [] [] (s.setStatus tid .pending))
    (hs : s.launchGroup tid k params subs arrivals = .ok s') : I [] [] [] [] s' := by
  unfold launchGroup at hs
  split at hs
  · have hs' : (s.setStatus tid .running).complete tid = .ok s' := by
      rw [complete, setStatus_setStatus]
      exact hs
    exact propagate_task_rule rule hrun hs'
  · rename_i hn
    split at hs
    · exact dispatchFrom_task_rule rule subs 0 _ s' hrun hs
    · rename_i hfan
      cases hs
      exact rule.quiet [] [] (s.setStatus tid .pending) _
        ⟨rfl,rfl,rfl,rfl,fun _ _ => Iff.rfl⟩ (hwait hn hfan)

theorem TaskCalls.callRule (rule : TaskCalls I C) : CallRule (I [] [] [] []) C where
  shape s h := rule.shape _ _ _ _ s h
  metrics s s' m h := rule.quiet [] [] s s' m.quiet h
  advance := rule.advance
  report s t s' h hs := onTaskComplete_task_rule rule.toTaskRule h hs
  task s s₁ s' tid found target kernelSo params h hc hf he hs :=
    launchTask_task_rule rule.toTaskRule
      (rule.enter s s₁ tid none params found .running h hc hf he (Or.inl rfl)) hs
  group s s₁ s' tid found kernelSo params subs arrivals h hc hf he hs := by
    have hrun := rule.enter s s₁ tid _ params found .running h hc hf he (Or.inl rfl)
    apply launchGroup_task_rule rule.toTaskRule hrun _ hs
    intro hn hfan
    have hfound : found ≠ [] := by
      rintro rfl
      obtain ⟨_,_,_,hnew⟩ := he.new
      rw [hnew] at hfan
      exact hfan rfl
    exact rule.enter s s₁ tid _ params found .pending h hc hf he (Or.inr ⟨rfl,hfound,_,rfl,hn⟩)
  scopeBegin := rule.scopeBegin
  closeScope := rule.closeScope
  scopeRelease := rule.scopeRelease

end Linqu.OrchestratorCalls
