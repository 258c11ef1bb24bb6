import Linqu.Reports

/-!
# Submissions and backend calls

What a run submits is read off its calls: ids are given out from zero, so the
task with id `t` is the `t`-th submission. `works` lists what the backend has to
be told of a submission, `passed` what it was told. `SubmissionRule` lists what
a predicate on the submissions so far and the state has to survive.
-/

set_option autoImplicit false

namespace Linqu.Submissions
open Linqu.TaskRing Linqu.DepPool Linqu.Orchestrator Linqu.Orchestrator.LinquOrchestratorState
open Linqu.OrchestrationApi Linqu.Transition Linqu.OrchestratorRule Linqu.OrchestratorShape
open Linqu.OrchestratorCalls Linqu.Reports

inductive Submission where
  | task (target : LinquCoordinate) (kernelSo : Option String) (params : List LinquParam)
  | group (kernelSo : Option String) (groupParams : List LinquParam)
      (subTasks : List LinquSubTaskSpec)
  deriving DecidableEq, Repr

/-- What a backend call says about the work to be done. -/
structure Work where
  target : LinquCoordinate
  kernelSo : String
  params : List LinquParam
  deriving DecidableEq, Repr

def subWork (kernelSo : Option String) (groupParams : List LinquParam)
    (sub : LinquSubTaskSpec) : Work :=
  ⟨sub.target,(sub.kernelSo.or kernelSo).getD "",groupParams++sub.privateParams⟩

def Submission.works : Submission → List Work
  | .task target kernelSo params => [⟨target,kernelSo.getD "",params⟩]
  | .group kernelSo groupParams subTasks => subTasks.map (subWork kernelSo groupParams)

def Submission.size : Submission → Option ℕ
  | .task _ _ _ => none
  | .group _ _ subTasks => some subTasks.length

def submissionOf : Op → List Submission
  | .submitTask target kernelSo params _ => [.task target kernelSo params]
  | .submitTaskGroup kernelSo groupParams subTasks _ _ =>
      [.group kernelSo groupParams subTasks]
  | _ => []

def submitted (ops : List Op) : List Submission := ops.flatMap submissionOf

def ownerOf (call : DispatchCall) : ℤ :=
  match call.origin with
  | .plain => call.taskId
  | .sub g _ => g

def workOf (call : DispatchCall) : Work := ⟨call.target,call.kernelSo,call.params⟩

/-- The work that a call of this backend passes for a task. -/
def passedBy (backend : Backend) (tid : ℤ) : Event → List Work
  | .dispatch call =>
      if backend = .dispatcher ∧ ownerOf call = tid then [workOf call] else []
  | .dispatchFn call =>
      if backend = .dispatchFn ∧ ownerOf call = tid then [workOf call] else []
  | _ => []

/-- Everything the backend was passed for a task, oldest first. -/
def passed (backend : Backend) (trace : List Event) (tid : ℤ) : List Work :=
  trace.reverse.flatMap (passedBy backend tid)

theorem passed_cons (backend : Backend) (e : Event) (trace : List Event) (tid : ℤ) :
    passed backend (e::trace) tid = passed backend trace tid++passedBy backend tid e := by
  simp [passed]

theorem passed_report (b : Backend) (t : ℤ) (trace : List Event) (u : ℤ) :
    passed b (.report t::trace) u = passed b trace u := by
  rw [passed_cons]
  exact List.append_nil _

theorem passed_submit (b : Backend) (t : ℤ) (inScope : Bool) (trace : List Event) (u : ℤ) :
    passed b (.submit t inScope::trace) u = passed b trace u := by
  rw [passed_cons]
  exact List.append_nil _

/-- A task of `submit_task` is to be passed on at once, a group when it stops
waiting for its producers. -/
def Started (s : State) (tid : ℤ) : Submission → Prop
  | .task _ _ _ => True
  | .group _ _ _ => tid < s.taskRing.lastTaskAlive ∨ (s.get tid).status ≠ .pending

/-- The backend was passed the works of everything that was started, in order
and once each, and no sub-task is counted that was not passed to it. -/
structure Delivered (subs : List Submission) (s : State) : Prop where
  passed : ∀ (tid : ℕ) w, subs[tid]? = some w → Started s tid w →
    passed s.backend s.trace tid = w.works
  counted : ∀ tid : ℕ, s.taskRing.Live tid →
    (s.get tid).subCompleteCount ≤ (Submissions.passed s.backend s.trace tid).length

/-! The lists of consumers after a submission. -/

theorem addEdge_consumers {u u' : State} {tid p : ℤ} (hpool : u.depPool.Sorted)
    (hheads : ∀ t, u.depPool.Below (u.get t).depListHead ∧ u.depPool.Below (u.get t).fanoutListHead)
    (h : u.addEdge p tid = .ok u') : ∀ t, ∀ c ∈ u'.fanoutList t, c = tid ∨ c ∈ u.fanoutList t := by
  obtain ⟨i₁,pool₁,i₂,h1,h2,-,-,hget⟩ := addEdge_spec h
  have hb1 := hheads tid
  have hs1 := LinquDepListPool.prepend_sorted hpool hb1.1 h1
  have hb2 := (LinquDepListPool.prepend_below (hheads p).2 h1).1
  intro t c hc
  have hfan : u'.fanoutList t = u'.depPool.tasks (if u.taskRing.slot t = u.taskRing.slot p then
      some i₂ else (u.get t).fanoutListHead) := by
    simp only [fanoutList, hget]
  rw [hfan] at hc
  by_cases hslot : u.taskRing.slot t = u.taskRing.slot p
  · rw [if_pos hslot, LinquDepListPool.tasks_prepend_new hs1 hb2 h2,
      LinquDepListPool.tasks_prepend_old hpool hb1.1 (hheads p).2 h1] at hc
    have hsame : u.fanoutList t = u.depPool.tasks (u.get p).fanoutListHead := by
      simp only [fanoutList, LinquOrchestratorState.get, LinquTaskRing.get, hslot]
    rw [hsame]
    exact List.mem_cons.mp hc
  · have hold := (hheads t).2
    rw [if_neg hslot, LinquDepListPool.tasks_prepend_old hs1 hb2
        (LinquDepListPool.prepend_below hold h1).1 h2,
      LinquDepListPool.tasks_prepend_old hpool hb1.1 hold h1] at hc
    exact Or.inr hc

theorem linkParam_consumers {s u u' : State} {tid : ℤ} {prods : List ℤ} {n n' : ℕ} {p : LinquParam}
    (hs : Shape s) (htid : s.taskRing.Live tid) (hl : Linked s tid prods u)
    (h : linkParam tid (u,n) p = .ok (u',n')) :
    (∃ prods, Linked s tid prods u') ∧
      ∀ t, ∀ c ∈ u'.fanoutList t, c = tid ∨ c ∈ u.fanoutList t := by
  obtain ⟨⟨v,k⟩,hr,hw⟩ := bind_ok.mp h
  obtain ⟨found,-,-,hlv,-⟩ := linkRead_linked hs htid hl hr
  obtain ⟨-,-,hlu⟩ := linkWrite_linked htid hlv hw
  have hread : ∀ t, ∀ c ∈ v.fanoutList t, c = tid ∨ c ∈ u.fanoutList t := by
    unfold linkRead at hr
    split at hr
    · obtain ⟨q,-,hr⟩ := bind_ok.mp hr
      cases q with
      | none =>
        cases hr
        exact fun t c hc => Or.inr hc
      | some q =>
        obtain ⟨w,hq,hr⟩ := bind_ok.mp hr
        cases hr
        exact addEdge_consumers hl.pool hl.heads hq
    · cases hr
      exact fun t c hc => Or.inr hc
  have hwrite : ∀ t, u'.fanoutList t = v.fanoutList t := by
    intro t
    unfold linkWrite at hw
    split at hw
    · obtain ⟨tm,-,hw⟩ := bind_ok.mp hw
      cases hw
      rfl
    · cases hw
      rfl
  refine ⟨⟨_,hlu⟩,fun t c hc => ?_⟩
  rw [hwrite] at hc
  exact hread t c hc

/-- In the slots of the other tasks only the new task joins the consumers. -/
theorem enterTask_consumers {s s' : State} {k : String} {group : Option ℕ}
    {params : List LinquParam} {tid : ℤ} (h : Shape s)
    (he : s.enterTask k group params = .ok (tid,s')) :
    ∀ t, s.taskRing.slot t ≠ s.taskRing.slot tid →
      ∀ c ∈ s'.fanoutList t, c = tid ∨ c ∈ s.fanoutList t := by
  obtain ⟨⟨tid',a⟩,ha,he⟩ := bind_ok.mp he
  obtain ⟨⟨u,n⟩,hu,he⟩ := bind_ok.mp he
  obtain ⟨j,hj,he⟩ := bind_ok.mp he
  cases he
  have o := allocTask_opened ha (fun d => { d with
    kernelSo := k, taskId := tid, scopeDepth := a.scopeStack.depth.toNat,
    isGroup := group.isSome, groupSize := group.getD 0 })
  have hs₀ := o.shape ⟨rfl,rfl,rfl,rfl,rfl⟩ h
  have hlive := (o.live h).mpr (Or.inr rfl)
  have hloop := foldlM_rule (P := fun _ (v : State × ℕ) => (∃ prods, Linked _ tid prods v.1) ∧
      ∀ t, ∀ c ∈ v.1.fanoutList t, c = tid ∨
        c ∈ fanoutList (a.modify tid (fun d => { d with
          kernelSo := k, taskId := tid, scopeDepth := a.scopeStack.depth.toNat,
          isGroup := group.isSome, groupSize := group.getD 0 })) t)
    (fun p _ v w ⟨⟨prods,hl⟩,hv⟩ hw => by
      obtain ⟨hlw,hc⟩ := linkParam_consumers hs₀ hlive hl hw
      exact ⟨hlw,fun t c hm => (hc t c hm).elim Or.inl (hv t c)⟩)
    params ⟨⟨[],Linked.start hs₀ tid⟩,fun t c hc => Or.inr hc⟩ hu
  obtain ⟨hjr,-⟩ := joinScope_spec hj
  intro t ht c hc
  -- what follows the loop writes no list head
  have hlist : (notePeaks (j.modify tid (fun d => { d with
      heapEnd := j.heapRing.top }))).fanoutList t = u.fanoutList t := by
    have hpool : j.depPool = u.depPool := by
      rw [hjr]
      rfl
    have hhead : ∀ t, (j.get t).fanoutListHead = (u.get t).fanoutListHead := fun t => by
      rw [hjr]
      exact get_modify_field LinquTaskDescriptor.fanoutListHead t fun _ => rfl
    have hseal := get_modify_field (s := j) (i := tid) (f := fun d => { d with
      heapEnd := j.heapRing.top }) LinquTaskDescriptor.fanoutListHead t fun _ => rfl
    rw [hhead] at hseal
    change j.depPool.tasks _ = _
    rw [hpool]
    exact congrArg u.depPool.tasks hseal
  rw [hlist] at hc
  apply (hloop.2 t c hc).imp_right
  intro hm
  rw [fanoutList, o.get, if_neg ht, o.depPool] at hm
  exact hm

/-! Calls and runs. -/

structure SubmissionRule (J : List Submission → State → Prop)
    (C : State → Option ℕ → List LinquParam → Prop) : Prop where
  shape : ∀ l s, J l s → Shape s
  settles : ∀ l s s', Settles s s' → J l s → J l s'
  advance : ∀ l s s' cursor, Retired s s' cursor → J l s → J l s'
  report : ∀ l s t s', J l s → s.onTaskComplete t = .ok s' → J l s'
  task : ∀ l s s₁ s' tid target kernelSo params, J l s →
    s.enterTask (kernelSo.getD "") none params = .ok (tid,s₁) →
    s₁.launchTask tid target kernelSo params = .ok s' →
    J (l++[.task target kernelSo params]) s'
  group : ∀ l s s₁ s' tid kernelSo params subs arrivals, J l s →
    C s (some (List.length subs)) params →
    s.enterTask (kernelSo.getD "group") (some (List.length subs)) params = .ok (tid,s₁) →
    s₁.launchGroup tid kernelSo params subs arrivals = .ok s' →
    J (l++[.group kernelSo params subs]) s'

section Rule

variable {J : List Submission → State → Prop} {C : State → Option ℕ → List LinquParam → Prop}
  (rule : SubmissionRule J C)
include rule

theorem advance_submissions {l : List Submission} {s : State} (h : J l s) :
    J l s.tryAdvanceRingPointers := by
  obtain ⟨cursor,hr⟩ := tryAdvance_retired (rule.shape l s h)
  exact rule.advance l s _ cursor hr h

theorem waitForSpace_submissions {l : List Submission} {arrivals : List (List ℤ)} {s s' : State}
    (h : J l s) (hs : s.waitForSpace arrivals = .ok s') : J l s' :=
  waitForSpace_keeps (J := J l) (fun _ hu => advance_submissions rule hu)
    (fun s t s' hu hv => rule.report l s t s' hu hv)
    (fun s _ hu => rule.settles l s _ (.of_eq rfl rfl rfl rfl rfl rfl rfl rfl) hu) h hs

theorem allocTensor_submissions {l : List Submission} {size : ℕ} {arrivals : List (List ℤ)}
    {s s' : State} {handle : UInt64} (h : J l s)
    (hs : s.allocTensor size arrivals = .ok (handle,s')) : J l s' := by
  have hmetrics : ∀ u v, Metrics u v → J l u → J l v := fun u v m =>
    rule.settles l u v (settles_metrics m)
  have h' : J l { s with nextTensorHandle := s.nextTensorHandle+1 } :=
    hmetrics s _ ⟨⟨rfl,rfl,rfl,rfl,rfl,rfl,rfl⟩,rfl,rfl⟩ h
  unfold allocTensor at hs
  dsimp only at hs
  split at hs
  · cases hs
    exact h'
  · obtain ⟨m,hm,hs⟩ := bind_ok.mp hs
    cases hs
    obtain ⟨u,pos,r,hu,-,rfl⟩ := waitForHeap_keeps (J := J l)
      (fun _ hu => advance_submissions rule hu) (fun s t s' hu hv => rule.report l s t s' hu hv)
      (fun s _ hu => hmetrics s _ ⟨⟨rfl,rfl,rfl,rfl,rfl,rfl,rfl⟩,rfl,rfl⟩ hu) h' hm
    exact hmetrics u _ ⟨⟨rfl,rfl,rfl,rfl,rfl,rfl,rfl⟩,rfl,rfl⟩ hu

theorem exec_submissions {l : List Submission} {s s' : State} {op : Op} (h : J l s)
    (hc : Admits C s op) (hs : Steps s op s') : J (l++submissionOf op) s' := by
  unfold Steps at hs
  cases op with
  | submitTask target kernelSo params arrivals =>
    obtain ⟨m,hm,hs⟩ := bind_ok.mp hs
    obtain ⟨⟨tid,e⟩,he,hs⟩ := bind_ok.mp hs
    exact rule.task l m e s' tid target kernelSo params (waitForSpace_submissions rule h hm) he hs
  | submitTaskGroup kernelSo params subs arrivals dispatchArrivals =>
    obtain ⟨m,hm,hs⟩ := bind_ok.mp hs
    obtain ⟨⟨tid,e⟩,he,hs⟩ := bind_ok.mp hs
    exact rule.group l m e s' tid kernelSo params subs dispatchArrivals
      (waitForSpace_submissions rule h hm) (hc m hm) he hs
  | scopeBegin =>
    simp only [submissionOf, List.append_nil]
    exact rule.settles l s s' (settles_scopeBegin hs) h
  | scopeEnd =>
    obtain ⟨m,hm,hs⟩ := bind_ok.mp hs
    cases hs
    simp only [submissionOf, List.append_nil]
    exact advance_submissions rule (rule.settles l s m (settles_closeScope hm) h)
  | allocTensor size arrivals =>
    simp only [submissionOf, List.append_nil]
    obtain ⟨r,hr,rfl⟩ := map_ok.mp hs
    exact allocTensor_submissions rule h hr
  | freeTensor handle =>
    cases hs
    simp only [submissionOf, List.append_nil]
    exact rule.settles l s _ (.of_eq rfl rfl rfl rfl rfl rfl rfl rfl) h
  | orchestrationDone =>
    cases hs
    simp only [submissionOf, List.append_nil]
    exact rule.settles l s _ (.of_eq rfl rfl rfl rfl rfl rfl rfl rfl) h
  | onTaskComplete t =>
    simp only [submissionOf, List.append_nil]
    exact rule.report l s t s' h hs
  | onScopeRelease t =>
    cases hs
    simp only [submissionOf, List.append_nil]
    exact rule.settles l s _ (settles_check s t) h
  | tryAdvanceRingPointers =>
    cases hs
    simp only [submissionOf, List.append_nil]
    exact advance_submissions rule h

end Rule

/-! A task that has left PENDING stays out of it. -/

def Awake (g : ℤ) (s : State) : Prop := Shape s ∧ (s.get g).status ≠ .pending

theorem Awake.settles {g : ℤ} {s s' : State} (h : Awake g s) (hs : Settles s s') : Awake g s' := by
  refine ⟨hs.shape h.1,fun hp => h.2 ?_⟩
  rcases hs.status g with he | ⟨-,hc⟩
  · rw [← he]
    exact hp
  · rw [hp] at hc
    cases hc

theorem Awake.setStatus {g c : ℤ} {v : Status} {s : State} (h : Awake g s) (hv : v ≠ .pending) :
    Awake g (s.setStatus c v) := by
  refine ⟨h.1.of_frame (frame_setStatus s c v),?_⟩
  rw [get_setStatus]
  split
  · exact hv
  · exact h.2

theorem awake_rule (g : ℤ) : TaskRule (fun _ _ _ _ s => Awake g s) where
  shape _ _ _ _ _ h := h.1
  quiet _ _ s s' q h := by
    refine ⟨q.shape h.1,?_⟩
    rw [LinquOrchestratorState.get, q.taskRing]
    exact h.2
  release p _ _ _ _ s h := h.settles (settles_release s p)
  notify c _ _ _ s h _ := h.settles (settles_notify s c)
  skip _ _ _ _ h _ := h
  wake c v _ _ s h _ hv := h.setStatus (by rcases hv with rfl | rfl <;> simp)
  count c _ _ s h := by
    refine ⟨h.1.of_frame (frame_countSubTask s c),?_⟩
    rw [countSubTask, get_modify]
    split
    · exact h.2
    · exact h.2
  complete c _ _ s h := h.setStatus (by simp)
  finish t _ _ s h := h.settles (settles_check s t)

end Linqu.Submissions
