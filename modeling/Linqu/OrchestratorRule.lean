import Linqu.Orchestrator
import Linqu.Transition
import Linqu.Outcomes

/-!
# What a completion can change

Completing a task touches statuses, reference counters, the group tables and
the trace; lists, counts, ids and ring indices stay. `Frame` collects what
stays. `PropagateRule` reduces every other statement about
`propagate_completion` to its single updates: a predicate carries along the
producers still to be released, the consumers still to be notified, the tasks
whose own completion is still being worked on, and the consumers still to be
checked. The recursion through groups that complete on the spot is dealt with
here once.
-/

set_option autoImplicit false

namespace Linqu.OrchestratorRule
open Linqu.TaskRing Linqu.TaskRing.LinquTaskRing Linqu.DepPool Linqu.Orchestrator
open Linqu.Orchestrator.LinquOrchestratorState Linqu.OrchestrationApi Linqu.Transition
open Linqu.Outcomes

abbrev State := LinquOrchestratorState

theorem get_modify (s : State) (i j : ℤ) (f : LinquTaskDescriptor → LinquTaskDescriptor) :
    (s.modify i f).get j =
      if s.taskRing.slot j = s.taskRing.slot i then f (s.get j) else s.get j :=
  s.taskRing.get_modify i j f

/-- A write leaves the fields it does not mention. -/
theorem get_modify_field {α : Type} (F : LinquTaskDescriptor → α) {s : State} {i : ℤ} (j : ℤ)
    {f : LinquTaskDescriptor → LinquTaskDescriptor} (hf : ∀ d, F (f d) = F d) :
    F ((s.modify i f).get j) = F (s.get j) := by
  rw [get_modify]
  split
  · exact hf _
  · rfl

theorem get_setStatus (s : State) (i j : ℤ) (v : Status) :
    (s.setStatus i v).get j =
      if s.taskRing.slot j = s.taskRing.slot i then { s.get j with status := v } else s.get j :=
  get_modify s i j _

theorem setStatus_field {α : Type} (F : LinquTaskDescriptor → α)
    (hF : ∀ d v, F { d with status := v } = F d) (s : State) (i j : ℤ) (v : Status) :
    F ((s.setStatus i v).get j) = F (s.get j) := by
  rw [get_setStatus]
  split
  · exact hF _ _
  · rfl

/-- The event of a backend call for one spec of a group. -/
def IsSubDispatch (e : Event) : Prop := ∃ call g i, e = .dispatch call ∧ call.origin = .sub g i

/-- The part of a descriptor that completions leave alone. -/
def fixed (d : LinquTaskDescriptor) : LinquTaskDescriptor :=
  { d with status := .pending, fanoutRefcount := 0, faninRefcount := 0, subCompleteCount := 0 }

structure Frame (s s' : State) : Prop where
  fixed : ∀ t, fixed (s'.get t) = fixed (s.get t)
  window : s'.taskRing.windowSize = s.taskRing.windowSize
  current : s'.taskRing.currentIndex = s.taskRing.currentIndex
  alive : s'.taskRing.lastTaskAlive = s.taskRing.lastTaskAlive
  depPool : s'.depPool = s.depPool
  tensorMap : s'.tensorMap = s.tensorMap
  scopeStack : s'.scopeStack = s.scopeStack
  heapRing : s'.heapRing = s.heapRing
  backend : s'.backend = s.backend
  events : ∃ l, s'.trace = l++s.trace ∧ ∀ e ∈ l, IsSubDispatch e

namespace Frame

variable {s s' s'' : State}

theorem refl (s : State) : Frame s s :=
  ⟨fun _ => rfl,rfl,rfl,rfl,rfl,rfl,rfl,rfl,rfl,[],rfl,by simp⟩

theorem trans (h : Frame s s') (h' : Frame s' s'') : Frame s s'' := by
  refine ⟨fun t => (h'.fixed t).trans (h.fixed t),h'.window.trans h.window,
    h'.current.trans h.current,h'.alive.trans h.alive,h'.depPool.trans h.depPool,
    h'.tensorMap.trans h.tensorMap,h'.scopeStack.trans h.scopeStack,
    h'.heapRing.trans h.heapRing,h'.backend.trans h.backend,?_⟩
  obtain ⟨l,hl,hsub⟩ := h.events
  obtain ⟨l',hl',hsub'⟩ := h'.events
  refine ⟨l'++l,by rw [hl', hl, List.append_assoc],fun e he => ?_⟩
  rcases List.mem_append.mp he with he | he
  · exact hsub' e he
  · exact hsub e he

theorem suffix (h : Frame s s') : s.trace <:+ s'.trace := by
  obtain ⟨l,hl,-⟩ := h.events
  exact ⟨l,hl.symm⟩

/-- The other events are those there were. -/
theorem mem_trace (h : Frame s s') {e : Event} (he : ¬ IsSubDispatch e) :
    e ∈ s'.trace ↔ e ∈ s.trace := by
  obtain ⟨l,hl,hsub⟩ := h.events
  rw [hl, List.mem_append, or_iff_right]
  exact fun hm => he (hsub e hm)

theorem submits (h : Frame s s') (t : ℤ) (b : Bool) :
    .submit t b ∈ s'.trace ↔ .submit t b ∈ s.trace :=
  h.mem_trace (fun ⟨_,_,_,he,_⟩ => by cases he)

theorem reports (h : Frame s s') (t : ℤ) : .report t ∈ s'.trace ↔ .report t ∈ s.trace :=
  h.mem_trace (fun ⟨_,_,_,he,_⟩ => by cases he)

theorem slot (h : Frame s s') (t : ℤ) : s'.taskRing.slot t = s.taskRing.slot t := by
  simp only [LinquTaskRing.slot, h.window]

theorem live (h : Frame s s') {t : ℤ} : s'.taskRing.Live t ↔ s.taskRing.Live t := by
  simp only [Live, h.alive, h.current]

theorem depListHead (h : Frame s s') (t : ℤ) : (s'.get t).depListHead = (s.get t).depListHead :=
  (congrArg LinquTaskDescriptor.depListHead (h.fixed t) :)

theorem fanoutListHead (h : Frame s s') (t : ℤ) :
    (s'.get t).fanoutListHead = (s.get t).fanoutListHead :=
  (congrArg LinquTaskDescriptor.fanoutListHead (h.fixed t) :)

theorem faninCount (h : Frame s s') (t : ℤ) : (s'.get t).faninCount = (s.get t).faninCount :=
  (congrArg LinquTaskDescriptor.faninCount (h.fixed t) :)

theorem fanoutCount (h : Frame s s') (t : ℤ) : (s'.get t).fanoutCount = (s.get t).fanoutCount :=
  (congrArg LinquTaskDescriptor.fanoutCount (h.fixed t) :)

theorem isGroup (h : Frame s s') (t : ℤ) : (s'.get t).isGroup = (s.get t).isGroup :=
  (congrArg LinquTaskDescriptor.isGroup (h.fixed t) :)

theorem groupSize (h : Frame s s') (t : ℤ) : (s'.get t).groupSize = (s.get t).groupSize :=
  (congrArg LinquTaskDescriptor.groupSize (h.fixed t) :)

theorem taskId (h : Frame s s') (t : ℤ) : (s'.get t).taskId = (s.get t).taskId :=
  (congrArg LinquTaskDescriptor.taskId (h.fixed t) :)

theorem faninList (h : Frame s s') (t : ℤ) : s'.faninList t = s.faninList t := by
  simp only [LinquOrchestratorState.faninList, h.depPool, h.depListHead]

theorem fanoutList (h : Frame s s') (t : ℤ) : s'.fanoutList t = s.fanoutList t := by
  simp only [LinquOrchestratorState.fanoutList, h.depPool, h.fanoutListHead]

end Frame

theorem frame_modify (s : State) (i : ℤ) (f : LinquTaskDescriptor → LinquTaskDescriptor)
    (hf : ∀ d, fixed (f d) = fixed d) : Frame s (s.modify i f) := by
  refine ⟨fun t => ?_,rfl,rfl,rfl,rfl,rfl,rfl,rfl,rfl,[],rfl,by simp⟩
  rw [get_modify]
  split
  · exact hf _
  · rfl

theorem frame_setStatus (s : State) (i : ℤ) (v : Status) : Frame s (s.setStatus i v) :=
  frame_modify s i _ fun _ => rfl

theorem frame_checkTaskConsumed (s : State) (i : ℤ) : Frame s (s.checkTaskConsumed i) := by
  unfold checkTaskConsumed
  split
  · exact frame_setStatus s i _
  · exact Frame.refl s

theorem frame_raiseFanout (s : State) (i : ℤ) : Frame s (s.raiseFanout i) :=
  frame_modify s i _ fun _ => rfl

theorem frame_releaseProducer (s : State) (i : ℤ) : Frame s (s.releaseProducer i) :=
  (frame_raiseFanout s i).trans (frame_checkTaskConsumed _ i)

theorem frame_notifyConsumer (s : State) (i : ℤ) : Frame s (s.notifyConsumer i) :=
  frame_modify s i _ fun _ => rfl

theorem frame_countSubTask (s : State) (i : ℤ) : Frame s (s.countSubTask i) :=
  frame_modify s i _ fun _ => rfl

theorem frame_assignSubId (s : State) (g : ℤ) : Frame s (s.assignSubId g) :=
  ⟨fun _ => rfl,rfl,rfl,rfl,rfl,rfl,rfl,rfl,rfl,[],rfl,by simp⟩

theorem frame_record (s : State) {e : Event} (he : IsSubDispatch e) : Frame s (s.record e) :=
  ⟨fun _ => rfl,rfl,rfl,rfl,rfl,rfl,rfl,rfl,rfl,[e],rfl,by simpa using he⟩

theorem frame_eraseSpec (s : State) (g : ℤ) : Frame s (s.eraseSpec g) :=
  ⟨fun _ => rfl,rfl,rfl,rfl,rfl,rfl,rfl,rfl,rfl,[],rfl,by simp⟩

/-- The test that `check_consumers_ready` makes of a consumer. -/
def Satisfied (s : State) (c : ℤ) : Prop :=
  (s.get c).faninCount ≤ (s.get c).faninRefcount ∧ (s.get c).status = .pending

/-- Closure of a predicate under the updates of a completion. The lists are
the producers to release, the consumers to notify, the tasks in progress and
the consumers to check. -/
structure PropagateRule (I : List ℤ → List ℤ → List ℤ → List ℤ → State → Prop) : Prop where
  release : ∀ p rel ntf busy chk s, I (p::rel) ntf busy chk s →
    I rel ntf busy chk (s.releaseProducer p)
  notify : ∀ c ntf busy chk s, I [] (c::ntf) busy chk s → c ∈ chk →
    I [] ntf busy chk (s.notifyConsumer c)
  skip : ∀ c busy chk s, I [] [] busy (c::chk) s → ¬ Satisfied s c → I [] [] busy chk s
  ready : ∀ c busy chk s, I [] [] busy (c::chk) s → Satisfied s c → (s.get c).isGroup = false →
    I [] [] busy chk (s.setStatus c .ready)
  run : ∀ c busy chk s, I [] [] busy (c::chk) s → Satisfied s c → (s.get c).isGroup = true →
    s.backend ≠ .dispatcher ∨ s.pendingGroupSpecs.lookup c = none →
    I [] [] busy chk (s.setStatus c .running)
  dispatch : ∀ c busy chk s s' spec, I [] [] busy (c::chk) s → Satisfied s c →
    (s.get c).isGroup = true → s.backend = .dispatcher →
    s.pendingGroupSpecs.lookup c = some spec →
    (s.setStatus c .running).dispatchGroupSubTasks (fun s _ => .ok s) (fun _ s => .ok s) c
      (some spec.kernelSo) spec.groupParams spec.subTasks = .ok s' →
    I [] [] busy chk (s'.eraseSpec c)
  count : ∀ g busy chk s, s.backend ≠ .dispatcher → (s.get g).isGroup = true →
    I [] [] busy chk s → I [] [] busy chk ((s.assignSubId g).countSubTask g)
  complete : ∀ g busy chk s, s.backend ≠ .dispatcher → (s.get g).isGroup = true →
    I [] [] busy chk s →
    I (s.faninList g) (s.fanoutList g) (g::busy) (s.fanoutList g++chk) (s.setStatus g .completed)
  erase : ∀ c busy chk s, s.backend ≠ .dispatcher → (s.get c).isGroup = true →
    I [] [] busy chk s → I [] [] busy chk (s.eraseSpec c)
  finish : ∀ t busy chk s, I [] [] (t::busy) chk s → I [] [] busy chk (s.checkTaskConsumed t)

section Dispatcher

variable (g : ℤ) (k : Option String) (gp : List LinquParam) (n : ℕ)

/-- With a dispatcher the group loop never propagates. -/
theorem dispatchFrom_dispatcher (propagate : State → ℤ → Except Fault State)
    (subs : List LinquSubTaskSpec) : ∀ (i : ℕ) (s : State), s.backend = .dispatcher →
      dispatchFrom propagate (fun _ s => .ok s) g k gp n i subs s =
        dispatchFrom (fun s _ => .ok s) (fun _ s => .ok s) g k gp n i subs s := by
  induction subs with
  | nil => intro i s _; rfl
  | cons sub rest ih =>
    intro i s hs
    have hb : (s.assignSubId g).backend = .dispatcher := hs
    simp only [dispatchFrom, dispatchSubTask, hb]
    exact ih (i+1) _ hs

/-- A round of the group loop with a dispatcher. -/
theorem dispatchSubTask_dispatcher (propagate : State → ℤ → Except Fault State) (i : ℕ)
    (sub : LinquSubTaskSpec) {s : State} (hs : s.backend = .dispatcher) :
    s.dispatchSubTask propagate g k gp n i sub =
      .ok ((s.assignSubId g).record (.dispatch (s.subCall s.nextSubDispatchId g k gp i sub))) := by
  have hb : (s.assignSubId g).backend = .dispatcher := hs
  simp only [dispatchSubTask, hb]

end Dispatcher

/-- Only the table of sub-task ids, its counter and the trace may differ. -/
structure DispatchOnly (s s' : State) : Prop where
  eq : s' = { s with nextSubDispatchId := s'.nextSubDispatchId,
                     subDispatchToGroup := s'.subDispatchToGroup, trace := s'.trace }
  events : ∃ l, s'.trace = l++s.trace ∧ ∀ e ∈ l, IsSubDispatch e

theorem DispatchOnly.frame {s s' : State} (h : DispatchOnly s s') : Frame s s' := by
  have hev := h.events
  rw [h.eq] at hev ⊢
  exact ⟨fun _ => rfl,rfl,rfl,rfl,rfl,rfl,rfl,rfl,rfl,hev⟩

theorem dispatchFrom_only (g : ℤ) (k : Option String) (gp : List LinquParam) (n : ℕ)
    (subs : List LinquSubTaskSpec) : ∀ (i : ℕ) (s s' : State), s.backend = .dispatcher →
      dispatchFrom (fun s _ => .ok s) (fun _ s => .ok s) g k gp n i subs s = .ok s' →
      DispatchOnly s s' := by
  induction subs with
  | nil =>
    intro i s s' _ h
    cases h
    exact ⟨rfl,[],rfl,by simp⟩
  | cons sub rest ih =>
    intro i s s' hs h
    rw [dispatchFrom, dispatchSubTask_dispatcher g k gp n _ i sub hs] at h
    have hrest := ih (i+1) ((s.assignSubId g).record _) s' hs h
    have hrec := (frame_assignSubId s g).trans (frame_record (s.assignSubId g)
      (⟨_,g,i,rfl,rfl⟩ : IsSubDispatch (.dispatch (s.subCall s.nextSubDispatchId g k gp i sub))))
    exact ⟨hrest.eq,(hrec.trans hrest.frame).events⟩

section Rule

variable {I : List ℤ → List ℤ → List ℤ → List ℤ → State → Prop} (rule : PropagateRule I)
include rule

/-- What a call of `propagate_completion` is to satisfy. -/
def Propagates (I : List ℤ → List ℤ → List ℤ → List ℤ → State → Prop)
    (propagate : State → ℤ → Except Fault State) : Prop :=
  ∀ s t busy chk s', propagate s t = .ok s' →
    I (s.faninList t) (s.fanoutList t) (t::busy) (s.fanoutList t++chk) s →
    I [] [] busy chk s' ∧ Frame s s'

theorem dispatchSubTask_rule {propagate : State → ℤ → Except Fault State}
    (hprop : Propagates I propagate) {g : ℤ} {k : Option String} {gp : List LinquParam}
    {n i : ℕ} {sub : LinquSubTaskSpec} {busy chk : List ℤ} {s s' : State}
    (hb : s.backend ≠ .dispatcher) (hg : (s.get g).isGroup = true) (hI : I [] [] busy chk s)
    (h : s.dispatchSubTask propagate g k gp n i sub = .ok s') :
    I [] [] busy chk s' ∧ Frame s s' := by
  have hcount := rule.count g busy chk s hb hg hI
  have hfc := (frame_assignSubId s g).trans (frame_countSubTask (s.assignSubId g) g)
  unfold dispatchSubTask at h
  dsimp only at h
  split at h
  · rename_i hd
    exact absurd hd hb
  · split at h
    · have hg' : (((s.assignSubId g).countSubTask g).get g).isGroup = true :=
        (hfc.isGroup g).trans hg
      have hc := rule.complete g busy chk ((s.assignSubId g).countSubTask g) hb hg' hcount
      have hf := frame_setStatus ((s.assignSubId g).countSubTask g) g .completed
      rw [← hf.faninList, ← hf.fanoutList] at hc
      obtain ⟨hI',hf'⟩ := hprop _ g busy chk s' h hc
      exact ⟨hI',(hfc.trans hf).trans hf'⟩
    · cases h
      exact ⟨hcount,hfc⟩

theorem dispatchFrom_rule {propagate : State → ℤ → Except Fault State}
    (hprop : Propagates I propagate) (g : ℤ) (k : Option String) (gp : List LinquParam) (n : ℕ)
    (busy chk : List ℤ) (subs : List LinquSubTaskSpec) :
    ∀ (i : ℕ) (s s' : State), s.backend ≠ .dispatcher → (s.get g).isGroup = true →
      I [] [] busy chk s → dispatchFrom propagate (fun _ s => .ok s) g k gp n i subs s = .ok s' →
      I [] [] busy chk s' ∧ Frame s s' := by
  induction subs with
  | nil =>
    intro i s s' _ _ hI h
    cases h
    exact ⟨hI,Frame.refl s⟩
  | cons sub rest ih =>
    intro i s s' hb hg hI h
    rw [dispatchFrom] at h
    obtain ⟨m,hm,h⟩ := bind_ok.mp h
    obtain ⟨m',hm',h⟩ := bind_ok.mp h
    cases hm'
    obtain ⟨hmI,hmf⟩ := dispatchSubTask_rule rule hprop hb hg hI hm
    obtain ⟨hI',hf⟩ := ih (i+1) m s' (hmf.backend ▸ hb) ((hmf.isGroup g).trans hg) hmI h
    exact ⟨hI',hmf.trans hf⟩

theorem checkConsumer_rule {propagate : State → ℤ → Except Fault State}
    (hprop : Propagates I propagate) {c : ℤ} {busy chk : List ℤ} {s s' : State}
    (hI : I [] [] busy (c::chk) s) (h : s.checkConsumer propagate c = .ok s') :
    I [] [] busy chk s' ∧ Frame s s' := by
  have hrun := frame_setStatus s c .running
  unfold checkConsumer at h
  split at h
  · rename_i hsat
    split at h
    · rename_i hg
      dsimp only at h
      split at h
      · rename_i spec hspec
        obtain ⟨m,hm,h⟩ := bind_ok.mp h
        cases h
        by_cases hd : s.backend = .dispatcher
        · rw [dispatchGroupSubTasks,
            dispatchFrom_dispatcher c _ _ _ propagate _ 0 (s.setStatus c .running) hd] at hm
          have hf := (dispatchFrom_only c _ _ _ _ 0 (s.setStatus c .running) m hd hm).frame
          exact ⟨rule.dispatch c busy chk s m spec hI hsat hg hd hspec hm,
            (hrun.trans hf).trans (frame_eraseSpec m c)⟩
        · have hr := rule.run c busy chk s hI hsat hg (Or.inl hd)
          obtain ⟨hI',hf⟩ := dispatchFrom_rule rule hprop c _ _ _ busy chk _ 0
            (s.setStatus c .running) m hd ((hrun.isGroup c).trans hg) hr hm
          have hf' := hrun.trans hf
          exact ⟨rule.erase c busy chk m (hf'.backend ▸ hd) ((hf'.isGroup c).trans hg) hI',
            hf'.trans (frame_eraseSpec m c)⟩
      · rename_i hspec
        cases h
        exact ⟨rule.run c busy chk s hI hsat hg (Or.inr hspec),hrun⟩
    · rename_i hg
      cases h
      exact ⟨rule.ready c busy chk s hI hsat (by simpa using hg),frame_setStatus s c _⟩
  · rename_i hsat
    cases h
    exact ⟨rule.skip c busy chk s hI hsat,Frame.refl s⟩

theorem propagate_rule_frame (fuel : ℕ) : Propagates I (propagateCompletion fuel) := by
  induction fuel with
  | zero => intro s t busy chk s' h _; cases h
  | succ fuel ih =>
    intro s t busy chk s' h hI
    rw [propagateCompletion] at h
    obtain ⟨m,hm,h⟩ := bind_ok.mp h
    cases h
    -- the producers: both lists of the task are as they were afterwards
    have h1 := foldl_rule (P := fun rel u =>
        I rel (s.fanoutList t) (t::busy) (s.fanoutList t++chk) u ∧ Frame s u)
      (fun p rel u hu => ⟨rule.release p rel _ _ _ u hu.1,hu.2.trans (frame_releaseProducer u p)⟩)
      (s.faninList t) ⟨hI,Frame.refl s⟩
    generalize (s.faninList t).foldl releaseProducer s = s1 at h1 hm
    rw [h1.2.fanoutList] at hm
    -- the consumers are counted first and checked only then
    have h2 := foldl_rule (P := fun ntf u =>
        (I [] ntf (t::busy) (s.fanoutList t++chk) u ∧ ∀ c ∈ ntf, c ∈ s.fanoutList t) ∧ Frame s u)
      (fun c ntf u hu => ⟨⟨rule.notify c ntf _ _ u hu.1.1
          (List.mem_append_left _ (hu.1.2 c (by simp))),
        fun d hd => hu.1.2 d (by simp [hd])⟩,hu.2.trans (frame_notifyConsumer u c)⟩)
      (s.fanoutList t) ⟨⟨h1.1,fun _ h => h⟩,h1.2⟩
    generalize (s.fanoutList t).foldl notifyConsumer s1 = s2 at h2 hm
    rw [checkConsumersReady, h2.2.fanoutList] at hm
    have h3 := foldlM_rule (P := fun l u => I [] [] (t::busy) (l++chk) u ∧ Frame s u)
      (fun c l u v hu huv => by
        obtain ⟨hI',hf⟩ := checkConsumer_rule rule ih hu.1 huv
        exact ⟨hI',hu.2.trans hf⟩) (s.fanoutList t) ⟨h2.1.1,h2.2⟩ hm
    exact ⟨rule.finish t busy chk m h3.1,h3.2.trans (frame_checkTaskConsumed m t)⟩

/-- What holds when a task is marked completed, with its own lists to do,
holds with nothing left to do when `propagate_completion` returns. -/
theorem propagate_rule {fuel : ℕ} {s s' : State} {t : ℤ} {b c : List ℤ}
    (h : propagateCompletion fuel s t = .ok s')
    (hI : I (s.faninList t) (s.fanoutList t) (t::b) (s.fanoutList t++c) s) : I [] [] b c s' :=
  (propagate_rule_frame rule fuel s t b c s' h hI).1

end Rule

theorem frame_propagate {fuel : ℕ} {s s' : State} {t : ℤ}
    (h : propagateCompletion fuel s t = .ok s') : Frame s s' := by
  have rule : PropagateRule (fun _ _ _ _ _ => True) := by
    constructor <;> intros <;> trivial
  exact (propagate_rule_frame rule fuel s t [] [] s' h trivial).2

theorem frame_complete {s s' : State} {t : ℤ} (h : s.complete t = .ok s') : Frame s s' :=
  (frame_setStatus s t _).trans (frame_propagate h)

theorem frame_eraseSubId (s : State) (t : ℤ) : Frame s (s.eraseSubId t) :=
  ⟨fun _ => rfl,rfl,rfl,rfl,rfl,rfl,rfl,rfl,rfl,[],rfl,by simp⟩

/-- A completion changes nothing but the report outside the frame. -/
theorem frame_onTaskComplete {s s' : State} {t : ℤ} (h : s.onTaskComplete t = .ok s') :
    Frame (s.record (.report t)) s' := by
  unfold onTaskComplete at h
  dsimp only at h
  split at h
  · rename_i g _
    have hf := (frame_eraseSubId (s.record (.report t)) t).trans (frame_countSubTask _ g)
    split at h
    · exact hf.trans (frame_complete h)
    · cases h
      exact hf
  · split at h
    · exact frame_complete h
    · cases h
      exact Frame.refl _

/-! The two wait loops move the retirement cursor and deliver completions. -/

section Waiting

variable {E : Fault → Prop} {J : State → Prop}
  (hadvance : ∀ s, J s → J s.tryAdvanceRingPointers)

section Ends

variable (hreport : ∀ s t, J s → Ends E J (s.onTaskComplete t))
include hadvance hreport

/-- A wait that returns has found a slot. -/
theorem awaitSpace_ends (hdead : E .taskRingDeadlock) (arrivals : List (List ℤ)) :
    ∀ (n : ℕ) (s : State), J s →
      Ends E (fun u => J u ∧ u.taskRing.hasSpace = true) (awaitSpace arrivals n s) := by
  induction arrivals with
  | nil =>
    intro n s h
    rw [awaitSpace]
    dsimp only
    split
    · rename_i hsp
      exact .ok ⟨h,hsp⟩
    · split
      · rename_i hsp
        exact .ok ⟨hadvance s h,hsp⟩
      · exact .error hdead
  | cons ids rest ih =>
    intro n s h
    rw [awaitSpace]
    dsimp only
    split
    · rename_i hsp
      exact .ok ⟨h,hsp⟩
    · split
      · rename_i hsp
        exact .ok ⟨hadvance s h,hsp⟩
      · apply Ends.bind (Ends.foldlM (fun u t hu => hreport u t hu) ids (hadvance s h))
        intro u hu
        split
        · exact .error hdead
        · exact ih (n+1) u hu

theorem waitForSpace_ends (hdead : E .taskRingDeadlock)
    (hblock : ∀ s n, J s → J { s with taskBlockCount := n }) {s : State} (h : J s)
    (arrivals : List (List ℤ)) :
    Ends E (fun u => J u ∧ u.taskRing.hasSpace = true) (s.waitForSpace arrivals) := by
  unfold waitForSpace
  split
  · rename_i hsp
    exact .ok ⟨h,hsp⟩
  · exact awaitSpace_ends hadvance hreport hdead arrivals 0 _ (hblock s _ h)

/-- The block is taken in a state that the loop has reached. -/
theorem awaitHeap_ends (hdead : E .heapRingDeadlock) (size : ℕ) (arrivals : List (List ℤ)) :
    ∀ (n : ℕ) (s : State), J s → Ends E (fun v => ∃ u pos heapRing, J u ∧
      u.heapRing.tryAlloc size = some (pos,heapRing) ∧ v = { u with heapRing })
      (awaitHeap size arrivals n s) := by
  induction arrivals with
  | nil =>
    intro n s h
    rw [awaitHeap]
    dsimp only
    split
    · rename_i hr
      exact .ok ⟨s,_,_,h,hr,rfl⟩
    · split
      · rename_i hr
        exact .ok ⟨_,_,_,hadvance s h,hr,rfl⟩
      · exact .error hdead
  | cons ids rest ih =>
    intro n s h
    rw [awaitHeap]
    dsimp only
    split
    · rename_i hr
      exact .ok ⟨s,_,_,h,hr,rfl⟩
    · split
      · rename_i hr
        exact .ok ⟨_,_,_,hadvance s h,hr,rfl⟩
      · apply Ends.bind (Ends.foldlM (fun u t hu => hreport u t hu) ids (hadvance s h))
        intro u hu
        split
        · exact .error hdead
        · exact ih (n+1) u hu

theorem waitForHeap_ends (hdead : E .heapRingDeadlock)
    (hblock : ∀ s n, J s → J { s with heapBlockCount := n }) {s : State} (h : J s) (size : ℕ)
    (arrivals : List (List ℤ)) : Ends E (fun v => ∃ u pos heapRing, J u ∧
      u.heapRing.tryAlloc size = some (pos,heapRing) ∧ v = { u with heapRing })
      (s.waitForHeap size arrivals) := by
  unfold waitForHeap
  split
  · rename_i hr
    exact .ok ⟨s,_,_,h,hr,rfl⟩
  · exact awaitHeap_ends hadvance hreport hdead size arrivals 0 _ (hblock s _ h)

end Ends

section Returns

variable (hreport : ∀ s t s', J s → s.onTaskComplete t = .ok s' → J s')
include hadvance hreport

theorem waitForSpace_keeps {arrivals : List (List ℤ)} {s s' : State}
    (hblock : ∀ s n, J s → J { s with taskBlockCount := n }) (h : J s)
    (hs : s.waitForSpace arrivals = .ok s') : J s' :=
  ((waitForSpace_ends hadvance (fun u t hu => .of_returns fun v => hreport u t v hu) trivial hblock
    h arrivals).of_ok hs).1

theorem waitForHeap_keeps {size : ℕ} {arrivals : List (List ℤ)} {s s' : State}
    (hblock : ∀ s n, J s → J { s with heapBlockCount := n }) (h : J s)
    (hs : s.waitForHeap size arrivals = .ok s') : ∃ u pos heapRing, J u ∧
      u.heapRing.tryAlloc size = some (pos,heapRing) ∧ s' = { u with heapRing } :=
  (waitForHeap_ends hadvance (fun u t hu => .of_returns fun v => hreport u t v hu) trivial hblock
    h size arrivals).of_ok hs

end Returns

end Waiting

end Linqu.OrchestratorRule
