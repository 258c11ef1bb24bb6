import Linqu.Outcomes
import Linqu.MockDispatcher
import Linqu.DispatchOrder
import Linqu.DependencyLists
import Linqu.Reports

/-!
# The backends agree

A program runs alike without a backend, with a dispatch function, and with a
dispatcher that reports from inside its dispatch. What makes the three meet is
that `propagate_completion` is only ever called for the task that was just
submitted, whose only consumer can be that task itself: nothing that waits is
woken, and no dispatch happens under the mutex. The states differ in the table
of sub-task ids, which only a report clears, and in the trace.
-/

set_option autoImplicit false

namespace Linqu.BackendsAgree
open Linqu.TaskRing Linqu.DepPool Linqu.Orchestrator Linqu.Orchestrator.LinquOrchestratorState
open Linqu.OrchestrationApi Linqu.Transition Linqu.OrchestratorRule Linqu.OrchestratorShape
open Linqu.OrchestratorCalls Linqu.DependencyLists Linqu.Reports Linqu.Outcomes Linqu.MockDispatcher

/-- All but the backend and the trace, with this table of sub-task ids. -/
def Same (m : List (ℤ × ℤ)) (s s' : State) : Prop :=
  ∃ b l, s' = { s with backend := b, subDispatchToGroup := m, trace := l }

variable {m : List (ℤ × ℤ)}

/-! The parts of a call that do not look at the difference. -/

theorem same_modify {s s' : State} (h : Same m s s') (t : ℤ)
    (f : LinquTaskDescriptor → LinquTaskDescriptor) : Same m (s.modify t f) (s'.modify t f) := by
  obtain ⟨b,l,rfl⟩ := h
  exact ⟨b,l,rfl⟩

theorem same_setStatus {s s' : State} (h : Same m s s') (t : ℤ) (v : Status) :
    Same m (s.setStatus t v) (s'.setStatus t v) :=
  same_modify h t _

theorem same_check {s s' : State} (h : Same m s s') (t : ℤ) :
    Same m (s.checkTaskConsumed t) (s'.checkTaskConsumed t) := by
  have hset := same_setStatus h t .consumed
  obtain ⟨b,l,rfl⟩ := h
  exact ite_rel (R := Same m) Iff.rfl (fun _ => hset) (fun _ => ⟨b,l,rfl⟩)

theorem same_release {s s' : State} (h : Same m s s') (p : ℤ) :
    Same m (s.releaseProducer p) (s'.releaseProducer p) :=
  same_check (same_modify h p _) p

theorem same_notify {s s' : State} (h : Same m s s') (c : ℤ) :
    Same m (s.notifyConsumer c) (s'.notifyConsumer c) :=
  same_modify h c _

theorem same_lists {s s' : State} (h : Same m s s') (t : ℤ) :
    s'.faninList t = s.faninList t ∧ s'.fanoutList t = s.fanoutList t := by
  obtain ⟨b,l,rfl⟩ := h
  exact ⟨rfl,rfl⟩

theorem same_get {s s' : State} (h : Same m s s') (t : ℤ) : s'.get t = s.get t := by
  obtain ⟨b,l,rfl⟩ := h
  rfl

theorem consumedUpTo_congr {s s' : State} (h : s'.taskRing = s.taskRing) (n : ℕ) :
    ∀ c : ℤ, s'.consumedUpTo n c = s.consumedUpTo n c := by
  induction n with
  | zero =>
    intro c
    rfl
  | succ n ih =>
    intro c
    rw [consumedUpTo, consumedUpTo, ih, LinquOrchestratorState.get, LinquOrchestratorState.get, h]

theorem same_advance {s s' : State} (h : Same m s s') :
    Same m s.tryAdvanceRingPointers s'.tryAdvanceRingPointers := by
  obtain ⟨b,l,rfl⟩ := h
  have hcursor : ∀ (n : ℕ) (c : ℤ), consumedUpTo
      { s with backend := b, subDispatchToGroup := m, trace := l } n c = s.consumedUpTo n c :=
    consumedUpTo_congr rfl
  unfold tryAdvanceRingPointers
  dsimp only
  rw [hcursor]
  apply ite_rel (R := Same m) Iff.rfl
  · intro _
    apply ite_rel (R := Same m) Iff.rfl
    · exact fun _ => ⟨b,l,rfl⟩
    · exact fun _ => ⟨b,l,rfl⟩
  · exact fun _ => ⟨b,l,rfl⟩

theorem alike_waitForSpace {s s' : State} (h : Same m s s') :
    Alike (Same m) (s.waitForSpace []) (s'.waitForSpace []) := by
  have hwait : ∀ u u' : State, Same m u u' → Alike (Same m) (awaitSpace [] 0 u) (awaitSpace [] 0 u') := by
    intro u u' hu
    have hadv := same_advance hu
    rw [awaitSpace.eq_def, awaitSpace.eq_def]
    dsimp only
    apply ite_rel (R := Alike (Same m))
    · obtain ⟨b,l,rfl⟩ := hu
      exact Iff.rfl
    · exact fun _ => .ok hu
    · intro _
      apply ite_rel (R := Alike (Same m))
      · obtain ⟨b,l,he⟩ := hadv
        rw [he]
      · exact fun _ => .ok hadv
      · exact fun _ => .error _
  obtain ⟨b,l,rfl⟩ := h
  apply ite_rel (R := Alike (Same m)) Iff.rfl
  · exact fun _ => .ok ⟨b,l,rfl⟩
  · exact fun _ => hwait _ _ ⟨b,l,rfl⟩

theorem alike_addEdge {s s' : State} (h : Same m s s') (p c : ℤ) :
    Alike (Same m) (s.addEdge p c) (s'.addEdge p c) := by
  obtain ⟨b,l,rfl⟩ := h
  unfold addEdge
  apply (Alike.refl _).bind
  rintro ⟨i,pool⟩ _ rfl
  apply (Alike.refl _).bind
  rintro ⟨i',pool'⟩ _ rfl
  exact .ok ⟨b,l,rfl⟩

/-- The relation in the loop over the parameters. -/
def SameFanin (m : List (ℤ × ℤ)) (a b : State × ℕ) : Prop := Same m a.1 b.1 ∧ a.2 = b.2

theorem alike_linkParam (tid : ℤ) (p : LinquParam) {a b : State × ℕ} (h : SameFanin m a b) :
    Alike (SameFanin m) (linkParam tid a p) (linkParam tid b p) := by
  have hread : Alike (SameFanin m) (linkRead tid a p) (linkRead tid b p) := by
    obtain ⟨s,n⟩ := a
    obtain ⟨s',n'⟩ := b
    obtain ⟨hs,hn⟩ := h
    cases hn
    unfold linkRead
    apply ite_rel (R := Alike (SameFanin m)) Iff.rfl
    · intro _
      have hmap : s'.tensorMap = s.tensorMap := by
        obtain ⟨b,l,rfl⟩ := hs
        rfl
      dsimp only
      rw [hmap]
      apply (Alike.refl _).bind
      rintro found _ rfl
      cases found with
      | none => exact .ok ⟨hs,rfl⟩
      | some q => exact (alike_addEdge hs q tid).bind fun u v huv => .ok ⟨huv,rfl⟩
    · exact fun _ => .ok ⟨hs,rfl⟩
  apply hread.bind
  rintro ⟨u,n⟩ ⟨v,n'⟩ ⟨hs,hn⟩
  cases hn
  unfold linkWrite
  apply ite_rel (R := Alike (SameFanin m)) Iff.rfl
  · intro _
    obtain ⟨b,l,rfl⟩ := hs
    apply (Alike.refl _).bind
    rintro tm _ rfl
    exact .ok ⟨⟨b,l,rfl⟩,rfl⟩
  · exact fun _ => .ok ⟨hs,rfl⟩

theorem alike_joinScope {s s' : State} (h : Same m s s') (tid : ℤ) :
    Alike (Same m) (s.joinScope tid) (s'.joinScope tid) := by
  obtain ⟨b,l,rfl⟩ := h
  apply ite_rel (R := Alike (Same m)) Iff.rfl
  · intro _
    apply (Alike.refl _).bind
    rintro st _ rfl
    exact .ok ⟨b,_,rfl⟩
  · exact fun _ => .ok ⟨b,_,rfl⟩

/-- The relation once the new task has its id. -/
def SameTask (m : List (ℤ × ℤ)) (a b : ℤ × State) : Prop := a.1 = b.1 ∧ Same m a.2 b.2

theorem alike_enterTask {s s' : State} (h : Same m s s') (k : String) (group : Option ℕ)
    (params : List LinquParam) :
    Alike (SameTask m) (s.enterTask k group params) (s'.enterTask k group params) := by
  have halloc : Alike (SameTask m) s.allocTask s'.allocTask := by
    obtain ⟨b,l,rfl⟩ := h
    apply (Alike.refl _).bind
    rintro ⟨tid,ring⟩ _ rfl
    exact .ok ⟨rfl,b,l,rfl⟩
  apply halloc.bind
  rintro ⟨tid,a⟩ ⟨tid',a'⟩ ⟨ht,ha⟩
  cases ht
  dsimp only
  have hopen : SameFanin m (a.modify tid (fun d => { d with
      kernelSo := k, taskId := tid, scopeDepth := a.scopeStack.depth.toNat,
      isGroup := group.isSome, groupSize := group.getD 0 }),0) (a'.modify tid (fun d => { d with
      kernelSo := k, taskId := tid, scopeDepth := a'.scopeStack.depth.toNat,
      isGroup := group.isSome, groupSize := group.getD 0 }),0) := by
    obtain ⟨b,l,rfl⟩ := ha
    exact ⟨⟨b,l,rfl⟩,rfl⟩
  apply (Alike.foldlM (fun a b p => alike_linkParam tid p) params hopen).bind
  rintro ⟨u,n⟩ ⟨v,n'⟩ ⟨hu,hn⟩
  cases hn
  apply (alike_joinScope (same_modify hu tid _) tid).bind
  rintro j j' ⟨b,l,rfl⟩
  exact .ok ⟨rfl,b,l,rfl⟩

theorem alike_allocTensor {s s' : State} (h : Same m s s') (size : ℕ) :
    Alike (Same m) ((s.allocTensor size []).map Prod.snd) ((s'.allocTensor size []).map Prod.snd) := by
  have hawait : ∀ u u' : State, Same m u u' →
      Alike (Same m) (awaitHeap size [] 0 u) (awaitHeap size [] 0 u') := by
    intro u u' hu
    have hadv := same_advance hu
    rw [awaitHeap.eq_def, awaitHeap.eq_def]
    obtain ⟨b,l,rfl⟩ := hu
    dsimp only
    cases u.heapRing.tryAlloc size with
    | some r => exact .ok ⟨b,l,rfl⟩
    | none =>
      dsimp only
      obtain ⟨b',l',he⟩ := hadv
      rw [he]
      dsimp only
      cases u.tryAdvanceRingPointers.heapRing.tryAlloc size with
      | some r => exact .ok ⟨b',l',rfl⟩
      | none => exact .error _
  have hwait : ∀ u u' : State, Same m u u' →
      Alike (Same m) (u.waitForHeap size []) (u'.waitForHeap size []) := by
    rintro u u' ⟨b,l,rfl⟩
    unfold waitForHeap
    dsimp only
    cases u.heapRing.tryAlloc size with
    | some r => exact .ok ⟨b,l,rfl⟩
    | none => exact hawait _ _ ⟨b,l,rfl⟩
  have halloc : Alike (fun a b : UInt64 × State => Same m a.2 b.2) (s.allocTensor size [])
      (s'.allocTensor size []) := by
    obtain ⟨b,l,rfl⟩ := h
    unfold allocTensor
    dsimp only
    apply ite_rel (R := Alike (fun a b : UInt64 × State => Same m a.2 b.2)) Iff.rfl
    · exact fun _ => .ok ⟨b,l,rfl⟩
    · intro _
      refine (hwait { s with nextTensorHandle := s.nextTensorHandle+1 } _ ⟨b,l,rfl⟩).bind ?_
      rintro u u' ⟨b',l',rfl⟩
      exact .ok ⟨b',l',rfl⟩
  exact halloc.map fun _ _ hab => hab

theorem alike_scopeBegin {s s' : State} (h : Same m s s') : Alike (Same m) s.scopeBegin s'.scopeBegin := by
  obtain ⟨b,l,rfl⟩ := h
  apply (Alike.refl _).bind
  rintro st _ rfl
  exact .ok ⟨b,l,rfl⟩

theorem same_token {s s' : State} (h : Same m s s') (t : ℤ) :
    Same m (s.releaseScopeToken t) (s'.releaseScopeToken t) := by
  have hraise : Same m (s.raiseFanout t) (s'.raiseFanout t) := same_modify h t _
  obtain ⟨b,l,rfl⟩ := h
  exact ite_rel (R := Same m) Iff.rfl (fun _ => ⟨b,l,rfl⟩) (fun _ => hraise)

theorem alike_scopeEnd {s s' : State} (h : Same m s s') : Alike (Same m) s.scopeEnd s'.scopeEnd := by
  have hpop : Alike (fun a b : List ℤ × State => a.1 = b.1 ∧ Same m a.2 b.2) s.popScope
      s'.popScope := by
    obtain ⟨b,l,rfl⟩ := h
    apply (Alike.refl _).bind
    rintro ⟨ids,st⟩ _ rfl
    exact .ok ⟨rfl,b,l,rfl⟩
  have hclose : Alike (Same m) s.closeScope s'.closeScope := by
    apply hpop.bind
    rintro ⟨ids,u⟩ ⟨ids',u'⟩ ⟨hids,hu⟩
    cases hids
    have htokens := foldl_rel (R := Same m) (fun _ _ t hab => same_token hab t) ids hu
    have hlive : (ids.foldl releaseScopeToken u').liveIds =
        (ids.foldl releaseScopeToken u).liveIds := by
      obtain ⟨b,l,he⟩ := htokens
      rw [he]
      rfl
    show Alike (Same m) (.ok (((ids.foldl releaseScopeToken u).liveIds).foldl checkTaskConsumed _))
      (.ok (((ids.foldl releaseScopeToken u').liveIds).foldl checkTaskConsumed _))
    rw [hlive]
    exact .ok (foldl_rel (R := Same m) (fun _ _ t hab => same_check hab t) _ htokens)
  exact hclose.bind fun u v huv => .ok (same_advance huv)

/-! A completion that wakes nobody. -/

/-- The walks of `propagate_completion` without the check of the consumers. -/
def settle (s : State) (t : ℤ) : State :=
  let s := (s.faninList t).foldl releaseProducer s
  let s := (s.fanoutList t).foldl notifyConsumer s
  s.checkTaskConsumed t

theorem same_settle {s s' : State} (h : Same m s s') (t : ℤ) : Same m (settle s t) (settle s' t) := by
  have hrel : Same m ((s.faninList t).foldl releaseProducer s)
      ((s'.faninList t).foldl releaseProducer s') := by
    rw [(same_lists h t).1]
    exact foldl_rel (R := Same m) (fun _ _ p hab => same_release hab p) _ h
  unfold settle
  dsimp only
  rw [(same_lists hrel t).2]
  exact same_check (foldl_rel (R := Same m) (fun _ _ c hab => same_notify hab c) _ hrel) t

/-- The task is finished and nothing but itself waits for it. -/
structure Alone (s : State) (t : ℤ) : Prop where
  consumers : ∀ c ∈ s.fanoutList t, c = t
  done : (s.get t).status.isDone = true

theorem Alone.same {s s' : State} {t : ℤ} (h : Alone s t) (hs : Same m s s') : Alone s' t := by
  refine ⟨?_,?_⟩
  · rw [(same_lists hs t).2]
    exact h.consumers
  · rw [same_get hs]
    exact h.done

theorem foldlM_skip {f : State → ℤ → Except Fault State} {s : State} (l : List ℤ)
    (h : ∀ c ∈ l, f s c = .ok s) : l.foldlM f s = .ok s := by
  induction l with
  | nil => rfl
  | cons c l ih =>
    rw [List.foldlM_cons, h c List.mem_cons_self]
    exact ih fun d hd => h d (List.mem_cons_of_mem c hd)

/-- When the consumers are checked the task has been released and notified. -/
theorem alone_walks {s : State} {t : ℤ} (h : Alone s t) :
    let u := (s.faninList t).foldl releaseProducer s
    let v := (u.fanoutList t).foldl notifyConsumer u
    ∀ c ∈ v.fanoutList t, (v.get c).status ≠ .pending := by
  intro u v
  have hu : Frame s u ∧ Settles s u := foldl_rule (P := fun _ w => Frame s w ∧ Settles s w)
    (fun p _ w hw => ⟨hw.1.trans (frame_releaseProducer w p),hw.2.trans (settles_release w p)⟩)
    (s.faninList t) ⟨Frame.refl s,Settles.refl s⟩
  have hv : Frame s v ∧ Settles s v := foldl_rule (P := fun _ w => Frame s w ∧ Settles s w)
    (fun c _ w hw => ⟨hw.1.trans (frame_notifyConsumer w c),hw.2.trans (settles_notify w c)⟩)
    (u.fanoutList t) hu
  intro c hc hp
  rw [hv.1.fanoutList] at hc
  have hdone := (hv.2.status t).isDone
  rw [h.done, ← h.consumers c hc, hp] at hdone
  cases hdone

theorem propagate_alone {s : State} {t : ℤ} (h : Alone s t) (fuel : ℕ) :
    LinquOrchestratorState.propagateCompletion (fuel+1) s t = .ok (settle s t) := by
  have hskip := foldlM_skip (f := LinquOrchestratorState.checkConsumer
      (LinquOrchestratorState.propagateCompletion fuel)) _ fun c hc => by
    rw [LinquOrchestratorState.checkConsumer, if_neg fun hand => alone_walks h c hc hand.2]
  rw [LinquOrchestratorState.propagateCompletion]
  unfold checkConsumersReady
  rw [hskip]
  rfl

theorem mock_propagate_alone {s : State} {t : ℤ} (h : Alone s t)
    (notify : State → ℤ → Except Fault State) :
    MockDispatcher.propagateCompletion notify s t = .ok (settle s t) := by
  have hskip := foldlM_skip (f := MockDispatcher.checkConsumer notify) _ fun c hc => by
    rw [MockDispatcher.checkConsumer, if_neg fun hand => alone_walks h c hc hand.2]
  unfold MockDispatcher.propagateCompletion
  dsimp only
  rw [hskip]
  rfl

theorem frame_settle (s : State) (t : ℤ) : Frame s (settle s t) := by
  have hu : Frame s ((s.faninList t).foldl releaseProducer s) := foldl_rule
    (P := fun _ w => Frame s w) (fun p _ w hw => hw.trans (frame_releaseProducer w p))
    (s.faninList t) (Frame.refl s)
  unfold settle
  dsimp only
  generalize (s.faninList t).foldl releaseProducer s = u at hu ⊢
  have hv : Frame s ((u.fanoutList t).foldl notifyConsumer u) := foldl_rule
    (P := fun _ w => Frame s w) (fun c _ w hw => hw.trans (frame_notifyConsumer w c))
    (u.fanoutList t) hu
  exact hv.trans (frame_checkTaskConsumed _ t)

/-! The ends of the submit functions. -/

theorem alone_completed {s : State} {t : ℤ} (h : ∀ c ∈ s.fanoutList t, c = t) :
    Alone (s.setStatus t .completed) t := by
  refine ⟨?_,?_⟩
  · rw [(frame_setStatus s t .completed).fanoutList]
    exact h
  · rw [get_setStatus, if_pos rfl]
    rfl

theorem complete_alone {s : State} {t : ℤ} (h : ∀ c ∈ s.fanoutList t, c = t) :
    s.complete t = .ok (settle (s.setStatus t .completed) t) :=
  propagate_alone (alone_completed h) _

theorem same_trace {u v : State} (h : Same m u v) (l l' : List Event) :
    Same m { u with trace := l } { v with trace := l' } := by
  obtain ⟨b,k,rfl⟩ := h
  exact ⟨b,l',rfl⟩

theorem same_table {u v : State} (h : Same m u v) : v.subDispatchToGroup = m := by
  obtain ⟨b,l,rfl⟩ := h
  rfl

/-- The dispatch of a plain task, while no sub-task is out: it is reported. -/
theorem mock_dispatch_plain {s : State} (call : DispatchCall) (hm : s.subDispatchToGroup = [])
    (hr : (s.get call.taskId).status = .running)
    (halone : ∀ c ∈ s.fanoutList call.taskId, c = call.taskId) :
    dispatch MockDispatcher.onTaskComplete s call = .ok (settle (LinquOrchestratorState.setStatus
      ((s.record (.dispatch call)).record (.report call.taskId)) call.taskId .completed)
      call.taskId) := by
  have halone' : ∀ c ∈ ((s.record (.dispatch call)).record (.report call.taskId)).fanoutList
      call.taskId, c = call.taskId := halone
  have hnone : ((s.record (.dispatch call)).record
      (.report call.taskId)).subDispatchToGroup.lookup call.taskId = none := by
    show s.subDispatchToGroup.lookup call.taskId = none
    rw [hm]
    rfl
  unfold dispatch MockDispatcher.onTaskComplete
  dsimp only
  rw [hnone]
  dsimp only
  rw [if_pos (show (((s.record (.dispatch call)).record (.report call.taskId)).get
    call.taskId).status = .running from hr)]
  exact mock_propagate_alone (alone_completed halone') relock

/-- A plain task is complete when its submission returns. -/
theorem alike_launchTask {u v : State} {tid : ℤ} (h : Same [] u v) (hb : u.backend ≠ .dispatcher)
    (halone : ∀ c ∈ u.fanoutList tid, c = tid) (target : LinquCoordinate) (k : Option String)
    (params : List LinquParam) :
    Alike (Same []) (u.launchTask tid target k params)
      (MockDispatcher.launchTask v tid target k params) := by
  have hrun := same_setStatus h tid .running
  have hcons : ∀ c ∈ (u.setStatus tid .running).fanoutList tid, c = tid := by
    rw [(frame_setStatus u tid .running).fanoutList]
    exact halone
  have hcons' : ∀ c ∈ (v.setStatus tid .running).fanoutList tid, c = tid := by
    rw [(same_lists hrun tid).2]
    exact hcons
  have hstatus : ((v.setStatus tid .running).get tid).status = .running := by
    rw [get_setStatus, if_pos rfl]
  unfold MockDispatcher.launchTask
  dsimp only
  rw [mock_dispatch_plain _ (same_table hrun) hstatus hcons']
  unfold LinquOrchestratorState.launchTask
  dsimp only
  split
  · rename_i hd
    exact absurd hd hb
  · have hfn : ∀ e, ∀ c ∈ ((u.setStatus tid .running).record e).fanoutList tid, c = tid :=
      fun _ => hcons
    rw [complete_alone (hfn _)]
    exact .ok (same_settle (same_setStatus (same_trace hrun _ _) tid .completed) tid)
  · rw [complete_alone hcons]
    exact .ok (same_settle (same_setStatus (same_trace hrun _ _) tid .completed) tid)

/-- The dispatch of a sub-task, while no other is out: it is counted. -/
theorem mock_dispatch_sub {u v : State} {g : ℤ} (h : Same [] u v) (call : DispatchCall)
    (hid : call.taskId = v.nextSubDispatchId) :
    ∃ w : State, Same [] ((u.assignSubId g).countSubTask g) w ∧
      dispatch MockDispatcher.onTaskComplete (v.assignSubId g) call =
        if (w.get g).groupSize ≤ (v.get g).subCompleteCount+1 then
          MockDispatcher.propagateCompletion relock (w.setStatus g .completed) g
        else .ok w := by
  have htable : (v.assignSubId g).subDispatchToGroup = [(v.nextSubDispatchId,g)] := by
    rw [assignSubId, same_table h]
    rfl
  have herase : mapErase (v.assignSubId g).subDispatchToGroup call.taskId = [] := by
    rw [htable, hid]
    simp [mapErase]
  have hsome : (((v.assignSubId g).record (.dispatch call)).record
      (.report call.taskId)).subDispatchToGroup.lookup call.taskId = some g := by
    show (v.assignSubId g).subDispatchToGroup.lookup call.taskId = some g
    rw [htable, hid]
    simp
  refine ⟨((((v.assignSubId g).record (.dispatch call)).record (.report call.taskId)).eraseSubId
    call.taskId).countSubTask g,?_,?_⟩
  · apply same_modify
    unfold eraseSubId
    rw [show (((v.assignSubId g).record (.dispatch call)).record
      (.report call.taskId)).subDispatchToGroup = (v.assignSubId g).subDispatchToGroup from rfl,
      herase]
    obtain ⟨b,l,rfl⟩ := h
    exact ⟨b,_,rfl⟩
  · unfold dispatch MockDispatcher.onTaskComplete
    dsimp only
    rw [hsome]
    rfl

/-- A round of the group loop: the last sub-task completes the group. -/
theorem alike_round {u v : State} {g : ℤ} (h : Same [] u v) (hb : u.backend ≠ .dispatcher)
    (halone : ∀ c ∈ u.fanoutList g, c = g) (fuel : ℕ) (k : Option String) (gp : List LinquParam)
    {n : ℕ} (hn : n = (u.get g).groupSize) (i : ℕ) (sub : LinquSubTaskSpec) :
    Alike (fun u' v' => Same [] u' v' ∧ Frame u u')
      (u.dispatchSubTask (LinquOrchestratorState.propagateCompletion (fuel+1)) g k gp n i sub)
      (dispatch MockDispatcher.onTaskComplete (v.assignSubId g)
        (v.subCall v.nextSubDispatchId g k gp i sub)) := by
  have f := (frame_assignSubId u g).trans (frame_countSubTask (u.assignSubId g) g)
  obtain ⟨w,hw,hmock⟩ := mock_dispatch_sub (g := g) h
    (v.subCall v.nextSubDispatchId g k gp i sub) rfl
  have hcons : ∀ c ∈ ((u.assignSubId g).countSubTask g).fanoutList g, c = g := by
    rw [f.fanoutList]
    exact halone
  rw [hmock]
  unfold dispatchSubTask
  dsimp only
  split
  · rename_i hd
    exact absurd hd hb
  · apply ite_rel (R := Alike (fun u' v' => Same [] u' v' ∧ Frame u u'))
    · rw [same_get hw, f.groupSize, ← hn, same_get h]
      exact Iff.rfl
    · intro _
      have hcomp := alone_completed hcons
      have hset := same_setStatus hw g .completed
      rw [propagate_alone hcomp, mock_propagate_alone (hcomp.same hset)]
      exact .ok ⟨same_settle hset g,(f.trans (frame_setStatus _ g .completed)).trans
        (frame_settle _ g)⟩
    · intro _
      exact .ok ⟨hw,f⟩

theorem alike_dispatchFrom {g : ℤ} (fuel : ℕ) (k : Option String) (gp : List LinquParam) {n : ℕ}
    (subs : List LinquSubTaskSpec) : ∀ (i : ℕ) (u v : State), Same [] u v →
      u.backend ≠ .dispatcher → (∀ c ∈ u.fanoutList g, c = g) → n = (u.get g).groupSize →
      Alike (Same []) (LinquOrchestratorState.dispatchFrom
          (LinquOrchestratorState.propagateCompletion (fuel+1))
          (fun i s => s.deliver (([] : List (List ℤ)).getD i [])) g k gp n i subs u)
        (MockDispatcher.dispatchFrom MockDispatcher.onTaskComplete g k gp i subs v) := by
  induction subs with
  | nil =>
    intro i u v h _ _ _
    exact .ok h
  | cons sub rest ih =>
    intro i u v h hb halone hn
    apply (alike_round h hb halone fuel k gp hn i sub).bind
    rintro u' v' ⟨h',f⟩
    apply ih (i+1) u' v' h'
    · rw [f.backend]
      exact hb
    · rw [f.fanoutList]
      exact halone
    · rw [f.groupSize]
      exact hn

theorem alike_launchGroup {u v : State} {tid : ℤ} (h : Same [] u v) (hb : u.backend ≠ .dispatcher)
    (halone : ∀ c ∈ u.fanoutList tid, c = tid) (k : Option String) (gp : List LinquParam)
    (subs : List LinquSubTaskSpec) (hn : subs.length = (u.get tid).groupSize) :
    Alike (Same []) (u.launchGroup tid k gp subs [])
      (MockDispatcher.launchGroup v tid k gp subs) := by
  unfold LinquOrchestratorState.launchGroup MockDispatcher.launchGroup
  apply ite_rel (R := Alike (Same [])) Iff.rfl
  · intro _
    have hset := same_setStatus h tid .completed
    rw [complete_alone halone, mock_propagate_alone ((alone_completed halone).same hset)]
    exact .ok (same_settle hset tid)
  · intro _
    apply ite_rel (R := Alike (Same []))
    · rw [same_get h]
    · intro _
      have f := frame_setStatus u tid .running
      apply alike_dispatchFrom _ k gp subs 0 _ _ (same_setStatus h tid .running) hb
      · rw [f.fanoutList]
        exact halone
      · rw [f.groupSize]
        exact hn
    · intro _
      obtain ⟨b,l,rfl⟩ := h
      exact .ok ⟨b,l,rfl⟩

/-! Calls and programs. -/

/-- The relation between a run without a dispatcher and one with the mock:
whenever a call returns, every sub-task has been reported. -/
structure Agree (u v : State) : Prop where
  same : Same [] u v
  shape : Shape u
  inline : u.backend ≠ .dispatcher

theorem backend_launchTask {s s' : State} {tid : ℤ} {target : LinquCoordinate} {k : Option String}
    {params : List LinquParam} (h : s.launchTask tid target k params = .ok s') :
    s'.backend = s.backend := by
  unfold LinquOrchestratorState.launchTask at h
  dsimp only at h
  split at h
  · cases h
    rfl
  · exact (frame_complete h).backend
  · exact (frame_complete h).backend

/-- Every call keeps the shape and the backend. -/
theorem backend_calls (b : Backend) :
    CallRule (fun s => Shape s ∧ s.backend = b) (fun _ _ _ => True) where
  shape _ h := h.1
  metrics s s' m h := ⟨shape_rule.callRule.metrics s s' m h.1,m.rest.backend.trans h.2⟩
  advance _ _ _ r h := ⟨r.shape h.1,r.rest.backend.trans h.2⟩
  report s t s' h hs :=
    ⟨shape_rule.callRule.report s t s' h.1 hs,(frame_onTaskComplete hs).backend.trans h.2⟩
  task s e s' tid found target k params h hc hf he hs :=
    ⟨shape_rule.callRule.task s e s' tid found target k params h.1 hc hf he hs,
      (backend_launchTask hs).trans (he.backend.trans h.2)⟩
  group s e s' tid found k params subs arrivals h hc hf he hs :=
    ⟨shape_rule.callRule.group s e s' tid found k params subs arrivals h.1 hc hf he hs,
      (DispatchOrder.follows_launchGroup hs).backend.trans (he.backend.trans h.2)⟩
  scopeBegin s s' h hs :=
    ⟨shape_rule.callRule.scopeBegin s s' h.1 hs,(settles_scopeBegin hs).backend.trans h.2⟩
  closeScope s s' h hs :=
    ⟨shape_rule.callRule.closeScope s s' h.1 hs,(settles_closeScope hs).backend.trans h.2⟩
  scopeRelease s t h :=
    ⟨shape_rule.callRule.scopeRelease s t h.1,(settles_check s t).backend.trans h.2⟩

/-- What the new task needs to know of the state it was entered in. -/
theorem entered_alone {s e : State} {tid : ℤ} {k : String} {group : Option ℕ}
    {params : List LinquParam} (h : Shape s)
    (he : s.enterTask k group params = .ok (tid,e)) : (∀ c ∈ e.fanoutList tid, c = tid) ∧
      e.backend = s.backend ∧ (e.get tid).groupSize = group.getD 0 := by
  obtain ⟨found,-,hent⟩ := enterTask_entered h he
  obtain ⟨_,_,_,hnew⟩ := hent.new
  refine ⟨?_,hent.backend,?_⟩
  · intro c hc
    rw [hent.fanout_new] at hc
    exact List.eq_of_mem_replicate hc
  · rw [hnew]

theorem exec_same {u v : State} (h : Agree u v) (c : ProgramCall) :
    Alike (Same []) (Orchestrator.exec u c.toOp) (MockDispatcher.exec v c) := by
  have hwait : Alike Agree (u.waitForSpace []) (v.waitForSpace []) := by
    apply (alike_waitForSpace h.same).mono
    intro m m' hm _ hmm
    obtain ⟨hshape,hback⟩ := waitForSpace_rule (backend_calls u.backend) ⟨h.shape,rfl⟩ hm
    refine ⟨hmm,hshape,?_⟩
    rw [hback]
    exact h.inline
  cases c with
  | submitTask target k params =>
    apply hwait.bind
    intro m m' hm
    apply (alike_enterTask hm.same (k.getD "") none params).bind_of
    rintro ⟨tid,e⟩ ⟨tid',e'⟩ he - ⟨ht,hee⟩
    cases ht
    obtain ⟨halone,hback,-⟩ := entered_alone hm.shape he
    exact alike_launchTask hee (by rw [hback]; exact hm.inline) halone target k params
  | submitTaskGroup k gp subs =>
    apply hwait.bind
    intro m m' hm
    apply (alike_enterTask hm.same (k.getD "group") (some subs.length) gp).bind_of
    rintro ⟨tid,e⟩ ⟨tid',e'⟩ he - ⟨ht,hee⟩
    cases ht
    obtain ⟨halone,hback,hsize⟩ := entered_alone hm.shape he
    exact alike_launchGroup hee (by rw [hback]; exact hm.inline) halone k gp subs hsize.symm
  | allocTensor size => exact alike_allocTensor h.same size
  | scopeBegin => exact alike_scopeBegin h.same
  | scopeEnd => exact alike_scopeEnd h.same

theorem exec_agree {u v : State} (h : Agree u v) (c : ProgramCall) :
    Alike Agree (Orchestrator.exec u c.toOp) (MockDispatcher.exec v c) := by
  apply (exec_same h c).mono
  intro u' v' hu' _ hs
  have hadm : Admits (fun _ _ _ => True) u c.toOp := (guarded_true [c.toOp] u).1
  obtain ⟨hshape,hback⟩ := exec_rule (backend_calls u.backend) ⟨h.shape,rfl⟩ hadm hu'
  refine ⟨hs,hshape,?_⟩
  rw [hback]
  exact h.inline

/-- A program without a dispatcher: the backend is none, or a function that
does not call back. -/
def runInline (backend : Backend) (cfg : LinquOrchConfigInternal) (program : List ProgramCall) :
    Except Fault State := do
  let s ← init backend cfg
  program.foldlM (fun s c => Orchestrator.exec s c.toOp) s

def runMock (cfg : LinquOrchConfigInternal) (program : List ProgramCall) : Except Fault State := do
  let s ← init .dispatcher cfg
  program.foldlM MockDispatcher.exec s

theorem alike_init {b : Backend} (hb : b ≠ .dispatcher) (cfg : LinquOrchConfigInternal) :
    Alike Agree (init b cfg) (init .dispatcher cfg) := by
  have hsame : Alike (fun u v => Same [] u v ∧ u.backend = b) (init b cfg)
      (init .dispatcher cfg) := by
    unfold init
    apply (Alike.refl _).bind
    rintro ring _ rfl
    apply (Alike.refl _).bind
    rintro pool _ rfl
    apply (Alike.refl _).bind
    rintro map _ rfl
    exact .ok ⟨⟨_,_,rfl⟩,rfl⟩
  apply hsame.mono
  rintro u v hu - ⟨hs,hback⟩
  exact ⟨hs,init_shape hu,hback ▸ hb⟩

theorem inline_mock {b : Backend} (hb : b ≠ .dispatcher) (cfg : LinquOrchConfigInternal)
    (program : List ProgramCall) : Alike Agree (runInline b cfg program) (runMock cfg program) :=
  (alike_init hb cfg).bind fun _ _ h => Alike.foldlM (fun _ _ c hab => exec_agree hab c) program h

/-- What the backends are to agree on. -/
structure SameRings (s s' : State) : Prop where
  taskRing : s'.taskRing = s.taskRing
  heapRing : s'.heapRing = s.heapRing
  tensorMap : s'.tensorMap = s.tensorMap
  depPool : s'.depPool = s.depPool
  scopeStack : s'.scopeStack = s.scopeStack
  pendingGroupSpecs : s'.pendingGroupSpecs = s.pendingGroupSpecs

theorem same_rings {s s' : State} (h : Same m s s') : SameRings s s' := by
  obtain ⟨b,l,rfl⟩ := h
  exact ⟨rfl,rfl,rfl,rfl,rfl,rfl⟩

/-- Every program, and so every prefix of one, ends alike with the three
backends: with the same fault, or with the same rings, map, pool, scopes and
pending groups. -/
theorem backends_agree (cfg : LinquOrchConfigInternal) (program : List ProgramCall) :
    Alike SameRings (runInline .none cfg program) (runInline .dispatchFn cfg program) ∧
      Alike SameRings (runInline .none cfg program) (runMock cfg program) := by
  have hnone := inline_mock (b := .none) (by simp) cfg program
  have hfn := inline_mock (b := .dispatchFn) (by simp) cfg program
  constructor
  · apply hnone.trans hfn.symm
    intro u v w huv hwv
    have h := same_rings huv.same
    have h' := same_rings hwv.same
    exact ⟨h'.taskRing.symm.trans h.taskRing,h'.heapRing.symm.trans h.heapRing,
      h'.tensorMap.symm.trans h.tensorMap,h'.depPool.symm.trans h.depPool,
      h'.scopeStack.symm.trans h.scopeStack,h'.pendingGroupSpecs.symm.trans h.pendingGroupSpecs⟩
  · apply hnone.mono
    intro u v _ _ huv
    exact same_rings huv.same

/-- A group, its consumer, a group that waits for itself, and their scope. -/
def nestedProgram : List ProgramCall :=
  [.scopeBegin,.allocTensor 64,.submitTaskGroup (some "a") [linquMakeOutput 1] [⟨{},none,[]⟩],
    .submitTask {} none [linquMakeInput 1],.submitTaskGroup none [linquMakeInput 1] [],
    .submitTaskGroup none [linquMakeOutput 2,linquMakeInput 2] [⟨{},none,[]⟩],.scopeEnd]

example : (runMock {} nestedProgram).toOption.any
    (fun s => decide (s.taskRing.lastTaskAlive = 3 ∧ s.pendingGroupSpecs.length = 1)) = true := by
  decide +kernel

end Linqu.BackendsAgree
