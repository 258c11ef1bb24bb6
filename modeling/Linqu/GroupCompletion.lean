import Linqu.OrchestratorSteps
import Linqu.GroupDispatch

/-!
# A group completes with its last sub-task

The machine with a dispatcher, step by step. A report completes a group
exactly when the sub-task it names is the last one out and nothing of the
group is left to dispatch; no other step completes a group or moves a counter.
The account of `GroupDispatch` is carried through the steps, with the specs
that the loop of an immediate group still holds.
-/

set_option autoImplicit false

namespace Linqu.GroupCompletion
open Linqu.TaskRing Linqu.DepPool Linqu.TensorMap Linqu.Orchestrator Linqu.Dispatchers
open Linqu.Orchestrator.LinquOrchestratorState Linqu.OrchestrationApi Linqu.Transition
open Linqu.OrchestratorRule Linqu.OrchestratorShape Linqu.OrchestratorCalls
open Linqu.OrchestratorDone Linqu.Reports Linqu.GroupDispatch Linqu.OrchestratorSteps

/-! `on_task_complete` up to its call of `propagate_completion`. -/

def counted (s : State) (t : ℤ) : State :=
  match s.subDispatchToGroup.lookup t with
  | some g => ((s.record (.report t)).eraseSubId t).countSubTask g
  | none => s.record (.report t)

theorem countSubTask_groupSize (s : State) (g t : ℤ) :
    ((s.countSubTask g).get t).groupSize = (s.get t).groupSize :=
  (frame_countSubTask s g).groupSize t

theorem onTaskComplete_eq (s : State) (t : ℤ) :
    s.onTaskComplete t = (completesAt s t).elim (.ok (counted s t)) (counted s t).complete := by
  unfold onTaskComplete completesAt counted
  dsimp only
  cases hg : s.subDispatchToGroup.lookup t with
  | none =>
    rw [show (s.record (.report t)).subDispatchToGroup.lookup t = none from hg]
    show (if (s.get t).status = .running then _ else _) = _
    by_cases hr : (s.get t).status = .running
    · rw [if_pos hr, if_pos hr]
      rfl
    · rw [if_neg hr, if_neg hr]
      rfl
  | some g =>
    rw [show (s.record (.report t)).subDispatchToGroup.lookup t = some g from hg]
    dsimp only
    rw [countSubTask_groupSize]
    show (if (s.get g).groupSize ≤ (s.get g).subCompleteCount+1 then _ else _) = _
    by_cases hr : (s.get g).groupSize ≤ (s.get g).subCompleteCount+1
    · rw [if_pos hr, if_pos hr]
      rfl
    · rw [if_neg hr, if_neg hr]
      rfl

/-! With a dispatcher a completion is one call of `propagate_completion`. -/

theorem checkConsumer_dispatcher {s : State} (p q : State → ℤ → Except Fault State) (c : ℤ)
    (hb : s.backend = .dispatcher) : s.checkConsumer p c = s.checkConsumer q c := by
  unfold checkConsumer
  split
  · split
    · dsimp only
      split
      · rename_i spec hspec
        have hb' : (s.setStatus c .running).backend = .dispatcher := hb
        rw [dispatchGroupSubTasks, dispatchGroupSubTasks,
          dispatchFrom_dispatcher c _ _ _ p _ 0 _ hb', dispatchFrom_dispatcher c _ _ _ q _ 0 _ hb']
      · rfl
    · rfl
  · rfl

theorem checkConsumers_dispatcher (p q : State → ℤ → Except Fault State) (l : List ℤ) :
    ∀ s : State, s.backend = .dispatcher →
      l.foldlM (checkConsumer p) s = l.foldlM (checkConsumer q) s := by
  have rule : PropagateRule (fun _ _ _ _ _ => True) := by
    constructor <;> intros <;> trivial
  have hprop : Propagates (fun _ _ _ _ _ => True) (fun s _ => .ok s) := by
    intro s t _ _ s' hs _
    cases hs
    exact ⟨trivial,Frame.refl s⟩
  induction l with
  | nil =>
    intro s _
    rfl
  | cons c l ih =>
    intro s hb
    rw [List.foldlM_cons, List.foldlM_cons, checkConsumer_dispatcher p (fun s _ => .ok s) c hb,
      checkConsumer_dispatcher q (fun s _ => .ok s) c hb]
    cases hc : s.checkConsumer (fun s _ => .ok s) c with
    | error e => rfl
    | ok m =>
      have hkept : True ∧ Frame s m := @checkConsumer_rule _ rule _ hprop c [] [] s m trivial hc
      exact ih m (hkept.2.backend.trans hb)

/-- The call never makes another one: with fuel for one level it returns what
it returns with any. -/
theorem propagate_alone {s : State} (hb : s.backend = .dispatcher) (fuel : ℕ) (t : ℤ) :
    propagateCompletion (fuel+1) s t = propagateCompletion 1 s t := by
  have hback : ∀ u : State, u.backend = .dispatcher → ∀ l : List ℤ,
      (l.foldl releaseProducer u).backend = .dispatcher := by
    intro u hu l
    apply foldl_rule (P := fun _ (v : State) => v.backend = Backend.dispatcher) _ l hu
    intro p _ v hv
    exact (frame_releaseProducer v p).backend.trans hv
  have hback' : ∀ u : State, u.backend = .dispatcher → ∀ l : List ℤ,
      (l.foldl notifyConsumer u).backend = .dispatcher := by
    intro u hu l
    apply foldl_rule (P := fun _ (v : State) => v.backend = Backend.dispatcher) _ l hu
    intro c _ v hv
    exact (frame_notifyConsumer v c).backend.trans hv
  rw [propagateCompletion, propagateCompletion]
  rw [checkConsumersReady, checkConsumersReady,
    checkConsumers_dispatcher _ (propagateCompletion 0) _ _ (hback' _ (hback s hb _) _)]

/-- Nothing but the task itself is finished by its completion. -/
theorem complete_finished {s s' : State} {t : ℤ} (hb : s.backend = .dispatcher)
    (h : s.complete t = .ok s') : finished s' = finished (s.setStatus t .completed) ∧
      ∀ u, (s'.get u).subCompleteCount = (s.get u).subCompleteCount := by
  have rule : PropagateRule (fun _ _ _ _ u => u.backend = .dispatcher ∧
      finished u = finished (s.setStatus t .completed) ∧
      ∀ v, (u.get v).subCompleteCount = (s.get v).subCompleteCount) := by
    constructor
    case release =>
      intro p _ _ _ _ u hu
      have hset := settles_release u p
      exact ⟨hset.backend.trans hu.1,hset.finished.trans hu.2.1,
        fun v => (hset.desc v).2.trans (hu.2.2 v)⟩
    case notify =>
      intro c _ _ _ u hu _
      have hset := settles_notify u c
      exact ⟨hset.backend.trans hu.1,hset.finished.trans hu.2.1,
        fun v => (hset.desc v).2.trans (hu.2.2 v)⟩
    case skip => exact fun _ _ _ _ hu _ => hu
    case ready =>
      intro c _ _ u hu hs _
      refine ⟨hu.1,(finished_setStatus (by rw [hs.2]; rfl) rfl).trans hu.2.1,fun v => ?_⟩
      rw [setStatus_field LinquTaskDescriptor.subCompleteCount (fun _ _ => rfl)]
      exact hu.2.2 v
    case run =>
      intro c _ _ u hu hs _ _
      refine ⟨hu.1,(finished_setStatus (by rw [hs.2]; rfl) rfl).trans hu.2.1,fun v => ?_⟩
      rw [setStatus_field LinquTaskDescriptor.subCompleteCount (fun _ _ => rfl)]
      exact hu.2.2 v
    case dispatch =>
      intro c _ _ u u' spec hu hs _ hd _ hm
      have honly := dispatchFrom_only c _ _ _ _ 0 (u.setStatus c .running) u' hd hm
      have hring : u'.taskRing = (u.setStatus c .running).taskRing := by rw [honly.eq]
      have hget : ∀ v, (u'.eraseSpec c).get v = (u.setStatus c .running).get v := by
        intro v
        show u'.taskRing.get v = _
        rw [hring]
        rfl
      have hfin : finished (u'.eraseSpec c) = finished (u.setStatus c .running) := by
        apply finished_congr
        · show u'.taskRing.lastTaskAlive = _
          rw [hring]
        · intro v
          rw [hget]
      refine ⟨honly.frame.backend.trans hu.1,?_,fun v => ?_⟩
      · rw [hfin, finished_setStatus (by rw [hs.2]; rfl) rfl]
        exact hu.2.1
      · rw [hget, setStatus_field LinquTaskDescriptor.subCompleteCount (fun _ _ => rfl)]
        exact hu.2.2 v
    case count => exact fun _ _ _ _ hn _ hu => absurd hu.1 hn
    case complete => exact fun _ _ _ _ hn _ hu => absurd hu.1 hn
    case erase => exact fun _ _ _ _ hn _ hu => absurd hu.1 hn
    case finish =>
      intro u _ _ v hv
      have hset := settles_check v u
      exact ⟨hset.backend.trans hv.1,hset.finished.trans hv.2.1,
        fun w => (hset.desc w).2.trans (hv.2.2 w)⟩
  have hstart : ∀ v, ((s.setStatus t .completed).get v).subCompleteCount =
      (s.get v).subCompleteCount := fun v =>
    setStatus_field LinquTaskDescriptor.subCompleteCount (fun _ _ => rfl) s t v _
  exact (propagate_rule rule (b := []) (c := []) h ⟨hb,rfl,hstart⟩).2

/-! The account, step by step. -/

/-- What the loop of an immediate group has not dispatched yet. -/
def remaining : Pc → ℤ → ℕ
  | .loop tid _ _ _ _ rest => Function.update (fun _ => 0) tid rest.length
  | _ => fun _ => 0

theorem update_zero (tid : ℤ) : Function.update (fun _ : ℤ => 0) tid 0 = fun _ => 0 :=
  Function.update_eq_self (f := fun _ : ℤ => 0) tid

theorem remaining_resting {pc : Pc} (h : Resting pc) : remaining pc = fun _ => 0 := by
  cases pc with
  | loop tid k gp n i rest =>
    cases rest with
    | nil => exact update_zero tid
    | cons sub rest => exact h.elim
  | _ => rfl

structure Paced (σ : System) : Prop where
  shape : Shape σ.state
  backend : σ.state.backend = .dispatcher
  loop : ∀ tid k gp n i rest, σ.pc = .loop tid k gp n i rest →
    i+rest.length = (σ.state.get tid).groupSize ∧ σ.state.faninList tid = []
  account : ReportsOnce σ.state.trace → Account (remaining σ.pc) [] [] σ.state

theorem eases_backend {s s' : State} (e : Eases s s') : s'.backend = s.backend := by
  induction e with
  | settle hs _ => exact hs.backend
  | retire r => exact r.rest.backend
  | trans _ _ ih ih' => exact ih'.trans ih

theorem grouped_eases {s s' : State} (e : Eases s s') (h : Grouped s) : Grouped s' := by
  induction e with
  | settle hs hc => exact h.of_settles hs hc
  | retire r =>
    refine ⟨r.shape h.shape,r.rest.backend.trans h.backend,fun ho => ?_⟩
    rw [r.rest.trace] at ho
    exact (h.account ho).retired r
  | trans _ _ ih ih' => exact ih' (ih h)

theorem Paced.grouped {s : State} {pc : Pc} (h : Paced ⟨s,pc⟩) (hp : Resting pc) : Grouped s := by
  have hacc := h.account
  rw [remaining_resting hp] at hacc
  exact ⟨h.shape,h.backend,hacc⟩

theorem paced_of_grouped {s : State} {pc : Pc} (h : Grouped s)
    (hp : ∀ a b c d e f, pc ≠ .loop a b c d e f) : Paced ⟨s,pc⟩ := by
  have hr : Resting pc := by
    cases pc with
    | loop a b c d e f => exact absurd rfl (hp a b c d e f)
    | _ => trivial
  refine ⟨h.shape,h.backend,fun a b c d e f hpc => absurd hpc (hp a b c d e f),?_⟩
  rw [remaining_resting hr]
  exact h.account

theorem stage_paced {σ σ' : System} {l : List ℤ} (h : Paced σ) (st : Stage σ l σ') : Paced σ' := by
  cases st with
  | ease hp hp' he => exact paced_of_grouped (grouped_eases he (h.grouped hp)) hp'
  | task hp hw he hs =>
    exact paced_of_grouped ((grouped_eases hw (h.grouped hp)).launchTask he hs) (by simp)
  | park hp hw he hn hs =>
    have hg := grouped_eases hw (h.grouped hp)
    have hf := DispatchOrder.follows_launchGroup hs
    exact paced_of_grouped ⟨hf.shape he.shape,hf.backend.trans (he.backend.trans hg.backend),
      hg.launchGroup he hs⟩ (by simp)
  | @start s m e pc tid prods k params subs hp hw he hn =>
    have hg := grouped_eases hw (h.grouped hp)
    have f := frame_setStatus e tid .running
    obtain ⟨_,_,_,hnew⟩ := he.new
    have hsize : (e.get tid).groupSize = subs.length := by
      rw [hnew]
      rfl
    refine ⟨he.shape.of_frame f,he.backend.trans hg.backend,?_,fun ho => ?_⟩
    · intro a b c d i rest hpc
      cases hpc
      refine ⟨?_,?_⟩
      · rw [f.groupSize, hsize, Nat.zero_add]
      · have hlen := he.shape.faninCount tid (he.live_tid hg.shape)
        rw [hn.2] at hlen
        rw [f.faninList]
        exact List.length_eq_zero_iff.mp hlen.symm
    · have ho : ReportsOnce e.trace := ho
      rw [he.trace] at ho
      exact (hg.account ho).entered he
  | @dispatch s tid k gp n i sub rest =>
    obtain ⟨hi,hfan⟩ := h.loop tid k gp n i (sub::rest) rfl
    refine ⟨h.shape.of_eq rfl rfl rfl,h.backend,?_,fun ho => ?_⟩
    · intro a b c d j rest' hpc
      cases hpc
      refine ⟨?_,hfan⟩
      show i+1+rest.length = (s.get tid).groupSize
      rw [← hi, List.length_cons]
      omega
    · have hacc : Account (Function.update (fun _ => 0) tid (rest.length+1)) [] [] s :=
        h.account ho
      obtain ⟨hrun,hgr⟩ := hacc.busy tid (by simp)
      have hone := hacc.dispatch k gp sub hrun hgr (Function.update_self ..) hi (by
        intro p hp
        rw [hfan] at hp
        cases hp)
      show Account (Function.update (fun _ => 0) tid rest.length) [] [] _
      rwa [Function.update_idem] at hone

theorem result_paced {σ σ' : System} {r : DispatchResult} (h : Paced σ)
    (hs : onCompletion σ.state r = .ok σ'.state) (hpc : σ'.pc = σ.pc) : Paced σ' := by
  unfold onCompletion at hs
  split at hs
  · have f := frame_onTaskComplete hs
    have hshape : Shape (σ.state.record (.report r.taskId)) := h.shape.of_eq rfl rfl rfl
    refine ⟨hshape.of_frame f,f.backend.trans h.backend,?_,fun ho => ?_⟩
    · intro tid k gp n i rest hl
      rw [f.groupSize, f.faninList]
      exact h.loop tid k gp n i rest (hpc ▸ hl)
    · have hone : ReportsOnce (.report r.taskId::σ.state.trace) :=
        reportsOnce_suffix ho f.suffix
      rw [hpc]
      exact (h.account hone.2).reported hone.1 hs
  · have hstate : σ'.state = σ.state := (Except.ok.inj hs).symm
    obtain ⟨s',pc'⟩ := σ'
    cases hstate
    cases hpc
    exact h

theorem step_paced {σ σ' : System} {a : Act} (h : Paced σ) (hm : Moves σ a σ') : Paced σ' := by
  rcases moves_cases h.shape h.backend hm with ⟨r,-,hs,hpc⟩ | ⟨-,st⟩
  · exact result_paced h hs hpc
  · exact stage_paced h st

theorem init_paced {cfg : LinquOrchConfigInternal} {s : State}
    (h : init .dispatcher cfg = .ok s) : Paced ⟨s,.idle⟩ :=
  paced_of_grouped (init_grouped h) (by simp)

theorem run_paced {acts : List Act} {σ σ' : System} (h : Paced σ) (hr : Run Moves acts σ σ') :
    Paced σ' := by
  induction acts generalizing σ with
  | nil =>
    cases hr
    exact h
  | cons a acts ih =>
    obtain ⟨m,hm,hr⟩ := hr
    exact ih (step_paced h hm) hr

/-! The effect of a step on the tasks that are there. -/

structure Steady (s s' : State) : Prop where
  current : s.taskRing.currentIndex ≤ s'.taskRing.currentIndex
  alive : s.taskRing.lastTaskAlive ≤ s'.taskRing.lastTaskAlive
  trace : s.trace <:+ s'.trace
  finished : ∀ g, g < s.taskRing.currentIndex → finished s' g = finished s g
  group : ∀ g, s.taskRing.Live g → s'.taskRing.Live g →
    (s'.get g).isGroup = (s.get g).isGroup ∧ (s'.get g).groupSize = (s.get g).groupSize ∧
      (s'.get g).subCompleteCount = (s.get g).subCompleteCount

theorem Steady.trans {s m u : State} (h : Steady s m) (h' : Steady m u) : Steady s u := by
  refine ⟨h.current.trans h'.current,h.alive.trans h'.alive,h.trace.trans h'.trace,?_,?_⟩
  · intro g hg
    rw [h'.finished g (hg.trans_le h.current), h.finished g hg]
  · intro g hs hu
    have hm : m.taskRing.Live g := ⟨h'.alive.trans hu.1,hs.2.trans_le h.current⟩
    obtain ⟨h1,h2,h3⟩ := h.group g hs hm
    obtain ⟨h4,h5,h6⟩ := h'.group g hm hu
    exact ⟨h4.trans h1,h5.trans h2,h6.trans h3⟩

/-- The ring is the same. -/
theorem steady_ring {s s' : State} (h : s'.taskRing = s.taskRing) (ht : s.trace <:+ s'.trace) :
    Steady s s' := by
  have hget : ∀ g, s'.get g = s.get g := by
    intro g
    rw [LinquOrchestratorState.get, LinquOrchestratorState.get, h]
  refine ⟨by rw [h],by rw [h],ht,?_,?_⟩
  · intro g _
    rw [finished, finished, h, hget]
  · intro g _ _
    rw [hget]
    exact ⟨rfl,rfl,rfl⟩

theorem steady_eases {s s' : State} (e : Eases s s') :
    Steady s s' ∧ s'.taskRing.currentIndex = s.taskRing.currentIndex := by
  induction e with
  | settle hs _ =>
    refine ⟨⟨hs.current.ge,hs.alive.ge,by rw [hs.trace],?_,?_⟩,hs.current⟩
    · intro g _
      rw [hs.finished]
    · intro g _ _
      exact ⟨hs.isGroup g,hs.groupSize g,(hs.desc g).2⟩
  | @retire s m cursor r =>
    have hcur : m.taskRing.currentIndex = s.taskRing.currentIndex := by
      rw [r.ring]
      rfl
    have halive : m.taskRing.lastTaskAlive = cursor := by
      rw [r.ring]
      rfl
    refine ⟨⟨hcur.ge,by rw [halive]; exact r.le,by rw [r.rest.trace],?_,?_⟩,hcur⟩
    · intro g _
      rw [finished_retired r]
    · intro g _ _
      rw [r.get]
      exact ⟨rfl,rfl,rfl⟩
  | trans _ _ ih ih' => exact ⟨ih.1.trans ih'.1,ih'.2.trans ih.2⟩

/-- A task enters: the others are as they were, whatever its status. -/
theorem steady_entered {s e : State} {tid : ℤ} {group : Option ℕ} {prods : List ℤ}
    (he : Entered s e tid group prods) (v : Status) : Steady s (e.setStatus tid v) := by
  refine ⟨?_,he.alive.ge,?_,?_,?_⟩
  · show _ ≤ e.taskRing.currentIndex
    rw [he.current, he.tid_eq]
    omega
  · show s.trace <:+ e.trace
    rw [he.trace]
    exact List.suffix_cons _ _
  · intro g hg
    apply entered_finished_old he
    rw [he.tid_eq]
    exact hg
  · intro g hg _
    exact ⟨entered_field he LinquTaskDescriptor.isGroup (fun _ _ _ _ => rfl) hg,
      entered_field he LinquTaskDescriptor.groupSize (fun _ _ _ _ => rfl) hg,
      entered_field he LinquTaskDescriptor.subCompleteCount (fun _ _ _ _ => rfl) hg⟩

/-- A stage of a call: old tasks are steady, and a new task is finished
exactly when `propagate_completion` was called for it. -/
structure Advances (s : State) (l : List ℤ) (s' : State) : Prop where
  steady : Steady s s'
  fresh : ∀ g, s.taskRing.currentIndex ≤ g → g < s'.taskRing.currentIndex →
    finished s' g = decide (g ∈ l) ∧ (g ∈ l → (s'.get g).groupSize = 0) ∧
      ((s'.get g).isGroup = true → finished s' g = false →
        (s'.get g).subCompleteCount < (s'.get g).groupSize)
  called : ∀ g ∈ l, s.taskRing.currentIndex ≤ g ∧ g < s'.taskRing.currentIndex
  once : l.Nodup

theorem Advances.before {s m u : State} {l : List ℤ} (h : Eases s m) (h' : Advances m l u) :
    Advances s l u := by
  obtain ⟨hs,hcur⟩ := steady_eases h
  refine ⟨hs.trans h'.steady,?_,?_,h'.once⟩
  · rw [← hcur]
    exact h'.fresh
  · rw [← hcur]
    exact h'.called

/-- The common end of the submissions: the new task is not finished, or it is
an empty group that has been completed. -/
theorem advances_entered {s e s' : State} {tid : ℤ} {group : Option ℕ} {prods l : List ℤ}
    (he : Entered s e tid group prods) (hst : Steady s s')
    (hcur : s'.taskRing.currentIndex = tid+1) (hl : l = [] ∨ l = [tid])
    (hfin : finished s' tid = decide (tid ∈ l)) (hempty : tid ∈ l → (s'.get tid).groupSize = 0)
    (hsize : (s'.get tid).isGroup = true → finished s' tid = false →
      (s'.get tid).subCompleteCount < (s'.get tid).groupSize) : Advances s l s' := by
  have htid := he.tid_eq
  refine ⟨hst,?_,?_,?_⟩
  · intro g hge hlt
    have hg : g = tid := by omega
    rw [hg]
    exact ⟨hfin,hempty,hsize⟩
  · intro g hg
    rcases hl with rfl | rfl
    · cases hg
    · rw [List.mem_singleton.mp hg]
      omega
  · rcases hl with rfl | rfl
    · exact List.nodup_nil
    · exact List.nodup_singleton tid

theorem entered_new_counts {s e : State} {tid : ℤ} {n : ℕ} {prods : List ℤ}
    (he : Entered s e tid (some n) prods) (v : Status) :
    ((e.setStatus tid v).get tid).subCompleteCount = 0 ∧
      ((e.setStatus tid v).get tid).groupSize = n := by
  obtain ⟨_,_,_,hnew⟩ := he.new
  rw [setStatus_field LinquTaskDescriptor.subCompleteCount (fun _ _ => rfl),
    setStatus_field LinquTaskDescriptor.groupSize (fun _ _ => rfl), hnew]
  exact ⟨rfl,rfl⟩

theorem stage_advances {σ σ' : System} {l : List ℤ} (h : Shape σ.state)
    (hb : σ.state.backend = .dispatcher) (st : Stage σ l σ') :
    Advances σ.state l σ'.state := by
  cases st with
  | ease hp hp' he =>
    obtain ⟨hs,hcur⟩ := steady_eases he
    refine ⟨hs,?_,by simp,List.nodup_nil⟩
    intro g hge hlt
    dsimp only at hge hlt
    omega
  | @task s m e s' pc tid prods target k params hp hw he hs =>
    have hbm : m.backend = .dispatcher := (eases_backend hw).trans hb
    obtain ⟨call,-,-,-,-,rfl⟩ := launchTask_dispatcher (he.backend.trans hbm) hs
    apply Advances.before hw
    refine advances_entered he ?_ he.current (Or.inl rfl) ?_ (by simp) ?_
    · exact (steady_entered he .running).trans (steady_ring rfl (List.suffix_cons _ _))
    · exact entered_finished_new he (hw.shape h) rfl
    · intro hg
      obtain ⟨_,_,_,hnew⟩ := he.new
      have hgr : ((e.setStatus tid .running).get tid).isGroup = (e.get tid).isGroup :=
        setStatus_field LinquTaskDescriptor.isGroup (fun _ _ => rfl) e tid tid _
      have hg : ((e.setStatus tid .running).get tid).isGroup = true := hg
      rw [hgr, hnew] at hg
      cases hg
  | @park s m e s' pc tid prods k params subs hp hw he hn hs =>
    have hbe : e.backend = .dispatcher := he.backend.trans ((eases_backend hw).trans hb)
    apply Advances.before hw
    unfold LinquOrchestratorState.launchGroup at hs
    by_cases hz : subs.length = 0
    · rw [if_pos hz] at hs ⊢
      obtain ⟨hfin,hcount⟩ := complete_finished hbe hs
      have f := frame_complete hs
      have hdone : finished s' tid = true := by
        rw [hfin, finished_setCompleted]
        exact Or.inr rfl
      apply advances_entered he _ (f.current.trans he.current) (Or.inr rfl)
      · rw [hdone]
        simp
      · intro _
        obtain ⟨_,_,_,hnew⟩ := he.new
        rw [f.groupSize, hnew]
        exact hz
      · intro _ hnot
        rw [hdone] at hnot
        cases hnot
      · have hst := steady_entered he .completed
        refine ⟨by rw [f.current]; exact hst.current,by rw [f.alive]; exact hst.alive,
          hst.trace.trans f.suffix,?_,?_⟩
        · rw [hfin]
          exact hst.finished
        · intro g hg _
          rw [f.isGroup, f.groupSize, hcount]
          have hl := he.field LinquTaskDescriptor.subCompleteCount (fun _ _ _ _ => rfl) hg
          exact ⟨he.field LinquTaskDescriptor.isGroup (fun _ _ _ _ => rfl) hg,
            he.field LinquTaskDescriptor.groupSize (fun _ _ _ _ => rfl) hg,hl⟩
    · have hfan : ¬ (e.get tid).faninCount = 0 := fun hf => hn ⟨hz,hf⟩
      rw [if_neg hz, if_neg hfan] at hs
      rw [if_neg hz]
      cases hs
      refine advances_entered he ?_ he.current (Or.inl rfl) ?_ (by simp) ?_
      · exact (steady_entered he .pending).trans (steady_ring rfl List.suffix_rfl)
      · exact entered_finished_new he (hw.shape h) rfl
      · intro _ _
        obtain ⟨h0,hsize⟩ := entered_new_counts he .pending
        show ((e.setStatus tid .pending).get tid).subCompleteCount <
          ((e.setStatus tid .pending).get tid).groupSize
        omega
  | @start s m e pc tid prods k params subs hp hw he hn =>
    apply Advances.before hw
    apply advances_entered he (steady_entered he .running) he.current (Or.inl rfl)
    · exact entered_finished_new he (hw.shape h) rfl
    · simp
    · intro _ _
      obtain ⟨h0,hsize⟩ := entered_new_counts he .running
      omega
  | dispatch =>
    refine ⟨steady_ring rfl (List.suffix_cons _ _),?_,by simp,List.nodup_nil⟩
    intro g hge hlt
    exact absurd hge (not_le.mpr hlt)

end Linqu.GroupCompletion
