import Linqu.DispatcherRuns
import Linqu.BackendsAgree

/-!
# Every unit of work reaches the backend

A dispatcher is passed everything that is started. A dispatch function is
passed the plain tasks and nothing else: `dispatch_group_sub_tasks` counts a
sub-task without a call. So with a dispatch function the work is delivered
exactly while no group with sub-tasks is started, and since a completion then
wakes nobody, a group is started exactly when it is submitted without producers.
-/

set_option autoImplicit false

namespace Linqu.WorkDelivery
open Linqu.TaskRing Linqu.DepPool Linqu.Orchestrator Linqu.Orchestrator.LinquOrchestratorState
open Linqu.OrchestrationApi Linqu.Transition Linqu.OrchestratorRule Linqu.OrchestratorShape
open Linqu.OrchestratorCalls Linqu.OrchestratorDone Linqu.Reports Linqu.Submissions
open Linqu.TimelyReports Linqu.DispatcherRuns

/-- With a dispatch function a group with sub-tasks finds a producer. -/
def StaysWaiting (s : State) (group : Option ℕ) (params : List LinquParam) : Prop :=
  s.backend = .dispatchFn → group.getD 0 ≠ 0 →
    producersOf s.taskRing.currentIndex s.tensorMap params ≠ some []

instance (s : State) (group : Option ℕ) (params : List LinquParam) :
    Decidable (StaysWaiting s group params) := inferInstanceAs (Decidable (_ → _ → _))

/-- The condition on a call that returns. -/
def Holds (s : State) (op : Op) : Prop := (∃ s', Steps s op s') → Admits StaysWaiting s op

/-! Runs with a dispatcher. -/

theorem attended_settles {window : ℤ} {l : List Submission} {s s' : State}
    (h : Attended window l s) (hs : Settles s s') : Attended window l s' :=
  ⟨hs.shape h.shape,hs.backend.trans h.backend,fun ht => (h.served (hs.trace ▸ ht)).settles hs⟩

theorem attended_rule (window : ℤ) : SubmissionRule (Attended window) StaysWaiting where
  shape _ _ h := h.shape
  settles _ _ _ hs h := attended_settles h hs
  advance l s s' cursor r h := ⟨r.shape h.shape,r.rest.backend.trans h.backend,fun ht =>
    (h.served (r.rest.trace ▸ ht)).advance r⟩
  report l s t s' h hs := by
    have f := frame_onTaskComplete hs
    have hshape : Shape (s.record (.report t)) := h.shape.of_eq rfl rfl rfl
    refine ⟨hshape.of_frame f,f.backend.trans h.backend,fun ht => ?_⟩
    have hone : Timely window (.report t::s.trace) := timely_suffix ht f.suffix
    exact (h.served hone.2).reported hone hs
  task l s s₁ s' tid target k params h he hs := by
    obtain ⟨found,-,e⟩ := enterTask_entered h.shape he
    have hcall := launchTask_dispatcher (e.backend.trans h.backend) hs
    refine ⟨?_,?_,fun ht => ?_⟩
    · obtain ⟨call,-,-,-,-,rfl⟩ := hcall
      exact (e.shape.of_frame (frame_setStatus s₁ tid .running)).of_eq rfl rfl rfl
    · obtain ⟨call,-,-,-,-,rfl⟩ := hcall
      exact e.backend.trans h.backend
    · have hsuf : s.trace <:+ s'.trace := by
        obtain ⟨call,-,-,-,-,rfl⟩ := hcall
        change s.trace <:+ .dispatch call::s₁.trace
        rw [e.trace]
        exact (List.suffix_cons _ _).trans (List.suffix_cons _ _)
      exact Served.launchTask (h.served (timely_suffix ht hsuf)) he e hs
  group l s s₁ s' tid k params subs arrivals h _ he hs := by
    obtain ⟨found,-,e⟩ := enterTask_entered h.shape he
    have hf := DispatchOrder.follows_launchGroup hs
    exact ⟨hf.shape e.shape,hf.backend.trans (e.backend.trans h.backend),
      fun ht => h.launchGroup he e hs ht⟩

theorem init_attended {cfg : LinquOrchConfigInternal} {s : State}
    (h : init .dispatcher cfg = .ok s) : Attended s.taskRing.windowSize [] s := by
  obtain ⟨hb,htr,-,-,hsub,-,-⟩ := init_rest h
  obtain ⟨-,hcur,-,hget⟩ := init_ring h
  have hnl := init_not_live h
  have hno : ∀ t, ¬ Owned s t := by
    rintro t ⟨h0,-,h2⟩
    omega
  refine ⟨init_shape h,hb,fun _ => ?_⟩
  constructor
  case shape => exact init_shape h
  case backend => exact hb
  case window => rfl
  case length => rw [hcur]; rfl
  case newest => exact fun hpos => absurd hpos (by omega)
  case table => rw [hsub, htr]; rfl
  case consumers => exact fun t ht => absurd ht (hno t)
  case retired => exact fun t ht => absurd ht (hno t)
  case running =>
    intro t ht
    rw [hget] at ht
    cases ht
  case entries => exact fun e he => (by rw [hsub] at he; cases he)
  case waiting => exact fun g hg => absurd hg.1 (hnl g)
  case started => exact fun t w hw => (by cases hw)
  case counted => exact fun g hg => absurd hg (hno g)
  case known => exact fun t _ => (by rw [htr]; rfl)

/-! Runs with a dispatch function. -/

structure Executed (l : List Submission) (s : State) : Prop where
  shape : Shape s
  backend : s.backend = .dispatchFn
  length : (l.length : ℤ) = s.taskRing.currentIndex
  idle : ∀ t, (s.get t).status ≠ .running
  table : s.subDispatchToGroup = []
  counted : ∀ t, (s.get t).subCompleteCount = 0
  handled : ∀ (t : ℕ) w, l[t]? = some w → passed .dispatchFn s.trace t = w.works ∨
    w.size.isSome = true ∧ passed .dispatchFn s.trace t = [] ∧ Waiting s t
  known : ∀ t, s.taskRing.currentIndex ≤ t → passed .dispatchFn s.trace t = []

theorem Executed.delivered {l : List Submission} {s : State} (h : Executed l s) :
    Delivered l s := by
  constructor
  · intro tid w hw hst
    rw [h.backend]
    rcases h.handled tid w hw with hp | ⟨hsome,-,hwait⟩
    · exact hp
    · cases w with
      | task target k params => cases hsome
      | group k gp subs =>
        rcases hst with hlt | hne
        · exact absurd hlt (not_lt.mpr hwait.1.1)
        · exact absurd hwait.2 hne
  · intro tid _
    rw [h.counted]
    exact Nat.zero_le _

section Function

variable {l : List Submission} {s s₁ s' : State} {tid : ℤ} {prods : List ℤ}

theorem Executed.settles (h : Executed l s) (hs : Settles s s') : Executed l s' := by
  constructor
  case shape => exact hs.shape h.shape
  case backend => exact hs.backend.trans h.backend
  case length => exact h.length.trans hs.current.symm
  case idle => exact fun t ht => h.idle t ((hs.status t).running.mp ht)
  case table => exact hs.subs.trans h.table
  case counted => exact fun t => (hs.desc t).2.trans (h.counted t)
  case handled =>
    intro t w hw
    rw [hs.trace, (calm_of_settles hs).waiting]
    exact h.handled t w hw
  case known =>
    intro t ht
    rw [hs.trace]
    exact h.known t (hs.current ▸ ht)

theorem Executed.advance {cursor : ℤ} (h : Executed l s) (r : Retired s s' cursor) :
    Executed l s' := by
  have hcur : s'.taskRing.currentIndex = s.taskRing.currentIndex := by
    rw [r.ring]
    rfl
  constructor
  case shape => exact r.shape h.shape
  case backend => exact r.rest.backend.trans h.backend
  case length => exact h.length.trans hcur.symm
  case idle => exact fun t => by rw [r.get]; exact h.idle t
  case table => exact r.rest.subDispatchToGroup.trans h.table
  case counted => exact fun t => by rw [r.get]; exact h.counted t
  case handled =>
    intro t w hw
    rw [r.rest.trace]
    apply (h.handled t w hw).imp_right
    rintro ⟨hsome,hnone,hlive,hp⟩
    refine ⟨hsome,hnone,r.live.mpr ⟨?_,hlive.2⟩,by rw [r.get]; exact hp⟩
    by_contra hlt
    have hc := r.consumed t hlive.1 (not_le.mp hlt)
    rw [hp] at hc
    cases hc
  case known =>
    intro t ht
    rw [r.rest.trace]
    exact h.known t (hcur ▸ ht)

/-- Nothing is running and nothing is out, so a report is only noted. -/
theorem Executed.report {t : ℤ} (h : Executed l s) (hs : s.onTaskComplete t = .ok s') :
    Executed l s' := by
  unfold onTaskComplete at hs
  dsimp only at hs
  have hnone : (s.record (.report t)).subDispatchToGroup.lookup t = none := by
    change s.subDispatchToGroup.lookup t = none
    rw [h.table]
    rfl
  have hidle : ((s.record (.report t)).get t).status ≠ .running := h.idle t
  rw [hnone] at hs
  dsimp only at hs
  rw [if_neg hidle] at hs
  cases hs
  exact { h with
    shape := h.shape.of_eq rfl rfl rfl
    handled := fun u w hw => by
      change passed .dispatchFn (.report t::s.trace) u = _ ∨
        _ ∧ passed .dispatchFn (.report t::s.trace) u = [] ∧ _
      rw [passed_report]
      exact h.handled u w hw
    known := fun u hu => by
      change passed .dispatchFn (.report t::s.trace) u = []
      rw [passed_report]
      exact h.known u hu }

/-- A new task once its status is decided, with the call made for it. -/
theorem Executed.entered {w : Submission} {v : Status} {m : List (ℤ × PendingGroupSpec)}
    (calls : List Event) (h : Executed l s) (e : Entered s s₁ tid w.size prods)
    (hv : v ≠ .running)
    (hothers : ∀ u, u ≠ tid →
      passed .dispatchFn (calls++s₁.trace) u = passed .dispatchFn s₁.trace u)
    (hself : passed .dispatchFn (calls++s₁.trace) tid = w.works ∨
      w.size.isSome = true ∧ passed .dispatchFn (calls++s₁.trace) tid = [] ∧ v = .pending) :
    Executed (l++[w]) { s₁.setStatus tid v with
      pendingGroupSpecs := m, trace := calls++s₁.trace } := by
  have hget : ∀ t, (s₁.setStatus tid v).get t =
      if s.taskRing.slot t = s.taskRing.slot tid then { s₁.get tid with status := v }
      else s₁.get t := fun t => by
    have hslot : s₁.taskRing.slot t = s₁.taskRing.slot tid ↔
        s.taskRing.slot t = s.taskRing.slot tid := by
      simp only [LinquTaskRing.slot, e.window]
    rw [get_setStatus, if_congr hslot rfl rfl]
    split
    · rename_i hs
      rw [get_eq_of_slot (hslot.mpr hs)]
    · rfl
  have hpassed : ∀ u, u ≠ tid →
      passed .dispatchFn (calls++s₁.trace) u = passed .dispatchFn s.trace u := fun u hu => by
    rw [hothers u hu, e.trace]
    exact passed_submit ..
  constructor
  case shape => exact (e.shape.of_frame (frame_setStatus s₁ tid v)).of_eq rfl rfl rfl
  case backend => exact e.backend.trans h.backend
  case length =>
    change ((l++[w]).length : ℤ) = s₁.taskRing.currentIndex
    rw [List.length_append, List.length_singleton, e.current, e.tid_eq, ← h.length]
    rfl
  case idle =>
    intro t
    change ((s₁.setStatus tid v).get t).status ≠ .running
    rw [hget]
    split
    · exact hv
    · rename_i hs
      rw [e.old t hs]
      exact h.idle t
  case table => exact e.subDispatchToGroup.trans h.table
  case counted =>
    intro t
    change ((s₁.setStatus tid v).get t).subCompleteCount = 0
    rw [hget]
    split
    · obtain ⟨_,_,_,hn⟩ := e.new
      rw [hn]
    · rename_i hs
      rw [e.old t hs]
      exact h.counted t
  case handled =>
    intro t u hu
    rcases submission_of_lt hu with hu | ⟨hlen,rfl⟩
    · have hne : (t : ℤ) ≠ tid := by
        have hlt := (List.getElem?_eq_some_iff.mp hu).1
        have := h.length
        have := e.tid_eq
        omega
      rw [hpassed t hne]
      apply (h.handled t u hu).imp_right
      rintro ⟨hsome,hnone,hlive,hp⟩
      refine ⟨hsome,hnone,(e.live h.shape).mpr (Or.inl hlive),?_⟩
      change ((s₁.setStatus tid v).get t).status = .pending
      rw [hget, if_neg (e.slot_ne t hlive), e.old t (e.slot_ne t hlive)]
      exact hp
    · have htid : (t : ℤ) = tid := by
        have := h.length
        have := e.tid_eq
        omega
      rw [htid]
      apply hself.imp_right
      rintro ⟨hsome,hnone,rfl⟩
      refine ⟨hsome,hnone,e.live_tid h.shape,?_⟩
      change ((s₁.setStatus tid .pending).get tid).status = .pending
      rw [hget, if_pos rfl]
  case known =>
    intro t ht
    have hcur : s₁.taskRing.currentIndex ≤ t := ht
    have htid := e.tid_eq
    rw [e.current] at hcur
    change passed .dispatchFn (calls++s₁.trace) t = []
    rw [hpassed t (by omega)]
    exact h.known t (by omega)

theorem settles_settle (s : State) (t : ℤ) : Settles s (BackendsAgree.settle s t) := by
  have hu : Settles s ((s.faninList t).foldl releaseProducer s) := foldl_rule
    (P := fun _ w => Settles s w) (fun p _ w hw => hw.trans (settles_release w p))
    (s.faninList t) (Settles.refl s)
  unfold BackendsAgree.settle
  dsimp only
  generalize (s.faninList t).foldl releaseProducer s = u at hu ⊢
  have hv : Settles s ((u.fanoutList t).foldl notifyConsumer u) := foldl_rule
    (P := fun _ w => Settles s w) (fun c _ w hw => hw.trans (settles_notify w c))
    (u.fanoutList t) hu
  exact hv.trans (settles_check _ t)

/-- The new task is its own only consumer, so its completion wakes nobody. -/
theorem entered_complete {group : Option ℕ} {u : State} (e : Entered s s₁ tid group prods)
    (hs : u.complete tid = .ok s') (hu : u.taskRing = (s₁.setStatus tid .running).taskRing)
    (hpool : u.depPool = s₁.depPool) : Settles (u.setStatus tid .completed) s' := by
  have hself : ∀ c ∈ u.fanoutList tid, c = tid := by
    intro c hc
    have hlist : u.fanoutList tid = (s₁.setStatus tid .running).fanoutList tid := by
      rw [fanoutList, fanoutList, LinquOrchestratorState.get, hu, hpool]
      rfl
    rw [hlist, (frame_setStatus s₁ tid .running).fanoutList, e.fanout_new] at hc
    exact List.eq_of_mem_replicate hc
  rw [BackendsAgree.complete_alone hself] at hs
  cases hs
  exact settles_settle _ tid

theorem Executed.known_self {group : Option ℕ} (h : Executed l s)
    (e : Entered s s₁ tid group prods) : passed .dispatchFn s₁.trace tid = [] := by
  rw [e.trace, passed_submit]
  exact h.known tid e.tid_eq.ge

theorem Executed.launchTask {target : LinquCoordinate} {k : Option String}
    {params : List LinquParam} (h : Executed l s) (e : Entered s s₁ tid none prods)
    (hs : s₁.launchTask tid target k params = .ok s') :
    Executed (l++[.task target k params]) s' := by
  have hb : (s₁.setStatus tid .running).backend = .dispatchFn := e.backend.trans h.backend
  have hcall : ∀ (ring : LinquTaskRing) (pool : LinquDepListPool) (u : ℤ), passed .dispatchFn
      (.dispatchFn ⟨tid,target,k.getD "",params,.plain,ring,pool⟩::s₁.trace) u =
        passed .dispatchFn s₁.trace u++if tid = u then [⟨target,k.getD "",params⟩] else [] :=
    fun _ _ u => by
      rw [passed_cons]
      simp [passedBy, ownerOf, workOf]
  unfold LinquOrchestratorState.launchTask at hs
  dsimp only at hs
  rw [hb] at hs
  dsimp only at hs
  have hend := entered_complete e hs rfl rfl
  have hent := Executed.entered (w := .task target k params) (v := .completed)
    (m := s₁.pendingGroupSpecs) [.dispatchFn ⟨tid,target,k.getD "",params,.plain,
      (s₁.setStatus tid .running).taskRing,(s₁.setStatus tid .running).depPool⟩] h e (by simp)
    (fun u hu => by
      rw [List.singleton_append, hcall, if_neg (Ne.symm hu), List.append_nil])
    (Or.inl (by
      rw [List.singleton_append, hcall, if_pos rfl, h.known_self e]
      rfl))
  rw [← setStatus_setStatus s₁ tid .running] at hent
  exact hent.settles hend

theorem Executed.launchGroup {k : Option String} {params : List LinquParam}
    {subs : List LinquSubTaskSpec} {arrivals : List (List ℤ)} {found : List ℤ}
    (h : Executed l s) (hwaits : StaysWaiting s (some subs.length) params)
    (hfound : producersOf s.taskRing.currentIndex s.tensorMap params = some found)
    (e : Entered s s₁ tid (some subs.length) found.reverse)
    (hs : s₁.launchGroup tid k params subs arrivals = .ok s') :
    Executed (l++[.group k params subs]) s' := by
  have hnone := h.known_self e
  unfold LinquOrchestratorState.launchGroup at hs
  split at hs
  · rename_i hlen
    have hs' : (s₁.setStatus tid .running).complete tid = .ok s' := by
      rw [complete, setStatus_setStatus]
      exact hs
    have hend := entered_complete e hs' rfl rfl
    have hent := Executed.entered (w := .group k params subs) (v := .completed)
      (m := s₁.pendingGroupSpecs) [] h e (by simp) (fun _ _ => rfl)
      (Or.inl (by
        rw [List.nil_append, hnone, Submission.works, List.length_eq_zero_iff.mp hlen,
          List.map_nil]))
    rw [← setStatus_setStatus s₁ tid .running] at hent
    exact hent.settles hend
  · rename_i hlen
    split at hs
    · rename_i hfan
      obtain ⟨_,_,_,hn⟩ := e.new
      rw [hn] at hfan
      have hnil : found = [] := by simpa using hfan
      rw [hnil] at hfound
      exact absurd hfound (hwaits h.backend hlen)
    · cases hs
      exact Executed.entered (w := .group k params subs) (v := .pending) [] h e
        (by simp) (fun _ _ => rfl) (Or.inr ⟨rfl,hnone,rfl⟩)

end Function

theorem executed_rule : SubmissionRule Executed StaysWaiting where
  shape _ _ h := h.shape
  settles _ _ _ hs h := h.settles hs
  advance _ _ _ _ r h := h.advance r
  report _ _ _ _ h hs := h.report hs
  task l s s₁ s' tid target k params h he hs := by
    obtain ⟨found,-,e⟩ := enterTask_entered h.shape he
    exact h.launchTask e hs
  group l s s₁ s' tid k params subs arrivals h hc he hs := by
    obtain ⟨found,hfound,e⟩ := enterTask_entered h.shape he
    exact h.launchGroup hc hfound e hs

theorem init_executed {cfg : LinquOrchConfigInternal} {s : State}
    (h : init .dispatchFn cfg = .ok s) : Executed [] s := by
  obtain ⟨hb,htr,-,-,hsub,-,-⟩ := init_rest h
  obtain ⟨-,hcur,-,hget⟩ := init_ring h
  refine ⟨init_shape h,hb,by rw [hcur]; rfl,fun t => ?_,hsub,fun t => ?_,fun t w hw => ?_,
    fun t _ => ?_⟩
  · rw [hget]
    simp
  · rw [hget]
  · cases hw
  · rw [htr]
    rfl

/-! A group that is started without a dispatcher is passed to nobody. -/

theorem passed_frame {s s' : State} (f : Frame s s') (t : ℤ) :
    passed .dispatchFn s'.trace t = passed .dispatchFn s.trace t := by
  obtain ⟨new,hnew,hsub⟩ := f.events
  rw [hnew]
  clear hnew
  induction new with
  | nil => rfl
  | cons e new ih =>
    obtain ⟨call,g,i,rfl,-⟩ := hsub e List.mem_cons_self
    rw [List.cons_append, passed_cons, ih fun x hx => hsub x (List.mem_cons_of_mem _ hx)]
    simp [passedBy]

theorem passed_onTaskComplete {s s' : State} {t : ℤ} (hs : s.onTaskComplete t = .ok s') (u : ℤ) :
    passed .dispatchFn s'.trace u = passed .dispatchFn s.trace u := by
  rw [passed_frame (frame_onTaskComplete hs)]
  exact passed_report ..

theorem passed_dispatchFrom {fuel : ℕ} {g : ℤ} {k : Option String} {gp : List LinquParam} {n : ℕ}
    {arrivals : ℕ → List ℤ} (t : ℤ) (subs : List LinquSubTaskSpec) : ∀ (i : ℕ) (s s' : State),
      dispatchFrom (propagateCompletion fuel) (fun i s => s.deliver (arrivals i)) g k gp n i subs
        s = .ok s' → passed .dispatchFn s'.trace t = passed .dispatchFn s.trace t := by
  induction subs with
  | nil =>
    intro i s s' h
    cases h
    rfl
  | cons sub rest ih =>
    intro i s s' h
    rw [dispatchFrom] at h
    obtain ⟨m,hm,h⟩ := bind_ok.mp h
    obtain ⟨m',hm',h⟩ := bind_ok.mp h
    have h1 := passed_frame (DispatchOrder.frame_dispatchSubTask hm) t
    have h2 := foldlM_rule (P := fun _ u => passed .dispatchFn u.trace t =
        passed .dispatchFn m.trace t)
      (fun _ _ _ _ hu ht => (passed_onTaskComplete ht t).trans hu) _ rfl hm'
    exact (ih (i+1) m' s' h).trans (h2.trans h1)

theorem not_delivered_group {l : List Submission} {s s₁ s' : State} {tid : ℤ} {k : Option String}
    {params : List LinquParam} {subs : List LinquSubTaskSpec} {arrivals : List (List ℤ)}
    (h : Executed l s) (e : Entered s s₁ tid (some subs.length) []) (hsubs : subs.length ≠ 0)
    (hs : s₁.launchGroup tid k params subs arrivals = .ok s') :
    ¬ Delivered (l++[.group k params subs]) s' := by
  intro hd
  have hfan : (s₁.get tid).faninCount = 0 := by
    obtain ⟨_,_,_,hn⟩ := e.new
    rw [hn]
    rfl
  have hb : s'.backend = .dispatchFn :=
    (DispatchOrder.follows_launchGroup hs).backend.trans (e.backend.trans h.backend)
  have hrun : ((s₁.setStatus tid .running).get tid).status = .running := by
    rw [get_setStatus, if_pos rfl]
  have hawake : Awake tid s' := launchGroup_task_rule (awake_rule tid)
    ⟨e.shape.of_frame (frame_setStatus s₁ tid .running),by rw [hrun]; simp⟩
    (fun _ hne => absurd hfan hne) hs
  have hnone : passed .dispatchFn s'.trace tid = [] := by
    unfold LinquOrchestratorState.launchGroup at hs
    rw [if_neg hsubs, if_pos hfan] at hs
    have hsame := passed_dispatchFrom tid subs 0 (s₁.setStatus tid .running) s' hs
    have hself : passed .dispatchFn s₁.trace tid = [] := h.known_self e
    exact hsame.trans hself
  have hlen : (l.length : ℤ) = tid := h.length.trans e.tid_eq.symm
  have hall := hd.passed l.length (.group k params subs) (by simp)
    (Or.inr (by rw [hlen]; exact hawake.2))
  rw [hb, hlen, hnone, Submission.works] at hall
  exact hsubs (by simpa using (congrArg List.length hall).symm)

/-- A call that breaks the condition leaves work undelivered. -/
theorem Executed.admits {l : List Submission} {s s' : State} {op : Op} (h : Executed l s)
    (hs : Steps s op s') (hd : Delivered (l++submissionOf op) s') : Admits StaysWaiting s op := by
  unfold Steps at hs
  cases op with
  | submitTask target k params arrivals => exact fun m _ _ hgroup => absurd rfl hgroup
  | submitTaskGroup k params subs arrivals dispatchArrivals =>
    obtain ⟨m,hm,hs⟩ := bind_ok.mp hs
    obtain ⟨⟨tid,e⟩,he,hs⟩ := bind_ok.mp hs
    have hexec := waitForSpace_submissions executed_rule h hm
    intro m' hm' _ hsubs hnil
    cases hm.symm.trans hm'
    obtain ⟨found,hfound,hent⟩ := enterTask_entered hexec.shape he
    cases hfound.symm.trans hnil
    exact not_delivered_group hexec hent hsubs hs hd
  | _ => trivial

theorem attended_admits {window : ℤ} {l : List Submission} {s : State} (op : Op)
    (h : Attended window l s) : Admits StaysWaiting s op := by
  have hwait : ∀ {arrivals m}, s.waitForSpace arrivals = .ok m → m.backend = .dispatcher :=
    fun hm => (waitForSpace_submissions (attended_rule window) h hm).backend
  cases op with
  | submitTask target k params arrivals => exact fun m _ _ hgroup => absurd rfl hgroup
  | submitTaskGroup k params subs arrivals dispatchArrivals =>
    intro m hm hb
    rw [hwait hm] at hb
    cases hb
  | _ => trivial

/-! Runs. -/

theorem submitted_cons (op : Op) (ops : List Op) :
    submitted (op::ops) = submissionOf op++submitted ops := List.flatMap_cons ..

/-- The two directions, for an invariant that the condition carries and that a
step to a state with everything delivered gives the condition back. -/
theorem delivered_iff_guarded {J : List Submission → State → Prop} {D : State → Prop}
    (rule : SubmissionRule J StaysWaiting)
    (hdel : ∀ l s, J l s → D s → Delivered l s)
    (hback : ∀ l s op s', J l s → Steps s op s' → Delivered (l++submissionOf op) s' →
      Admits StaysWaiting s op) (ops : List Op) : ∀ (l : List Submission) (s : State), J l s →
    (∀ pre t, pre <+: ops → Run Steps pre s t → D t) →
    ((∀ pre t, pre <+: ops → Run Steps pre s t → Delivered (l++submitted pre) t) ↔
      Guarded Steps Holds ops s) := by
  induction ops with
  | nil =>
    intro l s h hD
    refine ⟨fun _ => trivial,fun _ pre t hpre hr => ?_⟩
    have ht := hD pre t hpre hr
    rw [List.prefix_nil.mp hpre] at hr ⊢
    cases hr
    rw [submitted, List.flatMap_nil, List.append_nil]
    exact hdel l s h ht
  | cons op ops ih =>
    intro l s h hD
    have hfirst : ∀ m, Steps s op m → [op] <+: op::ops := fun _ _ =>
      List.cons_prefix_cons.mpr ⟨rfl,List.nil_prefix⟩
    have hrest : ∀ m, Steps s op m → ∀ pre t, pre <+: ops → Run Steps pre m t → D t :=
      fun m hm pre t hpre hr => hD (op::pre) t (List.cons_prefix_cons.mpr ⟨rfl,hpre⟩) ⟨m,hm,hr⟩
    constructor
    · intro hall
      have hop : Holds s op := by
        rintro ⟨m,hm⟩
        have hd := hall [op] m (hfirst m hm) ⟨m,hm,rfl⟩
        rw [submitted_cons, submitted, List.flatMap_nil, List.append_nil] at hd
        exact hback l s op m h hm hd
      refine ⟨hop,fun m hm => ?_⟩
      have hstep := exec_submissions rule h (hop ⟨m,hm⟩) hm
      apply (ih _ m hstep (hrest m hm)).mp
      intro pre t hpre hr
      rw [List.append_assoc, ← submitted_cons]
      exact hall (op::pre) t (List.cons_prefix_cons.mpr ⟨rfl,hpre⟩) ⟨m,hm,hr⟩
    · rintro ⟨hop,hg⟩ pre t hpre hr
      cases pre with
      | nil =>
        have ht := hD [] t hpre hr
        cases hr
        rw [submitted, List.flatMap_nil, List.append_nil]
        exact hdel l s h ht
      | cons op' pre =>
        obtain ⟨rfl,htail⟩ := List.cons_prefix_cons.mp hpre
        obtain ⟨m,hm,hr⟩ := hr
        have hstep := exec_submissions rule h (hop ⟨m,hm⟩) hm
        have hd := (ih _ m hstep (hrest m hm)).mpr (hg m hm) pre t htail hr
        rw [submitted_cons, ← List.append_assoc]
        exact hd

/-- In every run with a dispatch function, and in every run with a dispatcher in
which no sub-task is reported after the slot of its group went to another task:
in every state reached the backend was passed, in order and once each, the works
of every task and of every group that has started, and no sub-task is counted
that it was not passed, exactly when no group with sub-tasks is submitted to a
dispatch function without finding a producer. -/
theorem work_delivered_iff {backend : Backend} {cfg : LinquOrchConfigInternal} {s₀ : State}
    {ops : List Op} (hbackend : backend ≠ .none) (hinit : init backend cfg = .ok s₀)
    (htimely : backend = .dispatcher →
      Along Steps (fun s => Timely s₀.taskRing.windowSize s.trace) ops s₀) :
    (∀ pre s, pre <+: ops → Run Steps pre s₀ s → Delivered (submitted pre) s) ↔
      Guarded Steps Holds ops s₀ := by
  cases backend with
  | none => exact absurd rfl hbackend
  | dispatchFn =>
    exact delivered_iff_guarded (D := fun _ => True) executed_rule (fun _ _ h _ => h.delivered)
      (fun _ _ _ _ h hs hd => h.admits hs hd) ops [] s₀ (init_executed hinit)
      (fun _ _ _ _ => trivial)
  | dispatcher =>
    exact delivered_iff_guarded (attended_rule s₀.taskRing.windowSize)
      (fun _ _ h ht => (h.served ht).delivered) (fun _ _ op _ h _ _ => attended_admits op h)
      ops [] s₀ (init_attended hinit) (along_runs.mp (htimely rfl))

/-- A task, and a group of two that reads what it writes and has a kernel of its
own for one sub-task. -/
def readingGroup : List Op :=
  [.submitTask {} (some "produce") [linquMakeOutput 1] [],
    .submitTaskGroup (some "consume") [linquMakeInput 1]
      [⟨{},none,[linquMakeOutput 2]⟩,⟨{},some "other",[]⟩] [] [],.onTaskComplete 0,
    .onTaskComplete (-1),.onTaskComplete (-2)]

theorem along_of_exec {test : State → Bool} {ops : List Op} {s : State}
    (h : checkAlong (fun s op => (exec s op).toOption) test ops s = true) :
    Along Steps (fun s => test s = true) ops s := by
  have hsteps : Steps = fun s op s' => (exec s op).toOption = some s' := by
    funext s op s'
    exact propext toOption_some.symm
  rw [hsteps]
  exact along_of_check h

theorem work_delivered_reading : ∃ s₀ s, init .dispatcher {} = .ok s₀ ∧
    Run Steps readingGroup s₀ s ∧ passed .dispatcher s.trace 1 =
      [⟨{},"consume",[linquMakeInput 1,linquMakeOutput 2]⟩,⟨{},"other",[linquMakeInput 1]⟩] ∧
    ∀ pre u, pre <+: readingGroup → Run Steps pre s₀ u → Delivered (submitted pre) u := by
  obtain ⟨s₀,s,h₀,hr,hstart,ht⟩ := run_of_check (b := .dispatcher) (c := {}) (l := readingGroup)
    (g := fun s => checkAlong (fun s op => (exec s op).toOption)
        (fun u => decide (Timely s.taskRing.windowSize u.trace)) readingGroup s &&
      checkGuarded (fun s group params => decide (StaysWaiting s group params)) readingGroup s)
    (t := fun s => decide (passed .dispatcher s.trace 1 =
      [⟨{},"consume",[linquMakeInput 1,linquMakeOutput 2]⟩,⟨{},"other",[linquMakeInput 1]⟩]))
    (by decide +kernel)
  obtain ⟨htimely,hguard⟩ := Bool.and_eq_true_iff.mp hstart
  have htimely := along_of_exec htimely
  simp only [decide_eq_true_eq] at htimely
  have hguard := guarded_of_check (C := StaysWaiting) (fun _ _ _ h => of_decide_eq_true h)
    readingGroup s₀ hguard
  exact ⟨s₀,s,h₀,hr,of_decide_eq_true ht,(work_delivered_iff (by simp) h₀ (fun _ => htimely)).mpr
    (guarded_mono (show ∀ s op, Admits StaysWaiting s op → Holds s op from fun _ _ h _ => h)
      hguard)⟩

/-- A group of one sub-task, submitted with a dispatch function. -/
def loneGroup : List Op := [.submitTaskGroup (some "k") [] [⟨{},none,[]⟩] [] []]

/-- The group completes, and the function was never called. -/
theorem group_never_passed : ∃ s₀ s, init .dispatchFn {} = .ok s₀ ∧ Run Steps loneGroup s₀ s ∧
    (s.get 0).status = .completed ∧ (s.get 0).subCompleteCount = 1 ∧
    passed .dispatchFn s.trace 0 = [] ∧ ¬ Delivered (submitted loneGroup) s := by
  obtain ⟨s₀,s,h₀,hr,-,ht⟩ := run_of_check (b := .dispatchFn) (c := {}) (l := loneGroup)
    (g := fun _ => true) (t := fun s => decide (s.backend = .dispatchFn ∧
      (s.get 0).status = .completed ∧ (s.get 0).subCompleteCount = 1 ∧
      passed .dispatchFn s.trace 0 = [])) (by decide +kernel)
  obtain ⟨hb,hst,hcount,hnone⟩ := of_decide_eq_true ht
  refine ⟨s₀,s,h₀,hr,hst,hcount,hnone,fun hd => ?_⟩
  have hall := hd.passed 0 (.group (some "k") [] [⟨{},none,[]⟩]) rfl
    (Or.inr (by change (s.get 0).status ≠ .pending; simp [hst]))
  rw [hb] at hall
  change passed .dispatchFn s.trace 0 = _ at hall
  rw [hnone] at hall
  cases hall

/-- Group 0 is completed under its own id while its sub-task is out. Its slot
goes to group 2, which waits for task 1. -/
def lateReport : List Op :=
  [.scopeBegin,.submitTaskGroup none [] [⟨{},none,[]⟩] [] [],.onTaskComplete 0,.scopeEnd,
    .submitTask {} none [linquMakeOutput 1] [],
    .submitTaskGroup none [linquMakeInput 1] [⟨{},none,[]⟩] [] [],.onTaskComplete (-1)]

/-- The report of the sub-task of group 0 completes group 2. -/
theorem late_report_skips_group : ∃ s₀ s, init .dispatcher { taskRingWindow := 2 } = .ok s₀ ∧
    Run Steps lateReport s₀ s ∧ (s.get 2).status = .completed ∧
    passed .dispatcher s.trace 2 = [] ∧ ¬ Timely s₀.taskRing.windowSize s.trace ∧
    ¬ Delivered (submitted lateReport) s := by
  obtain ⟨s₀,s,h₀,hr,hw,ht⟩ := run_of_check (b := .dispatcher) (c := { taskRingWindow := 2 })
    (l := lateReport) (g := fun s => decide (s.taskRing.windowSize = 2))
    (t := fun s => decide (s.backend = .dispatcher ∧ (s.get 2).status = .completed ∧
      passed .dispatcher s.trace 2 = [] ∧ ¬ Timely 2 s.trace)) (by decide +kernel)
  obtain ⟨hb,hst,hnone,hlate⟩ := of_decide_eq_true ht
  refine ⟨s₀,s,h₀,hr,hst,hnone,by rw [of_decide_eq_true hw]; exact hlate,fun hd => ?_⟩
  have hall := hd.passed 2 (.group none [linquMakeInput 1] [⟨{},none,[]⟩]) rfl
    (Or.inr (by change (s.get 2).status ≠ .pending; simp [hst]))
  rw [hb] at hall
  change passed .dispatcher s.trace 2 = _ at hall
  rw [hnone] at hall
  cases hall

end Linqu.WorkDelivery
