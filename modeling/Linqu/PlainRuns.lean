import Linqu.Reports

/-!
# Runs of plain tasks

Runs without groups, in which an id is reported only after it was dispatched
and at most once. In such a run a completion moves no status but from
COMPLETED to CONSUMED, and the ids that are out are exactly the live tasks
that are RUNNING.
-/

set_option autoImplicit false

namespace Linqu.PlainRuns
open Linqu.TaskRing Linqu.DepPool Linqu.TensorMap Linqu.ScopeStack Linqu.Orchestrator
open Linqu.Orchestrator.LinquOrchestratorState Linqu.OrchestrationApi Linqu.Transition
open Linqu.OrchestratorRule Linqu.OrchestratorShape Linqu.OrchestratorCalls Linqu.OrchestratorDone
open Linqu.Reports

/-- What a predicate has to survive when no group and no pending task is
there: the releases, the notifications and the check. -/
structure PlainRule (I : List ℤ → State → Prop) : Prop where
  release : ∀ p rel v, I (p::rel) v → I rel (v.releaseProducer p)
  notify : ∀ c v, I [] v → I [] (v.notifyConsumer c)
  check : ∀ t v, I [] v → I [] (v.checkTaskConsumed t)

section Complete

variable {s : State} {I : List ℤ → State → Prop}

theorem PlainRule.propagateRule (rule : PlainRule I) (hg : ∀ t, (s.get t).isGroup = false)
    (hp : ∀ t, s.taskRing.Live t → (s.get t).status ≠ .pending) :
    PropagateRule (fun rel _ _ chk v => I rel v ∧ Settles s v ∧ ∀ c ∈ chk, s.taskRing.Live c) := by
  have hno : ∀ (v : State) c, Settles s v → (v.get c).isGroup = true → False :=
    fun v c hv hc => by
      rw [hv.isGroup, hg] at hc
      cases hc
  constructor
  case release => exact fun p rel _ _ _ v ⟨hI,hv,hc⟩ =>
    ⟨rule.release p rel v hI,hv.trans (settles_release v p),hc⟩
  case notify => exact fun c _ _ _ v ⟨hI,hv,hc⟩ _ =>
    ⟨rule.notify c v hI,hv.trans (settles_notify v c),hc⟩
  case skip => exact fun c _ _ v ⟨hI,hv,hc⟩ _ =>
    ⟨hI,hv,fun d hd => hc d (List.mem_cons_of_mem c hd)⟩
  case ready =>
    intro c _ _ v ⟨_,hv,hc⟩ hsat _
    have hst := hsat.2
    rcases hv.status c with he | ⟨-,he⟩
    · exact absurd (he ▸ hst) (hp c (hc c List.mem_cons_self))
    · rw [he] at hst
      cases hst
  case run => exact fun c _ _ v hv _ hc _ => (hno v c hv.2.1 hc).elim
  case dispatch => exact fun c _ _ v _ _ hv _ hc _ _ _ => (hno v c hv.2.1 hc).elim
  case count => exact fun g _ _ v _ hc hv => (hno v g hv.2.1 hc).elim
  case complete => exact fun g _ _ v _ hc hv => (hno v g hv.2.1 hc).elim
  case erase => exact fun g _ _ v _ hc hv => (hno v g hv.2.1 hc).elim
  case finish => exact fun t _ _ v ⟨hI,hv,hc⟩ =>
    ⟨rule.check t v hI,hv.trans (settles_check v t),hc⟩

theorem complete_plain_rule (rule : PlainRule I) (hs : Shape s)
    (hg : ∀ t, (s.get t).isGroup = false)
    (hp : ∀ t, s.taskRing.Live t → (s.get t).status ≠ .pending) {t : ℤ}
    (ht : s.taskRing.Live t) {s' : State} (hI : I (s.faninList t) (s.setStatus t .completed))
    (h : s.complete t = .ok s') : I [] s' := by
  have f := frame_setStatus s t .completed
  rw [← f.faninList] at hI
  refine (propagate_rule (rule.propagateRule (s := s.setStatus t .completed) ?_ ?_) (b := [])
    (c := []) h ⟨hI,Settles.refl _,fun c hc => ?_⟩).1
  · exact fun u => (f.isGroup u).trans (hg u)
  · intro u hu
    rw [get_setStatus]
    split
    · simp
    · exact hp u (f.live.mp hu)
  · rw [List.append_nil, f.fanoutList] at hc
    exact f.live.mpr (hs.consumer_live ht hc)

/-- Completing a task settles the others. -/
theorem complete_settles (hs : Shape s) (hg : ∀ t, (s.get t).isGroup = false)
    (hp : ∀ t, s.taskRing.Live t → (s.get t).status ≠ .pending) {t : ℤ}
    (ht : s.taskRing.Live t) {s' : State} (h : s.complete t = .ok s') :
    Settles (s.setStatus t .completed) s' :=
  complete_plain_rule (I := fun _ v => Settles (s.setStatus t .completed) v)
    ⟨fun p _ v hv => hv.trans (settles_release v p),fun c v hv => hv.trans (settles_notify v c),
      fun u v hv => hv.trans (settles_check v u)⟩ hs hg hp ht (Settles.refl _) h

end Complete

/-- A completed task leaves the running ones. -/
theorem complete_running {s s' : State} (hs : Shape s) (hg : ∀ t, (s.get t).isGroup = false)
    (hb : Busy s) {t : ℤ} (ht : s.taskRing.Live t) (h : s.complete t = .ok s') :
    Shape s' ∧ (∀ u, (s'.get u).isGroup = false) ∧ s'.subDispatchToGroup = s.subDispatchToGroup ∧
      s'.trace = s.trace ∧ Busy s' ∧ s'.taskRing.currentIndex = s.taskRing.currentIndex ∧
      ∀ u, Running s' u ↔ Running s u ∧ u ≠ t := by
  have hset := complete_settles hs hg (fun u hu => hb.not_pending hu) ht h
  have f := frame_setStatus s t .completed
  have hst : ∀ u, s.taskRing.Live u → ((s.setStatus t .completed).get u).status =
      if u = t then .completed else (s.get u).status := fun u hu =>
    status_setStatus hs hu ht .completed
  have hb' : Busy (s.setStatus t .completed) := by
    intro u hu
    rw [hst u (f.live.mp hu)]
    split
    · exact Or.inr rfl
    · exact hb u (f.live.mp hu)
  refine ⟨hset.shape (hs.of_frame f),fun u => ?_,hset.subs,hset.trace,hset.busy hb',
    hset.current.trans f.current,fun u => ?_⟩
  · rw [hset.isGroup, f.isGroup]
    exact hg u
  · rw [hset.running, Running, Running, f.live]
    constructor
    · rintro ⟨hu,hr⟩
      rw [hst u hu] at hr
      split at hr
      · cases hr
      · rename_i hne
        exact ⟨⟨hu,hr⟩,hne⟩
    · rintro ⟨⟨hu,hr⟩,hne⟩
      rw [hst u hu, if_neg hne]
      exact ⟨hu,hr⟩

structure Tracked (s : State) : Prop where
  noSub : s.subDispatchToGroup = []
  busy : Busy s
  outstanding : ∀ t, Outstanding s.trace t ↔ Running s t
  dispatched : ∀ t, Dispatched s.trace t → t < s.taskRing.currentIndex

structure Plain (s : State) : Prop where
  shape : Shape s
  noGroup : ∀ t, (s.get t).isGroup = false
  tracked : ReportsOnce s.trace → Tracked s

theorem Plain.of_settles {s v : State} (h : Plain s) (hv : Settles s v) : Plain v := by
  refine ⟨hv.shape h.shape,fun t => (hv.isGroup t).trans (h.noGroup t),fun ho => ?_⟩
  rw [hv.trace] at ho
  have ht := h.tracked ho
  exact ⟨hv.subs.trans ht.noSub,hv.busy ht.busy,fun t => by rw [hv.trace, hv.running]; exact ht.outstanding t,
    fun t hd => by rw [hv.current]; exact ht.dispatched t (hv.trace ▸ hd)⟩

theorem Plain.retired {s s' : State} {cursor : ℤ} (h : Plain s) (r : Retired s s' cursor) :
    Plain s' := by
  refine ⟨r.shape h.shape,fun t => by rw [r.get]; exact h.noGroup t,fun ho => ?_⟩
  rw [r.rest.trace] at ho
  have ht := h.tracked ho
  refine ⟨r.rest.subDispatchToGroup.trans ht.noSub,fun t hl => ?_,fun t => ?_,fun t hd => ?_⟩
  · rw [r.get]
    exact ht.busy t (r.live_of hl)
  · rw [r.rest.trace, ht.outstanding, Running, Running, r.get]
    constructor
    · intro hr
      refine ⟨r.live.mpr ⟨?_,hr.1.2⟩,hr.2⟩
      by_contra hlt
      have hc := r.consumed t hr.1.1 (not_le.mp hlt)
      rw [hc] at hr
      cases hr.2
    · intro hr
      exact ⟨r.live_of hr.1,hr.2⟩
  · rw [r.rest.trace] at hd
    rw [r.ring]
    exact ht.dispatched t hd

/-- With the policy a report completes the task it names. -/
theorem Plain.report_complete {s s' : State} {t : ℤ} (h : Plain s)
    (hs : s.onTaskComplete t = .ok s') (ho : ReportsOnce s'.trace) :
    Tracked s ∧ Running s t ∧ ReportsOnce (.report t::s.trace) ∧
      (s.record (.report t)).complete t = .ok s' := by
  have ho' : ReportsOnce (.report t::s.trace) :=
    reportsOnce_suffix ho (frame_onTaskComplete hs).suffix
  have htr := h.tracked ho'.2
  have hrun := (htr.outstanding t).mp ho'.1
  refine ⟨htr,hrun,ho',?_⟩
  have hsub : (s.record (.report t)).subDispatchToGroup.lookup t = none := by
    change s.subDispatchToGroup.lookup t = none
    rw [htr.noSub]
    rfl
  unfold onTaskComplete at hs
  dsimp only at hs
  rw [hsub] at hs
  dsimp only at hs
  rw [if_pos (show ((s.record (.report t)).get t).status = .running from hrun.2)] at hs
  exact hs

theorem Plain.report {s s' : State} {t : ℤ} (h : Plain s) (hs : s.onTaskComplete t = .ok s') :
    Plain s' := by
  have f := frame_onTaskComplete hs
  have hshape : Shape (s.record (.report t)) := h.shape.of_eq rfl rfl rfl
  refine ⟨hshape.of_frame f,fun u => (f.isGroup u).trans (h.noGroup u),fun ho => ?_⟩
  obtain ⟨htr,hrun,-,hc⟩ := h.report_complete hs ho
  obtain ⟨-,-,hsub,htrace,hbusy,hcur,hrun'⟩ :=
    complete_running hshape h.noGroup htr.busy hrun.1 hc
  refine ⟨hsub.trans htr.noSub,hbusy,fun u => ?_,fun u hd => ?_⟩
  · rw [htrace, hrun' u]
    exact outstanding_report.trans (and_congr_left' (htr.outstanding u))
  · rw [htrace] at hd
    rw [hcur]
    obtain ⟨c,hc,he⟩ := hd
    rcases List.mem_cons.mp hc with hc | hc
    · cases hc
    · exact htr.dispatched u ⟨c,hc,he⟩

section Enter

variable {s s₁ : State} {tid : ℤ} {prods : List ℤ}

theorem entered_noGroup (h : Plain s) (e : Entered s s₁ tid none prods) (t : ℤ) :
    ((s₁.setStatus tid .running).get t).isGroup = false := by
  rw [setStatus_field LinquTaskDescriptor.isGroup (fun _ _ => rfl)]
  by_cases hslot : s.taskRing.slot t = s.taskRing.slot tid
  · obtain ⟨_,_,_,hn⟩ := e.new
    rw [get_eq_of_slot (s := s₁) (u := tid) (by
      rw [LinquTaskRing.slot, LinquTaskRing.slot, e.window]; exact hslot), hn]
    rfl
  · rw [e.old t hslot]
    exact h.noGroup t

theorem entered_running (h : Plain s) (e : Entered s s₁ tid none prods) (t : ℤ) :
    Running (s₁.setStatus tid .running) t ↔ Running s t ∨ t = tid := by
  have hl : (s₁.setStatus tid .running).taskRing.Live t ↔ s.taskRing.Live t ∨ t = tid :=
    e.live h.shape
  rw [Running, Running, hl]
  constructor
  · rintro ⟨ht | ht,hr⟩
    · rw [entered_field e LinquTaskDescriptor.status (fun _ _ _ _ => rfl) ht] at hr
      exact Or.inl ⟨ht,hr⟩
    · exact Or.inr ht
  · rintro (⟨ht,hr⟩ | rfl)
    · rw [entered_field e LinquTaskDescriptor.status (fun _ _ _ _ => rfl) ht]
      exact ⟨Or.inl ht,hr⟩
    · rw [get_setStatus, if_pos rfl]
      exact ⟨Or.inr rfl,rfl⟩

theorem entered_busy (h : Plain s) (ht : Tracked s) (e : Entered s s₁ tid none prods) :
    Busy (s₁.setStatus tid .running) := by
  intro t hl
  rcases (e.live h.shape).mp hl with hl | rfl
  · rw [entered_field e LinquTaskDescriptor.status (fun _ _ _ _ => rfl) hl]
    exact ht.busy t hl
  · rw [get_setStatus, if_pos rfl]
    exact Or.inl rfl

theorem entered_outstanding (e : Entered s s₁ tid none prods) (t : ℤ) :
    Outstanding s₁.trace t ↔ Outstanding s.trace t := by
  rw [e.trace]
  exact outstanding_other (by simp) (by simp)

theorem entered_dispatched (e : Entered s s₁ tid none prods) (t : ℤ) :
    Dispatched s₁.trace t ↔ Dispatched s.trace t := by
  simp only [Dispatched, e.trace, List.mem_cons, reduceCtorEq, false_or]

end Enter

/-- A submission without a dispatcher: the task is completed on the spot. -/
theorem Plain.launch_complete {s v s' : State} {tid : ℤ} (h : Plain s) (hshape : Shape v)
    (hgroup : ∀ t, (v.get t).isGroup = false) (hlive : v.taskRing.Live tid)
    (hnew : ¬ s.taskRing.Live tid) (hrec : ReportsOnce v.trace → ReportsOnce s.trace)
    (hsub : v.subDispatchToGroup = s.subDispatchToGroup) (hbusy : Tracked s → Busy v)
    (hrun : ∀ t, Running v t ↔ Running s t ∨ t = tid)
    (hout : ∀ t, Outstanding v.trace t ↔ Outstanding s.trace t)
    (hdis : ∀ t, Dispatched v.trace t → Dispatched s.trace t)
    (hcur : s.taskRing.currentIndex ≤ v.taskRing.currentIndex)
    (hs : v.complete tid = .ok s') : Plain s' := by
  have f := frame_complete hs
  refine ⟨hshape.of_frame f,fun t => (f.isGroup t).trans (hgroup t),fun ho => ?_⟩
  have ho' := reportsOnce_suffix ho f.suffix
  have ht := h.tracked (hrec ho')
  obtain ⟨-,-,hsub',htr,hb,hcur',hr⟩ := complete_running hshape hgroup (hbusy ht) hlive hs
  refine ⟨(hsub'.trans hsub).trans ht.noSub,hb,fun t => ?_,fun t hd => ?_⟩
  · rw [htr, hout, ht.outstanding, hr, hrun]
    constructor
    · intro hrt
      exact ⟨Or.inl hrt,fun he => hnew (he ▸ hrt.1)⟩
    · rintro ⟨hrt | hrt,hne⟩
      · exact hrt
      · exact absurd hrt hne
  · rw [htr] at hd
    rw [hcur']
    exact lt_of_lt_of_le (ht.dispatched t (hdis t hd)) hcur

theorem Plain.launchTask {s s₁ s' : State} {tid : ℤ} {prods : List ℤ} {target : LinquCoordinate}
    {kernelSo : Option String} {params : List LinquParam} (h : Plain s)
    (e : Entered s s₁ tid none prods) (hs : s₁.launchTask tid target kernelSo params = .ok s') :
    Plain s' := by
  have hshape : Shape (s₁.setStatus tid .running) := e.shape.of_frame (frame_setStatus _ _ _)
  have hgroup := entered_noGroup h e
  have hrun := entered_running h e
  have hlive : (s₁.setStatus tid .running).taskRing.Live tid := e.live_tid h.shape
  have htid := e.tid_eq
  have hcur : s.taskRing.currentIndex ≤ (s₁.setStatus tid .running).taskRing.currentIndex := by
    change _ ≤ s₁.taskRing.currentIndex
    rw [e.current]
    omega
  have hrec : ReportsOnce s₁.trace → ReportsOnce s.trace := fun ho => by
    rw [e.trace] at ho
    exact ho
  unfold LinquOrchestratorState.launchTask at hs
  dsimp only at hs
  split at hs
  · cases hs
    refine ⟨hshape.of_eq rfl rfl rfl,hgroup,fun ho => ?_⟩
    have ho : ReportsOnce s.trace := hrec ho
    have ht := h.tracked ho
    refine ⟨e.subDispatchToGroup.trans ht.noSub,entered_busy h ht e,fun t => ?_,fun t hd => ?_⟩
    · refine (outstanding_dispatch.trans ?_).trans (hrun t).symm
      rw [show Outstanding (s₁.setStatus tid .running).trace t ↔ Outstanding s.trace t from
        entered_outstanding e t, ht.outstanding]
      refine or_congr_right ⟨fun h => h.1.symm,fun he => ⟨he.symm,fun hm => ?_⟩⟩
      have hm : .report t ∈ s.trace := by
        change _ ∈ s₁.trace at hm
        rw [e.trace] at hm
        simpa using hm
      have := ht.dispatched t (reported_dispatched ho hm)
      omega
    · obtain ⟨c,hc,rfl⟩ := hd
      rcases List.mem_cons.mp hc with hc | hc
      · cases hc
        change tid < s₁.taskRing.currentIndex
        rw [e.current]
        omega
      · exact lt_of_lt_of_le (ht.dispatched _ ((entered_dispatched e _).mp ⟨c,hc,rfl⟩)) hcur
  · generalize hev : Event.dispatchFn _ = ev at hs
    refine h.launch_complete (v := (s₁.setStatus tid .running).record ev)
      (hshape.of_eq rfl rfl rfl) hgroup hlive e.not_live (fun ho => hrec (reportsOnce_tail ho))
      e.subDispatchToGroup (fun ht => entered_busy h ht e) hrun (fun t => ?_) (fun t hd => ?_)
      hcur hs
    · subst hev
      exact (outstanding_other (by simp) (by simp)).trans (entered_outstanding e t)
    · obtain ⟨c,hc,rfl⟩ := hd
      rcases List.mem_cons.mp hc with hc | hc
      · rw [← hev] at hc
        cases hc
      · exact (entered_dispatched e _).mp ⟨c,hc,rfl⟩
  · exact h.launch_complete (v := s₁.setStatus tid .running) hshape hgroup hlive e.not_live hrec
      e.subDispatchToGroup (fun ht => entered_busy h ht e) hrun
      (fun t => entered_outstanding e t) (fun t hd => (entered_dispatched e t).mp hd) hcur hs

theorem plain_calls : CallRule Plain (fun _ group _ => group = none) where
  shape _ h := h.shape
  metrics _ _ m h := h.of_settles (settles_metrics m)
  advance _ _ _ r h := h.retired r
  report _ _ _ h hs := h.report hs
  task _ _ _ _ _ _ _ _ h _ _ e hs := h.launchTask e hs
  group _ _ _ _ _ _ _ _ _ _ hc := by cases hc
  scopeBegin _ _ h hs := h.of_settles (settles_scopeBegin hs)
  closeScope _ _ h hs := h.of_settles (settles_closeScope hs)
  scopeRelease s t h := h.of_settles (settles_check s t)

theorem init_plain {backend : Backend} {cfg : LinquOrchConfigInternal} {s : State}
    (h : init backend cfg = .ok s) : Plain s := by
  obtain ⟨-,htr,-,-,hsub,-,-⟩ := init_rest h
  obtain ⟨-,-,-,hget⟩ := init_ring h
  have hnl := init_not_live h
  refine ⟨init_shape h,fun t => by rw [hget],fun _ => ⟨hsub,fun t ht => absurd ht (hnl t),
    fun t => ⟨fun ho => ?_,fun hr => absurd hr.1 (hnl t)⟩,fun t hd => ?_⟩⟩
  · rw [htr] at ho
    obtain ⟨⟨_,hc,_⟩,_⟩ := ho
    cases hc
  · rw [htr] at hd
    obtain ⟨_,hc,_⟩ := hd
    cases hc

end Linqu.PlainRuns
