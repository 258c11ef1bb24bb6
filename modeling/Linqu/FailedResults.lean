import Linqu.LastSubTask

/-!
# Failed results

A dispatcher that answers every dispatch once, with COMPLETED or with an
error. The callback passes on only what is COMPLETED. The sub-dispatch table
is compared with the trace: its entries are the sub-dispatches without a
report. An answer that is not COMPLETED leaves a plain task RUNNING, and a
group with an entry in the table.
-/

set_option autoImplicit false

namespace Linqu.FailedResults
open Linqu.TaskRing Linqu.Orchestrator Linqu.Dispatchers
open Linqu.Orchestrator.LinquOrchestratorState Linqu.OrchestrationApi Linqu.Transition
open Linqu.OrchestratorRule Linqu.OrchestratorShape Linqu.OrchestratorCalls
open Linqu.OrchestratorDone Linqu.Reports Linqu.GroupDispatch Linqu.OrchestratorSteps
open Linqu.GroupCompletion Linqu.LastSubTask Linqu.Tables

/-! The table of the sub-dispatches and the trace. -/

/-- A sub-task of `g` was dispatched under this id and is not reported. -/
def OpenSub (l : List Event) (id g : ℤ) : Prop :=
  (∃ call i, .dispatch call ∈ l ∧ call.taskId = id ∧ call.origin = .sub g i) ∧ .report id ∉ l

structure Filed (s : State) : Prop where
  backend : s.backend = .dispatcher
  numbered : Numbered s
  reported : ∀ t, .report t ∈ s.trace → s.nextSubDispatchId < t
  entries : ∀ id g, (id,g) ∈ s.subDispatchToGroup ↔ OpenSub s.trace id g

theorem mem_subIds {l : List Event} {call : DispatchCall} {g : ℤ} {i : ℕ}
    (hc : .dispatch call ∈ l) (ho : call.origin = .sub g i) : call.taskId ∈ subIds l := by
  apply List.mem_filterMap.mpr
  exact ⟨_,hc,by simp [ho]⟩

/-- An event of another kind opens and closes nothing. -/
theorem openSub_other {l : List Event} {e : Event} {id g : ℤ}
    (hd : ∀ call i, e = .dispatch call → call.origin ≠ .sub g i) (hr : ∀ t, e ≠ .report t) :
    OpenSub (e::l) id g ↔ OpenSub l id g := by
  have hrep : .report id ∈ e::l ↔ .report id ∈ l := by
    rw [List.mem_cons, or_iff_right (fun he => hr id he.symm)]
  have hcall : ∀ call i, call.origin = .sub g i → (.dispatch call ∈ e::l ↔ .dispatch call ∈ l) := by
    intro call i ho
    rw [List.mem_cons, or_iff_right (fun he => hd call i he.symm ho)]
  unfold OpenSub
  rw [hrep]
  constructor
  · rintro ⟨⟨call,i,hc,hid,ho⟩,hn⟩
    exact ⟨⟨call,i,(hcall call i ho).mp hc,hid,ho⟩,hn⟩
  · rintro ⟨⟨call,i,hc,hid,ho⟩,hn⟩
    exact ⟨⟨call,i,(hcall call i ho).mpr hc,hid,ho⟩,hn⟩

theorem openSub_report {l : List Event} {t id g : ℤ} :
    OpenSub (.report t::l) id g ↔ OpenSub l id g ∧ id ≠ t := by
  simp only [OpenSub, List.mem_cons, reduceCtorEq, false_or, Event.report.injEq, not_or]
  tauto

theorem Filed.of_eq {s s' : State} (h : Filed s) (hb : s'.backend = s.backend)
    (hn : s'.nextSubDispatchId = s.nextSubDispatchId)
    (hs : s'.subDispatchToGroup = s.subDispatchToGroup) (ht : s'.trace = s.trace) : Filed s' := by
  refine ⟨hb.trans h.backend,h.numbered.of_eq hn (by rw [ht]),?_,?_⟩
  · rw [ht, hn]
    exact h.reported
  · rw [ht, hs]
    exact h.entries

theorem Filed.settle {s s' : State} (h : Filed s) (hs : Settles s s') : Filed s' :=
  h.of_eq hs.backend hs.nextSub hs.subs hs.trace

/-- An event that is neither a sub-dispatch nor a report. -/
theorem Filed.record {s s' : State} {e : Event} (h : Filed s) (hb : s'.backend = s.backend)
    (hn : s'.nextSubDispatchId = s.nextSubDispatchId)
    (hs : s'.subDispatchToGroup = s.subDispatchToGroup) (ht : s'.trace = e::s.trace)
    (hd : ∀ call, e = .dispatch call → call.origin = .plain) (hr : ∀ t, e ≠ .report t) :
    Filed s' := by
  have hids : subIds (e::s.trace) = subIds s.trace := by
    cases e with
    | dispatch call => simp only [subIds, List.filterMap_cons, hd call rfl]
    | _ => rfl
  refine ⟨hb.trans h.backend,h.numbered.of_eq hn (by rw [ht, hids]),?_,?_⟩
  · intro t hm
    rw [ht] at hm
    rw [hn]
    exact h.reported t ((List.mem_cons.mp hm).resolve_left (fun he => hr t he.symm))
  · intro id g
    rw [hs, ht, openSub_other _ hr]
    · exact h.entries id g
    · intro call i he ho
      rw [hd call he] at ho
      cases ho

theorem Filed.dispatch {s : State} (h : Filed s) (g : ℤ) (k : Option String)
    (gp : List LinquParam) (i : ℕ) (sub : LinquSubTaskSpec) :
    Filed ((s.assignSubId g).record
      (.dispatch (s.subCall s.nextSubDispatchId g k gp i sub))) := by
  refine ⟨h.backend,h.numbered.dispatch g k gp i sub,?_,?_⟩
  · intro t hm
    have hlt := h.reported t ((List.mem_cons.mp hm).resolve_left (by simp))
    show s.nextSubDispatchId-1 < t
    omega
  · intro id u
    show (id,u) ∈ mapSet s.subDispatchToGroup s.nextSubDispatchId g ↔
      OpenSub (.dispatch (s.subCall s.nextSubDispatchId g k gp i sub)::s.trace) id u
    rw [mem_mapSet]
    constructor
    · rintro (⟨rfl,rfl⟩ | ⟨hm,-⟩)
      · refine ⟨⟨_,i,List.mem_cons_self,rfl,rfl⟩,fun hm => ?_⟩
        exact lt_irrefl _ (h.reported _ ((List.mem_cons.mp hm).resolve_left (by simp)))
      · obtain ⟨⟨call,j,hc,hid,ho⟩,hn⟩ := (h.entries id u).mp hm
        refine ⟨⟨call,j,List.mem_cons_of_mem _ hc,hid,ho⟩,fun hm => ?_⟩
        exact hn ((List.mem_cons.mp hm).resolve_left (by simp))
    · rintro ⟨⟨call,j,hc,hid,ho⟩,hn⟩
      have hn' : .report id ∉ s.trace := fun hm => hn (List.mem_cons_of_mem _ hm)
      rcases List.mem_cons.mp hc with he | hc
      · cases he
        cases ho
        exact Or.inl ⟨hid.symm,rfl⟩
      · refine Or.inr ⟨(h.entries id u).mpr ⟨⟨call,j,hc,hid,ho⟩,hn'⟩,?_⟩
        have hgiven := h.numbered.given _ (mem_subIds hc ho)
        omega

theorem Filed.dispatchFrom {g : ℤ} {k : Option String} {gp : List LinquParam} {n : ℕ}
    (subs : List LinquSubTaskSpec) : ∀ (i : ℕ) (s s' : State), Filed s →
      LinquOrchestratorState.dispatchFrom (fun s _ => .ok s) (fun _ s => .ok s)
        g k gp n i subs s = .ok s' → Filed s' := by
  induction subs with
  | nil =>
    intro i s s' h hs
    cases hs
    exact h
  | cons sub rest ih =>
    intro i s s' h hs
    rw [LinquOrchestratorState.dispatchFrom,
      dispatchSubTask_dispatcher g k gp n _ i sub h.backend] at hs
    exact ih (i+1) ((s.assignSubId g).record _) s' (h.dispatch g k gp i sub) hs

theorem filed_rule : PropagateRule (fun _ _ _ _ s => Filed s) where
  release p _ _ _ _ s h := h.settle (settles_release s p)
  notify c _ _ _ s h _ := h.settle (settles_notify s c)
  skip _ _ _ _ h _ := h
  ready _ _ _ _ h _ _ := h.of_eq rfl rfl rfl rfl
  run _ _ _ _ h _ _ _ := h.of_eq rfl rfl rfl rfl
  dispatch c _ _ s s' spec h _ _ _ _ hm := by
    have hloop : Filed s' := Filed.dispatchFrom spec.subTasks 0 (s.setStatus c .running) s'
      (h.of_eq rfl rfl rfl rfl) hm
    exact hloop.of_eq rfl rfl rfl rfl
  count _ _ _ _ hn _ h := absurd h.backend hn
  complete _ _ _ _ hn _ h := absurd h.backend hn
  erase _ _ _ _ hn _ h := absurd h.backend hn
  finish t _ _ s h := h.settle (settles_check s t)

theorem Filed.complete {s s' : State} {t : ℤ} (h : Filed s) (hs : s.complete t = .ok s') :
    Filed s' :=
  propagate_rule filed_rule (b := []) (c := []) hs (h.of_eq rfl rfl rfl rfl)

theorem Filed.counted {s : State} {t : ℤ} (h : Filed s) (ht : s.nextSubDispatchId < t) :
    Filed (counted s t) := by
  have hrep : ∀ u, .report u ∈ .report t::s.trace → s.nextSubDispatchId < u := by
    intro u hu
    rcases List.mem_cons.mp hu with he | hu
    · cases he
      exact ht
    · exact h.reported u hu
  unfold GroupCompletion.counted
  cases hl : s.subDispatchToGroup.lookup t with
  | some g =>
    refine ⟨h.backend,h.numbered.of_eq rfl rfl,hrep,?_⟩
    intro id u
    show (id,u) ∈ mapErase s.subDispatchToGroup t ↔ OpenSub (.report t::s.trace) id u
    rw [mem_mapErase, openSub_report, h.entries]
  | none =>
    refine ⟨h.backend,h.numbered.of_eq rfl rfl,hrep,?_⟩
    intro id u
    show (id,u) ∈ s.subDispatchToGroup ↔ OpenSub (.report t::s.trace) id u
    rw [openSub_report, ← h.entries, iff_self_and]
    rintro hm rfl
    have hnone := List.lookup_eq_none_iff.mp hl _ hm
    simp at hnone

theorem Filed.onTaskComplete {s s' : State} {t : ℤ} (h : Filed s) (ht : s.nextSubDispatchId < t)
    (hs : s.onTaskComplete t = .ok s') : Filed s' := by
  have hc := h.counted ht
  rw [onTaskComplete_eq] at hs
  cases hat : completesAt s t with
  | none =>
    rw [hat] at hs
    cases hs
    exact hc
  | some g =>
    rw [hat] at hs
    exact hc.complete hs

theorem Filed.eases {s s' : State} (h : Filed s) (e : Eases s s') : Filed s' := by
  induction e with
  | settle hs _ => exact h.settle hs
  | retire r =>
    exact h.of_eq r.rest.backend r.rest.nextSubDispatchId r.rest.subDispatchToGroup r.rest.trace
  | trans _ _ ih ih' => exact ih' (ih h)

theorem Filed.entered {s e : State} {tid : ℤ} {group : Option ℕ} {prods : List ℤ} (h : Filed s)
    (he : Entered s e tid group prods) : Filed e := by
  apply h.record he.backend he.nextSubDispatchId he.subDispatchToGroup he.trace
  · intro call hc
    cases hc
  · simp

theorem Filed.stage {σ σ' : System} {l : List ℤ} (h : Filed σ.state) (st : Stage σ l σ') :
    Filed σ'.state := by
  cases st with
  | ease hp hp' he => exact h.eases he
  | @task s m e s' pc tid prods target k params hp hw he hs =>
    have hent := (h.eases hw).entered he
    obtain ⟨call,-,hor,-,-,rfl⟩ := launchTask_dispatcher hent.backend hs
    have ht : ((e.setStatus tid .running).record (.dispatch call)).trace =
      .dispatch call::e.trace := rfl
    apply hent.record _ _ _ ht
    · intro c hc
      cases hc
      exact hor
    · simp
    · rfl
    · rfl
    · rfl
  | @park s m e s' pc tid prods k params subs hp hw he hn hs =>
    have hent := (h.eases hw).entered he
    unfold LinquOrchestratorState.launchGroup at hs
    by_cases hz : subs.length = 0
    · rw [if_pos hz] at hs
      exact hent.complete hs
    · have hfan : ¬ (e.get tid).faninCount = 0 := fun hf => hn ⟨hz,hf⟩
      rw [if_neg hz, if_neg hfan] at hs
      cases hs
      exact hent.of_eq rfl rfl rfl rfl
  | start hp hw he hn => exact ((h.eases hw).entered he).of_eq rfl rfl rfl rfl
  | @dispatch s tid k gp n i sub rest => exact h.dispatch tid k gp i sub

/-! The answers of the dispatcher. -/

def results (acts : List Act) : List DispatchResult :=
  acts.filterMap fun
    | .result r => some r
    | _ => none

def Known (σ : System) (a : Act) : Prop :=
  ∀ r, a = .result r → Dispatched σ.state.trace r.taskId

/-- Every answer is for an id that was dispatched, and there is one for an id
at most. The answers come in any order and with any status. -/
structure AnswersOnce (acts : List Act) (σ : System) : Prop where
  known : Guarded Moves Known acts σ
  distinct : ((results acts).map DispatchResult.taskId).Nodup

theorem results_append (acts acts' : List Act) :
    results (acts++acts') = results acts++results acts' := List.filterMap_append

theorem AnswersOnce.head {acts acts' : List Act} {σ : System} (h : AnswersOnce (acts++acts') σ) :
    AnswersOnce acts σ := by
  have hd := h.distinct
  rw [results_append, List.map_append] at hd
  exact ⟨(guarded_append h.known).1,hd.of_append_left⟩

theorem AnswersOnce.last {acts : List Act} {r : DispatchResult} {σ σ' : System}
    (h : AnswersOnce (acts++[.result r]) σ) (hr : Run Moves acts σ σ') :
    r.taskId ∉ (results acts).map DispatchResult.taskId ∧
      Dispatched σ'.state.trace r.taskId := by
  have hd := h.distinct
  rw [results_append, List.map_append] at hd
  constructor
  · intro hm
    exact (List.disjoint_of_nodup_append hd) hm List.mem_cons_self
  · exact ((guarded_append h.known).2 σ' hr).1 r rfl

/-- The answer for an id is the only one. -/
theorem AnswersOnce.unique {acts : List Act} {σ : System} (h : AnswersOnce acts σ)
    {r r' : DispatchResult} (hr : r ∈ results acts) (hr' : r' ∈ results acts)
    (hid : r.taskId = r'.taskId) : r = r' :=
  List.inj_on_of_nodup_map h.distinct hr hr' hid

/-- The trace grows, by no report. -/
def Silent (l l' : List Event) : Prop := ∃ new, l' = new++l ∧ ∀ t, .report t ∉ new

theorem Silent.refl (l : List Event) : Silent l l := ⟨[],rfl,by simp⟩

theorem Silent.cons {l l' : List Event} {e : Event} (h : Silent l l')
    (he : ∀ t, e ≠ .report t) : Silent l (e::l') := by
  obtain ⟨new,rfl,hnew⟩ := h
  refine ⟨e::new,rfl,fun t hm => ?_⟩
  rcases List.mem_cons.mp hm with hm | hm
  · exact he t hm.symm
  · exact hnew t hm

theorem Silent.trans {l l' l'' : List Event} (h : Silent l l') (h' : Silent l' l'') :
    Silent l l'' := by
  obtain ⟨new,rfl,hnew⟩ := h
  obtain ⟨more,rfl,hmore⟩ := h'
  refine ⟨more++new,by rw [List.append_assoc],fun t hm => ?_⟩
  rcases List.mem_append.mp hm with hm | hm
  · exact hmore t hm
  · exact hnew t hm

theorem silent_frame {s s' : State} (f : Frame s s') : Silent s.trace s'.trace := by
  obtain ⟨new,hnew,hsub⟩ := f.events
  refine ⟨new,hnew,fun t hm => ?_⟩
  obtain ⟨call,g,i,he,-⟩ := hsub _ hm
  cases he

theorem Silent.reports {l l' : List Event} (h : Silent l l') (t : ℤ) :
    .report t ∈ l' ↔ .report t ∈ l := by
  obtain ⟨new,rfl,hnew⟩ := h
  rw [List.mem_append, or_iff_right (hnew t)]

theorem Silent.once {l l' : List Event} (h : Silent l l') (ho : ReportsOnce l) :
    ReportsOnce l' := by
  obtain ⟨new,rfl,hnew⟩ := h
  induction new with
  | nil => exact ho
  | cons e new ih =>
    have hrest := ih fun t hm => hnew t (List.mem_cons_of_mem _ hm)
    cases e with
    | report t => exact absurd List.mem_cons_self (hnew t)
    | submit t b => exact hrest
    | dispatch call => exact hrest
    | dispatchFn call => exact hrest

theorem eases_trace {s s' : State} (e : Eases s s') : s'.trace = s.trace := by
  induction e with
  | settle hs _ => exact hs.trace
  | retire r => exact r.rest.trace
  | trans _ _ ih ih' => exact ih'.trans ih

theorem silent_stage {σ σ' : System} {l : List ℤ} (hb : σ.state.backend = .dispatcher)
    (st : Stage σ l σ') : Silent σ.state.trace σ'.state.trace := by
  have hent : ∀ {s m e : State} {tid : ℤ} {group : Option ℕ} {prods : List ℤ}, Eases s m →
      Entered m e tid group prods → Silent s.trace e.trace := by
    intro s m e tid group prods hw he
    rw [he.trace, eases_trace hw]
    exact (Silent.refl _).cons (by simp)
  cases st with
  | ease hp hp' he =>
    show Silent _ _
    rw [eases_trace he]
    exact Silent.refl _
  | @task s m e s' pc tid prods target k params hp hw he hs =>
    have hbe : e.backend = .dispatcher := he.backend.trans ((eases_backend hw).trans hb)
    obtain ⟨call,-,-,-,-,rfl⟩ := launchTask_dispatcher hbe hs
    exact (hent hw he).cons (by simp)
  | @park s m e s' pc tid prods k params subs hp hw he hn hs =>
    unfold LinquOrchestratorState.launchGroup at hs
    by_cases hz : subs.length = 0
    · rw [if_pos hz] at hs
      exact (hent hw he).trans (silent_frame (frame_complete hs))
    · have hfan : ¬ (e.get tid).faninCount = 0 := fun hf => hn ⟨hz,hf⟩
      rw [if_neg hz, if_neg hfan] at hs
      cases hs
      have hquiet : Silent s.trace e.trace := hent hw he
      exact hquiet
  | @start s m e pc tid prods k params subs hp hw he hn =>
    have hquiet : Silent s.trace e.trace := hent hw he
    exact hquiet
  | dispatch => exact (Silent.refl _).cons (by simp)

/-! What is known of a run whose answers are disciplined. -/

structure Answered (acts : List Act) (σ : System) : Prop where
  paced : Paced σ
  once : ReportsOnce σ.state.trace
  filed : Filed σ.state
  heard : ∀ t, .report t ∈ σ.state.trace ↔
    ∃ r ∈ results acts, r.status = .completed ∧ r.taskId = t
  closed : ∀ t, 0 ≤ t → .report t ∈ σ.state.trace →
    t < σ.state.taskRing.currentIndex ∧ finished σ.state t = true
  unfilled : ∀ g, σ.state.taskRing.Live g → (σ.state.get g).isGroup = true →
    finished σ.state g = false → (σ.state.get g).subCompleteCount < (σ.state.get g).groupSize

theorem Answered.account {acts : List Act} {σ : System} (h : Answered acts σ) :
    Account (remaining σ.pc) [] [] σ.state := h.paced.account h.once

/-- Ids that were given out are above the next one. -/
theorem Answered.given {acts : List Act} {σ : System} (h : Answered acts σ) {t : ℤ}
    (ht : Dispatched σ.state.trace t) : σ.state.nextSubDispatchId < t := by
  obtain ⟨call,hc,rfl⟩ := ht
  cases ho : call.origin with
  | plain =>
    have hpos := (h.account.plain call hc ho).1
    have hnext := h.filed.numbered.next
    omega
  | sub g i => exact (h.filed.numbered.given _ (mem_subIds hc ho)).1

/-- A report: the counter moves, and what was completed is over. -/
theorem answered_report {acts : List Act} {σ σ' : System} {r : DispatchResult}
    (h : Answered acts σ) (hp : Paced σ') (hok : r.status = .completed)
    (hs : σ.state.onTaskComplete r.taskId = .ok σ'.state)
    (hnew : r.taskId ∉ (results acts).map DispatchResult.taskId)
    (hd : Dispatched σ.state.trace r.taskId) : Answered (acts++[.result r]) σ' := by
  have hacc := h.account
  have f := frame_onTaskComplete hs
  have hfresh : .report r.taskId ∉ σ.state.trace := by
    intro hm
    obtain ⟨r',hr',-,hid⟩ := (h.heard _).mp hm
    exact hnew (List.mem_map.mpr ⟨r',hr',hid⟩)
  have hout : Outstanding σ.state.trace r.taskId := ⟨hd,hfresh⟩
  have hrep : ∀ t, .report t ∈ σ'.state.trace ↔ t = r.taskId ∨ .report t ∈ σ.state.trace := by
    intro t
    rw [f.reports]
    show _ ∈ Event.report r.taskId::σ.state.trace ↔ _
    simp
  refine ⟨hp,(silent_frame f).once ⟨hout,h.once⟩,h.filed.onTaskComplete (h.given hd) hs,?_,?_,?_⟩
  · intro t
    rw [hrep, h.heard, results_append]
    simp only [results, List.filterMap_cons, List.filterMap_nil, List.mem_append,
      List.mem_singleton]
    constructor
    · rintro (rfl | ⟨r',hr',hok',hid⟩)
      · exact ⟨r,Or.inr rfl,hok,rfl⟩
      · exact ⟨r',Or.inl hr',hok',hid⟩
    · rintro ⟨r',hr' | rfl,hok',hid⟩
      · exact Or.inr ⟨r',hr',hok',hid⟩
      · exact Or.inl hid.symm
  · intro t ht hm
    rw [f.current]
    show t < σ.state.taskRing.currentIndex ∧ _
    rcases (hrep t).mp hm with rfl | hm
    · -- a plain task, by the sign of its id
      rcases outstanding_cases hacc hout with ⟨g,hg,-,-⟩ | ⟨hnone,hrun,-⟩
      · obtain ⟨⟨call,i,hc,hid,ho⟩,-⟩ := (h.filed.entries _ g).mp hg
        have hneg := (h.filed.numbered.given _ (mem_subIds hc ho)).2
        omega
      · refine ⟨hrun.1.2,?_⟩
        rw [report_finished hacc hout hs hrun.1.2, completesAt, hnone]
        simp [hrun.2]
    · obtain ⟨hlt,hfin⟩ := h.closed t ht hm
      refine ⟨hlt,?_⟩
      rw [report_finished hacc hout hs hlt, hfin]
      rfl
  · intro g hg hgr hopen
    have hl : σ.state.taskRing.Live g := f.live.mp hg
    have hgr' : (σ.state.get g).isGroup = true := (f.isGroup g).symm.trans hgr
    have hsize : (σ'.state.get g).groupSize = (σ.state.get g).groupSize := f.groupSize g
    rw [report_finished hacc hout hs hl.2, Bool.or_eq_false_iff, decide_eq_false_iff_not] at hopen
    have hlt := h.unfilled g hl hgr' hopen.1
    rw [report_count hacc hs hl, hsize]
    by_cases hm : (r.taskId,g) ∈ σ.state.subDispatchToGroup
    · have hat := hopen.2
      rw [completesAt, lookup_of_mem hacc.keys hm] at hat
      have hmore : ¬ (σ.state.get g).groupSize ≤ (σ.state.get g).subCompleteCount+1 := by
        intro hle
        exact hat (if_pos hle)
      rw [if_pos hm]
      omega
    · rw [if_neg hm]
      exact hlt

theorem answered_step {acts : List Act} {a : Act} {σ σ' : System} (h : Answered acts σ)
    (hm : Moves σ a σ') (ha : ∀ r, a = .result r →
      r.taskId ∉ (results acts).map DispatchResult.taskId ∧
        Dispatched σ.state.trace r.taskId) : Answered (acts++[a]) σ' := by
  have hp := step_paced h.paced hm
  rcases moves_cases h.paced.shape h.paced.backend hm with ⟨r,rfl,hs,hpc⟩ | ⟨hr,st⟩
  · obtain ⟨hnew,hd⟩ := ha r rfl
    unfold onCompletion at hs
    by_cases hok : r.status = .completed
    · rw [if_pos hok] at hs
      exact answered_report h hp hok hs hnew hd
    · rw [if_neg hok] at hs
      have hstate : σ'.state = σ.state := (Except.ok.inj hs).symm
      refine ⟨hp,?_,?_,?_,?_,?_⟩
      · rw [hstate]
        exact h.once
      · rw [hstate]
        exact h.filed
      · intro t
        rw [hstate, h.heard, results_append]
        simp only [results, List.filterMap_cons, List.filterMap_nil, List.mem_append,
          List.mem_singleton]
        constructor
        · rintro ⟨r',hr',h'⟩
          exact ⟨r',Or.inl hr',h'⟩
        · rintro ⟨r',hr' | rfl,hok',hid⟩
          · exact ⟨r',hr',hok',hid⟩
          · exact absurd hok' hok
      · rw [hstate]
        exact h.closed
      · rw [hstate]
        exact h.unfilled
  · have hsil := silent_stage h.paced.backend st
    have hadv := stage_advances h.paced.shape h.paced.backend st
    refine ⟨hp,hsil.once h.once,h.filed.stage st,?_,?_,?_⟩
    · intro t
      have hsame : results (acts++[a]) = results acts := by
        rw [results_append]
        cases a with
        | result r => exact absurd rfl (hr r)
        | _ => simp [results]
      rw [hsil.reports, h.heard, hsame]
    · intro t ht hrep
      obtain ⟨hlt,hfin⟩ := h.closed t ht ((hsil.reports t).mp hrep)
      refine ⟨hlt.trans_le hadv.steady.current,?_⟩
      rw [hadv.steady.finished t hlt]
      exact hfin
    · intro g hg hgr hopen
      by_cases hold : g < σ.state.taskRing.currentIndex
      · have hl : σ.state.taskRing.Live g := ⟨hadv.steady.alive.trans hg.1,hold⟩
        obtain ⟨hgr',hsize,hcount⟩ := hadv.steady.group g hl hg
        rw [hsize, hcount]
        apply h.unfilled g hl (hgr'.symm.trans hgr)
        rw [← hadv.steady.finished g hold]
        exact hopen
      · exact (hadv.fresh g (not_lt.mp hold) hg.2).2.2 hgr hopen

theorem init_answered {cfg : LinquOrchConfigInternal} {s : State}
    (h : init .dispatcher cfg = .ok s) : Answered [] ⟨s,.idle⟩ := by
  obtain ⟨hb,htrace,-,-,hsubs,-,-⟩ := init_rest h
  have hnil : ∀ e, e ∉ s.trace := by
    intro e
    rw [htrace]
    exact List.not_mem_nil
  refine ⟨init_paced h,?_,⟨hb,init_numbered h,?_,?_⟩,?_,?_,?_⟩
  · rw [htrace]
    trivial
  · exact fun t hm => absurd hm (hnil _)
  · intro id g
    show (id,g) ∈ s.subDispatchToGroup ↔ OpenSub s.trace id g
    rw [hsubs]
    constructor
    · intro hm
      cases hm
    · rintro ⟨⟨call,i,hc,-⟩,-⟩
      exact absurd hc (hnil _)
  · intro t
    constructor
    · exact fun hm => absurd hm (hnil _)
    · rintro ⟨r,hr,-⟩
      cases hr
  · exact fun t _ hm => absurd hm (hnil _)
  · exact fun g hg => absurd hg (init_not_live h g)

theorem run_answered {cfg : LinquOrchConfigInternal} {s₀ : State} {acts : List Act} {σ : System}
    (hinit : init .dispatcher cfg = .ok s₀) (hr : Run Moves acts ⟨s₀,.idle⟩ σ)
    (hans : AnswersOnce acts ⟨s₀,.idle⟩) : Answered acts σ := by
  induction acts using List.reverseRecOn generalizing σ with
  | nil =>
    cases hr
    exact init_answered hinit
  | append_singleton acts a ih =>
    obtain ⟨m,hm,σ',hstep,he⟩ := run_append.mp hr
    cases he
    apply answered_step (ih hm hans.head) hstep
    rintro r rfl
    exact hans.last hm

/-- An id is reported exactly when its answer says COMPLETED. -/
theorem Answered.report_iff {acts : List Act} {σ₀ σ : System} (h : Answered acts σ)
    (hans : AnswersOnce acts σ₀) {r : DispatchResult} (hr : r ∈ results acts) :
    .report r.taskId ∈ σ.state.trace ↔ r.status = .completed := by
  rw [h.heard]
  constructor
  · rintro ⟨r',hr',hok,hid⟩
    rw [← hans.unique hr' hr hid]
    exact hok
  · exact fun hok => ⟨r,hr,hok,rfl⟩

/-- A group with every sub-task dispatched and every sub-dispatch answered. -/
structure AllAnswered (acts : List Act) (σ : System) (g : ℤ) : Prop where
  group : σ.state.taskRing.Live g → (σ.state.get g).isGroup = true
  handed : remaining σ.pc g = 0
  answered : ∀ call i, .dispatch call ∈ σ.state.trace → call.origin = .sub g i →
    ∃ r ∈ results acts, r.taskId = call.taskId

/-- No longer RUNNING, and no entry of the table points to it. -/
def Freed (s : State) (g : ℤ) : Prop :=
  ¬ Running s g ∧ ∀ e ∈ s.subDispatchToGroup, e.2 ≠ g

theorem freed_of_no_entry {acts : List Act} {σ : System} (h : Answered acts σ) {g : ℤ}
    (hg : AllAnswered acts σ g) (hno : ∀ e ∈ σ.state.subDispatchToGroup, e.2 ≠ g) :
    Freed σ.state g := by
  refine ⟨fun hrun => ?_,hno⟩
  have hgr := hg.group hrun.1
  have hopen : finished σ.state g = false := by
    rw [finished_live hrun.1, hrun.2]
    rfl
  have hbudget := h.account.budget g hrun.1 hgr hopen
  have hfew := h.unfilled g hrun.1 hgr hopen
  have hnone : openSubs σ.state g = 0 := by
    apply List.countP_eq_zero.mpr
    intro e he heg
    exact hno e he (of_decide_eq_true heg)
  rw [hnone, undispatched, if_neg (by rw [hrun.2]; simp), hg.handed] at hbudget
  omega

/-- In every state of a run with a dispatcher that answers every dispatch once:
a plain task that was answered is no longer RUNNING exactly when the answer is
COMPLETED, and a group with all of its sub-dispatches answered is done with
exactly when all of the answers are. -/
theorem freed_iff_completed {cfg : LinquOrchConfigInternal} {s₀ : State} {acts : List Act}
    {σ : System} (hinit : init .dispatcher cfg = .ok s₀) (hrun : Run Moves acts ⟨s₀,.idle⟩ σ)
    (hans : AnswersOnce acts ⟨s₀,.idle⟩) :
    (∀ call, .dispatch call ∈ σ.state.trace → call.origin = .plain →
      ∀ r ∈ results acts, r.taskId = call.taskId →
        (¬ Running σ.state call.taskId ↔ r.status = .completed)) ∧
      ∀ g, AllAnswered acts σ g → (Freed σ.state g ↔
        ∀ call i, .dispatch call ∈ σ.state.trace → call.origin = .sub g i →
          ∀ r ∈ results acts, r.taskId = call.taskId → r.status = .completed) := by
  have h := run_answered hinit hrun hans
  constructor
  · intro call hc ho r hr hid
    obtain ⟨hpos,hopen⟩ := h.account.plain call hc ho
    rw [← h.report_iff hans hr, hid]
    constructor
    · intro hnot
      by_contra hrep
      exact hnot (hopen hrep).1
    · intro hrep hrunning
      have hfin := (h.closed _ hpos hrep).2
      rw [finished_live hrunning.1, hrunning.2] at hfin
      cases hfin
  · intro g hg
    constructor
    · intro hfree call i hc ho r hr hid
      by_contra hbad
      have hrep : .report call.taskId ∉ σ.state.trace := by
        rw [← hid, h.report_iff hans hr]
        exact hbad
      have hm := (h.filed.entries call.taskId g).mpr ⟨⟨call,i,hc,rfl,ho⟩,hrep⟩
      exact hfree.2 _ hm rfl
    · intro hall
      apply freed_of_no_entry h hg
      rintro ⟨id,u⟩ hm rfl
      obtain ⟨⟨call,i,hc,rfl,ho⟩,hrep⟩ := (h.filed.entries id u).mp hm
      obtain ⟨r,hr,hid⟩ := hg.answered call i hc ho
      apply hrep
      rw [← hid, h.report_iff hans hr]
      exact hall call i hc ho r hr hid

/-! Two runs of the remote dispatcher. -/

def checkKnown (σ : System) : Act → Bool
  | .result r => decide (r.taskId ∈ dispatchedIds σ.state.trace)
  | _ => true

theorem exists_answered (acts : List Act) {c : System → Bool}
    (h : (((init .dispatcher {}).toOption.map (fun s => System.mk s .idle)).bind
      (checkRun act checkKnown acts)).any c = true)
    (hd : ((results acts).map DispatchResult.taskId).Nodup) :
    ∃ s₀ σ, init .dispatcher {} = .ok s₀ ∧ Run Moves acts ⟨s₀,.idle⟩ σ ∧
      AnswersOnce acts ⟨s₀,.idle⟩ ∧ c σ = true := by
  obtain ⟨σ₀,σ,h₀,hr,hg,hc⟩ := exists_run h
  obtain ⟨s₀,hs₀,hσ₀⟩ := Option.map_eq_some_iff.mp h₀
  subst hσ₀
  refine ⟨s₀,σ,toOption_some.mp hs₀,hr,⟨guarded_mono ?_ hg,hd⟩,hc⟩
  rintro τ a ha r rfl
  exact mem_dispatchedIds.mp (of_decide_eq_true ha)

/-- The answer made from a TASK_COMPLETE message with these id bytes. -/
def answered (id : List UInt8) (status : UInt8) : Act :=
  .result (RemoteDispatcher.recvTaskComplete {} (id++[0,0,0,status])).1

/-- Task 0 and the one sub-task of group 1 both return status 1. -/
def refusals : List Act :=
  [.call (.submit (.task {} none [])),answered [0,0,0,0] 1,
    .call (.submit (.group (some "a") [] [⟨{},none,[]⟩])),.turn,.turn,
    answered [255,255,255,255] 1]

/-- After the refusals task 0 is RUNNING and group 1 is not done with. -/
theorem refusals_wedge : ∃ s₀ σ, init .dispatcher {} = .ok s₀ ∧
    Run Moves refusals ⟨s₀,.idle⟩ σ ∧ AnswersOnce refusals ⟨s₀,.idle⟩ ∧
    (∀ r ∈ results refusals, r.status = .completed ∨ r.status = .failed) ∧
    (∃ call, .dispatch call ∈ σ.state.trace ∧ call.origin = .plain ∧
      (∃ r ∈ results refusals, r.taskId = call.taskId) ∧ Running σ.state call.taskId) ∧
    AllAnswered refusals σ 1 ∧ Running σ.state 1 ∧ ∃ e ∈ σ.state.subDispatchToGroup, e.2 = 1 := by
  obtain ⟨s₀,σ,hinit,hr,hans,ht⟩ := exists_answered refusals
    (c := fun σ => decide (σ.state.subDispatchToGroup = [(-1,1)]) &&
      decide (remaining σ.pc 1 = 0) && decide ((σ.state.get 1).isGroup = true) &&
      decide (σ.state.taskRing.Live 0) && decide ((σ.state.get 0).status = .running) &&
      decide (σ.state.taskRing.Live 1) && decide ((σ.state.get 1).status = .running) &&
      decide (dispatchedIds σ.state.trace = [-1,0]))
    (by decide +kernel) (by decide +kernel)
  simp only [Bool.and_eq_true, decide_eq_true_eq] at ht
  obtain ⟨⟨⟨⟨⟨⟨⟨htab,hrem⟩,hgr⟩,hl0⟩,hs0⟩,hl1⟩,hs1⟩,hids⟩ := ht
  have h := run_answered hinit hr hans
  have hboth : ∀ id ∈ dispatchedIds σ.state.trace, ∃ r ∈ results refusals, r.taskId = id := by
    rw [hids]
    decide +kernel
  have h0 : (0 : ℤ) ∈ dispatchedIds σ.state.trace := by
    rw [hids]
    decide
  obtain ⟨call,hc,hid⟩ := mem_dispatchedIds.mp h0
  refine ⟨s₀,σ,hinit,hr,hans,by decide +kernel,⟨call,hc,?_,?_,?_⟩,⟨fun _ => hgr,hrem,?_⟩,
    ⟨hl1,hs1⟩,⟨(-1,1),?_,rfl⟩⟩
  · cases ho : call.origin with
    | plain => rfl
    | sub g i =>
      have hneg := (h.account.known call g i hc ho).2.1
      omega
  · rw [hid]
    exact hboth 0 h0
  · rw [hid]
    exact ⟨hl0,hs0⟩
  · intro c i hc _
    exact hboth _ (mem_dispatchedIds.mpr ⟨c,hc,rfl⟩)
  · rw [htab]
    exact List.mem_cons_self

/-- Task 0 succeeds, and so does the first sub-task of group 1. The second
one fails. -/
def mixedAnswers : List Act :=
  [.call (.submit (.task {} none [])),
    .call (.submit (.group (some "a") [] twoSpecs)),answered [0,0,0,0] 0,.turn,.turn,.turn,
    answered [255,255,255,254] 7,answered [255,255,255,255] 0]

theorem freed_iff_completed_mixed : ∃ s₀ σ, init .dispatcher {} = .ok s₀ ∧
    Run Moves mixedAnswers ⟨s₀,.idle⟩ σ ∧ ¬ Running σ.state 0 ∧ ¬ Freed σ.state 1 := by
  obtain ⟨s₀,σ,hinit,hr,hans,ht⟩ := exists_answered mixedAnswers
    (c := fun σ => decide (remaining σ.pc 1 = 0) && decide ((σ.state.get 1).isGroup = true) &&
      decide (dispatchedIds σ.state.trace = [-2,-1,0]) &&
      decide (subDispatches σ.state.trace = [(1,1),(1,0)]))
    (by decide +kernel) (by decide +kernel)
  simp only [Bool.and_eq_true, decide_eq_true_eq] at ht
  obtain ⟨⟨⟨hrem,hgr⟩,hids⟩,hsubs⟩ := ht
  have h := run_answered hinit hr hans
  obtain ⟨hplain,hgroup⟩ := freed_iff_completed hinit hr hans
  have hanswer : ∀ id ∈ dispatchedIds σ.state.trace, ∃ r ∈ results mixedAnswers, r.taskId = id ∧
      (r.status = .completed ↔ id ≠ -2) := by
    rw [hids]
    decide +kernel
  have hcall : ∀ id ∈ [(-2 : ℤ),0], ∃ call, .dispatch call ∈ σ.state.trace ∧ call.taskId = id := by
    intro id hid
    apply mem_dispatchedIds.mp
    rw [hids]
    revert id
    decide
  refine ⟨s₀,σ,hinit,hr,?_,?_⟩
  · obtain ⟨call,hc,hid⟩ := hcall 0 (by decide)
    obtain ⟨r,hr,hrid,hok⟩ := hanswer 0 (by rw [hids]; decide)
    rw [← hid] at hrid ⊢
    apply (hplain call hc _ r hr hrid).mpr (hok.mpr (by decide))
    cases ho : call.origin with
    | plain => rfl
    | sub g i =>
      have hneg := (h.account.known call g i hc ho).2.1
      omega
  · obtain ⟨call,hc,hid⟩ := hcall (-2) (by decide)
    obtain ⟨r,hr,hrid,hok⟩ := hanswer (-2) (by rw [hids]; decide)
    have hall : AllAnswered mixedAnswers σ 1 := by
      refine ⟨fun _ => hgr,hrem,?_⟩
      intro c i hc _
      obtain ⟨r,hr,hrid,-⟩ := hanswer _ (mem_dispatchedIds.mpr ⟨c,hc,rfl⟩)
      exact ⟨r,hr,hrid⟩
    intro hfree
    cases ho : call.origin with
    | plain =>
      have hpos := (h.account.plain call hc ho).1
      omega
    | sub g i =>
      have hm := mem_subDispatches.mpr ⟨call,hc,ho⟩
      rw [hsubs] at hm
      have hg : g = 1 := by
        simp only [List.mem_cons, List.not_mem_nil, Prod.mk.injEq, or_false] at hm
        omega
      subst hg
      have hstatus := (hgroup 1 hall).mp hfree call i hc ho r hr (hrid.trans hid.symm)
      exact hok.mp hstatus rfl

end Linqu.FailedResults
