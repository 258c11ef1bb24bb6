import Linqu.GroupCompletion

/-!
# The last sub-task

What a report does in every state of the machine: it names a sub-task that is
out or a running plain task, it moves one counter at most, and it completes a
group exactly when no other sub-task of the group is out and none is left to
dispatch. The calls of `propagate_completion` are counted over whole runs.
-/

set_option autoImplicit false

namespace Linqu.LastSubTask
open Linqu.TaskRing Linqu.Orchestrator Linqu.Dispatchers
open Linqu.Orchestrator.LinquOrchestratorState Linqu.OrchestrationApi Linqu.Transition
open Linqu.OrchestratorRule Linqu.OrchestratorShape Linqu.OrchestratorCalls
open Linqu.OrchestratorDone Linqu.Reports Linqu.GroupDispatch Linqu.OrchestratorSteps
open Linqu.GroupCompletion Linqu.Tables

/-- The id under which a sub-task is out is the only one of its group, and the
group has nothing left to dispatch. -/
structure Last (σ : System) (t g : ℤ) : Prop where
  out : (t,g) ∈ σ.state.subDispatchToGroup
  alone : ∀ e ∈ σ.state.subDispatchToGroup, e.2 = g → e.1 = t
  handed : remaining σ.pc g = 0

section Report

variable {rem : ℤ → ℕ} {s s' : State} {t : ℤ}

/-- An id that is out names a sub-task of a running group or a running plain
task. -/
theorem outstanding_cases (h : Account rem [] [] s) (ho : Outstanding s.trace t) :
    (∃ g, (t,g) ∈ s.subDispatchToGroup ∧ Running s g ∧ (s.get g).isGroup = true) ∨
      s.subDispatchToGroup.lookup t = none ∧ Running s t ∧ (s.get t).isGroup = false := by
  cases hg : s.subDispatchToGroup.lookup t with
  | some g =>
    have hm := mem_of_lookup hg
    exact Or.inl ⟨g,hm,h.groups _ hm⟩
  | none =>
    obtain ⟨⟨call,hc,rfl⟩,hrep⟩ := ho
    cases hor : call.origin with
    | plain => exact Or.inr ⟨rfl,(h.plain call hc hor).2 hrep⟩
    | sub g i =>
      obtain ⟨e,he,hek⟩ := (h.known call g i hc hor).2.2.2 hrep
      have hnone := List.lookup_eq_none_iff.mp hg e he
      rw [hek, bne_self_eq_false] at hnone
      cases hnone

/-- What a report completes was running. -/
theorem completesAt_running (h : Account rem [] [] s) (ho : Outstanding s.trace t) {g : ℤ}
    (hc : completesAt s t = some g) : Running s g := by
  unfold completesAt at hc
  rcases outstanding_cases h ho with ⟨u,hm,hrun,-⟩ | ⟨hn,hrun,-⟩
  · rw [lookup_of_mem h.keys hm] at hc
    dsimp only at hc
    split at hc
    · cases hc
      exact hrun
    · cases hc
  · rw [hn] at hc
    dsimp only at hc
    rw [if_pos hrun.2] at hc
    cases hc
    exact hrun

/-- The test of `on_task_complete`, read through the budget: a report completes
a group exactly when it is for the last of its sub-tasks. -/
theorem completesAt_iff_last {pc : Pc} (h : Account (remaining pc) [] [] s)
    (ho : Outstanding s.trace t) {g : ℤ} (hg : (s.get g).isGroup = true) :
    completesAt s t = some g ↔ Last ⟨s,pc⟩ t g := by
  rcases outstanding_cases h ho with ⟨u,hm,hrun,hgr⟩ | ⟨hn,hrun,hpl⟩
  · have hlook := lookup_of_mem h.keys hm
    have hbudget := h.budget u hrun.1 hgr (by rw [finished_live hrun.1, hrun.2]; rfl)
    rw [undispatched, if_neg (by rw [hrun.2]; simp), openSubs,
      countP_mapErase h.keys hm u, if_pos rfl] at hbudget
    have hopen : (mapErase s.subDispatchToGroup t).countP (fun e => decide (e.2 = u)) = 0 ↔
        ∀ e ∈ s.subDispatchToGroup, e.2 = u → e.1 = t := by
      simp only [List.countP_eq_zero, mapErase, List.mem_filter, decide_eq_true_eq, and_imp]
      constructor
      · intro hall e he heu
        by_contra hne
        exact hall e he hne heu
      · intro hall e he hne heu
        exact hne (hall e he heu)
    have hfull : (s.get u).groupSize ≤ (s.get u).subCompleteCount+1 ↔
        (∀ e ∈ s.subDispatchToGroup, e.2 = u → e.1 = t) ∧ remaining pc u = 0 := by
      rw [← hopen]
      omega
    rw [completesAt, hlook]
    dsimp only
    constructor
    · intro hc
      split at hc
      · rename_i hle
        cases hc
        exact ⟨hm,(hfull.mp hle).1,(hfull.mp hle).2⟩
      · cases hc
    · intro hl
      have hug : g = u := Option.some.inj ((lookup_of_mem h.keys hl.out).symm.trans hlook)
      subst hug
      rw [if_pos (hfull.mpr ⟨hl.alone,hl.handed⟩)]
  · rw [completesAt, hn]
    dsimp only
    rw [if_pos hrun.2]
    constructor
    · intro hc
      cases hc
      rw [hpl] at hg
      cases hg
    · intro hl
      rw [lookup_of_mem h.keys hl.out] at hn
      cases hn

theorem finished_counted (s : State) (t : ℤ) : finished (counted s t) = finished s := by
  unfold counted
  split
  · exact finished_countSubTask _ _
  · rfl

/-- A report moves the counter of the group the id is out for, and no other. -/
theorem counted_count (h : Account rem [] [] s) {g : ℤ} (hg : s.taskRing.Live g) :
    ((counted s t).get g).subCompleteCount =
      (s.get g).subCompleteCount+if (t,g) ∈ s.subDispatchToGroup then 1 else 0 := by
  unfold counted
  cases hl : s.subDispatchToGroup.lookup t with
  | none =>
    have hno : (t,g) ∉ s.subDispatchToGroup := by
      intro hm
      rw [lookup_of_mem h.keys hm] at hl
      cases hl
    rw [if_neg hno]
    rfl
  | some u =>
    have hm := mem_of_lookup hl
    have hiff : (t,g) ∈ s.subDispatchToGroup ↔ g = u := by
      constructor
      · intro hm'
        exact Option.some.inj ((lookup_of_mem h.keys hm').symm.trans hl)
      · rintro rfl
        exact hm
    have hshape : Shape ((s.record (.report t)).eraseSubId t) := h.shape.of_eq rfl rfl rfl
    dsimp only
    rw [countSubTask, hshape.get_modify hg (h.groups _ hm).1.1]
    by_cases hgu : g = u
    · rw [if_pos hgu, if_pos (hiff.mpr hgu)]
      rfl
    · rw [if_neg hgu, if_neg (fun hm' => hgu (hiff.mp hm'))]
      rfl

theorem counted_backend (s : State) (t : ℤ) : (counted s t).backend = s.backend := by
  unfold counted
  split <;> rfl

theorem counted_slot (s : State) (t u : ℤ) : (counted s t).taskRing.slot u = s.taskRing.slot u := by
  unfold counted
  split
  · exact LinquTaskRing.modify_slot ..
  · rfl

/-- A report finishes the task it completes and no other. -/
theorem report_finished (h : Account rem [] [] s) (ho : Outstanding s.trace t)
    (hs : s.onTaskComplete t = .ok s') {g : ℤ} (hg : g < s.taskRing.currentIndex) :
    finished s' g = (finished s g || decide (completesAt s t = some g)) := by
  rw [onTaskComplete_eq] at hs
  cases hc : completesAt s t with
  | none =>
    rw [hc] at hs
    cases hs
    rw [finished_counted]
    simp
  | some u =>
    rw [hc] at hs
    have hrun := completesAt_running h ho hc
    obtain ⟨hfin,-⟩ := complete_finished ((counted_backend s t).trans h.backend) hs
    rw [hfin, Bool.eq_iff_iff, finished_setCompleted, finished_counted, counted_slot, counted_slot]
    simp only [Bool.or_eq_true, decide_eq_true_eq, Option.some.injEq]
    by_cases hd : g < s.taskRing.lastTaskAlive
    · simp [finished_dead hd]
    · have hlive : s.taskRing.Live g := ⟨not_lt.mp hd,hg⟩
      rw [h.shape.slot_iff hlive hrun.1, eq_comm (a := g)]

theorem report_count (h : Account rem [] [] s) (hs : s.onTaskComplete t = .ok s') {g : ℤ}
    (hg : s.taskRing.Live g) : (s'.get g).subCompleteCount =
      (s.get g).subCompleteCount+if (t,g) ∈ s.subDispatchToGroup then 1 else 0 := by
  rw [← counted_count h hg]
  rw [onTaskComplete_eq] at hs
  cases hc : completesAt s t with
  | none =>
    rw [hc] at hs
    cases hs
    rfl
  | some u =>
    rw [hc] at hs
    exact (complete_finished ((counted_backend s t).trans h.backend) hs).2 g

end Report

/-! The ids of sub-tasks. -/

def subIds (l : List Event) : List ℤ :=
  l.filterMap fun
    | .dispatch call => match call.origin with
      | .sub _ _ => some call.taskId
      | .plain => none
    | _ => none

/-- The counter runs down from -1, below every id it has given out. -/
structure Numbered (s : State) : Prop where
  next : s.nextSubDispatchId < 0
  given : ∀ id ∈ subIds s.trace, s.nextSubDispatchId < id ∧ id < 0
  distinct : (subIds s.trace).Nodup

theorem Numbered.of_eq {s s' : State} (h : Numbered s)
    (hn : s'.nextSubDispatchId = s.nextSubDispatchId) (ht : subIds s'.trace = subIds s.trace) :
    Numbered s' := by
  refine ⟨?_,?_,?_⟩
  · rw [hn]
    exact h.next
  · rw [hn, ht]
    exact h.given
  · rw [ht]
    exact h.distinct

theorem Numbered.dispatch {s : State} (h : Numbered s) (g : ℤ) (k : Option String)
    (gp : List LinquParam) (i : ℕ) (sub : LinquSubTaskSpec) :
    Numbered ((s.assignSubId g).record
      (.dispatch (s.subCall s.nextSubDispatchId g k gp i sub))) := by
  have hnext := h.next
  have hids : subIds ((s.assignSubId g).record
      (.dispatch (s.subCall s.nextSubDispatchId g k gp i sub))).trace =
        s.nextSubDispatchId::subIds s.trace := rfl
  refine ⟨?_,?_,?_⟩
  · show s.nextSubDispatchId-1 < 0
    omega
  · intro id hid
    show s.nextSubDispatchId-1 < id ∧ id < 0
    rw [hids] at hid
    rcases List.mem_cons.mp hid with rfl | hid
    · omega
    · have hgiven := h.given id hid
      omega
  · rw [hids, List.nodup_cons]
    exact ⟨fun hm => lt_irrefl _ (h.given _ hm).1,h.distinct⟩

theorem Numbered.dispatchFrom {g : ℤ} {k : Option String} {gp : List LinquParam} {n : ℕ}
    (subs : List LinquSubTaskSpec) : ∀ (i : ℕ) (s s' : State), s.backend = .dispatcher →
      Numbered s → LinquOrchestratorState.dispatchFrom (fun s _ => .ok s) (fun _ s => .ok s)
        g k gp n i subs s = .ok s' → Numbered s' := by
  induction subs with
  | nil =>
    intro i s s' _ h hs
    cases hs
    exact h
  | cons sub rest ih =>
    intro i s s' hb h hs
    rw [LinquOrchestratorState.dispatchFrom, dispatchSubTask_dispatcher g k gp n _ i sub hb] at hs
    refine ih (i+1) ((s.assignSubId g).record _) s' hb (h.dispatch g k gp i sub) hs

theorem numbered_rule : PropagateRule (fun _ _ _ _ s => Numbered s) where
  release p _ _ _ _ s h := by
    have hset := settles_release s p
    exact h.of_eq hset.nextSub (by rw [hset.trace])
  notify c _ _ _ s h _ := h.of_eq rfl rfl
  skip _ _ _ _ h _ := h
  ready _ _ _ _ h _ _ := h.of_eq rfl rfl
  run _ _ _ _ h _ _ _ := h.of_eq rfl rfl
  dispatch c _ _ s s' spec h _ _ hb _ hm := by
    have hloop := Numbered.dispatchFrom spec.subTasks 0 (s.setStatus c .running) s' hb
      (h.of_eq rfl rfl) hm
    exact hloop.of_eq rfl rfl
  count g _ _ s _ _ h := by
    have hnext := h.next
    refine ⟨?_,?_,h.distinct⟩
    · show s.nextSubDispatchId-1 < 0
      omega
    · intro id hid
      have hgiven := h.given id hid
      show s.nextSubDispatchId-1 < id ∧ id < 0
      omega
  complete _ _ _ _ _ _ h := h.of_eq rfl rfl
  erase _ _ _ _ _ _ h := h.of_eq rfl rfl
  finish t _ _ s h := by
    have hset := settles_check s t
    exact h.of_eq hset.nextSub (by rw [hset.trace])

theorem Numbered.complete {s s' : State} {t : ℤ} (h : Numbered s) (hs : s.complete t = .ok s') :
    Numbered s' :=
  propagate_rule numbered_rule (b := []) (c := []) hs (h.of_eq rfl rfl)

theorem Numbered.onTaskComplete {s s' : State} {t : ℤ} (h : Numbered s)
    (hs : s.onTaskComplete t = .ok s') : Numbered s' := by
  have hc : Numbered (counted s t) := by
    unfold counted
    split
    · exact h.of_eq rfl rfl
    · exact h.of_eq rfl rfl
  rw [onTaskComplete_eq] at hs
  cases hat : completesAt s t with
  | none =>
    rw [hat] at hs
    cases hs
    exact hc
  | some g =>
    rw [hat] at hs
    exact hc.complete hs

theorem Numbered.eases {s s' : State} (h : Numbered s) (e : Eases s s') : Numbered s' := by
  induction e with
  | settle hs _ => exact h.of_eq hs.nextSub (by rw [hs.trace])
  | retire r => exact h.of_eq r.rest.nextSubDispatchId (by rw [r.rest.trace])
  | trans _ _ ih ih' => exact ih' (ih h)

theorem Numbered.entered {s e : State} {tid : ℤ} {group : Option ℕ} {prods : List ℤ}
    (h : Numbered s) (he : Entered s e tid group prods) : Numbered e := by
  apply h.of_eq he.nextSubDispatchId
  rw [he.trace]
  rfl

theorem Numbered.stage {σ σ' : System} {l : List ℤ} (h : Numbered σ.state)
    (hb : σ.state.backend = .dispatcher) (st : Stage σ l σ') : Numbered σ'.state := by
  cases st with
  | ease hp hp' he => exact h.eases he
  | @task s m e s' pc tid prods target k params hp hw he hs =>
    have hbe : e.backend = .dispatcher := he.backend.trans ((eases_backend hw).trans hb)
    obtain ⟨call,-,hor,-,-,rfl⟩ := launchTask_dispatcher hbe hs
    have hids : subIds (.dispatch call::e.trace) = subIds e.trace := by
      simp only [subIds, List.filterMap_cons, hor]
    exact Numbered.of_eq ((h.eases hw).entered he) rfl hids
  | @park s m e s' pc tid prods k params subs hp hw he hn hs =>
    have hent := (h.eases hw).entered he
    unfold LinquOrchestratorState.launchGroup at hs
    by_cases hz : subs.length = 0
    · rw [if_pos hz] at hs
      exact hent.complete hs
    · have hfan : ¬ (e.get tid).faninCount = 0 := fun hf => hn ⟨hz,hf⟩
      rw [if_neg hz, if_neg hfan] at hs
      cases hs
      exact hent.of_eq rfl rfl
  | start hp hw he hn => exact ((h.eases hw).entered he).of_eq rfl rfl
  | @dispatch s tid k gp n i sub rest => exact h.dispatch tid k gp i sub

theorem numbered_moves {σ σ' : System} {a : Act} (h : Paced σ) (hn : Numbered σ.state)
    (hm : Moves σ a σ') : Numbered σ'.state := by
  rcases moves_cases h.shape h.backend hm with ⟨r,-,hs,-⟩ | ⟨-,st⟩
  · unfold onCompletion at hs
    split at hs
    · exact hn.onTaskComplete hs
    · rw [← Except.ok.inj hs]
      exact hn
  · exact hn.stage h.backend st

/-! Steps and runs. -/

/-- The report that a step delivers. -/
def delivered : Act → Option ℤ
  | .result r => if r.status = .completed then some r.taskId else none
  | _ => none

/-- A step delivers a report or makes a stage of a call. -/
theorem delivered_cases {σ σ' : System} {a : Act} (h : Paced σ) (hm : Moves σ a σ') :
    (∃ t, delivered a = some t ∧ σ.state.onTaskComplete t = .ok σ'.state ∧
      propagates σ a = (completesAt σ.state t).toList) ∨
      delivered a = none ∧ Advances σ.state (propagates σ a) σ'.state := by
  rcases moves_cases h.shape h.backend hm with ⟨r,rfl,hs,-⟩ | ⟨hr,st⟩
  · unfold onCompletion at hs
    by_cases hok : r.status = .completed
    · rw [if_pos hok] at hs
      refine Or.inl ⟨r.taskId,?_,hs,?_⟩
      · rw [delivered, if_pos hok]
      · rw [propagates, if_pos hok]
    · rw [if_neg hok] at hs
      refine Or.inr ⟨?_,?_⟩
      · rw [delivered, if_neg hok]
      · rw [propagates, if_neg hok, ← Except.ok.inj hs]
        refine ⟨steady_ring rfl List.suffix_rfl,?_,by simp,List.nodup_nil⟩
        intro g hge hlt
        exact absurd hge (not_le.mpr hlt)
  · have hnone : delivered a = none := by
      cases a with
      | result r => exact absurd rfl (hr r)
      | _ => rfl
    exact Or.inr ⟨hnone,stage_advances h.shape h.backend st⟩

/-- The callback makes the calls of `propagate_completion` that `propagates`
lists, and these make no further one. -/
theorem onCompletion_calls {s : State} (hb : s.backend = .dispatcher) (pc : Pc)
    (r : DispatchResult) : onCompletion s r = (propagates ⟨s,pc⟩ (.result r)).foldlM
      (fun u g => propagateCompletion 1 (u.setStatus g .completed) g)
      (if r.status = .completed then counted s r.taskId else s) := by
  unfold onCompletion propagates
  dsimp only
  by_cases hok : r.status = .completed
  · rw [if_pos hok, if_pos hok, if_pos hok, onTaskComplete_eq]
    cases hc : completesAt s r.taskId with
    | none => rfl
    | some g =>
      have hb' : ((counted s r.taskId).setStatus g .completed).backend = .dispatcher :=
        (counted_backend s r.taskId).trans hb
      show propagateCompletion ((counted s r.taskId).taskRing.windowSize.toNat+1) _ g = _
      rw [propagate_alone hb', Option.toList_some, List.foldlM_cons]
      exact (bind_pure _).symm
  · rw [if_neg hok, if_neg hok, if_neg hok]
    rfl

/-- The reports of a step were out. -/
theorem delivered_outstanding {s s' : State} {t : ℤ} (hs : s.onTaskComplete t = .ok s')
    (ho : ReportsOnce s'.trace) : ReportsOnce s.trace ∧ Outstanding s.trace t := by
  have hone : ReportsOnce (.report t::s.trace) :=
    reportsOnce_suffix ho (frame_onTaskComplete hs).suffix
  exact ⟨hone.2,hone.1⟩

theorem moves_reportsOnce {σ σ' : System} {a : Act} (h : Paced σ) (hm : Moves σ a σ')
    (ho : ReportsOnce σ'.state.trace) : ReportsOnce σ.state.trace := by
  rcases delivered_cases h hm with ⟨t,-,hs,-⟩ | ⟨-,hadv⟩
  · exact (delivered_outstanding hs ho).1
  · exact reportsOnce_suffix ho hadv.steady.trace

theorem run_reportsOnce {acts : List Act} {σ σ' : System} (h : Paced σ)
    (hr : Run Moves acts σ σ') (ho : ReportsOnce σ'.state.trace) : ReportsOnce σ.state.trace := by
  induction acts generalizing σ with
  | nil =>
    cases hr
    exact ho
  | cons a acts ih =>
    obtain ⟨m,hm,hr⟩ := hr
    exact moves_reportsOnce h hm (ih (step_paced h hm) hr)

/-- One for a task that has been submitted and is finished. -/
def doneCount (s : State) (g : ℤ) : ℕ :=
  if g < s.taskRing.currentIndex ∧ finished s g = true then 1 else 0

/-- `propagate_completion` is called in the step that finishes the task. -/
theorem propagates_count {σ σ' : System} {a : Act} (h : Paced σ) (hm : Moves σ a σ')
    (ho : ReportsOnce σ'.state.trace) (g : ℤ) :
    (propagates σ a).count g+doneCount σ.state g = doneCount σ'.state g := by
  unfold doneCount
  rcases delivered_cases h hm with ⟨t,-,hs,hp⟩ | ⟨-,hadv⟩
  · obtain ⟨hold,hout⟩ := delivered_outstanding hs ho
    have hacc := h.account hold
    have hcur : σ'.state.taskRing.currentIndex = σ.state.taskRing.currentIndex :=
      (frame_onTaskComplete hs).current
    rw [hp, hcur]
    by_cases hg : g < σ.state.taskRing.currentIndex
    · rw [report_finished hacc hout hs hg]
      cases hc : completesAt σ.state t with
      | none => simp
      | some u =>
        have hrun := completesAt_running hacc hout hc
        have hopen : finished σ.state u = false := by
          rw [finished_live hrun.1, hrun.2]
          rfl
        by_cases hug : u = g
        · subst hug
          simp [hg, hopen]
        · simp [hug]
    · have hno : g ∉ (completesAt σ.state t).toList := by
        intro hmem
        have hrun := completesAt_running hacc hout (Option.mem_toList.mp hmem)
        exact hg hrun.1.2
      rw [List.count_eq_zero_of_not_mem hno]
      simp [hg]
  · have hcur := hadv.steady.current
    by_cases hg : g < σ.state.taskRing.currentIndex
    · have hno : g ∉ propagates σ a := by
        intro hmem
        have := hadv.called g hmem
        omega
      rw [List.count_eq_zero_of_not_mem hno, hadv.steady.finished g hg]
      simp [hg, hg.trans_le hcur]
    · by_cases hg' : g < σ'.state.taskRing.currentIndex
      · rw [(hadv.fresh g (not_lt.mp hg) hg').1, hadv.once.count]
        simp [hg, hg']
      · have hno : g ∉ propagates σ a := fun hmem => hg' (hadv.called g hmem).2
        rw [List.count_eq_zero_of_not_mem hno]
        simp [hg, hg']

theorem propagations_count {acts : List Act} {σ σ' : System} (h : Paced σ)
    (hr : Run Moves acts σ σ') (ho : ReportsOnce σ'.state.trace) (g : ℤ) :
    (propagations acts σ).count g+doneCount σ.state g = doneCount σ'.state g := by
  induction acts generalizing σ with
  | nil =>
    cases hr
    simp [propagations]
  | cons a acts ih =>
    obtain ⟨m,hm,hr⟩ := hr
    have hpm := step_paced h hm
    have hstep := propagates_count h hm (run_reportsOnce hpm hr ho) g
    have hrest := ih hpm hr
    have hnext : act σ a = some m := hm
    rw [propagations, hnext, List.count_append]
    dsimp only [Option.elim]
    omega

/-- What a step does to the groups. -/
structure GroupStep (σ : System) (a : Act) (σ' : System) : Prop where
  completes : ∀ g, σ.state.taskRing.Live g → (σ.state.get g).isGroup = true →
    (finished σ.state g = false ∧ finished σ'.state g = true ↔
      ∃ t, delivered a = some t ∧ Last σ t g)
  calls : ∀ g, σ.state.taskRing.Live g → (σ.state.get g).isGroup = true →
    (g ∈ propagates σ a ↔ ∃ t, delivered a = some t ∧ Last σ t g)
  enters : ∀ g, σ.state.taskRing.currentIndex ≤ g → g < σ'.state.taskRing.currentIndex →
    (σ'.state.get g).groupSize ≠ 0 → finished σ'.state g = false
  counts : ∀ t g, delivered a = some t → (t,g) ∈ σ.state.subDispatchToGroup →
    (σ'.state.get g).subCompleteCount = (σ.state.get g).subCompleteCount+1
  others : ∀ g, σ.state.taskRing.Live g → σ'.state.taskRing.Live g →
    (∀ t, delivered a = some t → (t,g) ∉ σ.state.subDispatchToGroup) →
    (σ'.state.get g).subCompleteCount = (σ.state.get g).subCompleteCount

theorem groupStep_of_moves {σ σ' : System} {a : Act} (h : Paced σ) (hm : Moves σ a σ')
    (ho : ReportsOnce σ'.state.trace) : GroupStep σ a σ' := by
  rcases delivered_cases h hm with ⟨t,ht,hs,hp⟩ | ⟨hnone,hadv⟩
  · obtain ⟨hold,hout⟩ := delivered_outstanding hs ho
    have hacc := h.account hold
    refine ⟨?_,?_,?_,?_,?_⟩
    · intro g hg hgr
      rw [report_finished hacc hout hs hg.2]
      have hlast := completesAt_iff_last hacc hout hgr
      constructor
      · rintro ⟨hopen,hfin⟩
        rw [hopen] at hfin
        exact ⟨t,ht,hlast.mp (by simpa using hfin)⟩
      · rintro ⟨u,hu,hl⟩
        cases hu.symm.trans ht
        have hat := hlast.mpr hl
        have hrun := completesAt_running hacc hout hat
        refine ⟨?_,by simp [hat]⟩
        rw [finished_live hrun.1, hrun.2]
        rfl
    · intro g _ hgr
      rw [hp, Option.mem_toList, ht]
      have hlast := completesAt_iff_last hacc hout hgr
      constructor
      · intro hat
        exact ⟨t,rfl,hlast.mp hat⟩
      · rintro ⟨u,hu,hl⟩
        cases hu
        exact hlast.mpr hl
    · intro g hge hlt
      have hcur : σ'.state.taskRing.currentIndex = σ.state.taskRing.currentIndex :=
        (frame_onTaskComplete hs).current
      omega
    · intro u g hu hmem
      cases hu.symm.trans ht
      rw [report_count hacc hs (hacc.groups _ hmem).1.1, if_pos hmem]
    · intro g hg _ hno
      rw [report_count hacc hs hg, if_neg (hno t ht)]
      rfl
  · refine ⟨?_,?_,?_,?_,?_⟩
    · intro g hg _
      rw [hadv.steady.finished g hg.2, hnone]
      constructor
      · rintro ⟨h0,h1⟩
        rw [h0] at h1
        cases h1
      · rintro ⟨_,hu,-⟩
        cases hu
    · intro g hg _
      rw [hnone]
      constructor
      · intro hmem
        exact absurd (hadv.called g hmem).1 (not_le.mpr hg.2)
      · rintro ⟨_,hu,-⟩
        cases hu
    · intro g hge hlt hsize
      obtain ⟨hfin,hempty,-⟩ := hadv.fresh g hge hlt
      rw [hfin]
      exact decide_eq_false fun hmem => hsize (hempty hmem)
    · intro u g hu
      rw [hnone] at hu
      cases hu
    · intro g hg hg' _
      exact (hadv.steady.group g hg hg').2.2

theorem init_numbered {cfg : LinquOrchConfigInternal} {s : State}
    (h : init .dispatcher cfg = .ok s) : Numbered s := by
  obtain ⟨-,htrace,-,-,-,-,hnext⟩ := init_rest h
  refine ⟨?_,?_,?_⟩
  · rw [hnext]
    decide
  · rw [htrace]
    intro id hid
    cases hid
  · rw [htrace]
    exact List.nodup_nil

theorem run_numbered {acts : List Act} {σ σ' : System} (h : Paced σ) (hn : Numbered σ.state)
    (hr : Run Moves acts σ σ') : Numbered σ'.state := by
  induction acts generalizing σ with
  | nil =>
    cases hr
    exact hn
  | cons a acts ih =>
    obtain ⟨m,hm,hr⟩ := hr
    exact ih (step_paced h hm) (numbered_moves h hn hm) hr

/-- In every state of a run with a dispatcher that reports each id once, for
the next step: a group is finished exactly by the report for its last
sub-task, no counter moves but that of the group reported to, the calls of
`propagate_completion` so far are one for each finished task, the ids of
sub-tasks are distinct and negative, and a running group that has been
dispatched has as many ids out as it has sub-tasks to count. -/
theorem group_completes_with_last {cfg : LinquOrchConfigInternal} {s₀ : State} {acts : List Act}
    {σ : System} (hinit : init .dispatcher cfg = .ok s₀) (hrun : Run Moves acts ⟨s₀,.idle⟩ σ)
    (ho : ReportsOnce σ.state.trace) :
    (∀ a σ', Moves σ a σ' → ReportsOnce σ'.state.trace → GroupStep σ a σ') ∧
      (∀ g, 0 ≤ g → g < σ.state.taskRing.currentIndex →
        (propagations acts ⟨s₀,.idle⟩).count g = if finished σ.state g then 1 else 0) ∧
      (subIds σ.state.trace).Nodup ∧ (∀ id ∈ subIds σ.state.trace, id < 0) ∧
      ∀ g, Running σ.state g → (σ.state.get g).isGroup = true → remaining σ.pc g = 0 →
        openSubs σ.state g = (σ.state.get g).groupSize-(σ.state.get g).subCompleteCount := by
  have h0 := init_paced hinit
  have hpaced := run_paced h0 hrun
  have hnum : Numbered σ.state := run_numbered h0 (init_numbered hinit) hrun
  refine ⟨fun a σ' hm ho' => groupStep_of_moves hpaced hm ho',?_,hnum.distinct,
    fun id hid => (hnum.given id hid).2,?_⟩
  · intro g hg0 hg
    have hcount := propagations_count h0 hrun ho g
    have hstart : doneCount s₀ g = 0 := by
      obtain ⟨-,hcur,-,-⟩ := init_ring hinit
      rw [doneCount, hcur, if_neg (fun hlt => not_lt.mpr hg0 hlt.1)]
    rw [hstart, doneCount] at hcount
    simpa [hg] using hcount
  · intro g hg hgr hrem
    have hbudget := (hpaced.account ho).budget g hg.1 hgr (by rw [finished_live hg.1, hg.2]; rfl)
    rw [undispatched, if_neg (by rw [hg.2]; simp), hrem] at hbudget
    omega

def twoSpecs : List LinquSubTaskSpec := List.replicate 2 ⟨{},none,[]⟩

/-- Two groups of two, a plain task between them. The first sub-task of the
first group is reported while the group is still being dispatched. -/
def twoGroups : List Act :=
  [.call (.submit (.group (some "a") [] twoSpecs)),.turn,completed (-1),.turn,.turn,
    .call (.submit (.task {} none [])),.call (.submit (.group (some "b") [] twoSpecs)),
    .turn,.turn,.turn,completed (-4),completed 1]

/-- The one id that is left of group 0 is reported next. -/
theorem group_completes_with_last_interleaved : ∃ s₀ σ σ', init .dispatcher {} = .ok s₀ ∧
    Run Moves twoGroups ⟨s₀,.idle⟩ σ ∧ Moves σ (completed (-2)) σ' ∧
    finished σ.state 0 = false ∧ finished σ'.state 0 = true ∧
    (propagations twoGroups ⟨s₀,.idle⟩).count 1 = 1 ∧ openSubs σ.state 2 = 1 := by
  obtain ⟨σ₀,σ,h₀,hr,-,ht⟩ := exists_run (f := act) (g := fun _ _ => true) (l := twoGroups)
    (o := (init .dispatcher {}).toOption.map (fun s => System.mk s .idle))
    (c := fun σ => decide (ReportsOnce σ.state.trace) && decide (remaining σ.pc 0 = 0) &&
      decide (σ.state.subDispatchToGroup = [(-3,2),(-2,0)]) && decide (remaining σ.pc 2 = 0) &&
      decide ((σ.state.get 0).isGroup = true) && decide ((σ.state.get 2).isGroup = true) &&
      decide (σ.state.taskRing.Live 0) && decide (σ.state.taskRing.Live 2) &&
      decide ((σ.state.get 2).status = .running) && finished σ.state 1 &&
      decide ((σ.state.get 2).groupSize-(σ.state.get 2).subCompleteCount = 1) &&
      decide (1 < σ.state.taskRing.currentIndex) &&
      (act σ (completed (-2))).any (fun σ' => decide (ReportsOnce σ'.state.trace)))
    (by decide +kernel)
  obtain ⟨s₀,hs₀,hσ₀⟩ := Option.map_eq_some_iff.mp h₀
  subst hσ₀
  simp only [Bool.and_eq_true, decide_eq_true_eq] at ht
  obtain ⟨⟨⟨⟨⟨⟨⟨⟨⟨⟨⟨⟨ho,hp0⟩,htab⟩,hp2⟩,hg0⟩,hg2⟩,hl0⟩,hl2⟩,hrun⟩,hfin⟩,hsize⟩,hlt⟩,hnext⟩ := ht
  obtain ⟨σ',hm,ho'⟩ := (Option.any_eq_true _ _).mp hnext
  have hinit := toOption_some.mp hs₀
  obtain ⟨hsteps,hcalls,-,-,hopen⟩ := group_completes_with_last hinit hr ho
  have hlast : Last σ (-2) 0 := by
    refine ⟨?_,?_,hp0⟩
    · rw [htab]
      decide
    · rw [htab]
      decide
  have hdone := ((hsteps _ σ' hm (of_decide_eq_true ho')).completes 0 hl0 hg0).mpr ⟨-2,rfl,hlast⟩
  refine ⟨s₀,σ,σ',hinit,hr,hm,hdone.1,hdone.2,?_,?_⟩
  · rw [hcalls 1 (by decide) hlt, hfin]
    rfl
  · rw [hopen 2 ⟨hl2,hrun⟩ hg2 hp2, hsize]

end Linqu.LastSubTask
