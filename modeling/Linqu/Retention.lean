import Linqu.Retirement
import Linqu.PlainRuns

/-!
# Producers of unfinished tasks

`Owed` is the upper half of the account of a task: its fanout counter never
exceeds one token and the edges to consumers that are finished. A task is then
consumed only when all its consumers are finished, and is not retired under a
consumer that still needs it. The account is kept exactly as long as no task
is linked to a producer that is already consumed: `submit_task` looks a
producer up by liveness alone, and a consumed task stays live while an older
one holds the retirement cursor.
-/

set_option autoImplicit false

namespace Linqu.Retention
open Linqu.TaskRing Linqu.DepPool Linqu.TensorMap Linqu.ScopeStack Linqu.Orchestrator
open Linqu.Orchestrator.LinquOrchestratorState Linqu.OrchestrationApi Linqu.Transition
open Linqu.OrchestratorRule Linqu.OrchestratorShape Linqu.OrchestratorCalls Linqu.OrchestratorDone
open Linqu.Reports Linqu.Retirement Linqu.PlainRuns

/-- The upper account; `rel` are the releases still to be made. -/
structure Owed (rel : List ℤ) (s : State) : Prop where
  shape : Shape s
  rel_live : ∀ p ∈ rel, s.taskRing.Live p
  held : ∀ t ∈ s.scopeStack.scopeTasks, s.taskRing.Live t
  debt : ∀ p, s.taskRing.Live p →
    (s.get p).fanoutRefcount+rel.count p+s.scopeStack.scopeTasks.count p ≤
      1+(s.fanoutList p).countP (finished s)
  spent : ∀ p, s.taskRing.Live p → (s.get p).status = .consumed →
    p ∉ s.scopeStack.scopeTasks ∧ ∀ c ∈ s.fanoutList p, finished s c = true
  kept : ∀ c, s.taskRing.Live c → finished s c = false → ∀ p ∈ s.faninList c, s.taskRing.Live p

section Updates

variable {rel : List ℤ} {s s' : State}

theorem Owed.of_frame (h : Owed rel s) (f : Frame s s') (hd : finished s' = finished s)
    (hrc : ∀ t, s.taskRing.Live t → (s'.get t).fanoutRefcount = (s.get t).fanoutRefcount)
    (hcons : ∀ t, (s'.get t).status = .consumed → (s.get t).status = .consumed) :
    Owed rel s' where
  shape := h.shape.of_frame f
  rel_live p hp := f.live.mpr (h.rel_live p hp)
  held t ht := f.live.mpr (h.held t (f.scopeStack ▸ ht))
  debt p hp := by
    rw [hrc p (f.live.mp hp), f.scopeStack, f.fanoutList, hd]
    exact h.debt p (f.live.mp hp)
  spent p hp hc := by
    rw [f.scopeStack, f.fanoutList, hd]
    exact h.spent p (f.live.mp hp) (hcons p hc)
  kept c hc hn p hp := by
    rw [hd] at hn
    rw [f.faninList] at hp
    exact f.live.mpr (h.kept c (f.live.mp hc) hn p hp)

/-- A task the check consumes is held by no scope and has no open consumer. -/
theorem Owed.check (h : Owed rel s) (t : ℤ) : Owed rel (s.checkTaskConsumed t) := by
  have f := frame_checkTaskConsumed s t
  have hd := finished_checkTaskConsumed s t
  refine ⟨h.shape.of_frame f,fun p hp => f.live.mpr (h.rel_live p hp),
    fun u hu => f.live.mpr (h.held u (f.scopeStack ▸ hu)),fun p hp => ?_,fun p hp hc => ?_,
    fun c hc hn p hp => ?_⟩
  · rw [checkTaskConsumed_field LinquTaskDescriptor.fanoutRefcount (fun _ _ => rfl), f.scopeStack,
      f.fanoutList, hd]
    exact h.debt p (f.live.mp hp)
  · have hp := f.live.mp hp
    rw [f.scopeStack, f.fanoutList, hd]
    rw [get_checkTaskConsumed] at hc
    split at hc
    · rename_i hfull
      have hdebt := h.debt p hp
      have hle := List.countP_le_length (p := finished s) (l := s.fanoutList p)
      have hfc := h.shape.fanoutCount p hp
      have hrc := hfull.2.2
      exact ⟨List.count_eq_zero.mp (by omega),List.countP_eq_length.mp (by omega)⟩
    · exact h.spent p hp hc
  · rw [hd] at hn
    rw [f.faninList] at hp
    exact f.live.mpr (h.kept c (f.live.mp hc) hn p hp)

theorem Owed.raise {p : ℤ} (h : Owed (p::rel) s) : Owed rel (s.raiseFanout p) := by
  have f := frame_raiseFanout s p
  have hd := finished_raiseFanout s p
  have hp := h.rel_live p List.mem_cons_self
  refine ⟨h.shape.of_frame f,fun q hq => h.rel_live q (List.mem_cons_of_mem p hq),h.held,
    fun q hq => ?_,fun q hq hc => ?_,fun c hc hn q hq => ?_⟩
  · have hdebt := h.debt q hq
    rw [get_raiseFanout, f.fanoutList, hd, f.scopeStack]
    dsimp only
    rw [if_congr (h.shape.slot_iff hq hp) rfl rfl]
    rw [List.count_cons] at hdebt
    by_cases he : q = p
    · subst he
      simp only [beq_self_eq_true, if_true] at hdebt ⊢
      omega
    · simp only [he, if_false]
      omega
  · rw [get_raiseFanout] at hc
    rw [f.fanoutList, hd]
    exact h.spent q hq hc
  · rw [hd] at hn
    rw [f.faninList] at hq
    exact h.kept c hc hn q hq

/-- Marking a running task as completed makes its producers due. -/
theorem Owed.complete {t : ℤ} (h : Owed [] s) (ht : s.taskRing.Live t)
    (hn : finished s t = false) : Owed (s.faninList t) (s.setStatus t .completed) := by
  have f := frame_setStatus s t .completed
  have hmono : ∀ c, finished s c = true → finished (s.setStatus t .completed) c = true :=
    fun c hc => (finished_setCompleted s t c).mpr (Or.inl hc)
  refine ⟨h.shape.of_frame f,fun p hp => h.kept t ht hn p hp,h.held,fun p hp => ?_,
    fun p hp hc => ?_,fun c hc hd p hp => ?_⟩
  · have hp : s.taskRing.Live p := hp
    have hdebt := h.debt p hp
    rw [setStatus_field LinquTaskDescriptor.fanoutRefcount (fun _ _ => rfl), f.fanoutList,
      f.scopeStack, countP_complete h.shape ht hn _ fun c hc => (h.shape.fanout p hp c hc).2,
      h.shape.edges p t hp ht]
    simp only [List.count_nil] at hdebt
    omega
  · have hp : s.taskRing.Live p := hp
    rw [get_setStatus] at hc
    split at hc
    · cases hc
    · obtain ⟨h1,h2⟩ := h.spent p hp hc
      rw [f.fanoutList]
      exact ⟨h1,fun c hm => hmono c (h2 c hm)⟩
  · rw [f.faninList] at hp
    refine h.kept c hc ?_ p hp
    cases hdc : finished s c with
    | false => rfl
    | true => rw [hmono c hdc] at hd; cases hd

theorem Owed.of_eq (h : Owed rel s) (hr : s'.taskRing = s.taskRing) (hp : s'.depPool = s.depPool)
    (hm : s'.tensorMap = s.tensorMap) (hs : s'.scopeStack.scopeTasks = s.scopeStack.scopeTasks) :
    Owed rel s' := by
  have hget : ∀ t, s'.get t = s.get t := fun t => by
    rw [LinquOrchestratorState.get, LinquOrchestratorState.get, hr]
  have hin : ∀ t, s'.faninList t = s.faninList t := fun t => by
    rw [LinquOrchestratorState.faninList, hget, hp]; rfl
  have hout : ∀ t, s'.fanoutList t = s.fanoutList t := fun t => by
    rw [LinquOrchestratorState.fanoutList, hget, hp]; rfl
  have hd : finished s' = finished s := finished_congr (by rw [hr]) fun t => by rw [hget]
  refine ⟨h.shape.of_eq hr hm hp,?_,?_,?_,?_,?_⟩
  · rw [hr]; exact h.rel_live
  · rw [hr, hs]; exact h.held
  · intro p hl
    rw [hget, hs, hout, hd]
    exact h.debt p (hr ▸ hl)
  · intro p hl
    rw [hget, hs, hout, hd]
    exact h.spent p (hr ▸ hl)
  · intro c hl hn p hmem
    rw [hd] at hn
    rw [hin] at hmem
    rw [hr]
    exact h.kept c (hr ▸ hl) hn p hmem

end Updates

theorem owed_rule : PlainRule Owed where
  release p _ _ h := h.raise.check p
  notify c v h := by
    refine h.of_frame (frame_notifyConsumer v c) (finished_notifyConsumer v c) (fun u _ => ?_)
      fun u hu => ?_
    · rw [notifyConsumer, get_modify]
      split <;> rfl
    · rw [notifyConsumer, get_modify] at hu
      split at hu <;> exact hu
  check t _ h := h.check t

/-- A completion in a plain state. -/
theorem Owed.completes {s s' : State} {t : ℤ} (h : Owed [] s)
    (hg : ∀ u, (s.get u).isGroup = false) (hb : Busy s) (ht : Running s t)
    (hs : s.complete t = .ok s') : Owed [] s' := by
  have hn : finished s t = false := by
    rw [finished_live ht.1, ht.2]
    rfl
  exact complete_plain_rule owed_rule h.shape hg (fun u hu => hb.not_pending hu) ht.1
    (h.complete ht.1 hn) hs

/-- The cursor stops before a producer of an unfinished task. -/
theorem Owed.retired {s s' : State} {cursor : ℤ} (h : Owed [] s) (r : Retired s s' cursor) :
    Owed [] s' := by
  have hd := finished_retired r
  have hstay : ∀ t, s.taskRing.Live t → (s.get t).status ≠ .consumed → s'.taskRing.Live t := by
    intro t ht hn
    refine r.live.mpr ⟨?_,ht.2⟩
    by_contra hlt
    exact hn (r.consumed t ht.1 (not_le.mp hlt))
  refine ⟨r.shape h.shape,by simp,fun t ht => ?_,fun p hp => ?_,fun p hp hc => ?_,
    fun c hc hn p hp => ?_⟩
  · rw [r.rest.scopeStack] at ht
    have hl := h.held t ht
    exact hstay t hl fun hc => (h.spent t hl hc).1 ht
  · rw [r.get, r.fanoutList, r.rest.scopeStack, hd]
    exact h.debt p (r.live_of hp)
  · rw [r.get] at hc
    rw [r.fanoutList, r.rest.scopeStack, hd]
    exact h.spent p (r.live_of hp) hc
  · rw [hd] at hn
    rw [r.faninList] at hp
    have hc := r.live_of hc
    have hl := h.kept c hc hn p hp
    refine hstay p hl fun hcons => ?_
    rw [(h.spent p hl hcons).2 c ((h.shape.mem_edges hl hc).mpr hp)] at hn
    cases hn

theorem Owed.closeScope {s s' : State} (h : Owed [] s) (hs : s.closeScope = .ok s') :
    Owed [] s' := by
  obtain ⟨⟨ids,u⟩,hu,hs⟩ := bind_ok.mp hs
  cases hs
  obtain ⟨start,rest,-,rfl,rfl⟩ := popScope_spec hu
  refine foldl_rule (P := fun _ v => Owed [] v) (f := checkTaskConsumed)
    (fun t _ v hv => hv.check t) _ ?_
  refine foldl_rule (P := fun ids v => Owed ids v) (f := releaseScopeToken) (fun t ids v hv => ?_)
    (s.scopeStack.scopeTasks.drop start) ?_
  · rw [releaseScopeToken]
    split
    · refine ⟨hv.shape,fun p hp => hv.rel_live p (List.mem_cons_of_mem t hp),hv.held,
        fun p hp => ?_,hv.spent,hv.kept⟩
      have hdebt := hv.debt p hp
      rw [List.count_cons] at hdebt
      omega
    · exact hv.raise
  · refine ⟨h.shape.of_eq rfl rfl rfl,fun p hp => h.held p (List.mem_of_mem_drop hp),
      fun t ht => h.held t (List.mem_of_mem_take ht),fun p hp => ?_,fun p hp hc => ?_,h.kept⟩
    · have hdebt := h.debt p hp
      have hsplit := congrArg (List.count p)
        (List.take_append_drop start s.scopeStack.scopeTasks)
      rw [List.count_append] at hsplit
      simp only [List.count_nil] at hdebt
      change (s.get p).fanoutRefcount+(s.scopeStack.scopeTasks.drop start).count p+
        (s.scopeStack.scopeTasks.take start).count p ≤ 1+(s.fanoutList p).countP (finished s)
      omega
    · obtain ⟨h1,h2⟩ := h.spent p hp hc
      exact ⟨fun hm => h1 (List.mem_of_mem_take hm),h2⟩

/-- The producers that a submission finds among the earlier tasks are not
consumed yet. -/
def Unconsumed (s : State) (found : List ℤ) : Prop :=
  ∀ p ∈ found, p < s.taskRing.currentIndex → (s.get p).status ≠ .consumed

theorem Owed.entered {s s₁ : State} {tid : ℤ} {found : List ℤ} (h : Owed [] s)
    (e : Entered s s₁ tid none found.reverse) (hu : Unconsumed s found) :
    Owed [] (s₁.setStatus tid .running) := by
  have f := frame_setStatus s₁ tid .running
  have hlv : ∀ t, (s₁.setStatus tid .running).taskRing.Live t ↔ s.taskRing.Live t ∨ t = tid :=
    fun t => e.live h.shape
  have hold : ∀ t, s.taskRing.Live t → t < tid := fun t ht => e.tid_eq ▸ ht.2
  have hlt : ∀ p, s.taskRing.Live p → ∀ c ∈ s.fanoutList p, c < tid := fun p hp c hc =>
    e.tid_eq ▸ (h.shape.fanout p hp c hc).2
  have hnew : tid ∉ s.scopeStack.scopeTasks := fun hm => e.not_live (h.held tid hm)
  refine ⟨e.shape.of_frame f,by simp,fun t ht => ?_,fun p hp => ?_,fun p hp hc => ?_,
    fun c hc hn p hp => ?_⟩
  · rw [f.scopeStack, e.scopeTasks] at ht
    split at ht
    · rcases List.mem_append.mp ht with ht | ht
      · exact (hlv t).mpr (Or.inl (h.held t ht))
      · exact (hlv t).mpr (Or.inr (List.mem_singleton.mp ht))
    · exact (hlv t).mpr (Or.inl (h.held t ht))
  · rw [f.fanoutList, f.scopeStack, e.scopeTasks,
      setStatus_field LinquTaskDescriptor.fanoutRefcount (fun _ _ => rfl)]
    rcases (hlv p).mp hp with hp | rfl
    · have hdebt := h.debt p hp
      have hne : tid ≠ p := fun he => e.not_live (he ▸ hp)
      rw [e.fanout_old p hp, entered_countP e h.shape rfl _ (hlt p hp),
        e.field LinquTaskDescriptor.fanoutRefcount (fun _ _ _ _ => rfl) hp]
      refine le_trans (Nat.add_le_add_left ?_ _) hdebt
      split
      · rw [List.count_append, List.count_singleton, if_neg (by simpa using hne)]
        rfl
      · exact le_rfl
    · obtain ⟨_,_,_,hn⟩ := e.new
      have hzero := List.count_eq_zero.mpr hnew
      rw [hn]
      simp only [List.count_nil]
      split
      · rw [List.count_append, hzero, List.count_singleton_self]
        omega
      · rw [hzero]
        omega
  · rcases (hlv p).mp hp with hp | rfl
    · rw [entered_field e LinquTaskDescriptor.status (fun _ _ _ _ => rfl) hp] at hc
      obtain ⟨h1,h2⟩ := h.spent p hp hc
      have hnot : found.reverse.count p = 0 := List.count_eq_zero.mpr fun hm =>
        hu p (List.mem_reverse.mp hm) hp.2 hc
      rw [f.scopeStack, e.scopeTasks, f.fanoutList, e.fanout_old p hp, hnot]
      refine ⟨?_,fun c hm => ?_⟩
      · split
        · rw [List.mem_append, List.mem_singleton, not_or]
          exact ⟨h1,ne_of_lt (hold p hp)⟩
        · exact h1
      · rw [List.replicate_zero, List.nil_append] at hm
        rw [entered_finished_old e (hlt p hp c hm)]
        exact h2 c hm
    · rw [get_setStatus, if_pos rfl] at hc
      cases hc
  · rw [f.faninList] at hp
    rcases (hlv c).mp hc with hc | rfl
    · rw [entered_finished_old e (hold c hc)] at hn
      rw [e.fanin_old c hc] at hp
      exact (hlv p).mpr (Or.inl (h.kept c hc hn p hp))
    · rw [e.fanin_new] at hp
      exact (hlv p).mpr (e.prods_live p hp)

/-- The submissions of a plain run that read no consumed task. -/
def FreshReads (s : State) (group : Option ℕ) (params : List LinquParam) : Prop :=
  group = none ∧ ∀ found,
    producersOf s.taskRing.currentIndex s.tensorMap params = some found → Unconsumed s found

instance (s : State) (found : List ℤ) : Decidable (Unconsumed s found) :=
  inferInstanceAs (Decidable (∀ p ∈ found, _ → _))

instance (s : State) (group : Option ℕ) (params : List LinquParam) :
    Decidable (FreshReads s group params) :=
  match h : producersOf s.taskRing.currentIndex s.tensorMap params with
  | none => decidable_of_iff (group = none) (by simp [FreshReads, h])
  | some found => decidable_of_iff (group = none ∧ Unconsumed s found) (by simp [FreshReads, h])

structure Retained (s : State) : Prop where
  plain : Plain s
  owed : ReportsOnce s.trace → Owed [] s

theorem Retained.of_eq {s s' : State} (h : Retained s) (hp : Plain s')
    (hr : s'.taskRing = s.taskRing) (hd : s'.depPool = s.depPool)
    (hm : s'.tensorMap = s.tensorMap) (hs : s'.scopeStack.scopeTasks = s.scopeStack.scopeTasks)
    (ht : s'.trace = s.trace) : Retained s' :=
  ⟨hp,fun ho => (h.owed (ht ▸ ho)).of_eq hr hd hm hs⟩

theorem Retained.report {s s' : State} {t : ℤ} (h : Retained s)
    (hs : s.onTaskComplete t = .ok s') : Retained s' := by
  refine ⟨h.plain.report hs,fun ho => ?_⟩
  obtain ⟨htr,hrun,ho',hc⟩ := h.plain.report_complete hs ho
  have howed : Owed [] (s.record (.report t)) := (h.owed ho'.2).of_eq rfl rfl rfl rfl
  exact howed.completes h.plain.noGroup htr.busy hrun hc

theorem Retained.launchTask {s s₁ s' : State} {tid : ℤ} {found : List ℤ}
    {target : LinquCoordinate} {kernelSo : Option String} {params : List LinquParam}
    (h : Retained s) (hu : Unconsumed s found) (e : Entered s s₁ tid none found.reverse)
    (hs : s₁.launchTask tid target kernelSo params = .ok s') : Retained s' := by
  refine ⟨h.plain.launchTask e hs,fun ho => ?_⟩
  have hgroup := entered_noGroup h.plain e
  have hrun := (entered_running h.plain e tid).mpr (Or.inr rfl)
  -- the policy of the whole trace is the policy of the trace before the call
  have hback : ∀ l, s₁.trace <:+ l → ReportsOnce l → Tracked s ∧ Owed [] s := by
    intro l hl hr
    have hr := reportsOnce_suffix hr hl
    rw [e.trace] at hr
    exact ⟨h.plain.tracked hr,h.owed hr⟩
  unfold LinquOrchestratorState.launchTask at hs
  dsimp only at hs
  split at hs
  · cases hs
    obtain ⟨-,ho⟩ := hback _ (List.suffix_cons _ _) ho
    exact (ho.entered e hu).of_eq rfl rfl rfl rfl
  · generalize hev : Event.dispatchFn _ = ev at hs
    have hsuf : s₁.trace <:+ s'.trace :=
      (List.suffix_cons ev s₁.trace).trans (frame_complete hs).suffix
    obtain ⟨ht,ho⟩ := hback _ hsuf ho
    have hent : Owed [] ((s₁.setStatus tid .running).record ev) :=
      (ho.entered e hu).of_eq rfl rfl rfl rfl
    exact hent.completes hgroup (entered_busy h.plain ht e) hrun hs
  · obtain ⟨ht,ho⟩ := hback _ (frame_complete hs).suffix ho
    exact (ho.entered e hu).completes hgroup (entered_busy h.plain ht e) hrun hs

theorem retained_calls : CallRule Retained FreshReads where
  shape _ h := h.plain.shape
  metrics _ _ m h := h.of_eq (plain_calls.metrics _ _ m h.plain) m.taskRing m.rest.depPool
    m.tensorMap (by rw [m.rest.scopeStack]) m.rest.trace
  advance _ _ _ r h := ⟨h.plain.retired r,fun ho => (h.owed (r.rest.trace ▸ ho)).retired r⟩
  report _ _ _ h hs := h.report hs
  task _ _ _ _ found _ _ _ h hc hf e hs := h.launchTask (hc.2 found hf) e hs
  group _ _ _ _ _ _ _ _ _ _ hc := by cases hc.1
  scopeBegin s s' h hs := by
    have hp := plain_calls.scopeBegin s s' h.plain hs
    obtain ⟨st,hst,hs⟩ := bind_ok.mp hs
    have hst := required_ok.mp hst
    cases hs
    refine h.of_eq hp rfl rfl rfl ?_ rfl
    unfold LinquScopeStack.scopeBegin at hst
    split at hst
    · cases hst; rfl
    · cases hst
  closeScope s s' h hs := ⟨plain_calls.closeScope s s' h.plain hs,fun ho =>
    (h.owed ((settles_closeScope hs).trace ▸ ho)).closeScope hs⟩
  scopeRelease s t h := ⟨plain_calls.scopeRelease s t h.plain,fun ho =>
    (h.owed ((settles_check s t).trace ▸ ho)).check t⟩

theorem init_retained {backend : Backend} {cfg : LinquOrchConfigInternal} {s : State}
    (h : init backend cfg = .ok s) : Retained s := by
  obtain ⟨-,-,ht,-,-,-,-⟩ := init_rest h
  have hnl := init_not_live h
  exact ⟨init_plain h,fun _ => ⟨init_shape h,by simp,fun t hm => (by rw [ht] at hm; cases hm),
    fun p hp => absurd hp (hnl p),fun p hp => absurd hp (hnl p),fun c hc => absurd hc (hnl c)⟩⟩

/-- No task is retired under an unfinished consumer, in a plain run whose
submissions never read a consumed task: the producers of every live task that
has not completed are live, and their slots are their own. -/
theorem producers_retained {backend : Backend} {cfg : LinquOrchConfigInternal} {s₀ s : State}
    {ops : List Op} (hinit : init backend cfg = .ok s₀) (hrun : Run Steps ops s₀ s)
    (hreads : Guarded Steps (Admits FreshReads) ops s₀) (honce : ReportsOnce s.trace) :
    ∀ c, s.taskRing.Live c → (s.get c).status.isDone = false → ∀ p ∈ s.faninList c,
      s.taskRing.lastTaskAlive ≤ p ∧ (s.get p).taskId = p := by
  intro c hc hn p hp
  have h := (run_rule retained_calls (init_retained hinit) hreads hrun).owed honce
  rw [← finished_live hc] at hn
  have hl := h.kept c hc hn p hp
  exact ⟨hl.1,h.shape.taskId p hl⟩

/-- A producer and its consumer, both still running. -/
def openPair : List Op :=
  [.scopeBegin,.submitTask {} none [linquMakeOutput 1] [],
    .submitTask {} none [linquMakeInput 1] []]

theorem producers_retained_pair : ∃ s₀ s, init .dispatcher fourSlots = .ok s₀ ∧
    Run Steps openPair s₀ s ∧ s.faninList 1 = [0] ∧ (s.get 1).status = .running ∧
    s.taskRing.lastTaskAlive ≤ 0 := by
  obtain ⟨s₀,s,h₀,hr,hs,ht⟩ := run_of_check (b := .dispatcher) (c := fourSlots)
    (l := openPair)
    (g := checkGuarded (fun s group params => decide (FreshReads s group params)) openPair)
    (t := fun s => decide (ReportsOnce s.trace ∧ s.faninList 1 = [0] ∧
      (s.get 1).status = .running ∧ s.taskRing.Live 1))
    (by decide +kernel)
  obtain ⟨honce,hlist,hst,hlive⟩ := of_decide_eq_true ht
  have hg : Guarded Steps (Admits FreshReads) openPair s₀ :=
    guarded_of_check (fun _ _ _ h => of_decide_eq_true h) openPair s₀ hs
  have hkept := producers_retained h₀ hr hg honce 1 hlive (by rw [hst]; rfl) 0
    (by rw [hlist]; exact List.mem_singleton_self 0)
  exact ⟨s₀,s,h₀,hr,hlist,hst,hkept.1⟩

/-- Task 1 is consumed behind task 0 when task 2 reads its output; the end of
the outer scope retires it under task 2. -/
def lateReader : List Op :=
  [.scopeBegin,.submitTask {} none [] [],.scopeBegin,.submitTask {} none [linquMakeOutput 1] [],
    .onTaskComplete 1,.scopeEnd,.submitTask {} none [linquMakeInput 1] [],.onTaskComplete 0,
    .scopeEnd]

theorem late_reader_loses_producer : ∃ s₀ s, init .dispatcher fourSlots = .ok s₀ ∧
    Run Steps lateReader s₀ s ∧ ReportsOnce s.trace ∧ s.taskRing.Live 2 ∧
    (s.get 2).status = .running ∧ s.faninList 2 = [1] ∧ 1 < s.taskRing.lastTaskAlive := by
  obtain ⟨s₀,s,h₀,hr,-,ht⟩ := run_of_check (b := .dispatcher) (c := fourSlots)
    (l := lateReader) (g := fun _ => true)
    (t := fun s => decide (ReportsOnce s.trace ∧
      s.taskRing.Live 2 ∧ (s.get 2).status = .running ∧
      s.faninList 2 = [1] ∧ 1 < s.taskRing.lastTaskAlive)) (by decide +kernel)
  exact ⟨s₀,s,h₀,hr,of_decide_eq_true ht⟩

end Linqu.Retention
