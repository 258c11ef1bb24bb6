import Linqu.OrchestratorDone

/-!
# Reports

The discipline of the completions: an id is reported only after it was handed
to the dispatcher, and at most once. It is read off the trace. `Settles`
collects the updates that leave the trace and the group tables alone and move
no status but from COMPLETED to CONSUMED.
-/

set_option autoImplicit false

namespace Linqu.Reports
open Linqu.TaskRing Linqu.DepPool Linqu.TensorMap Linqu.ScopeStack Linqu.Orchestrator
open Linqu.Orchestrator.LinquOrchestratorState Linqu.OrchestrationApi Linqu.Transition
open Linqu.OrchestratorRule Linqu.OrchestratorShape Linqu.OrchestratorCalls Linqu.OrchestratorDone

def Dispatched (l : List Event) (t : ℤ) : Prop := ∃ call, .dispatch call ∈ l ∧ call.taskId = t

/-- Dispatched and not reported yet. -/
def Outstanding (l : List Event) (t : ℤ) : Prop := Dispatched l t ∧ .report t ∉ l

/-- Every report in the trace, newest first, was outstanding. -/
def ReportsOnce : List Event → Prop
  | [] => True
  | .report t::older => Outstanding older t ∧ ReportsOnce older
  | _::older => ReportsOnce older

def dispatchedIds (l : List Event) : List ℤ :=
  l.filterMap fun
    | .dispatch call => some call.taskId
    | _ => none

def reportedIds (l : List Event) : List ℤ :=
  l.filterMap fun
    | .report t => some t
    | _ => none

theorem mem_dispatchedIds {l : List Event} {t : ℤ} : t ∈ dispatchedIds l ↔ Dispatched l t := by
  simp only [dispatchedIds, List.mem_filterMap]
  constructor
  · rintro ⟨e,he,ht⟩
    cases e with
    | dispatch call => exact ⟨call,he,by simpa using ht⟩
    | submit u b => cases ht
    | dispatchFn call => cases ht
    | report u => cases ht
  · rintro ⟨call,hc,rfl⟩
    exact ⟨_,hc,rfl⟩

theorem mem_reportedIds {l : List Event} {t : ℤ} : t ∈ reportedIds l ↔ .report t ∈ l := by
  simp only [reportedIds, List.mem_filterMap]
  constructor
  · rintro ⟨e,he,ht⟩
    cases e with
    | report u => cases ht; exact he
    | submit u b => cases ht
    | dispatch call => cases ht
    | dispatchFn call => cases ht
  · exact fun h => ⟨_,h,rfl⟩

theorem outstanding_iff {l : List Event} {t : ℤ} :
    Outstanding l t ↔ t ∈ dispatchedIds l ∧ t ∉ reportedIds l := by
  rw [Outstanding, mem_dispatchedIds, mem_reportedIds]

instance (l : List Event) (t : ℤ) : Decidable (Outstanding l t) :=
  decidable_of_iff _ outstanding_iff.symm

instance decidableReportsOnce : (l : List Event) → Decidable (ReportsOnce l)
  | [] => .isTrue trivial
  | .report t::l =>
    haveI := decidableReportsOnce l
    inferInstanceAs (Decidable (Outstanding l t ∧ ReportsOnce l))
  | .submit _ _::l => decidableReportsOnce l
  | .dispatch _::l => decidableReportsOnce l
  | .dispatchFn _::l => decidableReportsOnce l

theorem reportsOnce_tail {e : Event} {l : List Event} (h : ReportsOnce (e::l)) :
    ReportsOnce l := by
  cases e with
  | report t => exact h.2
  | submit t b => exact h
  | dispatch call => exact h
  | dispatchFn call => exact h

theorem reportsOnce_suffix {l l' : List Event} (h : ReportsOnce l') (hs : l <:+ l') :
    ReportsOnce l := by
  obtain ⟨p,rfl⟩ := hs
  induction p with
  | nil => exact h
  | cons e p ih => exact ih (reportsOnce_tail h)

theorem outstanding_report {l : List Event} {t u : ℤ} :
    Outstanding (.report t::l) u ↔ Outstanding l u ∧ u ≠ t := by
  simp only [Outstanding, Dispatched, List.mem_cons, reduceCtorEq, false_or, Event.report.injEq,
    not_or]
  tauto

theorem outstanding_dispatch {l : List Event} {call : DispatchCall} {u : ℤ} :
    Outstanding (.dispatch call::l) u ↔
      Outstanding l u ∨ call.taskId = u ∧ .report u ∉ l := by
  simp only [Outstanding, Dispatched, List.mem_cons, reduceCtorEq, false_or,
    Event.dispatch.injEq]
  constructor
  · rintro ⟨⟨c,rfl | hc,rfl⟩,hn⟩
    · exact Or.inr ⟨rfl,hn⟩
    · exact Or.inl ⟨⟨c,hc,rfl⟩,hn⟩
  · rintro (⟨⟨c,hc,rfl⟩,hn⟩ | ⟨rfl,hn⟩)
    · exact ⟨⟨c,Or.inr hc,rfl⟩,hn⟩
    · exact ⟨⟨call,Or.inl rfl,rfl⟩,hn⟩

theorem outstanding_other {l : List Event} {e : Event} {u : ℤ} (hd : ∀ c, e ≠ .dispatch c)
    (hr : ∀ t, e ≠ .report t) : Outstanding (e::l) u ↔ Outstanding l u := by
  have hd' : ∀ c, Event.dispatch c ≠ e := fun c h => hd c h.symm
  have hr' : ∀ t, Event.report t ≠ e := fun c h => hr c h.symm
  simp only [Outstanding, Dispatched, List.mem_cons, hd', hr', false_or]

theorem reported_dispatched {l : List Event} (h : ReportsOnce l) {t : ℤ} (ht : .report t ∈ l) :
    Dispatched l t := by
  induction l with
  | nil => cases ht
  | cons e l ih =>
    have hmono : Dispatched l t → Dispatched (e::l) t := fun ⟨c,hc,he⟩ =>
      ⟨c,List.mem_cons_of_mem e hc,he⟩
    rcases List.mem_cons.mp ht with rfl | ht
    · exact hmono h.1.1
    · exact hmono (ih (reportsOnce_tail h) ht)

/-- The only move a status makes here. -/
def Settled (a b : Status) : Prop := b = a ∨ a = .completed ∧ b = .consumed

theorem Settled.trans {a b c : Status} (h : Settled a b) (h' : Settled b c) : Settled a c := by
  rcases h with rfl | ⟨rfl,rfl⟩
  · exact h'
  · rcases h' with rfl | ⟨h,-⟩
    · exact Or.inr ⟨rfl,rfl⟩
    · cases h

theorem Settled.running {a b : Status} (h : Settled a b) : b = .running ↔ a = .running := by
  rcases h with rfl | ⟨rfl,rfl⟩ <;> simp

theorem Settled.isDone {a b : Status} (h : Settled a b) : b.isDone = a.isDone := by
  rcases h with rfl | ⟨rfl,rfl⟩ <;> rfl

/-- Steps that only settle statuses and move fanin and fanout counters. -/
structure Settles (s v : State) : Prop where
  shape : Shape s → Shape v
  window : v.taskRing.windowSize = s.taskRing.windowSize
  current : v.taskRing.currentIndex = s.taskRing.currentIndex
  alive : v.taskRing.lastTaskAlive = s.taskRing.lastTaskAlive
  depPool : v.depPool = s.depPool
  backend : v.backend = s.backend
  trace : v.trace = s.trace
  subs : v.subDispatchToGroup = s.subDispatchToGroup
  nextSub : v.nextSubDispatchId = s.nextSubDispatchId
  specs : v.pendingGroupSpecs = s.pendingGroupSpecs
  desc : ∀ t, fixed (v.get t) = fixed (s.get t) ∧
    (v.get t).subCompleteCount = (s.get t).subCompleteCount
  status : ∀ t, Settled (s.get t).status (v.get t).status

namespace Settles

variable {s v w : State}

theorem refl (s : State) : Settles s s :=
  ⟨id,rfl,rfl,rfl,rfl,rfl,rfl,rfl,rfl,rfl,fun _ => ⟨rfl,rfl⟩,fun _ => Or.inl rfl⟩

theorem trans (h : Settles s v) (h' : Settles v w) : Settles s w :=
  ⟨fun hs => h'.shape (h.shape hs),h'.window.trans h.window,h'.current.trans h.current,
    h'.alive.trans h.alive,h'.depPool.trans h.depPool,h'.backend.trans h.backend,
    h'.trace.trans h.trace,h'.subs.trans h.subs,h'.nextSub.trans h.nextSub,
    h'.specs.trans h.specs,
    fun t => ⟨(h'.desc t).1.trans (h.desc t).1,(h'.desc t).2.trans (h.desc t).2⟩,
    fun t => (h.status t).trans (h'.status t)⟩

theorem live (h : Settles s v) {t : ℤ} : v.taskRing.Live t ↔ s.taskRing.Live t := by
  simp only [LinquTaskRing.Live, h.current, h.alive]

theorem isGroup (h : Settles s v) (t : ℤ) : (v.get t).isGroup = (s.get t).isGroup :=
  (congrArg LinquTaskDescriptor.isGroup (h.desc t).1 :)

theorem groupSize (h : Settles s v) (t : ℤ) : (v.get t).groupSize = (s.get t).groupSize :=
  (congrArg LinquTaskDescriptor.groupSize (h.desc t).1 :)

theorem faninList (h : Settles s v) (t : ℤ) : v.faninList t = s.faninList t := by
  have hh : (v.get t).depListHead = (s.get t).depListHead :=
    (congrArg LinquTaskDescriptor.depListHead (h.desc t).1 :)
  simp only [LinquOrchestratorState.faninList, h.depPool, hh]

theorem finished (h : Settles s v) : finished v = finished s :=
  finished_congr h.alive fun t => (h.status t).isDone

/-- An update of the descriptors inside a frame. -/
theorem of_modify (s : State) (i : ℤ) {f : LinquTaskDescriptor → LinquTaskDescriptor}
    (hf : ∀ d, fixed (f d) = fixed d) (hc : ∀ d, (f d).subCompleteCount = d.subCompleteCount)
    (hst : ∀ d, (f d).status = d.status) : Settles s (s.modify i f) := by
  have fr := frame_modify s i f hf
  exact ⟨fun hs => hs.of_frame fr,rfl,rfl,rfl,rfl,rfl,rfl,rfl,rfl,rfl,fun t => ⟨fr.fixed t,
    get_modify_field LinquTaskDescriptor.subCompleteCount t hc⟩,
    fun t => Or.inl (get_modify_field LinquTaskDescriptor.status t hst)⟩

/-- Everything that is looked at is as it was. -/
theorem of_eq (hr : v.taskRing = s.taskRing) (hm : v.tensorMap = s.tensorMap)
    (hp : v.depPool = s.depPool) (hb : v.backend = s.backend) (ht : v.trace = s.trace)
    (hs : v.subDispatchToGroup = s.subDispatchToGroup)
    (hn : v.nextSubDispatchId = s.nextSubDispatchId)
    (hg : v.pendingGroupSpecs = s.pendingGroupSpecs) : Settles s v := by
  have hget : ∀ t, v.get t = s.get t := fun t => by
    rw [LinquOrchestratorState.get, LinquOrchestratorState.get, hr]
  exact ⟨fun h => h.of_eq hr hm hp,by rw [hr],by rw [hr],by rw [hr],hp,hb,ht,hs,hn,hg,
    fun t => by rw [hget]; exact ⟨rfl,rfl⟩,fun t => Or.inl (by rw [hget])⟩

end Settles

theorem settles_check (s : State) (t : ℤ) : Settles s (s.checkTaskConsumed t) := by
  have hget := get_checkTaskConsumed s t
  unfold checkTaskConsumed at hget ⊢
  split at hget
  · rename_i hfull
    rw [if_pos hfull]
    have f := frame_setStatus s t .consumed
    refine ⟨fun hs => hs.of_frame f,rfl,rfl,rfl,rfl,rfl,rfl,rfl,rfl,rfl,fun u => ⟨f.fixed u,
      setStatus_field LinquTaskDescriptor.subCompleteCount (fun _ _ => rfl) s t u _⟩,fun u => ?_⟩
    rw [hget]
    split
    · rename_i h
      exact Or.inr ⟨h.2.1,rfl⟩
    · exact Or.inl rfl
  · rename_i hfull
    rw [if_neg hfull]
    exact Settles.refl s

theorem settles_raise (s : State) (t : ℤ) : Settles s (s.raiseFanout t) :=
  .of_modify s t (fun _ => rfl) (fun _ => rfl) fun _ => rfl

theorem settles_release (s : State) (t : ℤ) : Settles s (s.releaseProducer t) :=
  (settles_raise s t).trans (settles_check _ t)

theorem settles_notify (s : State) (t : ℤ) : Settles s (s.notifyConsumer t) :=
  .of_modify s t (fun _ => rfl) (fun _ => rfl) fun _ => rfl

theorem settles_metrics {s v : State} (m : Metrics s v) : Settles s v :=
  .of_eq m.taskRing m.tensorMap m.rest.depPool m.rest.backend m.rest.trace
    m.rest.subDispatchToGroup m.rest.nextSubDispatchId m.rest.pendingGroupSpecs

theorem settles_scopeBegin {s s' : State} (h : s.scopeBegin = .ok s') : Settles s s' := by
  obtain ⟨st,-,h⟩ := bind_ok.mp h
  cases h
  exact .of_eq rfl rfl rfl rfl rfl rfl rfl rfl

theorem settles_closeScope {s s' : State} (h : s.closeScope = .ok s') : Settles s s' :=
  closeScope_rule (P := Settles s) (fun _ _ => .of_eq rfl rfl rfl rfl rfl rfl rfl rfl)
    (fun u t hu => hu.trans (settles_raise u t)) (fun u t hu => hu.trans (settles_check u t)) h

/-- Every live task is at work or finished. -/
def Busy (s : State) : Prop :=
  ∀ t, s.taskRing.Live t → (s.get t).status = .running ∨ (s.get t).status.isDone = true

def Running (s : State) (t : ℤ) : Prop := s.taskRing.Live t ∧ (s.get t).status = .running

theorem Busy.not_pending {s : State} (h : Busy s) {t : ℤ} (ht : s.taskRing.Live t) :
    (s.get t).status ≠ .pending := by
  intro hp
  rcases h t ht with hr | hr <;> rw [hp] at hr <;> cases hr

theorem Settles.busy {s v : State} (h : Settles s v) (hb : Busy s) : Busy v := by
  intro t ht
  rw [(h.status t).running, (h.status t).isDone]
  exact hb t (h.live.mp ht)

theorem Settles.running {s v : State} (h : Settles s v) (t : ℤ) : Running v t ↔ Running s t := by
  rw [Running, Running, h.live, (h.status t).running]

end Linqu.Reports
