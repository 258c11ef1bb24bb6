import Linqu.OrchestratorDone

/-!
# The order of plain dispatches

`submit_task` hands a task to the dispatcher in the same call, whatever its
fanin counter says. A dispatch respects the dependency graph exactly when the
producers that the parameters of the task resolve to have all completed when
it is submitted; over a run, exactly when every submission is of that kind.
-/

set_option autoImplicit false

namespace Linqu.DispatchOrder
open Linqu.TaskRing Linqu.DepPool Linqu.TensorMap Linqu.Orchestrator
open Linqu.Orchestrator.LinquOrchestratorState Linqu.OrchestrationApi Linqu.Transition
open Linqu.OrchestratorRule Linqu.OrchestratorShape Linqu.OrchestratorCalls Linqu.OrchestratorDone

/-- The fanin list of the task of a call, as it was at the call. -/
def producers (call : DispatchCall) : List ℤ :=
  call.depPool.tasks (call.ring.get call.taskId).depListHead

def InOrder (call : DispatchCall) : Prop :=
  ∀ p ∈ producers call, (call.ring.get p).status.isDone = true

def IsPlainDispatch : Event → Prop
  | .dispatch call => call.origin = .plain
  | _ => False

/-- Every plain dispatch of the trace comes after its producers. -/
def Ordered (l : List Event) : Prop :=
  ∀ call, .dispatch call ∈ l → call.origin = .plain → InOrder call

theorem ordered_other {l l' : List Event} (h : ∀ e ∈ l, ¬ IsPlainDispatch e) :
    Ordered (l++l') ↔ Ordered l' := by
  constructor
  · exact fun ho call hc => ho call (List.mem_append_right l hc)
  · intro ho call hc hp
    rcases List.mem_append.mp hc with hc | hc
    · exact absurd hp (h _ hc)
    · exact ho call hc hp

theorem ordered_cons {l : List Event} {call : DispatchCall} (hp : call.origin = .plain) :
    Ordered (.dispatch call::l) ↔ Ordered l ∧ InOrder call := by
  constructor
  · exact fun ho => ⟨fun c hc => ho c (List.mem_cons_of_mem _ hc),ho call List.mem_cons_self hp⟩
  · rintro ⟨ho,hin⟩ c hc hcp
    rcases List.mem_cons.mp hc with hc | hc
    · cases hc
      exact hin
    · exact ho c hc hcp

/-- The later state has the same backend and no new plain dispatch. -/
structure Follows (s s' : State) : Prop where
  shape : Shape s → Shape s'
  backend : s'.backend = s.backend
  events : ∃ l, s'.trace = l++s.trace ∧ ∀ e ∈ l, ¬ IsPlainDispatch e

namespace Follows

variable {s s' s'' : State}

theorem refl (s : State) : Follows s s := ⟨id,rfl,[],rfl,by simp⟩

theorem trans (h : Follows s s') (h' : Follows s' s'') : Follows s s'' := by
  obtain ⟨l,hl,hn⟩ := h.events
  obtain ⟨l',hl',hn'⟩ := h'.events
  refine ⟨fun hs => h'.shape (h.shape hs),h'.backend.trans h.backend,l'++l,
    by rw [hl', hl, List.append_assoc],fun e he => ?_⟩
  rcases List.mem_append.mp he with he | he
  · exact hn' e he
  · exact hn e he

theorem of_eq (hs : Shape s → Shape s') (hb : s'.backend = s.backend)
    (ht : s'.trace = s.trace) : Follows s s' :=
  ⟨hs,hb,[],ht,by simp⟩

theorem of_frame (f : Frame s s') : Follows s s' := by
  obtain ⟨l,hl,hsub⟩ := f.events
  refine ⟨fun hs => hs.of_frame f,f.backend,l,hl,fun e he => ?_⟩
  obtain ⟨call,g,i,rfl,ho⟩ := hsub e he
  change call.origin ≠ .plain
  rw [ho]
  simp

theorem record {e : Event} (he : ¬ IsPlainDispatch e) (s : State) : Follows s (s.record e) :=
  ⟨fun hs => hs.of_eq rfl rfl rfl,rfl,[e],rfl,by simpa using he⟩

theorem ordered (h : Follows s s') : Ordered s'.trace ↔ Ordered s.trace := by
  obtain ⟨l,hl,hn⟩ := h.events
  rw [hl]
  exact ordered_other hn

end Follows

theorem follows_onTaskComplete {s s' : State} {t : ℤ} (h : s.onTaskComplete t = .ok s') :
    Follows s s' :=
  (Follows.record (e := .report t) id s).trans (.of_frame (frame_onTaskComplete h))

theorem frame_dispatchSubTask {fuel : ℕ} {g : ℤ} {k : Option String} {gp : List LinquParam}
    {n i : ℕ} {sub : LinquSubTaskSpec} {s s' : State}
    (h : s.dispatchSubTask (propagateCompletion fuel) g k gp n i sub = .ok s') : Frame s s' := by
  unfold dispatchSubTask at h
  dsimp only at h
  split at h
  · cases h
    exact (frame_assignSubId s g).trans (frame_record _ ⟨_,g,i,rfl,rfl⟩)
  · have hf := (frame_assignSubId s g).trans (frame_countSubTask (s.assignSubId g) g)
    split at h
    · exact (hf.trans (frame_setStatus _ g _)).trans (frame_propagate h)
    · cases h
      exact hf

theorem follows_dispatchFrom {fuel : ℕ} {g : ℤ} {k : Option String} {gp : List LinquParam}
    {n : ℕ} {arrivals : ℕ → List ℤ} (subs : List LinquSubTaskSpec) : ∀ (i : ℕ) (s s' : State),
      dispatchFrom (propagateCompletion fuel) (fun i s => s.deliver (arrivals i)) g k gp n i subs
        s = .ok s' → Follows s s' := by
  induction subs with
  | nil =>
    intro i s s' h
    cases h
    exact Follows.refl s
  | cons sub rest ih =>
    intro i s s' h
    rw [dispatchFrom] at h
    obtain ⟨m,hm,h⟩ := bind_ok.mp h
    obtain ⟨m',hm',h⟩ := bind_ok.mp h
    have h1 := Follows.of_frame (frame_dispatchSubTask hm)
    have h2 := foldlM_rule (P := fun _ u => Follows m u)
      (fun _ _ _ _ hu ht => hu.trans (follows_onTaskComplete ht)) _ (Follows.refl m) hm'
    exact (h1.trans h2).trans (ih (i+1) m' s' h)

theorem follows_entered {s s₁ : State} {tid : ℤ} {group : Option ℕ} {prods : List ℤ}
    (e : Entered s s₁ tid group prods) : Follows s s₁ :=
  ⟨fun _ => e.shape,e.backend,[_],e.trace,by simp [IsPlainDispatch]⟩

theorem follows_launchGroup {s s' : State} {tid : ℤ} {kernelSo : Option String}
    {params : List LinquParam} {subs : List LinquSubTaskSpec} {arrivals : List (List ℤ)}
    (h : s.launchGroup tid kernelSo params subs arrivals = .ok s') : Follows s s' := by
  unfold launchGroup at h
  split at h
  · exact .of_frame (frame_complete h)
  · split at h
    · exact (Follows.of_frame (frame_setStatus s tid .running)).trans
        (follows_dispatchFrom subs 0 _ s' h)
    · cases h
      exact (Follows.of_frame (frame_setStatus s tid .pending)).trans
        (.of_eq (fun hs => hs.of_eq rfl rfl rfl) rfl rfl)

theorem follows_closeScope {s s' : State} (h : s.closeScope = .ok s') : Follows s s' :=
  closeScope_rule (P := Follows s) (fun _ _ => .of_eq (fun hs => hs.of_eq rfl rfl rfl) rfl rfl)
    (fun u t hu => hu.trans (.of_frame (frame_raiseFanout u t)))
    (fun u t hu => hu.trans (.of_frame (frame_checkTaskConsumed u t))) h

/-- Apart from `submit_task` no call makes a plain dispatch. -/
theorem follows_calls (s₀ : State) :
    CallRule (fun s => Shape s ∧ Follows s₀ s) (fun _ group _ => group ≠ none) := by
  have step : ∀ s s', Shape s ∧ Follows s₀ s → Follows s s' → Shape s' ∧ Follows s₀ s' :=
    fun s s' h hf => ⟨hf.shape h.1,h.2.trans hf⟩
  refine ⟨fun _ h => h.1,fun s s' m h => ?_,fun s s' cursor r h => ?_,fun s t s' h hs => ?_,
    fun _ _ _ _ _ _ _ _ _ hc => absurd rfl hc,fun s s₁ s' _ _ _ _ _ _ h _ _ e hs => ?_,
    fun s s' h hs => ?_,fun s s' h hs => ?_,fun s t h => ?_⟩
  · exact step s s' h (.of_eq m.quiet.shape m.rest.backend m.rest.trace)
  · exact step s s' h (.of_eq r.shape r.rest.backend r.rest.trace)
  · exact step s s' h (follows_onTaskComplete hs)
  · exact step s s' h ((follows_entered e).trans (follows_launchGroup hs))
  · obtain ⟨st,-,hs⟩ := bind_ok.mp hs
    cases hs
    exact step s _ h (.of_eq (fun hs => hs.of_eq rfl rfl rfl) rfl rfl)
  · exact step s s' h (follows_closeScope hs)
  · exact step s _ h (.of_frame (frame_checkTaskConsumed s t))

/-- A plain submission whose parameters resolve to completed tasks only. A
task that reads what it writes itself resolves to its own id. -/
def ReadsFinished (s : State) (group : Option ℕ) (params : List LinquParam) : Prop :=
  group = none → ∀ found,
    producersOf s.taskRing.currentIndex s.tensorMap params = some found →
    ∀ p ∈ found, p ≠ s.taskRing.currentIndex ∧ (s.get p).status.isDone = true

/-- The dispatch of `submit_task` is in order exactly when the producers it
found had completed. -/
theorem inOrder_launch {s s₁ : State} {tid : ℤ} {found : List ℤ}
    (e : Entered s s₁ tid none found.reverse) {call : DispatchCall} (hid : call.taskId = tid)
    (hring : call.ring = (s₁.setStatus tid .running).taskRing)
    (hpool : call.depPool = (s₁.setStatus tid .running).depPool) :
    InOrder call ↔ ∀ p ∈ found, p ≠ s.taskRing.currentIndex ∧ (s.get p).status.isDone = true := by
  have hprod : producers call = found.reverse := by
    rw [producers, hring, hpool, hid]
    change (s₁.setStatus tid .running).faninList tid = _
    rw [(frame_setStatus s₁ tid .running).faninList, e.fanin_new]
  rw [InOrder, hprod]
  simp only [List.mem_reverse]
  refine forall₂_congr fun p hp => ?_
  rw [hring, ← e.tid_eq]
  change ((s₁.setStatus tid .running).get p).status.isDone = true ↔ _
  rcases e.prods_live p (List.mem_reverse.mpr hp) with hl | rfl
  · rw [entered_field e LinquTaskDescriptor.status (fun _ _ _ _ => rfl) hl, iff_and_self]
    exact fun _ he => e.not_live (he ▸ hl)
  · rw [get_setStatus, if_pos rfl]
    simp [Status.isDone]

/-- A call keeps the order of the trace exactly under its condition. -/
theorem step_ordered {s s' : State} {op : Op} (h : Shape s) (hb : s.backend = .dispatcher)
    (hs : Steps s op s') : Shape s' ∧ s'.backend = .dispatcher ∧
      (Ordered s'.trace ↔ Ordered s.trace ∧ Admits ReadsFinished s op) := by
  have hrule := follows_calls s
  have hother : (Admits (fun _ group _ => group ≠ none) s op) →
      Admits ReadsFinished s op → Shape s' ∧ s'.backend = .dispatcher ∧
      (Ordered s'.trace ↔ Ordered s.trace ∧ Admits ReadsFinished s op) := by
    intro hadm htriv
    obtain ⟨hsh,hf⟩ := exec_rule hrule ⟨h,Follows.refl s⟩ hadm hs
    exact ⟨hsh,hf.backend.trans hb,hf.ordered.trans (and_iff_left htriv).symm⟩
  cases op with
  | submitTask target kernelSo params arrivals =>
    obtain ⟨m,hm,hs⟩ := bind_ok.mp hs
    obtain ⟨⟨tid,s₁⟩,he,hs⟩ := bind_ok.mp hs
    obtain ⟨hsh,hf⟩ := waitForSpace_rule hrule ⟨h,Follows.refl s⟩ hm
    obtain ⟨found,hfound,e⟩ := enterTask_entered hsh he
    obtain ⟨call,hid,hor,hring,hpool,rfl⟩ :=
      launchTask_dispatcher ((e.backend.trans hf.backend).trans hb) hs
    have hadm : Admits ReadsFinished s (.submitTask target kernelSo params arrivals) ↔
        ∀ p ∈ found, p ≠ m.taskRing.currentIndex ∧ (m.get p).status.isDone = true := by
      constructor
      · exact fun ha => ha m hm rfl found hfound
      · intro hp m' hm' _ found' hfound'
        cases hm.symm.trans hm'
        cases hfound.symm.trans hfound'
        exact hp
    refine ⟨(e.shape.of_frame (frame_setStatus _ _ _)).of_eq rfl rfl rfl,
      (e.backend.trans hf.backend).trans hb,?_⟩
    change Ordered (.dispatch call::s₁.trace) ↔ _
    rw [ordered_cons hor, (follows_entered e).ordered, hf.ordered, hadm,
      inOrder_launch e hid hring hpool]
  | submitTaskGroup kernelSo params subs arrivals dispatchArrivals =>
    exact hother (fun _ _ => by simp) (fun _ _ hg => by cases hg)
  | _ => exact hother trivial trivial

/-- Over every run with a dispatcher: all plain dispatches come after the
producers of their tasks exactly when every submission of a plain task finds
its producers completed. -/
theorem dispatch_in_order_iff {cfg : LinquOrchConfigInternal} {s₀ s : State} {ops : List Op}
    (hinit : init .dispatcher cfg = .ok s₀) (hrun : Run Steps ops s₀ s) :
    Ordered s.trace ↔ Guarded Steps (Admits ReadsFinished) ops s₀ := by
  have hgen : ∀ (ops : List Op) (u : State), Shape u → u.backend = .dispatcher →
      Run Steps ops u s → (Ordered s.trace ↔
        Ordered u.trace ∧ Guarded Steps (Admits ReadsFinished) ops u) := by
    intro ops
    induction ops with
    | nil =>
      intro u _ _ hr
      cases hr
      exact (and_iff_left trivial).symm
    | cons op ops ih =>
      intro u hu hb hr
      obtain ⟨m,hm,hr⟩ := hr
      obtain ⟨hsh,hmb,hiff⟩ := step_ordered hu hb hm
      rw [ih m hsh hmb hr, hiff, and_assoc, Guarded]
      refine and_congr_right fun _ => and_congr_right fun _ => ⟨fun hg m' hm' => ?_,fun hg =>
        hg m hm⟩
      cases hm.symm.trans hm'
      exact hg
  obtain ⟨hb,htr,-,-,-,-,-⟩ := init_rest hinit
  rw [hgen ops s₀ (init_shape hinit) hb hrun, htr]
  exact and_iff_right fun call hc => (by cases hc)

instance (s : State) (group : Option ℕ) (params : List LinquParam) :
    Decidable (ReadsFinished s group params) :=
  match h : producersOf s.taskRing.currentIndex s.tensorMap params with
  | none => .isTrue (by simp [ReadsFinished, h])
  | some found => decidable_of_iff (group = none → ∀ p ∈ found,
      p ≠ s.taskRing.currentIndex ∧ (s.get p).status.isDone = true) (by simp [ReadsFinished, h])

/-- A consumer submitted after its producer was reported. -/
def reportedFirst : List Op :=
  [.submitTask {} none [linquMakeOutput 1] [],.onTaskComplete 0,
    .submitTask {} none [linquMakeInput 1] []]

theorem dispatch_in_order_reported : ∃ s₀ s, init .dispatcher {} = .ok s₀ ∧
    Run Steps reportedFirst s₀ s ∧ Ordered s.trace := by
  obtain ⟨s₀,s,h₀,hr,hs,-⟩ := run_of_check (b := .dispatcher) (c := {})
    (l := reportedFirst) (t := fun _ => true)
    (g := checkGuarded (fun s group params => decide (ReadsFinished s group params))
      reportedFirst) (by decide +kernel)
  have hg : Guarded Steps (Admits ReadsFinished) reportedFirst s₀ :=
    guarded_of_check (fun _ _ _ h => of_decide_eq_true h) reportedFirst s₀ hs
  exact ⟨s₀,s,h₀,hr,(dispatch_in_order_iff h₀ hr).mpr hg⟩

/-- A group with one sub-task writes a tensor that a plain task reads. -/
def readsGroup : List Op :=
  [.submitTaskGroup none [linquMakeOutput 1] [⟨{},none,[]⟩] [] [],
    .submitTask {} none [linquMakeInput 1] []]

def isEarly : Event → Bool
  | .dispatch call => call.origin == .plain &&
      (producers call).any (fun p => !(call.ring.get p).status.isDone)
  | _ => false

/-- The reader is handed to the dispatcher while the sub-task is still out. -/
theorem group_reader_dispatched_early : ∃ s₀ s, init .dispatcher {} = .ok s₀ ∧
    Run Steps readsGroup s₀ s ∧ ¬ Ordered s.trace := by
  obtain ⟨s₀,s,h₀,hr,-,ht⟩ := run_of_check (b := .dispatcher) (c := {})
    (l := readsGroup) (g := fun _ => true) (t := fun s => s.trace.any isEarly)
    (by decide +kernel)
  refine ⟨s₀,s,h₀,hr,fun ho => ?_⟩
  obtain ⟨e,he,hearly⟩ := List.any_eq_true.mp ht
  cases e with
  | dispatch call =>
    obtain ⟨hor,hany⟩ := Bool.and_eq_true_iff.mp hearly
    obtain ⟨p,hp,hn⟩ := List.any_eq_true.mp hany
    rw [ho call he (by simpa using hor) p hp] at hn
    cases hn
  | submit t b => cases hearly
  | dispatchFn call => cases hearly
  | report t => cases hearly

end Linqu.DispatchOrder
