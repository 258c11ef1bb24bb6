import Linqu.Noninterference
import Linqu.RingsInStep

/-!
# Two runtimes on one thread

The functions of the ops table find their state with `hidden_state(rt)`. That
does not look at `rt`: it returns the one pointer the thread has, which `init`
leaves at the state it initialises. A call made through either of two runtime
pointers therefore lands on the state initialised last.

Completions come from the dispatcher of a state and carry no runtime pointer.
What `wait_all` waits for are such completions; it writes nothing itself.
-/

set_option autoImplicit false

namespace Linqu.Runtimes
open Linqu.TaskRing Linqu.HeapRing Linqu.TensorMap Linqu.ScopeStack Linqu.Orchestrator
open Linqu.Orchestrator.LinquOrchestratorState Linqu.OrchestrationApi Linqu.Transition
open Linqu.OrchestratorRule Linqu.OrchestratorCalls Linqu.HeapBlocks Linqu.RingsInStep
open Linqu.Noninterference

structure RingSnapshot where
  level : UInt8 := 0
  depth : ℕ := 0
  label : String
  timestampUs : UInt64 := 0
  taskCapacity : ℕ := 0
  taskUsed : ℕ := 0
  taskHead : ℕ := 0
  taskTail : ℕ := 0
  bufferCapacity : ℕ := 0
  bufferUsed : ℕ := 0
  bufferHead : ℕ := 0
  bufferTail : ℕ := 0
  allocCount : ℕ := 0
  retireCount : ℕ := 0
  freeCount : ℕ := 0
  deriving DecidableEq, Repr

/-- An orchestrator state with its level and the snapshots taken of it. -/
structure Object where
  level : UInt8
  state : State
  snapshots : List RingSnapshot := []

/-- The entries of the ops table that act on the state. The completions that
arrive during a call and the time it reads are listed with it. -/
inductive OpsCall where
  | submitTask (target : LinquCoordinate) (kernelSo : Option String) (params : List LinquParam)
      (arrivals : List (List ℤ))
  | submitTaskGroup (kernelSo : Option String) (groupParams : List LinquParam)
      (subTasks : List LinquSubTaskSpec) (arrivals dispatchArrivals : List (List ℤ))
  | scopeBegin
  | scopeEnd
  | allocTensor (target : LinquCoordinate) (size : ℕ) (arrivals : List (List ℤ))
  | freeTensor (handle : UInt64)
  | orchestrationDone
  | waitAll
  | dumpRingSnapshot (label : Option String) (nowUs : UInt64)
  deriving DecidableEq, Repr

namespace Object

def init (level : UInt8) (backend : Backend) (cfg : LinquOrchConfigInternal) :
    Except Fault Object := do
  let state ← LinquOrchestratorState.init backend cfg
  return { level, state }

def takeSnapshot (x : Object) (label : String) (nowUs : UInt64) : Object :=
  let s := x.state
  let snap : RingSnapshot :=
    { level := x.level, depth := s.scopeStack.depth.toNat, label, timestampUs := nowUs,
      taskCapacity := s.taskRing.windowSize.toNat, taskUsed := s.taskRing.activeCount.toNat,
      taskHead := s.taskRing.lastTaskAlive.toNat, taskTail := s.taskRing.currentIndex.toNat,
      bufferCapacity := s.heapRing.capacity, bufferUsed := s.heapRing.used,
      bufferHead := s.heapRing.tail, bufferTail := s.heapRing.top,
      allocCount := s.tasksSubmitted, retireCount := s.taskRetireCount,
      freeCount := s.freeTensorCount }
  { x with snapshots := x.snapshots++[snap] }

def member (x : Object) (op : Op) : Except Fault Object := do
  let state ← Orchestrator.exec x.state op
  return { x with state }

def exec (x : Object) : OpsCall → Except Fault Object
  | .submitTask target kernelSo params arrivals =>
      x.member (.submitTask target kernelSo params arrivals)
  | .submitTaskGroup kernelSo groupParams subTasks arrivals dispatchArrivals =>
      x.member (.submitTaskGroup kernelSo groupParams subTasks arrivals dispatchArrivals)
  | .scopeBegin => x.member .scopeBegin
  | .scopeEnd => x.member .scopeEnd
  | .allocTensor _ size arrivals => x.member (.allocTensor size arrivals)
  | .freeTensor handle => x.member (.freeTensor handle)
  | .orchestrationDone => x.member .orchestrationDone
  | .waitAll => .ok x
  | .dumpRingSnapshot label nowUs => .ok (x.takeSnapshot (label.getD "snapshot") nowUs)

end Object

/-- The runtime pointers of the two objects. -/
inductive LinquRuntime where
  | first
  | second
  deriving DecidableEq, Repr

/-- The objects initialised so far, and the `thread_local` pointer. -/
structure Thread where
  object : LinquRuntime → Option Object := fun _ => none
  hidden : Option LinquRuntime := none

inductive Event where
  | init (rt : LinquRuntime) (level : UInt8) (backend : Backend) (cfg : LinquOrchConfigInternal)
  | call (rt : LinquRuntime) (op : OpsCall)
  | onTaskComplete (rt : LinquRuntime) (taskId : ℤ)

namespace Thread

def hiddenState (th : Thread) (_rt : LinquRuntime) : Option LinquRuntime := th.hidden

def set (th : Thread) (q : LinquRuntime) (x : Object) : Thread :=
  { th with object := Function.update th.object q (some x) }

/-- Each object is initialised once. A call before that goes to a null pointer. -/
def step (th : Thread) : Event → Option Thread
  | .init rt level backend cfg =>
    match th.object rt with
    | some _ => none
    | none => do
      let x ← (Object.init level backend cfg).toOption
      return { th.set rt x with hidden := some rt }
  | .call rt op => do
    let q ← th.hiddenState rt
    let x ← th.object q
    let x ← (x.exec op).toOption
    return th.set q x
  | .onTaskComplete rt taskId => do
    let x ← th.object rt
    let x ← (x.member (.onTaskComplete taskId)).toOption
    return th.set rt x

end Thread

def Steps (th : Thread) (e : Event) (th' : Thread) : Prop := th.step e = some th'

/-- What is left when the calls through the other pointer, and the completions
of the other object, are taken out. -/
def concerns (rt : LinquRuntime) : Event → Bool
  | .init _ _ _ _ => true
  | .call q _ => decide (q = rt)
  | .onTaskComplete q _ => decide (q = rt)

/-- After every part of the run, each object is as it would be without the
calls through the other pointer. -/
def Separate (events : List Event) : Prop :=
  ∀ rt, Removable Steps (concerns rt) (fun th => th.object rt) events {}

/-- The calls that leave a state as it is. -/
def Idle (x : Object) : OpsCall → Prop
  | .waitAll => True
  | .orchestrationDone => x.state.done = true
  | _ => False

/-- A call that returns goes through the pointer of the object initialised
last, or leaves that object as it is. -/
def Contained (th : Thread) : Event → Prop
  | .call rt op => ∀ q x x', th.hidden = some q → th.object q = some x → x.exec op = .ok x' →
      rt = q ∨ Idle x op
  | _ => True

/-! What a call does to the state it lands on. -/

section Objects

variable {x x' : Object} {s s' : State}

theorem member_ok {op : Op} : x.member op = .ok x' ↔
    ∃ s, Orchestrator.exec x.state op = .ok s ∧ { x with state := s } = x' := by
  constructor
  · intro h
    obtain ⟨s,hs,h⟩ := bind_ok.mp h
    cases h
    exact ⟨s,hs,rfl⟩
  · rintro ⟨s,hs,rfl⟩
    exact bind_ok.mpr ⟨s,hs,rfl⟩

theorem advance_counts (s : State) : s.tryAdvanceRingPointers.tasksSubmitted = s.tasksSubmitted ∧
    s.tryAdvanceRingPointers.heapRing.top = s.heapRing.top ∧
    s.tryAdvanceRingPointers.scopeEndCount = s.scopeEndCount := by
  unfold tryAdvanceRingPointers
  dsimp only
  split
  · split <;> simp [LinquHeapRing.retireTo]
  · simp

/-- What the two waits leave alone. -/
def Waits (s u : State) : Prop :=
  u.tasksSubmitted = s.tasksSubmitted ∧ u.heapRing.top = s.heapRing.top

theorem Waits.advance {u : State} (h : Waits s u) : Waits s u.tryAdvanceRingPointers := by
  obtain ⟨h1,h2,-⟩ := advance_counts u
  exact ⟨h1.trans h.1,h2.trans h.2⟩

theorem Waits.report {u u' : State} {t : ℤ} (h : Waits s u) (ht : u.onTaskComplete t = .ok u') :
    Waits s u' := by
  have hstill := still_onTaskComplete ht
  constructor
  · exact hstill.submitted.trans h.1
  · rw [hstill.heapRing]
    exact h.2

theorem waitForSpace_submitted {arrivals : List (List ℤ)} (h : s.waitForSpace arrivals = .ok s') :
    s'.tasksSubmitted = s.tasksSubmitted :=
  (waitForSpace_keeps (J := Waits s) (fun _ hu => hu.advance) (fun _ _ _ hu ht => hu.report ht)
    (fun _ _ hu => hu) ⟨rfl,rfl⟩ h).1

theorem submitTask_submitted {target : LinquCoordinate} {kernelSo : Option String}
    {params : List LinquParam} {arrivals : List (List ℤ)}
    (h : s.submitTask target kernelSo params arrivals = .ok s') :
    s'.tasksSubmitted = s.tasksSubmitted+1 := by
  obtain ⟨m,hm,h⟩ := bind_ok.mp h
  obtain ⟨⟨tid,e⟩,he,h⟩ := bind_ok.mp h
  rw [(still_launchTask h).submitted, (enterTask_extended he).submitted, waitForSpace_submitted hm]

theorem submitTaskGroup_submitted {kernelSo : Option String} {params : List LinquParam}
    {subs : List LinquSubTaskSpec} {arrivals dispatchArrivals : List (List ℤ)}
    (h : s.submitTaskGroup kernelSo params subs arrivals dispatchArrivals = .ok s') :
    s'.tasksSubmitted = s.tasksSubmitted+1 := by
  obtain ⟨m,hm,h⟩ := bind_ok.mp h
  obtain ⟨⟨tid,e⟩,he,h⟩ := bind_ok.mp h
  rw [(still_launchGroup h).submitted, (enterTask_extended he).submitted, waitForSpace_submitted hm]

theorem scopeBegin_counted (h : s.scopeBegin = .ok s') :
    s'.scopeBeginCount = s.scopeBeginCount+1 := by
  obtain ⟨st,-,h⟩ := bind_ok.mp h
  cases h
  rfl

theorem scopeEnd_counted (h : s.scopeEnd = .ok s') : s'.scopeEndCount = s.scopeEndCount+1 := by
  obtain ⟨m,hm,h⟩ := bind_ok.mp h
  obtain ⟨⟨ids,u⟩,hu,hm⟩ := bind_ok.mp hm
  obtain ⟨⟨ids',st⟩,-,hu⟩ := bind_ok.mp hu
  cases hu
  cases hm
  cases h
  rw [(advance_counts _).2.2]
  let P : List ℤ → State → Prop := fun _ v => v.scopeEndCount = s.scopeEndCount+1
  have hcheck : ∀ t l v, P (t::l) v → P l (v.checkTaskConsumed t) := by
    intro t l v hv
    unfold checkTaskConsumed
    split <;> exact hv
  have hrelease : ∀ t l v, P (t::l) v → P l (v.releaseScopeToken t) := by
    intro t l v hv
    unfold releaseScopeToken
    split <;> exact hv
  exact foldl_rule hcheck _ (foldl_rule hrelease ids rfl)

/-- An allocation gives out a handle, and a block unless it is empty. -/
theorem allocTensor_moves {size : ℕ} {arrivals : List (List ℤ)} {handle : UInt64}
    (h : s.allocTensor size arrivals = .ok (handle,s')) :
    s'.nextTensorHandle = s.nextTensorHandle+1 ∨ s.heapRing.top < s'.heapRing.top := by
  unfold allocTensor at h
  dsimp only at h
  split at h
  · cases h
    exact Or.inl rfl
  · right
    obtain ⟨m,hm,h⟩ := bind_ok.mp h
    have h0 : Waits s { s with nextTensorHandle := s.nextTensorHandle+1 } := ⟨rfl,rfl⟩
    obtain ⟨u,pos,r,hu,hr,rfl⟩ := waitForHeap_keeps (fun _ hu => hu.advance)
      (fun _ _ _ hu ht => hu.report ht) (fun _ _ hu => hu) h0 hm
    cases h
    show s.heapRing.top < r.top
    rw [← hu.2]
    exact tryAlloc_top hr

theorem counted_ne (F : State → ℕ) (h : F s = F x.state+1) : { x with state := s } ≠ x := by
  intro hx
  have hs : s = x.state := congrArg Object.state hx
  rw [hs] at h
  omega

/-- A call leaves its object as it is exactly when it is one of the idle ones. -/
theorem exec_same {op : OpsCall} (h : x.exec op = .ok x') : x' = x ↔ Idle x op := by
  cases op with
  | submitTask target kernelSo params arrivals =>
    obtain ⟨s,hs,rfl⟩ := member_ok.mp h
    exact iff_of_false (counted_ne tasksSubmitted (submitTask_submitted hs)) id
  | submitTaskGroup kernelSo params subs arrivals dispatchArrivals =>
    obtain ⟨s,hs,rfl⟩ := member_ok.mp h
    exact iff_of_false (counted_ne tasksSubmitted (submitTaskGroup_submitted hs)) id
  | scopeBegin =>
    obtain ⟨s,hs,rfl⟩ := member_ok.mp h
    exact iff_of_false (counted_ne scopeBeginCount (scopeBegin_counted hs)) id
  | scopeEnd =>
    obtain ⟨s,hs,rfl⟩ := member_ok.mp h
    exact iff_of_false (counted_ne scopeEndCount (scopeEnd_counted hs)) id
  | allocTensor target size arrivals =>
    obtain ⟨s,hs,rfl⟩ := member_ok.mp h
    simp only [Idle, iff_false]
    intro hx
    obtain ⟨⟨handle,u⟩,hu,rfl⟩ := map_ok.mp hs
    have hsame : u = x.state := congrArg Object.state hx
    rcases allocTensor_moves hu with hmoved | hmoved
    · rw [hsame] at hmoved
      simp at hmoved
    · rw [hsame] at hmoved
      exact lt_irrefl _ hmoved
  | freeTensor handle =>
    obtain ⟨s,hs,rfl⟩ := member_ok.mp h
    cases hs
    exact iff_of_false (counted_ne freeTensorCount rfl) id
  | orchestrationDone =>
    obtain ⟨s,hs,rfl⟩ := member_ok.mp h
    cases hs
    constructor
    · intro hx
      have hdone : true = x.state.done := congrArg (fun y => y.state.done) hx
      exact hdone.symm
    · intro hdone
      have hdone : x.state.done = true := hdone
      simp only [orchestrationDone, ← hdone]
  | waitAll =>
    cases h
    simp [Idle]
  | dumpRingSnapshot label nowUs =>
    cases h
    simp only [Idle, iff_false]
    intro hx
    have hlength := congrArg (fun y => y.snapshots.length) hx
    simp [Object.takeSnapshot] at hlength

end Objects

/-! What an event does to the thread. -/

section Events

variable {th th' : Thread} {rt r : LinquRuntime}

theorem set_same (th : Thread) (q : LinquRuntime) (x : Object) :
    (th.set q x).object q = some x := by
  simp [Thread.set]

theorem set_other (th : Thread) {q r : LinquRuntime} (x : Object) (h : r ≠ q) :
    (th.set q x).object r = th.object r := by
  simp [Thread.set, h]

theorem init_iff {level : UInt8} {backend : Backend} {cfg : LinquOrchConfigInternal} :
    Steps th (.init rt level backend cfg) th' ↔ th.object rt = none ∧
      ∃ x, Object.init level backend cfg = .ok x ∧ { th.set rt x with hidden := some rt } = th' := by
  cases h : th.object rt <;>
    simp [Steps, Thread.step, h, Option.bind_eq_some_iff, toOption_some]

theorem call_iff {op : OpsCall} : Steps th (.call rt op) th' ↔ ∃ q x x', th.hidden = some q ∧
    th.object q = some x ∧ x.exec op = .ok x' ∧ th.set q x' = th' := by
  simp [Steps, Thread.step, Thread.hiddenState, Option.bind_eq_some_iff, toOption_some]

theorem onTaskComplete_iff {t : ℤ} : Steps th (.onTaskComplete rt t) th' ↔ ∃ x x',
    th.object rt = some x ∧ x.member (.onTaskComplete t) = .ok x' ∧ th.set rt x' = th' := by
  simp [Steps, Thread.step, Option.bind_eq_some_iff, toOption_some]

/-- Only the object initialised last is touched by a call, whatever its pointer. -/
theorem call_other {op : OpsCall} (h : Steps th (.call rt op) th') (hr : th.hidden ≠ some r) :
    th'.object r = th.object r := by
  obtain ⟨q,x,x',hq,-,-,rfl⟩ := call_iff.mp h
  apply set_other
  intro hrq
  apply hr
  rw [hrq]
  exact hq

theorem steps_unique (th : Thread) (e : Event) (t t' : Thread) (h : Steps th e t)
    (h' : Steps th e t') : t = t' :=
  Option.some.inj (h.symm.trans h')

end Events

/-! The run with all events and the run with those that concern one object. -/

/-- The runs agree on the object and on what has been initialised. -/
structure Agree (rt : LinquRuntime) (th u : Thread) : Prop where
  hidden : u.hidden = th.hidden
  object : u.object rt = th.object rt
  isSome : ∀ q, (u.object q).isSome = (th.object q).isSome

section Agree

variable {th u : Thread} {rt q : LinquRuntime} {x y : Object}

theorem Agree.refl (rt : LinquRuntime) (th : Thread) : Agree rt th th := ⟨rfl,rfl,fun _ => rfl⟩

theorem Agree.of_hidden (h : Agree rt th u) (p : Option LinquRuntime) :
    Agree rt { th with hidden := p } { u with hidden := p } :=
  ⟨rfl,h.object,h.isSome⟩

theorem Agree.set_both (h : Agree rt th u) (hxy : q = rt → x = y) :
    Agree rt (th.set q x) (u.set q y) := by
  refine ⟨h.hidden,?_,fun r => ?_⟩
  · by_cases hq : rt = q
    · rw [hq, set_same, set_same, hxy hq.symm]
    · rw [set_other u y hq, set_other th x hq]
      exact h.object
  · by_cases hr : r = q
    · simp [hr, set_same]
    · rw [set_other u y hr, set_other th x hr]
      exact h.isSome r

theorem Agree.set_left (h : Agree rt th u) (hy : th.object q = some y) (hxy : q = rt → x = y) :
    Agree rt (th.set q x) u := by
  refine ⟨h.hidden,?_,fun r => ?_⟩
  · by_cases hq : rt = q
    · rw [h.object, hq, set_same, hxy hq.symm]
      exact hy
    · rw [set_other th x hq]
      exact h.object
  · by_cases hr : r = q
    · rw [hr, set_same, h.isSome q, hy]
      rfl
    · rw [set_other th x hr]
      exact h.isSome r

/-- An idle call returns on any object. -/
theorem idle_returns {op : OpsCall} (h : Idle x op) (y : Object) : ∃ y', y.exec op = .ok y' := by
  cases op with
  | orchestrationDone => exact ⟨_,member_ok.mpr ⟨_,rfl,rfl⟩⟩
  | waitAll => exact ⟨y,rfl⟩
  | _ => exact absurd h id

end Agree

theorem unwinding (rt : LinquRuntime) :
    Unwinding Steps Contained (concerns rt) (fun th => th.object rt) (Agree rt) where
  view_eq _ _ h := h.object
  kept := by
    intro th u e th' h hc hk hs
    cases e with
    | init q level backend cfg =>
      obtain ⟨hnone,x,hx,rfl⟩ := init_iff.mp hs
      have hu : u.object q = none := by
        have hsome := h.isSome q
        rw [hnone] at hsome
        simpa using hsome
      exact ⟨_,init_iff.mpr ⟨hu,x,hx,rfl⟩,(h.set_both fun _ => rfl).of_hidden (some q)⟩
    | call q op =>
      obtain ⟨p,x,x',hp,hx,hop,rfl⟩ := call_iff.mp hs
      have hq : q = rt := of_decide_eq_true hk
      have hup : u.hidden = some p := h.hidden.trans hp
      by_cases hprt : p = rt
      · have hux : u.object p = some x := by
          rw [hprt, h.object, ← hprt]
          exact hx
        exact ⟨_,call_iff.mpr ⟨p,x,x',hup,hux,hop,rfl⟩,h.set_both fun _ => rfl⟩
      · have hidle : Idle x op := by
          rcases hc p x x' hp hx hop with hqp | hidle
          · exact absurd (hqp.symm.trans hq) hprt
          · exact hidle
        have hsome : (u.object p).isSome = true := by
          rw [h.isSome p, hx]
          rfl
        obtain ⟨y,hy⟩ := Option.isSome_iff_exists.mp hsome
        obtain ⟨y',hy'⟩ := idle_returns hidle y
        exact ⟨_,call_iff.mpr ⟨p,y,y',hup,hy,hy',rfl⟩,h.set_both fun heq => absurd heq hprt⟩
    | onTaskComplete q t =>
      obtain ⟨x,x',hx,hop,rfl⟩ := onTaskComplete_iff.mp hs
      have hq : q = rt := of_decide_eq_true hk
      have hux : u.object q = some x := by
        rw [hq, h.object, ← hq]
        exact hx
      exact ⟨_,onTaskComplete_iff.mpr ⟨x,x',hux,hop,rfl⟩,h.set_both fun _ => rfl⟩
  removed := by
    intro th u e th' h hc hk hs
    cases e with
    | init q level backend cfg => cases hk
    | call q op =>
      obtain ⟨p,x,x',hp,hx,hop,rfl⟩ := call_iff.mp hs
      have hq : q ≠ rt := of_decide_eq_false hk
      apply h.set_left hx
      intro hprt
      rcases hc p x x' hp hx hop with hqp | hidle
      · exact absurd (hqp.trans hprt) hq
      · exact (exec_same hop).mpr hidle
    | onTaskComplete q t =>
      obtain ⟨x,x',hx,-,rfl⟩ := onTaskComplete_iff.mp hs
      have hq : q ≠ rt := of_decide_eq_false hk
      exact h.set_left hx fun heq => absurd heq hq

theorem contained_of_separate {events : List Event} (h : Separate events) :
    Guarded Steps Contained events {} := by
  apply guarded_runs.mpr
  intro pre e th hpre hr
  cases e with
  | call rt op =>
    intro p x x' hp hx hop
    by_cases hrt : rt = p
    · exact Or.inl hrt
    · right
      have hs : Steps th (.call rt op) (th.set p x') := call_iff.mpr ⟨p,x,x',hp,hx,hop,rfl⟩
      have hk : concerns p (.call rt op) = false := decide_eq_false hrt
      have hview : (th.set p x').object p = th.object p := (h p).unseen steps_unique hpre hr hs hk
      rw [set_same, hx] at hview
      exact (exec_same hop).mp (Option.some.inj hview)
  | _ => trivial

/-- The calls through two runtime pointers of a thread stay apart exactly when
every call through the pointer of the object that was not initialised last is
a `wait_all`, or an `orchestration_done` that the other object already had. -/
theorem separate_iff_contained (events : List Event) :
    Separate events ↔ Guarded Steps Contained events {} := by
  constructor
  · intro h
    exact contained_of_separate h
  · intro h rt
    exact (unwinding rt).removable (Agree.refl rt {}) h

/-- A call through the pointer of the first of two fresh states counts for the second. -/
theorem free_tensor_lands_on_second : ¬ Separate
    [.init .first 3 .none {},.init .second 3 .none {},.call .first (.freeTensor 7)] := by
  intro h
  have hg := contained_of_separate h
  have hcall := ((hg.2 _ rfl).2 _ rfl).1
  rcases hcall .second _ _ rfl rfl rfl with hrt | hidle
  · cases hrt
  · exact hidle

end Linqu.Runtimes
