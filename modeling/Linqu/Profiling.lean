import Linqu.Runtimes
import Linqu.ProfileReports

/-!
# What a profile report says

The counters of the report are moved by the calls; a reset clears them and the
snapshots. `profileOf` reads the whole report off the list of the calls since
the last reset, with the states between them: how many calls of each kind
there were, how many submissions found the window full, and the highest
occupancy of the two rings between two calls. The peaks are only noted by
submissions and allocations. That misses nothing: completions, the two waits
and the other calls only take away from what the rings hold.
-/

set_option autoImplicit false

namespace Linqu.Profiling
open Linqu.TaskRing Linqu.HeapRing Linqu.HeapBlocks Linqu.ScopeStack Linqu.Orchestrator
open Linqu.Orchestrator.LinquOrchestratorState Linqu.OrchestrationApi Linqu.Transition
open Linqu.Outcomes Linqu.OrchestratorRule Linqu.OrchestratorShape Linqu.OrchestratorCalls
open Linqu.RingsInStep Linqu.Runtimes Linqu.Json
open Linqu.ProfileReports (RingMetrics ProfileReport)

/-- A call of the interface, a reset or a change of the backend, or a snapshot,
with the time it reads. -/
inductive Act where
  | call (c : ApiCall)
  | snapshot (label : Option String) (nowUs : UInt64)
  deriving DecidableEq, Repr

/-- The part of a snapshot that a report prints. -/
def reported (snap : RingSnapshot) : ProfileReports.RingSnapshot :=
  { level := snap.level, depth := .ofNat snap.depth, label := snap.label.toList,
    timestampUs := snap.timestampUs, taskCapacity := .ofNat snap.taskCapacity,
    taskUsed := .ofNat snap.taskUsed, bufferCapacity := .ofNat snap.bufferCapacity,
    bufferUsed := .ofNat snap.bufferUsed, allocCount := .ofNat snap.allocCount,
    retireCount := .ofNat snap.retireCount, freeCount := .ofNat snap.freeCount }

def perform (x : Object) : Act → Except Fault Object
  | .call c => do
    let state ← execApi x.state c
    return { x with state, snapshots := if c = .reset then [] else x.snapshots }
  | .snapshot label nowUs => .ok (x.takeSnapshot (label.getD "snapshot") nowUs)

/-- The allocated and the retired bytes of the buffer ring are not filled in. -/
def currentMetrics (x : Object) : RingMetrics :=
  let s := x.state
  { level := x.level, depth := 0, taskRingCapacity := .ofNat s.taskRing.windowSize.toNat,
    taskRingPeakUsed := .ofNat s.peakTaskUsed, taskAllocCount := .ofNat s.tasksSubmitted,
    taskRetireCount := .ofNat s.taskRetireCount, taskBlockCount := .ofNat s.taskBlockCount,
    bufferRingCapacity := .ofNat s.heapRing.capacity,
    bufferRingPeakUsed := .ofNat s.peakHeapUsed, scopeBeginCount := .ofNat s.scopeBeginCount,
    scopeEndCount := .ofNat s.scopeEndCount, freeTensorCount := .ofNat s.freeTensorCount }

def generateProfile (x : Object) (nodeId : Text) : ProfileReport :=
  { nodeId, level := x.level, metrics := [currentMetrics x],
    snapshots := x.snapshots.map reported }

/-! The calls since the last reset, newest first. -/

structure Entry where
  before : State
  act : Act
  after : State

def ActSteps (x : Object) (a : Act) (x' : Object) : Prop := (perform x a).toOption = some x'

def recordAct (past : List Entry) (x x' : Object) (a : Act) : List Entry :=
  if a = .call .reset then [] else ⟨x.state,a,x'.state⟩::past

def history : List Act → Object → List Entry → List Entry
  | [], _, past => past
  | a::acts, x, past =>
    (perform x a).toOption.elim past fun x' => history acts x' (recordAct past x x' a)

namespace Act

def submits : Act → Bool
  | .call (.op (.submitTask _ _ _ _)) => true
  | .call (.op (.submitTaskGroup _ _ _ _ _)) => true
  | _ => false

def begins : Act → Bool
  | .call (.op .scopeBegin) => true
  | _ => false

def ends : Act → Bool
  | .call (.op .scopeEnd) => true
  | _ => false

def frees : Act → Bool
  | .call (.op (.freeTensor _)) => true
  | _ => false

end Act

/-- A submission that finds the window full. -/
def Entry.blocked (e : Entry) : Bool := e.act.submits && !e.before.taskRing.hasSpace

def activeTasks (s : State) : ℕ := s.taskRing.activeCount.toNat

def heapUsed (s : State) : ℕ := s.heapRing.used

section Past

variable (past : List Entry)

def calls (p : Act → Bool) : ℕ := past.countP fun e => p e.act

def latest (F : State → ℕ) : ℕ := past.head?.elim 0 fun e => F e.after

def peak (F : State → ℕ) : ℕ := past.foldr (fun e top => max (F e.after) top) 0

/-- The tasks submitted that are no longer in the window. -/
def retired : ℕ := calls past Act.submits-latest past activeTasks

def openScopes : ℕ := calls past Act.begins-calls past Act.ends

end Past

section Abstract

variable (level : UInt8) (cfg : LinquOrchConfigInternal)

def metricsOf (past : List Entry) : RingMetrics :=
  { level, taskRingCapacity := .ofNat cfg.taskRingWindow,
    taskRingPeakUsed := .ofNat (peak past activeTasks),
    taskAllocCount := .ofNat (calls past Act.submits), taskRetireCount := .ofNat (retired past),
    taskBlockCount := .ofNat (past.countP Entry.blocked),
    bufferRingCapacity := .ofNat cfg.heapRingCapacity,
    bufferRingPeakUsed := .ofNat (peak past heapUsed),
    scopeBeginCount := .ofNat (calls past Act.begins),
    scopeEndCount := .ofNat (calls past Act.ends),
    freeTensorCount := .ofNat (calls past Act.frees) }

def snapshotOf (past : List Entry) (label : Option String) (nowUs : UInt64) :
    ProfileReports.RingSnapshot :=
  { level, depth := .ofNat (openScopes past-1), label := (label.getD "snapshot").toList,
    timestampUs := nowUs, taskCapacity := .ofNat cfg.taskRingWindow,
    taskUsed := .ofNat (latest past activeTasks), bufferCapacity := .ofNat cfg.heapRingCapacity,
    bufferUsed := .ofNat (latest past heapUsed), allocCount := .ofNat (calls past Act.submits),
    retireCount := .ofNat (retired past), freeCount := .ofNat (calls past Act.frees) }

/-- Each snapshot is about the calls before it. -/
def snapshotsOf : List Entry → List ProfileReports.RingSnapshot
  | [] => []
  | e::past =>
    match e.act with
    | .snapshot label nowUs => snapshotsOf past++[snapshotOf level cfg past label nowUs]
    | .call _ => snapshotsOf past

def profileOf (nodeId : Text) (past : List Entry) : ProfileReport :=
  { nodeId, level, metrics := [metricsOf level cfg past], snapshots := snapshotsOf level cfg past }

end Abstract

/-! What completions and retirement leave alone. -/

structure Meters where
  window : ℤ
  capacity : ℕ
  submitted : ℕ
  tasks : ℕ
  heap : ℕ
  blocks : ℕ
  begins : ℕ
  ends : ℕ
  frees : ℕ
  scopes : ℕ

def meters (s : State) : Meters :=
  { window := s.taskRing.windowSize, capacity := s.heapRing.capacity,
    submitted := s.tasksSubmitted, tasks := s.peakTaskUsed, heap := s.peakHeapUsed,
    blocks := s.taskBlockCount, begins := s.scopeBeginCount, ends := s.scopeEndCount,
    frees := s.freeTensorCount, scopes := s.scopeStack.scopeBegins.length }

theorem meters_check (s : State) (t : ℤ) : meters (s.checkTaskConsumed t) = meters s := by
  unfold checkTaskConsumed
  split <;> rfl

theorem meters_rule (m : Meters) : PropagateRule (fun _ _ _ _ u => meters u = m) where
  release p _ _ _ _ u h := (meters_check (u.raiseFanout p) p).trans h
  notify _ _ _ _ _ h _ := h
  skip _ _ _ _ h _ := h
  ready _ _ _ _ h _ _ := h
  run _ _ _ _ h _ _ _ := h
  dispatch c _ _ u u' spec h _ _ hb _ hm := by
    have honly := dispatchFrom_only c _ _ _ _ 0 (u.setStatus c .running) u' hb hm
    rw [honly.eq]
    exact h
  count _ _ _ _ _ _ h := h
  complete _ _ _ _ _ _ h := h
  erase _ _ _ _ _ _ h := h
  finish t _ _ u h := (meters_check u t).trans h

theorem meters_propagate {fuel : ℕ} {s s' : State} {t : ℤ}
    (h : propagateCompletion fuel s t = .ok s') : meters s' = meters s :=
  propagate_rule (meters_rule (meters s)) (b := []) (c := []) h rfl

theorem meters_complete {s s' : State} {t : ℤ} (h : s.complete t = .ok s') :
    meters s' = meters s :=
  (meters_propagate h).trans rfl

theorem meters_onTaskComplete {s s' : State} {t : ℤ} (h : s.onTaskComplete t = .ok s') :
    meters s' = meters s := by
  unfold onTaskComplete at h
  dsimp only at h
  split at h
  · split at h
    · exact (meters_complete h).trans rfl
    · cases h
      rfl
  · split at h
    · exact (meters_complete h).trans rfl
    · cases h
      rfl

theorem meters_deliver {ids : List ℤ} {s s' : State} (h : s.deliver ids = .ok s') :
    meters s' = meters s :=
  foldlM_rule (P := fun _ u => meters u = meters s)
    (fun _ _ _ _ hu hv => (meters_onTaskComplete hv).trans hu) ids rfl h

theorem meters_dispatchSubTask {fuel : ℕ} {g : ℤ} {k : Option String} {gp : List LinquParam}
    {n i : ℕ} {sub : LinquSubTaskSpec} {s s' : State}
    (h : s.dispatchSubTask (propagateCompletion fuel) g k gp n i sub = .ok s') :
    meters s' = meters s := by
  unfold dispatchSubTask at h
  dsimp only at h
  split at h
  · cases h
    rfl
  · split at h
    · exact (meters_propagate h).trans rfl
    · cases h
      rfl

theorem meters_dispatchFrom {fuel : ℕ} {g : ℤ} {k : Option String} {gp : List LinquParam}
    {n : ℕ} {arrivals : ℕ → List ℤ} (subs : List LinquSubTaskSpec) : ∀ (i : ℕ) (s s' : State),
      dispatchFrom (propagateCompletion fuel) (fun i s => s.deliver (arrivals i)) g k gp n i subs
        s = .ok s' → meters s' = meters s := by
  induction subs with
  | nil =>
    intro i s s' h
    cases h
    rfl
  | cons sub rest ih =>
    intro i s s' h
    obtain ⟨m,hm,h⟩ := bind_ok.mp h
    obtain ⟨u,hu,h⟩ := bind_ok.mp h
    calc meters s' = meters u := ih (i+1) u s' h
      _ = meters m := meters_deliver hu
      _ = meters s := meters_dispatchSubTask hm

theorem meters_launchTask {s s' : State} {tid : ℤ} {target : LinquCoordinate}
    {k : Option String} {params : List LinquParam} (h : s.launchTask tid target k params = .ok s') :
    meters s' = meters s := by
  unfold launchTask at h
  dsimp only at h
  split at h
  · cases h
    rfl
  · exact (meters_complete h).trans rfl
  · exact (meters_complete h).trans rfl

theorem meters_launchGroup {s s' : State} {tid : ℤ} {k : Option String} {gp : List LinquParam}
    {subs : List LinquSubTaskSpec} {arrivals : List (List ℤ)}
    (h : s.launchGroup tid k gp subs arrivals = .ok s') : meters s' = meters s := by
  unfold launchGroup at h
  split at h
  · exact meters_complete h
  · split at h
    · exact (meters_dispatchFrom subs 0 _ s' h).trans rfl
    · cases h
      rfl

theorem meters_advance (s : State) : meters s.tryAdvanceRingPointers = meters s := by
  unfold tryAdvanceRingPointers
  dsimp only
  split
  · split <;> rfl
  · rfl

/-! The common part of the submit functions. -/

theorem meters_linkParam {tid : ℤ} {p : LinquParam} {u u' : State} {n n' : ℕ}
    (h : linkParam tid (u,n) p = .ok (u',n')) : meters u' = meters u := by
  obtain ⟨⟨r,l⟩,hr,hw⟩ := bind_ok.mp h
  have hread : meters r = meters u := by
    unfold linkRead at hr
    split at hr
    · obtain ⟨found,-,hr⟩ := bind_ok.mp hr
      cases found with
      | none =>
        cases hr
        rfl
      | some q =>
        obtain ⟨w,hedge,hr⟩ := bind_ok.mp hr
        cases hr
        obtain ⟨i₁,pool₁,i₂,-,-,hrest,hring,-⟩ := addEdge_spec hedge
        rw [hrest, hring]
        rfl
    · cases hr
      rfl
  unfold linkWrite at hw
  split at hw
  · obtain ⟨tm,-,hw⟩ := bind_ok.mp hw
    cases hw
    exact hread
  · cases hw
    exact hread

theorem meters_linkParams {tid : ℤ} (params : List LinquParam) : ∀ (u u' : State) (n n' : ℕ),
    params.foldlM (linkParam tid) (u,n) = .ok (u',n') → meters u' = meters u := by
  induction params with
  | nil =>
    intro u u' n n' h
    cases h
    rfl
  | cons p rest ih =>
    intro u u' n n' h
    rw [List.foldlM_cons] at h
    obtain ⟨⟨v,k⟩,hv,h⟩ := bind_ok.mp h
    exact (ih v u' k n' h).trans (meters_linkParam hv)

/-- The peaks are noted once the task has its slot. -/
theorem meters_enterTask {s s' : State} {k : String} {group : Option ℕ}
    {params : List LinquParam} {tid : ℤ} (he : s.enterTask k group params = .ok (tid,s')) :
    meters s' = { meters s with submitted := (meters s).submitted+1
                                tasks := max (meters s).tasks (activeTasks s')
                                heap := max (meters s).heap (heapUsed s') } := by
  obtain ⟨⟨tid',a⟩,ha,he⟩ := bind_ok.mp he
  obtain ⟨⟨u,n⟩,hu,he⟩ := bind_ok.mp he
  obtain ⟨j,hj,he⟩ := bind_ok.mp he
  cases he
  have halloc : meters a = meters s := by
    obtain ⟨⟨i,r⟩,hr,ha⟩ := bind_ok.mp ha
    cases ha
    obtain ⟨-,-,hwindow,-⟩ := LinquTaskRing.tryAlloc_spec (required_ok.mp hr)
    show { meters s with window := r.windowSize } = meters s
    rw [hwindow]
    rfl
  have hlink : meters u = meters a := (meters_linkParams params _ u 0 n hu).trans rfl
  obtain ⟨hrest,hbegins,-⟩ := joinScope_spec hj
  have hjoin : meters j = meters u := by
    rw [hrest]
    show { meters u with scopes := j.scopeStack.scopeBegins.length } = meters u
    rw [hbegins]
    rfl
  rw [← halloc, ← hlink, ← hjoin]
  rfl

/-! Between two notes the occupancy of the rings only falls. -/

structure Noted (log : List ℕ) (s : State) : Prop where
  ledger : Ledger log s
  tasks : activeTasks s ≤ s.peakTaskUsed
  heap : heapUsed s ≤ s.peakHeapUsed
  scopes : s.scopeEndCount+s.scopeStack.scopeBegins.length = s.scopeBeginCount

section Occupancy

variable {log : List ℕ} {s s' : State}

theorem heapUsed_eq (h : Ledger log s) : heapUsed s = s.heapRing.top-s.heapRing.tail :=
  if_pos h.tail_le

theorem activeTasks_eq (h : Ledger log s) :
    (activeTasks s : ℤ) = s.taskRing.currentIndex-s.taskRing.lastTaskAlive := by
  apply Int.toNat_of_nonneg
  have hle := h.ring.alive_le
  rw [LinquTaskRing.activeCount]
  omega

theorem Noted.of_meters (h : Noted log s) (hl : Ledger log s') (hm : meters s' = meters s)
    (htasks : activeTasks s' ≤ activeTasks s) (hheap : heapUsed s' ≤ heapUsed s) :
    Noted log s' := by
  have hscopes : s'.scopeEndCount+s'.scopeStack.scopeBegins.length = s'.scopeBeginCount := by
    have hends := congrArg Meters.ends hm
    have hopen := congrArg Meters.scopes hm
    have hbegins := congrArg Meters.begins hm
    have hs := h.scopes
    dsimp only [meters] at hends hopen hbegins
    omega
  refine ⟨hl,?_,?_,hscopes⟩
  · calc activeTasks s' ≤ activeTasks s := htasks
      _ ≤ s.peakTaskUsed := h.tasks
      _ = s'.peakTaskUsed := (congrArg Meters.tasks hm).symm
  · calc heapUsed s' ≤ heapUsed s := hheap
      _ ≤ s.peakHeapUsed := h.heap
      _ = s'.peakHeapUsed := (congrArg Meters.heap hm).symm

theorem activeTasks_still (hs : Still s s') : activeTasks s' = activeTasks s := by
  rw [activeTasks, activeTasks, LinquTaskRing.activeCount, LinquTaskRing.activeCount, hs.current,
    hs.alive]

theorem heapUsed_still (hs : Still s s') : heapUsed s' = heapUsed s := by
  rw [heapUsed, heapUsed, hs.heapRing]

theorem Noted.still (h : Noted log s) (hs : Still s s') (hm : meters s' = meters s) :
    Noted log s' :=
  h.of_meters (h.ledger.still hs) hm (activeTasks_still hs).le (heapUsed_still hs).le

theorem Noted.advance (h : Noted log s) : Noted log s.tryAdvanceRingPointers := by
  have hl := h.ledger.advance
  have hle := h.ledger.ring.alive_le
  obtain ⟨hcursor,-,-,-⟩ := cursor_spec hle
  obtain ⟨hring,-,-,-,hheap⟩ := advance_spec hle h.ledger.map
  apply h.of_meters hl (meters_advance s)
  · have hnow := activeTasks_eq h.ledger
    have hthen := activeTasks_eq hl
    rw [hring] at hthen
    change _ = s.taskRing.currentIndex-cursorOf s at hthen
    omega
  · rw [heapUsed_eq hl, heapUsed_eq h.ledger, hheap]
    split
    · rename_i hmoved
      show s.heapRing.top-(s.get (cursorOf s-1)).heapEnd ≤ _
      have hlt := hmoved.2.2
      omega
    · exact le_rfl

theorem Noted.report {t : ℤ} (h : Noted log s) (ht : s.onTaskComplete t = .ok s') :
    Noted log s' :=
  h.still (still_onTaskComplete ht) (meters_onTaskComplete ht)

/-- The wait counts once, when there is no slot at its start. -/
theorem waitForSpace_noted {arrivals : List (List ℤ)} (h : Noted log s)
    (hs : s.waitForSpace arrivals = .ok s') : Noted log s' ∧ meters s' = { meters s with
      blocks := (meters s).blocks+if s.taskRing.hasSpace then 0 else 1 } := by
  unfold waitForSpace at hs
  by_cases hspace : s.taskRing.hasSpace = true
  · rw [if_pos hspace] at hs
    rw [if_pos hspace]
    cases hs
    exact ⟨h,rfl⟩
  · rw [if_neg hspace] at hs
    rw [if_neg hspace]
    let J : State → Prop := fun u =>
      Noted log u ∧ meters u = { meters s with blocks := (meters s).blocks+1 }
    have hstart : J { s with taskBlockCount := s.taskBlockCount+1 } := by
      constructor
      · exact ⟨h.ledger.still ⟨rfl,rfl,rfl,rfl,rfl,rfl,rfl,fun _ => rfl⟩,h.tasks,h.heap,h.scopes⟩
      · rfl
    have hend : J s' ∧ s'.taskRing.hasSpace = true := by
      apply (awaitSpace_ends (E := fun _ => True) _ _ trivial arrivals 0 _ hstart).of_ok hs
      · intro u hu
        exact ⟨hu.1.advance,(meters_advance u).trans hu.2⟩
      · intro u t hu
        apply Ends.of_returns
        intro v hv
        exact ⟨hu.1.report hv,(meters_onTaskComplete hv).trans hu.2⟩
    exact hend.1

end Occupancy

/-! One call. -/

structure Counted (s : State) (a : Act) (s' : State) : Prop where
  window : s'.taskRing.windowSize = s.taskRing.windowSize
  capacity : s'.heapRing.capacity = s.heapRing.capacity
  submitted : s'.tasksSubmitted = s.tasksSubmitted+if a.submits then 1 else 0
  blocks : s'.taskBlockCount = s.taskBlockCount+if Entry.blocked ⟨s,a,s'⟩ then 1 else 0
  begins : s'.scopeBeginCount = s.scopeBeginCount+if a.begins then 1 else 0
  ends : s'.scopeEndCount = s.scopeEndCount+if a.ends then 1 else 0
  frees : s'.freeTensorCount = s.freeTensorCount+if a.frees then 1 else 0
  tasks : s'.peakTaskUsed = max (activeTasks s') s.peakTaskUsed
  heap : s'.peakHeapUsed = max (heapUsed s') s.peakHeapUsed

section Calls

variable {log : List ℕ} {s s' : State}

/-- A call that notes no peak: both are as high as they need to be. -/
theorem Noted.counted (h : Noted log s') {a : Act} {b e f k : ℕ} (hm : meters s' =
      { meters s with begins := b, ends := e, frees := f, scopes := k })
    (ha : a.submits = false) (hb : b = s.scopeBeginCount+if a.begins then 1 else 0)
    (he : e = s.scopeEndCount+if a.ends then 1 else 0)
    (hf : f = s.freeTensorCount+if a.frees then 1 else 0) : Counted s a s' := by
  have htasks : s'.peakTaskUsed = s.peakTaskUsed := congrArg Meters.tasks hm
  have hheap : s'.peakHeapUsed = s.peakHeapUsed := congrArg Meters.heap hm
  refine ⟨congrArg Meters.window hm,congrArg Meters.capacity hm,?_,?_,
    (congrArg Meters.begins hm).trans hb,(congrArg Meters.ends hm).trans he,
    (congrArg Meters.frees hm).trans hf,?_,?_⟩
  · rw [ha]
    exact congrArg Meters.submitted hm
  · rw [Entry.blocked, ha]
    exact congrArg Meters.blocks hm
  · rw [← htasks, max_eq_right h.tasks]
  · rw [← hheap, max_eq_right h.heap]

theorem Noted.of_counted {a : Act} (hl : Ledger log s') (hc : Counted s a s')
    (hscopes : s'.scopeEndCount+s'.scopeStack.scopeBegins.length = s'.scopeBeginCount) :
    Noted log s' := by
  refine ⟨hl,?_,?_,hscopes⟩
  · rw [hc.tasks]
    exact le_max_left _ _
  · rw [hc.heap]
    exact le_max_left _ _

/-- A submission that has waited, entered its task and launched it. -/
theorem Noted.submits {m e : State} {a : Act} (h : Noted log s) (ha : a.submits = true)
    (hb : a.begins = false) (he : a.ends = false) (hf : a.frees = false)
    (hwait : meters m = { meters s with
      blocks := (meters s).blocks+if s.taskRing.hasSpace then 0 else 1 })
    (henter : meters e = { meters m with submitted := (meters m).submitted+1
                                         tasks := max (meters m).tasks (activeTasks e)
                                         heap := max (meters m).heap (heapUsed e) })
    (hlaunch : meters s' = meters e) (hs : Still e s') : Counted s a s' ∧
      s'.scopeEndCount+s'.scopeStack.scopeBegins.length = s'.scopeBeginCount := by
  rw [hwait, ← activeTasks_still hs, ← heapUsed_still hs] at henter
  have hm := hlaunch.trans henter
  constructor
  · refine ⟨congrArg Meters.window hm,congrArg Meters.capacity hm,?_,?_,?_,?_,?_,?_,?_⟩
    · rw [ha]
      exact congrArg Meters.submitted hm
    · have hblocks : s'.taskBlockCount = _ := congrArg Meters.blocks hm
      rw [hblocks, Entry.blocked, ha]
      by_cases hspace : s.taskRing.hasSpace = true
      · simp [hspace, meters]
      · simp [hspace, meters]
    · rw [hb]
      exact congrArg Meters.begins hm
    · rw [he]
      exact congrArg Meters.ends hm
    · rw [hf]
      exact congrArg Meters.frees hm
    · rw [max_comm]
      exact congrArg Meters.tasks hm
    · rw [max_comm]
      exact congrArg Meters.heap hm
  · have hends : s'.scopeEndCount = s.scopeEndCount := congrArg Meters.ends hm
    have hopen : s'.scopeStack.scopeBegins.length = s.scopeStack.scopeBegins.length :=
      congrArg Meters.scopes hm
    have hbegins : s'.scopeBeginCount = s.scopeBeginCount := congrArg Meters.begins hm
    rw [hends, hopen, hbegins]
    exact h.scopes

theorem meters_closeScope (h : s.closeScope = .ok s') : 0 < s.scopeStack.scopeBegins.length ∧
    meters s' = { meters s with ends := (meters s).ends+1, scopes := (meters s).scopes-1 } := by
  obtain ⟨⟨ids,u⟩,hu,h⟩ := bind_ok.mp h
  obtain ⟨⟨ids',st⟩,hst,hu⟩ := bind_ok.mp hu
  have hst := required_ok.mp hst
  cases hu
  cases h
  unfold LinquScopeStack.scopeEnd at hst
  split at hst
  · cases hst
  · rename_i start rest hopen
    cases hst
    let P : List ℤ → State → Prop := fun _ v =>
      meters v = { meters s with ends := (meters s).ends+1, scopes := rest.length }
    have hcheck : ∀ t l v, P (t::l) v → P l (v.checkTaskConsumed t) := by
      intro t l v hv
      exact (meters_check v t).trans hv
    have hrelease : ∀ t l v, P (t::l) v → P l (v.releaseScopeToken t) := by
      intro t l v hv
      unfold releaseScopeToken
      split <;> exact hv
    have hscopes : (meters s).scopes-1 = rest.length := by
      show s.scopeStack.scopeBegins.length-1 = rest.length
      rw [hopen]
      rfl
    constructor
    · rw [hopen]
      exact Nat.succ_pos _
    · rw [hscopes]
      exact foldl_rule hcheck _ (foldl_rule hrelease _ rfl)

theorem noted_closeScope (h : Noted log s) (hs : s.closeScope = .ok s') : Noted log s' := by
  have hstill := still_closeScope hs
  obtain ⟨hopen,hm⟩ := meters_closeScope hs
  have htasks : s'.peakTaskUsed = s.peakTaskUsed := congrArg Meters.tasks hm
  have hheap : s'.peakHeapUsed = s.peakHeapUsed := congrArg Meters.heap hm
  have hends : s'.scopeEndCount = s.scopeEndCount+1 := congrArg Meters.ends hm
  have hscopes : s'.scopeStack.scopeBegins.length = s.scopeStack.scopeBegins.length-1 :=
    congrArg Meters.scopes hm
  have hbegins : s'.scopeBeginCount = s.scopeBeginCount := congrArg Meters.begins hm
  refine ⟨h.ledger.still hstill,?_,?_,?_⟩
  · rw [activeTasks_still hstill, htasks]
    exact h.tasks
  · rw [heapUsed_still hstill, hheap]
    exact h.heap
  · have hs := h.scopes
    omega

theorem noted_scopeBegin (h : Noted log s) (hs : s.scopeBegin = .ok s') :
    Noted log s' ∧ Counted s (.call (.op .scopeBegin)) s' := by
  obtain ⟨st,hst,hs⟩ := bind_ok.mp hs
  have hst := required_ok.mp hst
  cases hs
  unfold LinquScopeStack.scopeBegin at hst
  split at hst
  · cases hst
    have hn : Noted log { s with
        scopeStack := { s.scopeStack with
          scopeBegins := s.scopeStack.scopeTasks.length::s.scopeStack.scopeBegins }
        scopeBeginCount := s.scopeBeginCount+1 } := by
      refine ⟨h.ledger.still ⟨rfl,rfl,rfl,rfl,rfl,rfl,rfl,fun _ => rfl⟩,h.tasks,h.heap,?_⟩
      have hscopes := h.scopes
      simp only [List.length_cons]
      omega
    exact ⟨hn,hn.counted (k := s.scopeStack.scopeBegins.length+1) rfl rfl rfl rfl rfl⟩
  · cases hst

/-- An allocation that gives out a block notes the heap as it leaves it. -/
theorem noted_allocTensor {size : ℕ} {arrivals : List (List ℤ)} {handle : UInt64}
    (h : Noted log s) (hs : s.allocTensor size arrivals = .ok (handle,s')) :
    Noted log s' ∧ Counted s (.call (.op (.allocTensor size arrivals))) s' := by
  have h0 : Noted log { s with nextTensorHandle := s.nextTensorHandle+1 } :=
    h.still ⟨rfl,rfl,rfl,rfl,rfl,rfl,rfl,fun _ => rfl⟩ rfl
  unfold allocTensor at hs
  dsimp only at hs
  split at hs
  · cases hs
    exact ⟨h0,h0.counted rfl rfl rfl rfl rfl⟩
  · obtain ⟨m,hm,hs⟩ := bind_ok.mp hs
    obtain ⟨u,pos,r,hu,hr,rfl⟩ := waitForHeap_keeps
      (J := fun u => Noted log u ∧ meters u = meters s)
      (fun u hu => ⟨hu.1.advance,(meters_advance u).trans hu.2⟩)
      (fun u t v hu hv => ⟨hu.1.report hv,(meters_onTaskComplete hv).trans hu.2⟩)
      (fun u n hu => ⟨hu.1.still ⟨rfl,rfl,rfl,rfl,rfl,rfl,rfl,fun _ => rfl⟩ rfl,hu.2⟩)
      ⟨h0,rfl⟩ hm
    obtain ⟨hn,hm⟩ := hu
    have hledger := hn.ledger.alloc hr
    have hcapacity : r.capacity = u.heapRing.capacity := by
      obtain ⟨-,-,-,-,rfl⟩ := tryAlloc_some.mp hr
      rfl
    have htasks : u.peakTaskUsed = s.peakTaskUsed := congrArg Meters.tasks hm
    have hheap : u.peakHeapUsed = s.peakHeapUsed := congrArg Meters.heap hm
    cases hs
    have hc : Counted s (.call (.op (.allocTensor size arrivals)))
        { u with heapRing := r, peakHeapUsed := max u.peakHeapUsed r.used } := by
      refine ⟨congrArg Meters.window hm,hcapacity.trans (congrArg Meters.capacity hm),
        congrArg Meters.submitted hm,congrArg Meters.blocks hm,congrArg Meters.begins hm,
        congrArg Meters.ends hm,congrArg Meters.frees hm,?_,?_⟩
      · show u.peakTaskUsed = max (activeTasks u) s.peakTaskUsed
        rw [← htasks, max_eq_right hn.tasks]
      · show max u.peakHeapUsed r.used = max r.used s.peakHeapUsed
        rw [hheap, max_comm]
    exact ⟨.of_counted (hledger.still ⟨rfl,rfl,rfl,rfl,rfl,rfl,rfl,fun _ => rfl⟩) hc hn.scopes,hc⟩

theorem exec_noted {o : Op} (h : Noted log s) (hs : exec s o = .ok s') :
    Noted (logAfter log s s') s' ∧ Counted s (.call (.op o)) s' := by
  have hledger := exec_ledger h.ledger hs
  -- the calls that submit nothing leave the list of heap ends as it is
  have hquiet : Noted log s' → Noted (logAfter log s s') s' := by
    intro hn
    exact ⟨hledger,hn.tasks,hn.heap,hn.scopes⟩
  cases o with
  | submitTask target k params arrivals =>
    obtain ⟨m,hm,hs⟩ := bind_ok.mp hs
    obtain ⟨⟨tid,e⟩,he,hs⟩ := bind_ok.mp hs
    obtain ⟨hc,hscopes⟩ := h.submits (a := .call (.op (.submitTask target k params arrivals))) rfl
      rfl rfl rfl (waitForSpace_noted h hm).2 (meters_enterTask he) (meters_launchTask hs)
      (still_launchTask hs)
    exact ⟨.of_counted hledger hc hscopes,hc⟩
  | submitTaskGroup k params subs arrivals dispatchArrivals =>
    obtain ⟨m,hm,hs⟩ := bind_ok.mp hs
    obtain ⟨⟨tid,e⟩,he,hs⟩ := bind_ok.mp hs
    obtain ⟨hc,hscopes⟩ := h.submits
      (a := .call (.op (.submitTaskGroup k params subs arrivals dispatchArrivals))) rfl rfl rfl rfl
      (waitForSpace_noted h hm).2 (meters_enterTask he) (meters_launchGroup hs)
      (still_launchGroup hs)
    exact ⟨.of_counted hledger hc hscopes,hc⟩
  | scopeBegin =>
    obtain ⟨hn,hc⟩ := noted_scopeBegin h hs
    exact ⟨hquiet hn,hc⟩
  | scopeEnd =>
    obtain ⟨m,hm,hs⟩ := bind_ok.mp hs
    cases hs
    have hn := (noted_closeScope h hm).advance
    have hmeters := (meters_advance m).trans (meters_closeScope hm).2
    exact ⟨hquiet hn,hn.counted hmeters rfl rfl rfl rfl⟩
  | allocTensor size arrivals =>
    obtain ⟨b,hb,rfl⟩ := map_ok.mp hs
    obtain ⟨hn,hc⟩ := noted_allocTensor h hb
    exact ⟨hquiet hn,hc⟩
  | freeTensor handle =>
    cases hs
    have hn : Noted log (s.freeTensor handle) :=
      ⟨h.ledger.still ⟨rfl,rfl,rfl,rfl,rfl,rfl,rfl,fun _ => rfl⟩,h.tasks,h.heap,h.scopes⟩
    exact ⟨hquiet hn,hn.counted rfl rfl rfl rfl rfl⟩
  | orchestrationDone =>
    cases hs
    have hn : Noted log s.orchestrationDone :=
      h.still ⟨rfl,rfl,rfl,rfl,rfl,rfl,rfl,fun _ => rfl⟩ rfl
    exact ⟨hquiet hn,hn.counted rfl rfl rfl rfl rfl⟩
  | onTaskComplete t =>
    have hn := h.report hs
    exact ⟨hquiet hn,hn.counted (meters_onTaskComplete hs) rfl rfl rfl rfl⟩
  | onScopeRelease t =>
    cases hs
    have hn := h.still (still_check s t) (meters_check s t)
    exact ⟨hquiet hn,hn.counted (meters_check s t) rfl rfl rfl rfl⟩
  | tryAdvanceRingPointers =>
    cases hs
    have hn := h.advance
    exact ⟨hquiet hn,hn.counted (meters_advance s) rfl rfl rfl rfl⟩

theorem api_noted {c : ApiCall} (hne : c ≠ .reset) (h : Noted log s)
    (hs : execApi s c = .ok s') : (∃ log', Noted log' s') ∧ Counted s (.call c) s' := by
  cases c with
  | op o =>
    obtain ⟨hn,hc⟩ := exec_noted h hs
    exact ⟨⟨_,hn⟩,hc⟩
  | reset => exact absurd rfl hne
  | setBackend backend =>
    cases hs
    have hn : Noted log { s with backend } :=
      h.still ⟨rfl,rfl,rfl,rfl,rfl,rfl,rfl,fun _ => rfl⟩ rfl
    exact ⟨⟨log,hn⟩,hn.counted rfl rfl rfl rfl rfl⟩

theorem noted_reset (h : Noted log s) : Noted [] s.reset := by
  have hledger : Ledger [] s.reset :=
    Ledger.empty h.ledger.ring.window_pos rfl rfl rfl rfl rfl rfl rfl
  exact ⟨hledger,le_rfl,le_rfl,rfl⟩

end Calls

/-! Runs. -/

section Runs

variable {lv : UInt8} {cfg : LinquOrchConfigInternal} {past : List Entry} {x x' : Object}

theorem calls_cons (e : Entry) (past : List Entry) (p : Act → Bool) :
    calls (e::past) p = calls past p+if p e.act then 1 else 0 :=
  List.countP_cons

/-- The state holds what the entries add up to. -/
structure Kept (lv : UInt8) (cfg : LinquOrchConfigInternal) (past : List Entry) (x : Object) :
    Prop where
  noted : ∃ log, Noted log x.state
  level : x.level = lv
  window : x.state.taskRing.windowSize = cfg.taskRingWindow
  capacity : x.state.heapRing.capacity = cfg.heapRingCapacity
  active : activeTasks x.state = latest past activeTasks
  used : heapUsed x.state = latest past heapUsed
  submitted : x.state.tasksSubmitted = calls past Act.submits
  blocks : x.state.taskBlockCount = past.countP Entry.blocked
  begins : x.state.scopeBeginCount = calls past Act.begins
  ends : x.state.scopeEndCount = calls past Act.ends
  frees : x.state.freeTensorCount = calls past Act.frees
  tasks : x.state.peakTaskUsed = peak past activeTasks
  heap : x.state.peakHeapUsed = peak past heapUsed
  snapshots : x.snapshots.map reported = snapshotsOf lv cfg past

theorem Kept.retired (h : Kept lv cfg past x) : x.state.taskRetireCount = retired past := by
  obtain ⟨log,hn⟩ := h.noted
  have hactive := activeTasks_eq hn.ledger
  have hsubmitted := hn.ledger.submitted
  have hretired := hn.ledger.retired
  rw [Profiling.retired, ← h.submitted, ← h.active]
  omega

theorem Kept.depth (h : Kept lv cfg past x) :
    x.state.scopeStack.depth.toNat = openScopes past-1 := by
  obtain ⟨log,hn⟩ := h.noted
  have hscopes := hn.scopes
  rw [openScopes, ← h.begins, ← h.ends, LinquScopeStack.depth]
  omega

theorem Kept.push {a : Act} (h : Kept lv cfg past x) (x' : Object)
    (hn : ∃ log, Noted log x'.state) (hc : Counted x.state a x'.state)
    (hlevel : x'.level = x.level) (hsnapshots :
      x'.snapshots.map reported = snapshotsOf lv cfg (⟨x.state,a,x'.state⟩::past)) :
    Kept lv cfg (⟨x.state,a,x'.state⟩::past) x' where
  noted := hn
  level := hlevel.trans h.level
  window := hc.window.trans h.window
  capacity := hc.capacity.trans h.capacity
  active := rfl
  used := rfl
  submitted := by rw [calls_cons, ← h.submitted, hc.submitted]
  blocks := by rw [List.countP_cons, ← h.blocks, hc.blocks]
  begins := by rw [calls_cons, ← h.begins, hc.begins]
  ends := by rw [calls_cons, ← h.ends, hc.ends]
  frees := by rw [calls_cons, ← h.frees, hc.frees]
  tasks := by rw [hc.tasks, h.tasks, peak, peak, List.foldr_cons]
  heap := by rw [hc.heap, h.heap, peak, peak, List.foldr_cons]
  snapshots := hsnapshots

theorem Kept.reset (h : Kept lv cfg past x) :
    Kept lv cfg [] { x with state := x.state.reset, snapshots := [] } := by
  obtain ⟨log,hn⟩ := h.noted
  exact ⟨⟨[],noted_reset hn⟩,h.level,h.window,h.capacity,rfl,rfl,rfl,rfl,rfl,rfl,rfl,rfl,rfl,rfl⟩

theorem Kept.snapshot (h : Kept lv cfg past x) (label : Option String) (nowUs : UInt64) :
    Kept lv cfg (⟨x.state,.snapshot label nowUs,x.state⟩::past)
      (x.takeSnapshot (label.getD "snapshot") nowUs) := by
  obtain ⟨log,hn⟩ := h.noted
  apply h.push (x.takeSnapshot (label.getD "snapshot") nowUs) ⟨log,hn⟩
    (hn.counted rfl rfl rfl rfl rfl) rfl
  have hwindow : x.state.taskRing.windowSize.toNat = cfg.taskRingWindow := by
    rw [h.window, Int.toNat_natCast]
  have hactive : x.state.taskRing.activeCount.toNat = latest past activeTasks := h.active
  have hused : x.state.heapRing.used = latest past heapUsed := h.used
  simp only [Object.takeSnapshot, List.map_append, h.snapshots, snapshotsOf, List.map_cons,
    List.map_nil, reported, snapshotOf, h.level, h.depth, hwindow, hactive, h.capacity, hused,
    h.submitted, h.retired, h.frees]

theorem Kept.perform {a : Act} (h : Kept lv cfg past x) (hs : perform x a = .ok x') :
    Kept lv cfg (recordAct past x x' a) x' := by
  cases a with
  | snapshot label nowUs =>
    cases hs
    exact h.snapshot label nowUs
  | call c =>
    obtain ⟨s,hexec,hx⟩ := bind_ok.mp hs
    cases hx
    by_cases hreset : c = .reset
    · cases hreset
      cases hexec
      exact h.reset
    · obtain ⟨log,hn⟩ := h.noted
      obtain ⟨hn,hc⟩ := api_noted hreset hn hexec
      rw [if_neg hreset, recordAct, if_neg (fun heq => hreset (Act.call.inj heq))]
      exact h.push ⟨x.level,s,x.snapshots⟩ hn hc rfl h.snapshots

theorem init_kept {backend : Backend} (h : Object.init lv backend cfg = .ok x) :
    Kept lv cfg [] x := by
  obtain ⟨s,hs,h⟩ := bind_ok.mp h
  cases h
  have hledger := init_ledger hs
  obtain ⟨-,hcurrent,halive,-⟩ := init_ring hs
  have htasks : activeTasks s = 0 := by
    rw [activeTasks, LinquTaskRing.activeCount, hcurrent, halive]
    rfl
  obtain ⟨r,d,m,hr,-,-,rfl⟩ := init_spec hs
  have hwindow : r.windowSize = cfg.taskRingWindow := by
    unfold LinquTaskRing.init at hr
    split at hr
    · cases hr
      rfl
    · cases hr
  exact ⟨⟨[],hledger,htasks.le,le_rfl,rfl⟩,rfl,hwindow,rfl,htasks,rfl,rfl,rfl,rfl,rfl,rfl,rfl,rfl,
    rfl⟩

theorem run_kept {acts : List Act} (h : Kept lv cfg past x) (hr : Run ActSteps acts x x') :
    Kept lv cfg (history acts x past) x' := by
  induction acts generalizing x past with
  | nil =>
    cases hr
    exact h
  | cons a acts ih =>
    obtain ⟨m,hm,hr⟩ := hr
    have hperform : (perform x a).toOption = some m := hm
    rw [history, hperform]
    exact ih (h.perform (toOption_some.mp hm)) hr

theorem Kept.profile (h : Kept lv cfg past x) (nodeId : Text) :
    generateProfile x nodeId = profileOf lv cfg nodeId past := by
  have hwindow : x.state.taskRing.windowSize.toNat = cfg.taskRingWindow := by
    rw [h.window, Int.toNat_natCast]
  simp only [generateProfile, profileOf, currentMetrics, metricsOf, h.level, hwindow, h.tasks,
    h.submitted, h.retired, h.blocks, h.capacity, h.heap, h.begins, h.ends, h.frees, h.snapshots]

end Runs

/-- Whatever has been called, completed, reset and recorded, with any backend:
the report is the one that the calls since the last reset make. -/
theorem profile_of_history {level : UInt8} {backend : Backend} {cfg : LinquOrchConfigInternal}
    {x₀ x : Object} {acts : List Act} (nodeId : Text)
    (hinit : Object.init level backend cfg = .ok x₀) (hr : Run ActSteps acts x₀ x) :
    generateProfile x nodeId = profileOf level cfg nodeId (history acts x₀ []) :=
  (run_kept (init_kept hinit) hr).profile nodeId

/-- A task before a reset; after it two tasks with a block each, a third that
waits until both have been reported and the window moves, and a snapshot. -/
def blockedOnce : List Act :=
  [.call (.op (.submitTask {} none [] [])),.call .reset,.call (.op .scopeBegin),
    .call (.op (.allocTensor 40 [])),.call (.op (.submitTask {} none [] [])),
    .call (.op (.allocTensor 40 [])),.call (.op (.submitTask {} none [] [])),
    .call (.op .scopeEnd),.call (.op (.submitTask {} none [] [[0,1]])),.snapshot none 12]

theorem profile_of_history_blocked : ∃ x₀ x, Object.init 3 .dispatcher smallHeap = .ok x₀ ∧
    Run ActSteps blockedOnce x₀ x ∧
    generateProfile x [] = profileOf 3 smallHeap [] (history blockedOnce x₀ []) ∧
    x.state.taskBlockCount = 1 ∧ x.state.taskRetireCount = 2 := by
  obtain ⟨x₀,x,h₀,hr,-,ht⟩ := exists_run (f := fun x a => (perform x a).toOption)
    (g := fun _ _ => true) (l := blockedOnce) (o := (Object.init 3 .dispatcher smallHeap).toOption)
    (c := fun x => decide (x.state.taskBlockCount = 1) && decide (x.state.taskRetireCount = 2))
    (by decide +kernel)
  simp only [Bool.and_eq_true, decide_eq_true_eq] at ht
  have hinit := toOption_some.mp h₀
  exact ⟨x₀,x,hinit,hr,profile_of_history [] hinit hr,ht.1,ht.2⟩

end Linqu.Profiling
