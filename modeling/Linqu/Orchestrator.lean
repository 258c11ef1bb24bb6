import Linqu.TaskRing
import Linqu.HeapRing
import Linqu.DepPool
import Linqu.TensorMap
import Linqu.ScopeStack
import Linqu.OrchestrationApi

/-!
# The orchestrator state

One definition per member function, in the order in which they call each
other. A call that trips an assertion, or that the source never leaves, has
no next state and returns a `Fault`.

Completions come from other threads. They take the scheduler mutex, so each
is one step; they are delivered between calls, during the sleeps of the two
back-pressure loops and between the dispatches of an immediate group. The
lists of ids that a call takes on top of its arguments are the completions
that arrive at those points.

`trace` is what can be seen from outside, newest first: the submissions, the
calls made to the backend with the ring and the dependency pool as they were
at the call, and the completions delivered.
-/

set_option autoImplicit false

namespace Linqu.Orchestrator
open Linqu.TaskRing Linqu.HeapRing Linqu.DepPool Linqu.TensorMap Linqu.ScopeStack
open Linqu.OrchestrationApi

def maxScopeDepth : ℕ := 8

structure LinquOrchConfigInternal where
  taskRingWindow : ℕ := 64
  heapRingCapacity : ℕ := 1024*1024
  depPoolCapacity : ℕ := 512
  tensormapBuckets : ℕ := 64
  tensormapPool : ℕ := 256
  deriving DecidableEq, Repr

/-- What `dispatcher_` and `dispatch_fn_` are set to; a dispatcher wins. -/
inductive Backend where
  | none
  | dispatchFn
  | dispatcher
  deriving DecidableEq, Repr

/-- What a backend call is made for: a plain task, or one spec of a group. -/
inductive Origin where
  | plain
  | sub (groupTid : ℤ) (index : ℕ)
  deriving DecidableEq, Repr

structure DispatchCall where
  taskId : ℤ
  target : LinquCoordinate
  kernelSo : String
  params : List LinquParam
  origin : Origin
  ring : LinquTaskRing
  depPool : LinquDepListPool

inductive Event where
  | submit (taskId : ℤ) (inScope : Bool)
  | dispatch (call : DispatchCall)
  | dispatchFn (call : DispatchCall)
  | report (taskId : ℤ)

structure PendingGroupSpec where
  kernelSo : String
  groupParams : List LinquParam
  subTasks : List LinquSubTaskSpec
  deriving DecidableEq, Repr

inductive Fault where
  | badConfig
  | taskRingDeadlock
  | windowFull
  | heapRingDeadlock
  | depPoolFull
  | scopeDepth
  | scopeUnderflow
  | scopeTasksFull
  | endlessChain
  | outOfFuel
  | mutexHeld
  deriving DecidableEq, Repr

def required {α : Type} (o : Option α) (f : Fault) : Except Fault α :=
  match o with
  | some a => .ok a
  | none => .error f

structure LinquOrchestratorState where
  backend : Backend
  taskRing : LinquTaskRing
  heapRing : LinquHeapRing
  depPool : LinquDepListPool
  tensorMap : LinquTensorMap
  scopeStack : LinquScopeStack
  tasksSubmitted : ℕ := 0
  nextTensorHandle : UInt64 := 1
  done : Bool := false
  scopeBeginCount : ℕ := 0
  scopeEndCount : ℕ := 0
  freeTensorCount : ℕ := 0
  taskRetireCount : ℕ := 0
  taskBlockCount : ℕ := 0
  heapBlockCount : ℕ := 0
  peakTaskUsed : ℕ := 0
  peakHeapUsed : ℕ := 0
  subDispatchToGroup : List (ℤ × ℤ) := []
  nextSubDispatchId : ℤ := -1
  pendingGroupSpecs : List (ℤ × PendingGroupSpec) := []
  trace : List Event := []

/-- Assignment to and removal from an `unordered_map`. -/
def mapSet {β : Type} (m : List (ℤ × β)) (k : ℤ) (v : β) : List (ℤ × β) :=
  (k,v)::m.filter (fun e => e.1 ≠ k)

def mapErase {β : Type} (m : List (ℤ × β)) (k : ℤ) : List (ℤ × β) :=
  m.filter (fun e => e.1 ≠ k)

namespace LinquOrchestratorState

def init (backend : Backend) (cfg : LinquOrchConfigInternal) :
    Except Fault LinquOrchestratorState := do
  let taskRing ← required (LinquTaskRing.init cfg.taskRingWindow) .badConfig
  let depPool ← required (LinquDepListPool.init cfg.depPoolCapacity) .badConfig
  let tensorMap ← required (LinquTensorMap.init cfg.tensormapBuckets cfg.tensormapPool) .badConfig
  return { backend, taskRing, depPool, tensorMap,
           heapRing := .init cfg.heapRingCapacity,
           scopeStack := .init maxScopeDepth (cfg.taskRingWindow*maxScopeDepth) }

def reset (s : LinquOrchestratorState) : LinquOrchestratorState :=
  { backend := s.backend, taskRing := s.taskRing.reset, heapRing := s.heapRing.reset,
    depPool := s.depPool.reset, tensorMap := s.tensorMap.reset, scopeStack := s.scopeStack.reset,
    trace := s.trace }

def get (s : LinquOrchestratorState) (taskId : ℤ) : LinquTaskDescriptor := s.taskRing.get taskId

def modify (s : LinquOrchestratorState) (taskId : ℤ)
    (f : LinquTaskDescriptor → LinquTaskDescriptor) : LinquOrchestratorState :=
  { s with taskRing := s.taskRing.modify taskId f }

def setStatus (s : LinquOrchestratorState) (taskId : ℤ) (v : Status) : LinquOrchestratorState :=
  s.modify taskId (fun d => { d with status := v })

/-- The producers and the consumers recorded for a task. -/
def faninList (s : LinquOrchestratorState) (taskId : ℤ) : List ℤ :=
  s.depPool.tasks (s.get taskId).depListHead

def fanoutList (s : LinquOrchestratorState) (taskId : ℤ) : List ℤ :=
  s.depPool.tasks (s.get taskId).fanoutListHead

def record (s : LinquOrchestratorState) (e : Event) : LinquOrchestratorState :=
  { s with trace := e::s.trace }

def checkTaskConsumed (s : LinquOrchestratorState) (taskId : ℤ) : LinquOrchestratorState :=
  if (s.get taskId).status = .completed ∧
      (s.get taskId).fanoutCount ≤ (s.get taskId).fanoutRefcount then
    s.setStatus taskId .consumed
  else s

def onScopeRelease (s : LinquOrchestratorState) (taskId : ℤ) : LinquOrchestratorState :=
  s.checkTaskConsumed taskId

def raiseFanout (s : LinquOrchestratorState) (taskId : ℤ) : LinquOrchestratorState :=
  s.modify taskId (fun d => { d with fanoutRefcount := d.fanoutRefcount+1 })

/-- The bodies of the two walks of `propagate_completion`. -/
def releaseProducer (s : LinquOrchestratorState) (producer : ℤ) : LinquOrchestratorState :=
  (s.raiseFanout producer).checkTaskConsumed producer

def notifyConsumer (s : LinquOrchestratorState) (consumer : ℤ) : LinquOrchestratorState :=
  s.modify consumer (fun d => { d with faninRefcount := d.faninRefcount+1 })

def countSubTask (s : LinquOrchestratorState) (groupTid : ℤ) : LinquOrchestratorState :=
  s.modify groupTid (fun d => { d with subCompleteCount := d.subCompleteCount+1 })

def assignSubId (s : LinquOrchestratorState) (groupTid : ℤ) : LinquOrchestratorState :=
  { s with nextSubDispatchId := s.nextSubDispatchId-1
           subDispatchToGroup := mapSet s.subDispatchToGroup s.nextSubDispatchId groupTid }

def eraseSubId (s : LinquOrchestratorState) (subId : ℤ) : LinquOrchestratorState :=
  { s with subDispatchToGroup := mapErase s.subDispatchToGroup subId }

def eraseSpec (s : LinquOrchestratorState) (groupTid : ℤ) : LinquOrchestratorState :=
  { s with pendingGroupSpecs := mapErase s.pendingGroupSpecs groupTid }

def subCall (s : LinquOrchestratorState) (subId groupTid : ℤ) (kernelSo : Option String)
    (groupParams : List LinquParam) (i : ℕ) (sub : LinquSubTaskSpec) : DispatchCall :=
  { taskId := subId, target := sub.target, kernelSo := (sub.kernelSo.or kernelSo).getD "",
    params := groupParams++sub.privateParams, origin := .sub groupTid i,
    ring := s.taskRing, depPool := s.depPool }

section Propagate

variable (propagate : LinquOrchestratorState → ℤ → Except Fault LinquOrchestratorState)

/-- One round of the loop of `dispatch_group_sub_tasks`. Only a dispatcher is
asked: `dispatch_fn_` is not consulted for sub-tasks. -/
def dispatchSubTask (s : LinquOrchestratorState) (groupTid : ℤ) (kernelSo : Option String)
    (groupParams : List LinquParam) (numSubTasks i : ℕ) (sub : LinquSubTaskSpec) :
    Except Fault LinquOrchestratorState :=
  let call := s.subCall s.nextSubDispatchId groupTid kernelSo groupParams i sub
  let s := s.assignSubId groupTid
  match s.backend with
  | .dispatcher => .ok (s.record (.dispatch call))
  | _ =>
    let prev := (s.get groupTid).subCompleteCount
    let s := s.countSubTask groupTid
    if numSubTasks ≤ prev+1 then propagate (s.setStatus groupTid .completed) groupTid
    else .ok s

variable (between : ℕ → LinquOrchestratorState → Except Fault LinquOrchestratorState)

def dispatchFrom (groupTid : ℤ) (kernelSo : Option String) (groupParams : List LinquParam)
    (numSubTasks : ℕ) : ℕ → List LinquSubTaskSpec → LinquOrchestratorState →
      Except Fault LinquOrchestratorState
  | _, [], s => .ok s
  | i, sub::rest, s => do
    let s ← s.dispatchSubTask propagate groupTid kernelSo groupParams numSubTasks i sub
    let s ← between i s
    dispatchFrom groupTid kernelSo groupParams numSubTasks (i+1) rest s

def dispatchGroupSubTasks (s : LinquOrchestratorState) (groupTid : ℤ)
    (kernelSo : Option String) (groupParams : List LinquParam)
    (subTasks : List LinquSubTaskSpec) : Except Fault LinquOrchestratorState :=
  dispatchFrom propagate between groupTid kernelSo groupParams subTasks.length 0 subTasks s

/-- The body of the loop of `check_consumers_ready`. The mutex is held here
when completions are delivered, so nothing comes between the dispatches. -/
def checkConsumer (s : LinquOrchestratorState) (consumer : ℤ) :
    Except Fault LinquOrchestratorState :=
  if (s.get consumer).faninCount ≤ (s.get consumer).faninRefcount ∧
      (s.get consumer).status = .pending then
    if (s.get consumer).isGroup then
      let s := s.setStatus consumer .running
      match s.pendingGroupSpecs.lookup consumer with
      | some spec => do
        let s ← s.dispatchGroupSubTasks propagate (fun _ s => .ok s) consumer (some spec.kernelSo)
          spec.groupParams spec.subTasks
        return s.eraseSpec consumer
      | none => .ok s
    else .ok (s.setStatus consumer .ready)
  else .ok s

def checkConsumersReady (s : LinquOrchestratorState) (producerTaskId : ℤ) :
    Except Fault LinquOrchestratorState :=
  (s.fanoutList producerTaskId).foldlM (checkConsumer propagate) s

end Propagate

/-- A group that completes on the spot makes the function call itself, each
time for a group that was still pending, so the depth of the recursion is at
most the number of slots. -/
def propagateCompletion : ℕ → LinquOrchestratorState → ℤ → Except Fault LinquOrchestratorState
  | 0, _, _ => .error .outOfFuel
  | fuel+1, s, taskId => do
    let s := (s.faninList taskId).foldl releaseProducer s
    let s := (s.fanoutList taskId).foldl notifyConsumer s
    let s ← s.checkConsumersReady (propagateCompletion fuel) taskId
    return s.checkTaskConsumed taskId

def fuel (s : LinquOrchestratorState) : ℕ := s.taskRing.windowSize.toNat+1

/-- `desc->status = COMPLETED; propagate_completion(task_id)`. -/
def complete (s : LinquOrchestratorState) (taskId : ℤ) : Except Fault LinquOrchestratorState :=
  propagateCompletion s.fuel (s.setStatus taskId .completed) taskId

def onTaskComplete (s : LinquOrchestratorState) (taskId : ℤ) :
    Except Fault LinquOrchestratorState :=
  let s := s.record (.report taskId)
  match s.subDispatchToGroup.lookup taskId with
  | some groupTid =>
    let s := s.eraseSubId taskId
    let prev := (s.get groupTid).subCompleteCount
    let s := s.countSubTask groupTid
    if (s.get groupTid).groupSize ≤ prev+1 then s.complete groupTid else .ok s
  | none => if (s.get taskId).status = .running then s.complete taskId else .ok s

def deliver (ids : List ℤ) (s : LinquOrchestratorState) : Except Fault LinquOrchestratorState :=
  ids.foldlM onTaskComplete s

def consumedUpTo (s : LinquOrchestratorState) : ℕ → ℤ → ℤ
  | 0, cursor => cursor
  | n+1, cursor =>
    if cursor < s.taskRing.currentIndex ∧ (s.get cursor).status = .consumed then
      consumedUpTo s n (cursor+1)
    else cursor

def tryAdvanceRingPointers (s : LinquOrchestratorState) : LinquOrchestratorState :=
  let alive := s.taskRing.lastTaskAlive
  let cursor := s.consumedUpTo s.taskRing.activeCount.toNat alive
  let s := { s with taskRetireCount := s.taskRetireCount+(cursor-alive).toNat }
  if alive < cursor then
    let s := { s with taskRing := s.taskRing.setLastTaskAlive cursor
                      tensorMap := s.tensorMap.invalidateBelow cursor }
    let heapEnd := (s.get (cursor-1)).heapEnd
    if 0 < cursor ∧ s.heapRing.tail < heapEnd then
      { s with heapRing := s.heapRing.retireTo heapEnd }
    else s
  else s

/-- The wait loop of the two submit functions: one list of completions for
each sleep. Once no more arrive the loop only counts its spins. -/
def awaitSpace : List (List ℤ) → ℕ → LinquOrchestratorState → Except Fault LinquOrchestratorState
  | arrivals, spins, s =>
    if s.taskRing.hasSpace then .ok s
    else
      let s := s.tryAdvanceRingPointers
      if s.taskRing.hasSpace then .ok s
      else match arrivals with
        | [] => .error .taskRingDeadlock
        | ids::rest => do
          let s ← s.deliver ids
          if 100000 < spins+1 then .error .taskRingDeadlock else awaitSpace rest (spins+1) s

def waitForSpace (s : LinquOrchestratorState) (arrivals : List (List ℤ)) :
    Except Fault LinquOrchestratorState :=
  if s.taskRing.hasSpace then .ok s
  else awaitSpace arrivals 0 { s with taskBlockCount := s.taskBlockCount+1 }

def addEdge (s : LinquOrchestratorState) (producer consumer : ℤ) :
    Except Fault LinquOrchestratorState := do
  let (idx,pool) ← required (s.depPool.prepend (s.get consumer).depListHead producer) .depPoolFull
  let s := { s with depPool := pool }
  let s := s.modify consumer (fun d => { d with depListHead := some idx })
  let s := s.modify producer (fun d => { d with fanoutCount := d.fanoutCount+1 })
  let (idx,pool) ← required (s.depPool.prepend (s.get producer).fanoutListHead consumer) .depPoolFull
  let s := { s with depPool := pool }
  return s.modify producer (fun d => { d with fanoutListHead := some idx })

/-- The two halves of a round of the parameter loop. The counter is the local
`fanin`. -/
def linkRead (tid : ℤ) (sf : LinquOrchestratorState × ℕ) (p : LinquParam) :
    Except Fault (LinquOrchestratorState × ℕ) :=
  if p.type.reads then do
    match ← required (sf.1.tensorMap.lookup p.handle) .endlessChain with
    | some producer => return (← sf.1.addEdge producer tid,sf.2+1)
    | none => return sf
  else .ok sf

def linkWrite (tid : ℤ) (sf : LinquOrchestratorState × ℕ) (p : LinquParam) :
    Except Fault (LinquOrchestratorState × ℕ) :=
  if p.type.writes then do
    let tensorMap ← required (sf.1.tensorMap.insert p.handle tid true) .endlessChain
    return ({ sf.1 with tensorMap },sf.2)
  else .ok sf

def linkParam (tid : ℤ) (sf : LinquOrchestratorState × ℕ) (p : LinquParam) :
    Except Fault (LinquOrchestratorState × ℕ) := do
  let sf ← linkRead tid sf p
  linkWrite tid sf p

def allocTask (s : LinquOrchestratorState) : Except Fault (ℤ × LinquOrchestratorState) := do
  let (tid,taskRing) ← required s.taskRing.tryAlloc .windowFull
  return (tid,{ s with taskRing })

def joinScope (s : LinquOrchestratorState) (tid : ℤ) : Except Fault LinquOrchestratorState :=
  if 0 ≤ s.scopeStack.depth then do
    let scopeStack ← required (s.scopeStack.addTask tid) .scopeTasksFull
    return { s with scopeStack }.record (.submit tid true)
  else .ok (s.record (.submit tid false))

/-- The metrics at the end of the common part of the submit functions. -/
def notePeaks (s : LinquOrchestratorState) : LinquOrchestratorState :=
  { s with tasksSubmitted := s.tasksSubmitted+1
           peakTaskUsed := max s.peakTaskUsed s.taskRing.activeCount.toNat
           peakHeapUsed := max s.peakHeapUsed s.heapRing.used }

/-- The common part of `submit_task` and `submit_task_group`, once there is a
slot and up to where the status is decided; `group` holds the number of
sub-tasks of a group. -/
def enterTask (s : LinquOrchestratorState) (kernelSo : String) (group : Option ℕ)
    (params : List LinquParam) : Except Fault (ℤ × LinquOrchestratorState) := do
  let (tid,s) ← s.allocTask
  let s := s.modify tid (fun d => { d with
    kernelSo, taskId := tid, scopeDepth := s.scopeStack.depth.toNat,
    isGroup := group.isSome, groupSize := group.getD 0 })
  let (s,fanin) ← params.foldlM (linkParam tid) (s,0)
  let s := s.modify tid (fun d => { d with faninCount := fanin })
  let s ← s.joinScope tid
  let s := s.modify tid (fun d => { d with heapEnd := s.heapRing.top })
  return (tid,s.notePeaks)

/-- The end of `submit_task`, from where the status is set. -/
def launchTask (s : LinquOrchestratorState) (tid : ℤ) (target : LinquCoordinate)
    (kernelSo : Option String) (params : List LinquParam) : Except Fault LinquOrchestratorState :=
  let s := s.setStatus tid .running
  let call : DispatchCall :=
    { taskId := tid, target, kernelSo := kernelSo.getD "", params, origin := .plain,
      ring := s.taskRing, depPool := s.depPool }
  match s.backend with
  | .dispatcher => .ok (s.record (.dispatch call))
  | .dispatchFn => (s.record (.dispatchFn call)).complete tid
  | .none => s.complete tid

def submitTask (s : LinquOrchestratorState) (target : LinquCoordinate) (kernelSo : Option String)
    (params : List LinquParam) (arrivals : List (List ℤ)) :
    Except Fault LinquOrchestratorState := do
  let s ← s.waitForSpace arrivals
  let (tid,s) ← s.enterTask (kernelSo.getD "") none params
  s.launchTask tid target kernelSo params

/-- The end of `submit_task_group`: an empty group is complete, a group
without producers is dispatched, any other waits. -/
def launchGroup (s : LinquOrchestratorState) (tid : ℤ) (kernelSo : Option String)
    (groupParams : List LinquParam) (subTasks : List LinquSubTaskSpec)
    (dispatchArrivals : List (List ℤ)) : Except Fault LinquOrchestratorState :=
  if subTasks.length = 0 then s.complete tid
  else if (s.get tid).faninCount = 0 then
    (s.setStatus tid .running).dispatchGroupSubTasks (propagateCompletion s.fuel)
      (fun i s => s.deliver (dispatchArrivals.getD i [])) tid kernelSo groupParams subTasks
  else
    let s := s.setStatus tid .pending
    let spec : PendingGroupSpec := { kernelSo := kernelSo.getD "", groupParams, subTasks }
    .ok { s with pendingGroupSpecs := mapSet s.pendingGroupSpecs tid spec }

def submitTaskGroup (s : LinquOrchestratorState) (kernelSo : Option String)
    (groupParams : List LinquParam) (subTasks : List LinquSubTaskSpec)
    (arrivals dispatchArrivals : List (List ℤ)) : Except Fault LinquOrchestratorState := do
  let s ← s.waitForSpace arrivals
  let (tid,s) ← s.enterTask (kernelSo.getD "group") (some subTasks.length) groupParams
  s.launchGroup tid kernelSo groupParams subTasks dispatchArrivals

def scopeBegin (s : LinquOrchestratorState) : Except Fault LinquOrchestratorState := do
  let scopeStack ← required s.scopeStack.scopeBegin .scopeDepth
  return { s with scopeStack, scopeBeginCount := s.scopeBeginCount+1 }

def releaseScopeToken (s : LinquOrchestratorState) (taskId : ℤ) : LinquOrchestratorState :=
  if (s.get taskId).taskFreed then s else s.raiseFanout taskId

def liveIds (s : LinquOrchestratorState) : List ℤ :=
  (List.range s.taskRing.activeCount.toNat).map (fun i : ℕ => s.taskRing.lastTaskAlive+i)

/-- The ids of the innermost scope, and the state without it. -/
def popScope (s : LinquOrchestratorState) :
    Except Fault (List ℤ × LinquOrchestratorState) := do
  let (ids,scopeStack) ← required s.scopeStack.scopeEnd .scopeUnderflow
  return (ids,{ s with scopeStack, scopeEndCount := s.scopeEndCount+1 })

/-- The tokens of the innermost scope, and the check of every live task. -/
def closeScope (s : LinquOrchestratorState) : Except Fault LinquOrchestratorState := do
  let (ids,s) ← s.popScope
  let s := ids.foldl releaseScopeToken s
  return s.liveIds.foldl checkTaskConsumed s

def scopeEnd (s : LinquOrchestratorState) : Except Fault LinquOrchestratorState := do
  let s ← s.closeScope
  return s.tryAdvanceRingPointers

/-- The allocation loop of `alloc_tensor`: one list of completions for each
sleep, as in `awaitSpace`. -/
def awaitHeap (size : ℕ) : List (List ℤ) → ℕ → LinquOrchestratorState →
    Except Fault LinquOrchestratorState
  | arrivals, spins, s =>
    match s.heapRing.tryAlloc size with
    | some (_,heapRing) => .ok { s with heapRing }
    | none =>
      let s := s.tryAdvanceRingPointers
      match s.heapRing.tryAlloc size with
      | some (_,heapRing) => .ok { s with heapRing }
      | none => match arrivals with
        | [] => .error .heapRingDeadlock
        | ids::rest => do
          let s ← s.deliver ids
          if 100000 < spins+1 then .error .heapRingDeadlock else awaitHeap size rest (spins+1) s

def waitForHeap (s : LinquOrchestratorState) (size : ℕ) (arrivals : List (List ℤ)) :
    Except Fault LinquOrchestratorState :=
  match s.heapRing.tryAlloc size with
  | some (_,heapRing) => .ok { s with heapRing }
  | none => awaitHeap size arrivals 0 { s with heapBlockCount := s.heapBlockCount+1 }

def allocTensor (s : LinquOrchestratorState) (size : ℕ) (arrivals : List (List ℤ)) :
    Except Fault (UInt64 × LinquOrchestratorState) :=
  let handle := s.nextTensorHandle
  let s := { s with nextTensorHandle := handle+1 }
  if size = 0 then .ok (handle,s)
  else do
    let s ← s.waitForHeap size arrivals
    return (handle,{ s with peakHeapUsed := max s.peakHeapUsed s.heapRing.used })

def freeTensor (s : LinquOrchestratorState) (_handle : UInt64) : LinquOrchestratorState :=
  { s with freeTensorCount := s.freeTensorCount+1 }

def orchestrationDone (s : LinquOrchestratorState) : LinquOrchestratorState :=
  { s with done := true }

end LinquOrchestratorState

open LinquOrchestratorState

/-- The calls an orchestrator can receive; the extra lists are completions
that arrive while the call is in progress. -/
inductive Op where
  | submitTask (target : LinquCoordinate) (kernelSo : Option String) (params : List LinquParam)
      (arrivals : List (List ℤ))
  | submitTaskGroup (kernelSo : Option String) (groupParams : List LinquParam)
      (subTasks : List LinquSubTaskSpec) (arrivals dispatchArrivals : List (List ℤ))
  | scopeBegin
  | scopeEnd
  | allocTensor (size : ℕ) (arrivals : List (List ℤ))
  | freeTensor (handle : UInt64)
  | orchestrationDone
  | onTaskComplete (taskId : ℤ)
  | onScopeRelease (taskId : ℤ)
  | tryAdvanceRingPointers
  deriving DecidableEq, Repr

def exec (s : LinquOrchestratorState) : Op → Except Fault LinquOrchestratorState
  | .submitTask target kernelSo params arrivals => s.submitTask target kernelSo params arrivals
  | .submitTaskGroup kernelSo groupParams subTasks arrivals dispatchArrivals =>
      s.submitTaskGroup kernelSo groupParams subTasks arrivals dispatchArrivals
  | .scopeBegin => s.scopeBegin
  | .scopeEnd => s.scopeEnd
  | .allocTensor size arrivals => (s.allocTensor size arrivals).map Prod.snd
  | .freeTensor handle => .ok (s.freeTensor handle)
  | .orchestrationDone => .ok s.orchestrationDone
  | .onTaskComplete taskId => s.onTaskComplete taskId
  | .onScopeRelease taskId => .ok (s.onScopeRelease taskId)
  | .tryAdvanceRingPointers => .ok s.tryAdvanceRingPointers

/-- A call that returns. -/
def Steps (s : LinquOrchestratorState) (op : Op) (s' : LinquOrchestratorState) : Prop :=
  exec s op = .ok s'

end Linqu.Orchestrator
