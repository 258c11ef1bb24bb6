import Linqu.TaskRing
import Linqu.HeapRing
import Linqu.DepPool
import Linqu.TensorMap
import Linqu.ScopeStack
import Linqu.ReadyQueue

/-!
# The level runtime

One submitting thread, workers and schedulers, as a step relation. A step is
a section under a spinlock or a mutex, an atomic update, a plain store of a
status, or a stretch of code that only the thread itself looks at; loads go
with the step that follows them, and a call of `try_advance_ring_pointers` is
one step. What a thread is about to do is its program counter, which also
holds its local variables.

`enqueues` records every id put into the ready queue, newest first, with the
ring and the dependency pool as they were; `walks` the tasks whose fanout
chain has been walked.
-/

set_option autoImplicit false

namespace Linqu.Level
open Linqu.TaskRing Linqu.HeapRing Linqu.DepPool Linqu.TensorMap Linqu.ScopeStack
open Linqu.ReadyQueue

structure LevelRuntimeConfig where
  taskRingWindow : ℕ := 4096
  heapRingCapacity : ℕ := 64*1024*1024
  depPoolCapacity : ℕ := 8192
  tensormapBuckets : ℕ := 4096
  tensormapPool : ℕ := 8192
  readyQueueCapacity : ℕ := 4096
  deriving DecidableEq, Repr

structure LinquTensor where
  handle : UInt64 := 0
  count : ℕ := 0
  deriving DecidableEq, Repr

def LinquTensor.isValid (t : LinquTensor) : Bool := t.handle ≠ 0

/-- The arguments of `submit_worker`. -/
structure Request where
  name : String
  inputs : List LinquTensor
  outputs : List LinquTensor
  deriving DecidableEq, Repr

/-- Where the submitting thread is. `producers` is `within_level_producers`. -/
inductive SubmitPc where
  | idle
  | waiting (req : Request) (spins : ℕ)
  | scanning (tid : ℤ) (outputs inputs : List LinquTensor) (fanin : ℕ) (producers : List ℤ)
  | registering (tid : ℤ) (outputs : List LinquTensor) (fanin : ℕ) (producers : List ℤ)
  | storingFanin (tid : ℤ) (fanin : ℕ) (producers : List ℤ)
  | storingStatus (tid : ℤ) (fanin : ℕ) (producers : List ℤ)
  | exposing (tid : ℤ) (fanin : ℕ) (producers : List ℤ)
  | setting (tid : ℤ)
  | enqueuing (tid : ℤ)
  deriving DecidableEq, Repr

/-- Where a worker is with its task. `rest` are the producers it still has to
release; without it the check is that of the task itself. -/
inductive WorkerPc where
  | idle
  | dequeued (tid : ℤ)
  | running (tid : ℤ)
  | returned (tid : ℤ)
  | completed (tid : ℤ)
  | releasing (tid : ℤ) (rest : List ℤ)
  | checking (tid target : ℤ) (rest : Option (List ℤ))
  | consuming (tid target : ℤ) (rest : Option (List ℤ))
  | advancing (tid target : ℤ) (rest : Option (List ℤ))
  deriving DecidableEq, Repr

/-- Where a scheduler is in a pass over the tasks from `i` up to `cur`. `count`
is the fanin refcount that its addition reached. -/
inductive SchedulePc where
  | waiting
  | scanning (i cur : ℤ)
  | clearing (i cur : ℤ) (count : ℕ)
  | setting (i cur : ℤ) (count : ℕ)
  | enqueuing (i cur : ℤ)
  deriving DecidableEq, Repr

structure Enqueue where
  taskId : ℤ
  ring : LinquTaskRing
  depPool : LinquDepListPool

structure LevelRuntime where
  taskRing : LinquTaskRing
  heapRing : LinquHeapRing
  depPool : LinquDepListPool
  tensorMap : LinquTensorMap
  scopeStack : LinquScopeStack
  readyQueue : Queue
  taskOutputs : ℤ → List LinquTensor := fun _ => []
  externalInputs : ℤ → List UInt64 := fun _ => []
  externalReady : ℤ → List UInt64 := fun _ => []
  tensorReady : UInt64 → Bool := fun _ => false
  schedCount : ℕ
  workerCount : ℕ
  submitter : SubmitPc := .idle
  schedulers : ℕ → SchedulePc := fun _ => .waiting
  workers : ℕ → WorkerPc := fun _ => .idle
  enqueues : List Enqueue := []
  walks : List ℤ := []

namespace LevelRuntime

def init (schedThreads workerThreads : ℤ) (cfg : LevelRuntimeConfig) :
    Option LevelRuntime := do
  let taskRing ← LinquTaskRing.init cfg.taskRingWindow
  let depPool ← LinquDepListPool.init cfg.depPoolCapacity
  let tensorMap ← LinquTensorMap.init cfg.tensormapBuckets cfg.tensormapPool
  return { taskRing, depPool, tensorMap
           heapRing := .init cfg.heapRingCapacity
           scopeStack := .init 8 (cfg.taskRingWindow*8)
           readyQueue := .init cfg.readyQueueCapacity
           schedCount := if 0 < schedThreads then schedThreads.toNat else 1
           workerCount := if 0 < workerThreads then workerThreads.toNat else 1 }

def get (s : LevelRuntime) (taskId : ℤ) : LinquTaskDescriptor := s.taskRing.get taskId

def modify (s : LevelRuntime) (taskId : ℤ) (f : LinquTaskDescriptor → LinquTaskDescriptor) :
    LevelRuntime :=
  { s with taskRing := s.taskRing.modify taskId f }

def setStatus (s : LevelRuntime) (taskId : ℤ) (v : Status) : LevelRuntime :=
  s.modify taskId (fun d => { d with status := v })

def faninList (s : LevelRuntime) (taskId : ℤ) : List ℤ :=
  s.depPool.tasks (s.get taskId).depListHead

def fanoutList (s : LevelRuntime) (taskId : ℤ) : List ℤ :=
  s.depPool.tasks (s.get taskId).fanoutListHead

def setSubmitter (s : LevelRuntime) (pc : SubmitPc) : LevelRuntime := { s with submitter := pc }

def setWorker (s : LevelRuntime) (i : ℕ) (pc : WorkerPc) : LevelRuntime :=
  { s with workers := Function.update s.workers i pc }

def setScheduler (s : LevelRuntime) (k : ℕ) (pc : SchedulePc) : LevelRuntime :=
  { s with schedulers := Function.update s.schedulers k pc }

def enqueueReady (s : LevelRuntime) (taskId : ℤ) : LevelRuntime :=
  { s with readyQueue := s.readyQueue.enqueueReady taskId
           enqueues := ⟨taskId,s.taskRing,s.depPool⟩::s.enqueues }

def raiseFanin (s : LevelRuntime) (taskId : ℤ) (n : ℕ) : LevelRuntime :=
  s.modify taskId (fun d => { d with atomicFaninRefcount := d.atomicFaninRefcount+n })

def raiseFanout (s : LevelRuntime) (taskId : ℤ) : LevelRuntime :=
  s.modify taskId (fun d => { d with atomicFanoutRefcount := d.atomicFanoutRefcount+1 })

def clearReady (s : LevelRuntime) (taskId : ℤ) : LevelRuntime :=
  { s with externalReady := Function.update s.externalReady (s.taskRing.slot taskId) [] }

def markOutputs (s : LevelRuntime) (outputs : List LinquTensor) : LevelRuntime :=
  { s with tensorReady := fun h => outputs.any (fun out => out.handle == h) || s.tensorReady h }

/-- `if (try_set_ready(desc)) enqueue_ready(task_id)` within a locked section. -/
def wake (s : LevelRuntime) (taskId : ℤ) : LevelRuntime :=
  if (s.get taskId).status = .pending then (s.setStatus taskId .ready).enqueueReady taskId else s

def linkFanin (s : LevelRuntime) (tid producer : ℤ) : Option LevelRuntime := do
  let (idx,depPool) ← s.depPool.prepend (s.get tid).depListHead producer
  let s := { s with depPool }
  return s.modify tid (fun d => { d with depListHead := some idx })

def linkFanout (s : LevelRuntime) (producer consumer : ℤ) : Option LevelRuntime := do
  let (idx,depPool) ← s.depPool.prepend (s.get producer).fanoutListHead consumer
  let s := { s with depPool }
  return s.modify producer (fun d => { d with
    fanoutListHead := some idx, fanoutCount := d.fanoutCount+1 })

/-- The locked section of `add_consumer_to_producer`. -/
def addConsumerToProducer (s : LevelRuntime) (producer consumer : ℤ) : Option LevelRuntime := do
  let s ← s.linkFanout producer consumer
  return if (s.get producer).status.isDone then s.raiseFanin consumer 1 else s

/-- One entry of the fanout chain. -/
def notifyConsumer (s : LevelRuntime) (consumer : ℤ) : LevelRuntime :=
  let s := s.raiseFanin consumer 1
  if (s.get consumer).faninCount ≤ (s.get consumer).atomicFaninRefcount then s.wake consumer else s

def recordWalk (s : LevelRuntime) (taskId : ℤ) : LevelRuntime :=
  { s with walks := taskId::s.walks }

/-- The locked section of `propagate_completion`. -/
def walkFanout (s : LevelRuntime) (taskId : ℤ) : LevelRuntime :=
  (s.fanoutList taskId).foldl notifyConsumer (s.recordWalk taskId)

def consumedUpTo (s : LevelRuntime) : ℕ → ℤ → ℤ
  | 0, cursor => cursor
  | n+1, cursor =>
    if cursor < s.taskRing.currentIndex ∧ (s.get cursor).status = .consumed then
      consumedUpTo s n (cursor+1)
    else cursor

def tryAdvanceRingPointers (s : LevelRuntime) : LevelRuntime :=
  let alive := s.taskRing.lastTaskAlive
  let cursor := s.consumedUpTo s.taskRing.activeCount.toNat alive
  if alive < cursor then
    let s := { s with taskRing := s.taskRing.setLastTaskAlive cursor
                      tensorMap := s.tensorMap.invalidateBelow cursor }
    let heapEnd := (s.get (cursor-1)).heapEnd
    if 0 < cursor ∧ s.heapRing.tail < heapEnd then
      { s with heapRing := s.heapRing.retireTo heapEnd }
    else s
  else s

/-- Step 1 of `submit_worker`. -/
def allocTask (s : LevelRuntime) (req : Request) : Option LevelRuntime := do
  let (tid,taskRing) ← s.taskRing.tryAlloc
  let slot := taskRing.slot tid
  let s := { s with
    taskRing := taskRing
    taskOutputs := Function.update s.taskOutputs slot req.outputs
    externalInputs := Function.update s.externalInputs slot []
    externalReady := Function.update s.externalReady slot [] }
  let s := s.modify tid (fun d => { d with taskId := tid, kernelSo := req.name })
  return s.setSubmitter (.scanning tid req.outputs req.inputs 0 [])

def pushExternal (s : LevelRuntime) (tid : ℤ) (handle : UInt64) : LevelRuntime :=
  let slot := s.taskRing.slot tid
  { s with
    externalInputs := Function.update s.externalInputs slot (s.externalInputs slot++[handle])
    externalReady := Function.update s.externalReady slot (s.externalReady slot++[handle]) }

/-- One round of the loop of step 2. -/
def scanInput (s : LevelRuntime) (tid : ℤ) (outputs rest : List LinquTensor) (fanin : ℕ)
    (producers : List ℤ) (input : LinquTensor) : Option LevelRuntime :=
  if input.isValid then do
    match ← s.tensorMap.lookup input.handle with
    | some producer =>
      let s ← s.linkFanin tid producer
      return s.setSubmitter (.scanning tid outputs rest (fanin+1) (producers++[producer]))
    | none =>
      if s.tensorReady input.handle then
        return s.setSubmitter (.scanning tid outputs rest fanin producers)
      else
        return (s.pushExternal tid input.handle).setSubmitter
          (.scanning tid outputs rest (fanin+1) producers)
  else return s.setSubmitter (.scanning tid outputs rest fanin producers)

/-- Step 3: one block for all outputs, of eight bytes an element. -/
def allocBuffers (s : LevelRuntime) (outputs : List LinquTensor) : Option LevelRuntime :=
  let bytes := (outputs.map (fun t => t.count*8)).sum
  if 0 < bytes then do
    let (_,heapRing) ← s.heapRing.tryAlloc bytes
    return { s with heapRing }
  else some s

def addToScope (s : LevelRuntime) (tid : ℤ) : Option LevelRuntime :=
  if 0 ≤ s.scopeStack.depth then do
    let scopeStack ← s.scopeStack.addTask tid
    return { s with scopeStack }
  else some s

/-- Steps 4 to 6. -/
def registerTask (s : LevelRuntime) (tid : ℤ) (outputs : List LinquTensor) :
    Option LevelRuntime := do
  let tensorMap ← outputs.foldlM (fun tm out => LinquTensorMap.insert tm out.handle tid true)
    s.tensorMap
  let s ← { s with tensorMap }.addToScope tid
  return s.modify tid (fun d => { d with heapEnd := s.heapRing.top })

def storeFanin (s : LevelRuntime) (tid : ℤ) (fanin : ℕ) : LevelRuntime :=
  s.modify tid (fun d => { d with faninCount := fanin })

/-- The next step of `submit_worker`. -/
def submitStep (s : LevelRuntime) : Option LevelRuntime :=
  match s.submitter with
  | .idle => none
  | .waiting req spins =>
    if s.taskRing.hasSpace then s.allocTask req
    else
      let s := s.tryAdvanceRingPointers
      if s.taskRing.hasSpace then some s
      else if 100000 < spins+1 then none
      else some (s.setSubmitter (.waiting req (spins+1)))
  | .scanning tid outputs (input::rest) fanin producers =>
    s.scanInput tid outputs rest fanin producers input
  | .scanning tid outputs [] fanin producers => do
    let s ← s.allocBuffers outputs
    return s.setSubmitter (.registering tid outputs fanin producers)
  | .registering tid outputs fanin producers => do
    let s ← s.registerTask tid outputs
    return s.setSubmitter (.storingFanin tid fanin producers)
  | .storingFanin tid fanin producers =>
    some ((s.storeFanin tid fanin).setSubmitter (.storingStatus tid fanin producers))
  | .storingStatus tid fanin producers =>
    if fanin = 0 then some ((s.setStatus tid .ready).setSubmitter (.enqueuing tid))
    else some ((s.setStatus tid .pending).setSubmitter (.exposing tid fanin producers))
  | .exposing tid fanin (producer::rest) => do
    let s ← s.addConsumerToProducer producer tid
    return s.setSubmitter (.exposing tid fanin rest)
  | .exposing tid fanin [] =>
    if fanin ≤ (s.get tid).atomicFaninRefcount then some (s.setSubmitter (.setting tid))
    else some (s.setSubmitter .idle)
  | .setting tid =>
    if (s.get tid).status = .pending then
      some ((s.setStatus tid .ready).setSubmitter (.enqueuing tid))
    else some (s.setSubmitter .idle)
  | .enqueuing tid => some ((s.enqueueReady tid).setSubmitter .idle)

/-- Where a worker goes on after a check. -/
def resume (tid : ℤ) : Option (List ℤ) → WorkerPc
  | some rest => .releasing tid rest
  | none => .idle

/-- The next step of a worker. -/
def workStep (s : LevelRuntime) (i : ℕ) : Option LevelRuntime :=
  match s.workers i with
  | .idle => do
    let (tid,readyQueue) ← s.readyQueue.dequeueReady
    let s := { s with readyQueue }
    return if tid < 0 then s else s.setWorker i (.dequeued tid)
  | .dequeued tid => some ((s.setStatus tid .running).setWorker i (.running tid))
  | .running tid =>
    some ((s.markOutputs (s.taskOutputs (s.taskRing.slot tid))).setWorker i (.returned tid))
  | .returned tid => some ((s.setStatus tid .completed).setWorker i (.completed tid))
  | .completed tid =>
    let s := s.walkFanout tid
    some (s.setWorker i (.releasing tid (s.faninList tid)))
  | .releasing tid (producer::rest) =>
    some ((s.raiseFanout producer).setWorker i (.checking tid producer (some rest)))
  | .releasing tid [] => some (s.setWorker i (.checking tid tid none))
  | .checking tid target rest =>
    if (s.get target).status = .completed ∧
        (s.get target).fanoutCount ≤ (s.get target).atomicFanoutRefcount then
      some (s.setWorker i (.consuming tid target rest))
    else some (s.setWorker i (resume tid rest))
  | .consuming tid target rest =>
    some ((s.setStatus target .consumed).setWorker i (.advancing tid target rest))
  | .advancing tid target rest =>
    let s := if target = s.taskRing.lastTaskAlive then s.tryAdvanceRingPointers else s
    some (s.setWorker i (resume tid rest))

/-- A pending task whose external inputs have all become ready. -/
def externalsReady (s : LevelRuntime) (i : ℤ) : Bool :=
  let ready := s.externalReady (s.taskRing.slot i)
  (s.get i).status = .pending ∧ ready ≠ [] ∧ ready.all s.tensorReady

/-- The next step of a scheduler. -/
def scheduleStep (s : LevelRuntime) (k : ℕ) : LevelRuntime :=
  match s.schedulers k with
  | .waiting =>
    s.setScheduler k (.scanning s.taskRing.lastTaskAlive s.taskRing.currentIndex)
  | .scanning i cur =>
    if cur ≤ i then s.setScheduler k .waiting
    else if s.externalsReady i then
      let s := s.raiseFanin i (s.externalReady (s.taskRing.slot i)).length
      s.setScheduler k (.clearing i cur (s.get i).atomicFaninRefcount)
    else s.setScheduler k (.scanning (i+1) cur)
  | .clearing i cur count => (s.clearReady i).setScheduler k (.setting i cur count)
  | .setting i cur count =>
    if (s.get i).faninCount ≤ count ∧ (s.get i).status = .pending then
      (s.setStatus i .ready).setScheduler k (.enqueuing i cur)
    else s.setScheduler k (.scanning (i+1) cur)
  | .enqueuing i cur => (s.enqueueReady i).setScheduler k (.scanning (i+1) cur)

end LevelRuntime

open LevelRuntime

/-- A call of `submit_worker`, a step of one of the threads, or another level
marking a tensor ready. -/
inductive Act where
  | call (req : Request)
  | submit
  | work (i : ℕ)
  | schedule (k : ℕ)
  | markReady (handle : UInt64)
  deriving DecidableEq, Repr

def step (s : LevelRuntime) : Act → Option LevelRuntime
  | .call req =>
    if s.submitter = .idle then some (s.setSubmitter (.waiting req 0)) else none
  | .submit => s.submitStep
  | .work i => if i < s.workerCount then s.workStep i else none
  | .schedule k => if k < s.schedCount then some (s.scheduleStep k) else none
  | .markReady handle => some { s with tensorReady := Function.update s.tensorReady handle true }

def Steps (s : LevelRuntime) (a : Act) (s' : LevelRuntime) : Prop := step s a = some s'

end Linqu.Level
