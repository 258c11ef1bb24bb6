import Linqu.Orchestrator

/-!
# The mock dispatcher

`MockDispatcher::dispatch` records the task and reports it COMPLETED before it
returns, so `on_task_complete` runs inside the call that dispatched. It takes
the scheduler mutex: a dispatch made while the mutex is held, from within
another completion, never returns. Only the functions that reach a dispatch
differ from those of `Orchestrator`, and they need no fuel.
-/

set_option autoImplicit false

namespace Linqu.MockDispatcher
open Linqu.TaskRing Linqu.Orchestrator Linqu.Orchestrator.LinquOrchestratorState
open Linqu.OrchestrationApi

section Dispatch

variable (notify : LinquOrchestratorState → ℤ → Except Fault LinquOrchestratorState)

def dispatch (s : LinquOrchestratorState) (call : DispatchCall) :
    Except Fault LinquOrchestratorState :=
  notify (s.record (.dispatch call)) call.taskId

def dispatchFrom (groupTid : ℤ) (kernelSo : Option String) (groupParams : List LinquParam) :
    ℕ → List LinquSubTaskSpec → LinquOrchestratorState → Except Fault LinquOrchestratorState
  | _, [], s => .ok s
  | i, sub::rest, s => do
    let call := s.subCall s.nextSubDispatchId groupTid kernelSo groupParams i sub
    let s ← dispatch notify (s.assignSubId groupTid) call
    dispatchFrom groupTid kernelSo groupParams (i+1) rest s

def checkConsumer (s : LinquOrchestratorState) (consumer : ℤ) :
    Except Fault LinquOrchestratorState :=
  if (s.get consumer).faninCount ≤ (s.get consumer).faninRefcount ∧
      (s.get consumer).status = .pending then
    if (s.get consumer).isGroup then
      let s := s.setStatus consumer .running
      match s.pendingGroupSpecs.lookup consumer with
      | some spec => do
        let s ← dispatchFrom notify consumer (some spec.kernelSo) spec.groupParams 0 spec.subTasks s
        return s.eraseSpec consumer
      | none => .ok s
    else .ok (s.setStatus consumer .ready)
  else .ok s

def propagateCompletion (s : LinquOrchestratorState) (taskId : ℤ) :
    Except Fault LinquOrchestratorState := do
  let s := (s.faninList taskId).foldl releaseProducer s
  let s := (s.fanoutList taskId).foldl notifyConsumer s
  let s ← (s.fanoutList taskId).foldlM (checkConsumer notify) s
  return s.checkTaskConsumed taskId

end Dispatch

/-- What a report does while the mutex is held. -/
def relock (_ : LinquOrchestratorState) (_ : ℤ) : Except Fault LinquOrchestratorState :=
  .error .mutexHeld

def onTaskComplete (s : LinquOrchestratorState) (taskId : ℤ) :
    Except Fault LinquOrchestratorState :=
  let s := s.record (.report taskId)
  match s.subDispatchToGroup.lookup taskId with
  | some groupTid =>
    let s := s.eraseSubId taskId
    let prev := (s.get groupTid).subCompleteCount
    let s := s.countSubTask groupTid
    if (s.get groupTid).groupSize ≤ prev+1 then
      propagateCompletion relock (s.setStatus groupTid .completed) groupTid
    else .ok s
  | none =>
    if (s.get taskId).status = .running then
      propagateCompletion relock (s.setStatus taskId .completed) taskId
    else .ok s

def launchTask (s : LinquOrchestratorState) (tid : ℤ) (target : LinquCoordinate)
    (kernelSo : Option String) (params : List LinquParam) : Except Fault LinquOrchestratorState :=
  let s := s.setStatus tid .running
  dispatch onTaskComplete s
    { taskId := tid, target, kernelSo := kernelSo.getD "", params, origin := .plain,
      ring := s.taskRing, depPool := s.depPool }

/-- An empty group is propagated without the mutex. -/
def launchGroup (s : LinquOrchestratorState) (tid : ℤ) (kernelSo : Option String)
    (groupParams : List LinquParam) (subTasks : List LinquSubTaskSpec) :
    Except Fault LinquOrchestratorState :=
  if subTasks.length = 0 then
    propagateCompletion onTaskComplete (s.setStatus tid .completed) tid
  else if (s.get tid).faninCount = 0 then
    dispatchFrom onTaskComplete tid kernelSo groupParams 0 subTasks (s.setStatus tid .running)
  else
    let s := s.setStatus tid .pending
    let spec : PendingGroupSpec := { kernelSo := kernelSo.getD "", groupParams, subTasks }
    .ok { s with pendingGroupSpecs := mapSet s.pendingGroupSpecs tid spec }

/-- The calls of a program. With this dispatcher, or none, nothing is reported
while a call waits. -/
inductive ProgramCall where
  | submitTask (target : LinquCoordinate) (kernelSo : Option String) (params : List LinquParam)
  | submitTaskGroup (kernelSo : Option String) (groupParams : List LinquParam)
      (subTasks : List LinquSubTaskSpec)
  | allocTensor (size : ℕ)
  | scopeBegin
  | scopeEnd
  deriving DecidableEq, Repr

def exec (s : LinquOrchestratorState) : ProgramCall → Except Fault LinquOrchestratorState
  | .submitTask target kernelSo params => do
    let s ← s.waitForSpace []
    let (tid,s) ← s.enterTask (kernelSo.getD "") none params
    launchTask s tid target kernelSo params
  | .submitTaskGroup kernelSo groupParams subTasks => do
    let s ← s.waitForSpace []
    let (tid,s) ← s.enterTask (kernelSo.getD "group") (some subTasks.length) groupParams
    launchGroup s tid kernelSo groupParams subTasks
  | .allocTensor size => (s.allocTensor size []).map Prod.snd
  | .scopeBegin => s.scopeBegin
  | .scopeEnd => s.scopeEnd

/-- The same call without a dispatcher. -/
def ProgramCall.toOp : ProgramCall → Op
  | .submitTask target kernelSo params => .submitTask target kernelSo params []
  | .submitTaskGroup kernelSo groupParams subTasks =>
      .submitTaskGroup kernelSo groupParams subTasks [] []
  | .allocTensor size => .allocTensor size []
  | .scopeBegin => .scopeBegin
  | .scopeEnd => .scopeEnd

end Linqu.MockDispatcher
