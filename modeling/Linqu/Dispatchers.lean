import Linqu.Orchestrator
import Linqu.MsgTypes

/-!
# Messages from a remote dispatcher

The tables of the remote dispatcher: what its sender and a TASK_COMPLETE
message do to them, and the result that is passed on to the orchestrator
through the completion callback.
-/

set_option autoImplicit false

namespace Linqu.Dispatchers
open Linqu.Orchestrator Linqu.MsgTypes

inductive TaskStatus where
  | pending
  | running
  | completed
  | failed
  deriving DecidableEq, Repr

structure DispatchResult where
  taskId : ℤ
  status : TaskStatus
  errorCode : ℤ := 0
  deriving DecidableEq, Repr

structure RemoteDispatcher where
  pending : List (ℤ × TaskStatus) := []
  outstanding : ℤ := 0
  deriving DecidableEq, Repr

/-- `dispatch` up to `send`. The lock is free while the message is sent. -/
def RemoteDispatcher.dispatchEnter (d : RemoteDispatcher) (taskId : Int32) : RemoteDispatcher :=
  { pending := mapSet d.pending taskId.toInt .pending, outstanding := d.outstanding+1 }

/-- `dispatch` after `send`, with the result that a failure passes on. -/
def RemoteDispatcher.dispatchLeave (d : RemoteDispatcher) (taskId : Int32) (ok : Bool) :
    Option DispatchResult × RemoteDispatcher :=
  if ok then (none,d) else
    (some { taskId := taskId.toInt, status := .failed, errorCode := -1 },
      { pending := mapSet d.pending taskId.toInt .failed, outstanding := d.outstanding-1 })

/-- The predicate that `wait_all` waits for. -/
def RemoteDispatcher.waitAllReady (d : RemoteDispatcher) : Bool := d.outstanding ≤ 0

/-- The body of `recv_thread_fn` for a TASK_COMPLETE message. The result is
passed on before the tables are updated, which it does not look at. -/
def RemoteDispatcher.recvTaskComplete (d : RemoteDispatcher) (payload : List UInt8) :
    DispatchResult × RemoteDispatcher :=
  let comp := TaskCompletePayload.deserialize payload
  let tid := comp.taskId.toInt32.toInt
  let st := if comp.status = 0 then TaskStatus.completed else TaskStatus.failed
  ({ taskId := tid, status := st, errorCode := comp.status.toInt },
    { pending := mapSet d.pending tid st, outstanding := d.outstanding-1 })

/-- The callback that `wire_dispatcher_callback` installs: a failed task is
not completed. -/
def onCompletion (s : LinquOrchestratorState) (r : DispatchResult) :
    Except Fault LinquOrchestratorState :=
  if r.status = .completed then s.onTaskComplete r.taskId else .ok s

/-- A TASK_COMPLETE message, from the wire to the orchestrator. -/
def receive (d : RemoteDispatcher) (s : LinquOrchestratorState) (payload : List UInt8) :
    Except Fault (RemoteDispatcher × LinquOrchestratorState) := do
  let (r,d) := d.recvTaskComplete payload
  let s ← onCompletion s r
  return (d,s)

end Linqu.Dispatchers
