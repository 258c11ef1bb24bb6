import Linqu.Payloads
import Linqu.Header
import Linqu.PeerRegistry

/-!
# The node daemon

The handlers of the messages that name work or peers. The code cache is what
is loaded under a name; a handler that reads outside of its payload has no
result.
-/

set_option autoImplicit false

namespace Linqu.NodeDaemon
open Linqu.MsgTypes Linqu.Header Linqu.PeerRegistry Linqu.OrchestrationApi

/-- A call of the entry function of a kernel, after that many calls of
`alloc_tensor`. -/
structure KernelRun where
  kernelSo : List UInt8
  tensors : ℕ
  args : List UInt64
  deriving DecidableEq, Repr

structure CallOutcome where
  run : Option KernelRun
  complete : TaskCompletePayload
  deriving DecidableEq, Repr

/-- The values of `LinquParamType`; a byte off the wire may be none of them. -/
def paramInput : UInt8 := 0
def paramOutput : UInt8 := 1
def paramInout : UInt8 := 2
def paramScalar : UInt8 := 3

def argOf (e : ParamEntry) : UInt64 := if e.type = paramScalar then e.scalarValue else e.handle

def isTensor (e : ParamEntry) : Bool :=
  e.type = paramInput ∨ e.type = paramInout ∨ e.type = paramOutput

/-- `loaded` tells for which names `code_cache_.load` gives an entry function. -/
def handleCallTask (loaded : List UInt8 → Bool) (payload : List UInt8) : Option CallOutcome := do
  let task ← CallTaskPayload.deserialize payload
  let run : KernelRun :=
    { kernelSo := task.kernelSoName, tensors := task.params.countP isTensor
      args := task.params.map argOf }
  return { run := if loaded task.kernelSoName then some run else none
           complete := { taskId := task.taskId, status := 0 } }

/-- `add` under the daemon's own level. The header is not looked at. -/
def handleHeartbeat (level : UInt8) (registry : PeerRegistry) (_hdr : LinquHeader)
    (payload : List UInt8) : Option PeerRegistry := do
  let hb ← HeartbeatPayload.deserialize payload
  return registry.add
    { coord := { l6Idx := hb.senderL6, l5Idx := hb.senderL5, l4Idx := hb.senderL4
                 l3Idx := hb.senderL3 }
      level, alive := hb.status = 0 }

/-- The coordinates that `op_query_peers` finds in the registry of the daemon,
which gives its orchestrators no `FilesystemDiscovery`. -/
def opQueryPeers (registry : PeerRegistry) (level : UInt8) : List LinquCoordinate :=
  (registry.peersAtLevel level).map PeerInfo.coord

end Linqu.NodeDaemon
