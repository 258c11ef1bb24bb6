import Linqu.Bytes
import Linqu.MsgTypes

/-!
# The payload formats

The structs of the message payloads with their `serialize` and `deserialize`.
Strings and blobs are bytes. `serialize` fills a buffer of the size computed
in the source; `deserialize` moves over the buffer, and what is left of it
stands for `data+off` and `len-off`. A store or a load outside of the buffer
has no result. The host is little-endian, so that `htonl` and
`__builtin_bswap64` before a copy put the most significant byte first.
-/

set_option autoImplicit false

namespace Linqu.MsgTypes
open Linqu.Bytes

structure ParamEntry where
  type : UInt8
  handle : UInt64
  scalarValue : UInt64
  deriving DecidableEq, Repr

def ParamEntry.bytes (e : ParamEntry) : List UInt8 :=
  e.type::toBytes 8 e.handle.toNat++toBytes 8 e.scalarValue.toNat

def ParamEntry.read (rest : List UInt8) : Option (ParamEntry × List UInt8) := do
  let (type,rest) ← readNat 1 rest
  let (handle,rest) ← readNat 8 rest
  let (scalarValue,rest) ← readNat 8 rest
  return ({ type := .ofNat type, handle := .ofNat handle, scalarValue := .ofNat scalarValue },rest)

structure CallTaskPayload where
  kernelSoName : List UInt8 := []
  taskId : UInt32 := 0
  scopeDepth : UInt16 := 0
  numParams : UInt32 := 0
  params : List ParamEntry := []
  deriving DecidableEq, Repr

/-- The size of the first buffer is a sum of `uint32_t`. The buffer is resized
for each parameter before it is stored. -/
def CallTaskPayload.serialize (p : CallTaskPayload) : Option (List UInt8) := do
  let nameLen := p.kernelSoName.length % 2^32
  let buf ← fill ((4+nameLen+4+2+4) % 2^32)
    [toBytes 4 nameLen,p.kernelSoName.take nameLen,toBytes 4 p.taskId.toNat,
      toBytes 2 p.scopeDepth.toNat,toBytes 4 p.numParams.toNat]
  return buf++((p.params.take p.numParams.toNat).map ParamEntry.bytes).flatten

/-- The loop over the parameters, which stops when the bytes run out. -/
def readParams : ℕ → List UInt8 → Option (List ParamEntry)
  | 0, _ => some []
  | n+1, rest =>
    if rest.length < 17 then some [] else do
      let (e,rest) ← ParamEntry.read rest
      let es ← readParams n rest
      return e::es

def CallTaskPayload.deserialize (data : List UInt8) : Option CallTaskPayload :=
  if data.length < 14 then some {} else do
    let (nl,rest) ← readNat 4 data
    if rest.length < nl then return {}
    let (name,rest) ← read nl rest
    let (tid,rest) ← readNat 4 rest
    let (sd,rest) ← readNat 2 rest
    let (np,rest) ← readNat 4 rest
    let params ← readParams np rest
    return { kernelSoName := name, taskId := .ofNat tid, scopeDepth := .ofNat sd
             numParams := .ofNat np, params }

def TaskCompletePayload.serialize (p : TaskCompletePayload) : Option (List UInt8) :=
  fill 8 [toBytes 4 p.taskId.toNat,toBytes 4 p.status.toUInt32.toNat]

/-- `deserialize` with every load checked. -/
def TaskCompletePayload.read (data : List UInt8) : Option TaskCompletePayload :=
  if data.length < 8 then some {} else do
    let (tid,rest) ← readNat 4 data
    let (st,_) ← readNat 4 rest
    return { taskId := .ofNat tid, status := (UInt32.ofNat st).toInt32 }

structure ShutdownPayload where
  graceful : UInt8 := 1
  deriving DecidableEq, Repr

def ShutdownPayload.serialize (p : ShutdownPayload) : Option (List UInt8) := some [p.graceful]

def ShutdownPayload.deserialize (data : List UInt8) : Option ShutdownPayload :=
  if 1 ≤ data.length then do
    let (b,_) ← readNat 1 data
    return { graceful := .ofNat b }
  else some {}

structure RegCodePayload where
  blobHash : UInt64 := 0
  codeBinary : List UInt8 := []
  deriving DecidableEq, Repr

def RegCodePayload.serialize (p : RegCodePayload) : Option (List UInt8) :=
  fill (8+4+p.codeBinary.length)
    [toBytes 8 p.blobHash.toNat,toBytes 4 (p.codeBinary.length % 2^32),p.codeBinary]

/-- A length and a blob; a blob that is not all there is left out. -/
def readBlob (rest : List UInt8) : Option (List UInt8) := do
  let (sz,rest) ← readNat 4 rest
  if sz ≤ rest.length then
    let (blob,_) ← read sz rest
    return blob
  else return []

def RegCodePayload.deserialize (data : List UInt8) : Option RegCodePayload :=
  if data.length < 12 then some {} else do
    let (bh,rest) ← readNat 8 data
    let codeBinary ← readBlob rest
    return { blobHash := .ofNat bh, codeBinary }

structure RegDataPayload where
  dataHandle : UInt64 := 0
  scopeDepth : UInt16 := 0
  bufferBytes : List UInt8 := []
  deriving DecidableEq, Repr

def RegDataPayload.serialize (p : RegDataPayload) : Option (List UInt8) :=
  fill (8+2+4+p.bufferBytes.length)
    [toBytes 8 p.dataHandle.toNat,toBytes 2 p.scopeDepth.toNat,
      toBytes 4 (p.bufferBytes.length % 2^32),p.bufferBytes]

def RegDataPayload.deserialize (data : List UInt8) : Option RegDataPayload :=
  if data.length < 14 then some {} else do
    let (dh,rest) ← readNat 8 data
    let (sd,rest) ← readNat 2 rest
    let bufferBytes ← readBlob rest
    return { dataHandle := .ofNat dh, scopeDepth := .ofNat sd, bufferBytes }

structure ScopeExitPayload where
  scopeDepth : UInt16 := 0
  deriving DecidableEq, Repr

def ScopeExitPayload.serialize (p : ScopeExitPayload) : Option (List UInt8) :=
  fill 2 [toBytes 2 p.scopeDepth.toNat]

def ScopeExitPayload.deserialize (data : List UInt8) : Option ScopeExitPayload :=
  if 2 ≤ data.length then do
    let (sd,_) ← readNat 2 data
    return { scopeDepth := .ofNat sd }
  else some {}

structure RetryWithCodePayload where
  blobHash : UInt64 := 0
  deriving DecidableEq, Repr

def RetryWithCodePayload.serialize (p : RetryWithCodePayload) : Option (List UInt8) :=
  fill 8 [toBytes 8 p.blobHash.toNat]

def RetryWithCodePayload.deserialize (data : List UInt8) : Option RetryWithCodePayload :=
  if 8 ≤ data.length then do
    let (bh,_) ← readNat 8 data
    return { blobHash := .ofNat bh }
  else some {}

structure HeartbeatPayload where
  senderL6 : UInt8 := 0
  senderL5 : UInt8 := 0
  senderL4 : UInt8 := 0
  senderL3 : UInt16 := 0
  status : UInt8 := 0
  timestamp : UInt64 := 0
  logicalSystem : List UInt8 := []
  physicalSystem : List UInt8 := []
  deriving DecidableEq, Repr

/-- The first five bytes are stored twice, the second time in a buffer made
anew. Both sizes are sums of `uint32_t`. -/
def HeartbeatPayload.serialize (p : HeartbeatPayload) : Option (List UInt8) := do
  let lsLen := p.logicalSystem.length % 2^32
  let psLen := p.physicalSystem.length % 2^32
  let coord := [[p.senderL6],[p.senderL5],[p.senderL4],toBytes 2 p.senderL3.toNat]
  let _ ← fill ((4+1+8+4+lsLen+4+psLen) % 2^32) coord
  fill ((3+2+1+8+4+lsLen+4+psLen) % 2^32)
    (coord++[[p.status],toBytes 8 p.timestamp.toNat,toBytes 4 lsLen,p.logicalSystem.take lsLen,
      toBytes 4 psLen,p.physicalSystem.take psLen])

/-- A length and a string, if the length is there; a string that is not all
there is left out, and the cursor stays behind its length. -/
def readString (rest : List UInt8) : Option (List UInt8 × List UInt8) :=
  if 4 ≤ rest.length then do
    let (nl,rest) ← readNat 4 rest
    if nl ≤ rest.length then read nl rest else return ([],rest)
  else some ([],rest)

def HeartbeatPayload.deserialize (data : List UInt8) : Option HeartbeatPayload :=
  if data.length < 14 then some {} else do
    let (l6,rest) ← readNat 1 data
    let (l5,rest) ← readNat 1 rest
    let (l4,rest) ← readNat 1 rest
    let (l3,rest) ← readNat 2 rest
    let (status,rest) ← readNat 1 rest
    let (ts,rest) ← readNat 8 rest
    let (logicalSystem,rest) ← readString rest
    let (physicalSystem,_) ← readString rest
    return { senderL6 := .ofNat l6, senderL5 := .ofNat l5, senderL4 := .ofNat l4
             senderL3 := .ofNat l3, status := .ofNat status, timestamp := .ofNat ts
             logicalSystem, physicalSystem }

structure TensorLookupPayload where
  handle : UInt64 := 0
  requestorL6 : UInt8 := 0
  requestorL5 : UInt8 := 0
  requestorL4 : UInt8 := 0
  requestorL3 : UInt16 := 0
  deriving DecidableEq, Repr

def TensorLookupPayload.serialize (p : TensorLookupPayload) : Option (List UInt8) :=
  fill (8+5) [toBytes 8 p.handle.toNat,[p.requestorL6],[p.requestorL5],[p.requestorL4],
    toBytes 2 p.requestorL3.toNat]

def TensorLookupPayload.deserialize (data : List UInt8) : Option TensorLookupPayload :=
  if data.length < 13 then some {} else do
    let (h,rest) ← readNat 8 data
    let (l6,rest) ← readNat 1 rest
    let (l5,rest) ← readNat 1 rest
    let (l4,rest) ← readNat 1 rest
    let (l3,_) ← readNat 2 rest
    return { handle := .ofNat h, requestorL6 := .ofNat l6, requestorL5 := .ofNat l5
             requestorL4 := .ofNat l4, requestorL3 := .ofNat l3 }

structure TensorDataPayload where
  handle : UInt64 := 0
  producerTaskId : Int32 := -1
  data : List UInt8 := []
  deriving DecidableEq, Repr

def TensorDataPayload.serialize (p : TensorDataPayload) : Option (List UInt8) :=
  fill (8+4+4+p.data.length)
    [toBytes 8 p.handle.toNat,toBytes 4 p.producerTaskId.toUInt32.toNat,
      toBytes 4 (p.data.length % 2^32),p.data]

def TensorDataPayload.deserialize (d : List UInt8) : Option TensorDataPayload :=
  if d.length < 16 then some {} else do
    let (h,rest) ← readNat 8 d
    let (pt,rest) ← readNat 4 rest
    let data ← readBlob rest
    return { handle := .ofNat h, producerTaskId := (UInt32.ofNat pt).toInt32, data }

/-! All of them together. -/

inductive PayloadType where
  | callTask
  | taskComplete
  | shutdown
  | regCode
  | regData
  | scopeExit
  | retryWithCode
  | heartbeat
  | tensorLookup
  | tensorData
  deriving DecidableEq, Repr

inductive Payload where
  | callTask (p : CallTaskPayload)
  | taskComplete (p : TaskCompletePayload)
  | shutdown (p : ShutdownPayload)
  | regCode (p : RegCodePayload)
  | regData (p : RegDataPayload)
  | scopeExit (p : ScopeExitPayload)
  | retryWithCode (p : RetryWithCodePayload)
  | heartbeat (p : HeartbeatPayload)
  | tensorLookup (p : TensorLookupPayload)
  | tensorData (p : TensorDataPayload)
  deriving DecidableEq, Repr

def Payload.type : Payload → PayloadType
  | callTask _ => .callTask
  | taskComplete _ => .taskComplete
  | shutdown _ => .shutdown
  | regCode _ => .regCode
  | regData _ => .regData
  | scopeExit _ => .scopeExit
  | retryWithCode _ => .retryWithCode
  | heartbeat _ => .heartbeat
  | tensorLookup _ => .tensorLookup
  | tensorData _ => .tensorData

def Payload.serialize : Payload → Option (List UInt8)
  | callTask p => p.serialize
  | taskComplete p => p.serialize
  | shutdown p => p.serialize
  | regCode p => p.serialize
  | regData p => p.serialize
  | scopeExit p => p.serialize
  | retryWithCode p => p.serialize
  | heartbeat p => p.serialize
  | tensorLookup p => p.serialize
  | tensorData p => p.serialize

def Payload.deserialize : PayloadType → List UInt8 → Option Payload
  | .callTask, data => (CallTaskPayload.deserialize data).map .callTask
  | .taskComplete, data => (TaskCompletePayload.read data).map .taskComplete
  | .shutdown, data => (ShutdownPayload.deserialize data).map .shutdown
  | .regCode, data => (RegCodePayload.deserialize data).map .regCode
  | .regData, data => (RegDataPayload.deserialize data).map .regData
  | .scopeExit, data => (ScopeExitPayload.deserialize data).map .scopeExit
  | .retryWithCode, data => (RetryWithCodePayload.deserialize data).map .retryWithCode
  | .heartbeat, data => (HeartbeatPayload.deserialize data).map .heartbeat
  | .tensorLookup, data => (TensorLookupPayload.deserialize data).map .tensorLookup
  | .tensorData, data => (TensorDataPayload.deserialize data).map .tensorData

end Linqu.MsgTypes
