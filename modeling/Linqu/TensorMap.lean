import Mathlib.Data.Int.Lemmas
import Linqu.Chain

/-!
# The tensor map

Handles are mapped to the tasks that produce them by a chained hash table
over one fixed pool. A pool slot is on a bucket chain and on a per-task chain
at once; both are threaded through the slot itself. Slots are handed out
cyclically, an entry is dropped by clearing its flag, and only a slot whose
flag is still set is unlinked before it is used again.

The index -1 of the source is `none`. A loop over a chain runs for at most
`poolSize` slots: a chain that has not ended by then repeats a slot, so the
source never leaves the loop and the operation returns `none`.
-/

set_option autoImplicit false

namespace Linqu.TensorMap
open Linqu.Chain

structure LinquTensorMapEntry where
  tensorHandle : UInt64 := 0
  producerTaskId : ℤ := 0
  nextInBucket : Option ℕ := some 0
  nextInTask : Option ℕ := some 0
  valid : Bool := false
  isOutputAlloc : Bool := false
  deriving DecidableEq, Repr

structure LinquTensorMap where
  buckets : ℕ → Option ℕ
  pool : ℕ → LinquTensorMapEntry
  taskHeads : ℤ → Option ℕ
  numBuckets : ℕ
  poolSize : ℕ
  nextEntry : ℕ
  lastTaskAlive : ℤ

namespace LinquTensorMap

def init (numBuckets poolSize : ℕ) : Option LinquTensorMap :=
  if 0 < numBuckets ∧ numBuckets &&& (numBuckets-1) = 0 then
    some { buckets := fun _ => none, pool := fun _ => {}, taskHeads := fun _ => none,
           numBuckets, poolSize, nextEntry := 0, lastTaskAlive := 0 }
  else none

/-- The pool keeps its entries: only the heads and the cursor are reset. -/
def reset (tm : LinquTensorMap) : LinquTensorMap :=
  { tm with buckets := fun _ => none, taskHeads := fun _ => none,
            nextEntry := 0, lastTaskAlive := 0 }

def hash (tm : LinquTensorMap) (handle : UInt64) : ℕ :=
  let h := handle ^^^ (handle >>> 33)
  let h := h * 0xff51afd7ed558ccd
  let h := h ^^^ (h >>> 33)
  (h &&& UInt64.ofNat (tm.numBuckets-1)).toNat

def bucketNext (tm : LinquTensorMap) (i : ℕ) : Option ℕ := (tm.pool i).nextInBucket

def taskNext (tm : LinquTensorMap) (i : ℕ) : Option ℕ := (tm.pool i).nextInTask

def bucketSlots (tm : LinquTensorMap) (b : ℕ) : Option (List ℕ) :=
  visit tm.bucketNext tm.poolSize (tm.buckets b)

def taskSlots (tm : LinquTensorMap) (slot : ℤ) : Option (List ℕ) :=
  visit tm.taskNext tm.poolSize (tm.taskHeads slot)

def clear (e : LinquTensorMapEntry) : LinquTensorMapEntry := { e with valid := false }

def removeStaleForHandle (tm : LinquTensorMap) (handle : UInt64) (newTaskId : ℤ) :
    Option LinquTensorMap := do
  let slots ← tm.bucketSlots (tm.hash handle)
  let stale (e : LinquTensorMapEntry) : Bool :=
    e.valid && e.tensorHandle == handle && decide (tm.lastTaskAlive ≤ e.producerTaskId) &&
      decide (e.producerTaskId < newTaskId) && e.isOutputAlloc
  return { tm with
    pool := fun i => if i ∈ slots ∧ stale (tm.pool i) then clear (tm.pool i) else tm.pool i }

/-- The two kinds of place a bucket link is stored in. -/
inductive Link where
  | bucket (b : ℕ)
  | slot (i : ℕ)

def readLink (tm : LinquTensorMap) : Link → Option ℕ
  | .bucket b => tm.buckets b
  | .slot i => (tm.pool i).nextInBucket

def writeLink (tm : LinquTensorMap) (v : Option ℕ) : Link → LinquTensorMap
  | .bucket b => { tm with buckets := Function.update tm.buckets b v }
  | .slot i =>
    { tm with pool := Function.update tm.pool i { tm.pool i with nextInBucket := v } }

/-- The `prev_ptr` loop of `insert`. -/
def unlinkFrom (tm : LinquTensorMap) (idx : ℕ) : ℕ → Link → Option LinquTensorMap
  | 0, _ => none
  | n+1, at_ =>
    match tm.readLink at_ with
    | none => some tm
    | some cur =>
      if cur = idx then some (tm.writeLink (tm.pool idx).nextInBucket at_)
      else unlinkFrom tm idx n (.slot cur)

/-- A slot that still holds a valid entry is taken off its bucket chain. -/
def unlinkSlot (tm : LinquTensorMap) (idx : ℕ) : Option LinquTensorMap :=
  if (tm.pool idx).valid then do
    let tm ← tm.unlinkFrom idx (tm.poolSize+1) (.bucket (tm.hash (tm.pool idx).tensorHandle))
    return { tm with pool := Function.update tm.pool idx (clear (tm.pool idx)) }
  else some tm

def taskSlot (tm : LinquTensorMap) (taskId : ℤ) : ℤ := taskId.tmod tm.poolSize

def fillSlot (tm : LinquTensorMap) (idx : ℕ) (handle : UInt64) (producerTaskId : ℤ)
    (isOutput : Bool) : LinquTensorMap :=
  let bucket := tm.hash handle
  let taskSlot := tm.taskSlot producerTaskId
  { tm with
    nextEntry := tm.nextEntry+1
    pool := Function.update tm.pool idx
      { tensorHandle := handle, producerTaskId, nextInBucket := tm.buckets bucket,
        nextInTask := tm.taskHeads taskSlot, valid := true, isOutputAlloc := isOutput }
    taskHeads := Function.update tm.taskHeads taskSlot (some idx)
    buckets := Function.update tm.buckets bucket (some idx) }

/-- The slot the next insert takes. -/
def nextSlot (tm : LinquTensorMap) : ℕ := tm.nextEntry % tm.poolSize

/-- The table after the first half of `insert`, before the slot is filled. -/
def vacate (tm : LinquTensorMap) (handle : UInt64) (producerTaskId : ℤ) :
    Option LinquTensorMap := do
  let tm ← tm.removeStaleForHandle handle producerTaskId
  tm.unlinkSlot tm.nextSlot

def insert (tm : LinquTensorMap) (handle : UInt64) (producerTaskId : ℤ) (isOutput : Bool) :
    Option LinquTensorMap :=
  -- the remainder by a zero pool size is undefined
  if tm.poolSize = 0 then none
  else (tm.vacate handle producerTaskId).map
    (fun vacated => vacated.fillSlot vacated.nextSlot handle producerTaskId isOutput)

/-- Outer `none`: the walk does not end. Inner `none`: not found. -/
def lookup (tm : LinquTensorMap) (handle : UInt64) : Option (Option ℤ) := do
  let slots ← tm.bucketSlots (tm.hash handle)
  let best := slots.foldl (fun best cur =>
    let e := tm.pool cur
    if e.valid ∧ e.tensorHandle = handle ∧ tm.lastTaskAlive ≤ e.producerTaskId ∧
        best < e.producerTaskId then e.producerTaskId else best) (-1 : ℤ)
  return if 0 ≤ best then some best else none

def invalidateBelow (tm : LinquTensorMap) (lastAlive : ℤ) : LinquTensorMap :=
  { tm with lastTaskAlive := lastAlive }

def cleanupTask (tm : LinquTensorMap) (taskId : ℤ) : Option LinquTensorMap := do
  if tm.poolSize = 0 then none
  else
    let slots ← tm.taskSlots (tm.taskSlot taskId)
    return { tm with
      pool := fun i =>
        if i ∈ slots ∧ (tm.pool i).producerTaskId = taskId then clear (tm.pool i)
        else tm.pool i }

end LinquTensorMap
end Linqu.TensorMap
