import Mathlib.Tactic

/-!
# The heap ring

Byte counters `top` and `tail` only grow; a block sits at `top` modulo the
capacity, and a block that would straddle the end skips the gap before it.
-/

set_option autoImplicit false

namespace Linqu.HeapRing

structure LinquHeapRing where
  capacity : ℕ
  top : ℕ
  tail : ℕ
  deriving DecidableEq, Repr

namespace LinquHeapRing

def init (capacityBytes : ℕ) : LinquHeapRing := ⟨capacityBytes,0,0⟩

def reset (r : LinquHeapRing) : LinquHeapRing := { r with top := 0, tail := 0 }

def used (r : LinquHeapRing) : ℕ :=
  if r.tail ≤ r.top then r.top-r.tail else r.capacity-r.tail+r.top

def available (r : LinquHeapRing) : ℕ := r.capacity-r.used

/-- The offset of the block in the store, and the ring after it. -/
def tryAlloc (r : LinquHeapRing) (size : ℕ) : Option (ℕ × LinquHeapRing) :=
  if size = 0 ∨ r.capacity < size then none
  else if r.available < size then none
  else
    let pos := r.top % r.capacity
    if pos+size ≤ r.capacity then some (pos,{ r with top := r.top+size })
    else
      let waste := r.capacity-pos
      if r.available < size+waste then none
      else some ((r.top+waste) % r.capacity,{ r with top := r.top+waste+size })

def retireTo (r : LinquHeapRing) (newTail : ℕ) : LinquHeapRing := { r with tail := newTail }

end LinquHeapRing
end Linqu.HeapRing
