import Mathlib.Tactic

/-!
# The task ring

Task ids count up from zero and are masked into a window of descriptor slots.
The window size is a power of two, so the mask is the remainder, for negative
ids as well. An id stays live from its allocation until `lastTaskAlive`
passes it; live ids never share a slot, a retired id may be masked into the
slot of a live one.
-/

set_option autoImplicit false

namespace Linqu.TaskRing

inductive Status where
  | pending
  | ready
  | running
  | completed
  | consumed
  deriving DecidableEq, Repr

/-- A task that has finished its own work. -/
def Status.isDone : Status → Bool
  | .completed => true
  | .consumed => true
  | _ => false

structure LinquTaskDescriptor where
  taskId : ℤ := 0
  scopeDepth : ℕ := 0
  depListHead : Option ℕ := none
  faninCount : ℕ := 0
  fanoutListHead : Option ℕ := none
  fanoutCount : ℕ := 1
  atomicFaninRefcount : ℕ := 0
  atomicFanoutRefcount : ℕ := 0
  taskFreed : Bool := false
  kernelSo : String := ""
  heapEnd : ℕ := 0
  status : Status := .pending
  fanoutRefcount : ℕ := 0
  faninRefcount : ℕ := 0
  isGroup : Bool := false
  groupSize : ℕ := 0
  subCompleteCount : ℕ := 0
  deriving DecidableEq, Repr

structure LinquTaskRing where
  descriptors : ℤ → LinquTaskDescriptor
  windowSize : ℤ
  currentIndex : ℤ
  lastTaskAlive : ℤ

namespace LinquTaskRing

def init (ws : ℕ) : Option LinquTaskRing :=
  if 0 < ws ∧ ws &&& (ws-1) = 0 then
    some { descriptors := fun _ => {}, windowSize := ws, currentIndex := 0, lastTaskAlive := 0 }
  else none

def reset (r : LinquTaskRing) : LinquTaskRing :=
  { r with descriptors := fun _ => {}, currentIndex := 0, lastTaskAlive := 0 }

def activeCount (r : LinquTaskRing) : ℤ := r.currentIndex-r.lastTaskAlive

def hasSpace (r : LinquTaskRing) : Bool := decide (r.activeCount < r.windowSize)

def slot (r : LinquTaskRing) (taskId : ℤ) : ℤ := taskId % r.windowSize

def get (r : LinquTaskRing) (taskId : ℤ) : LinquTaskDescriptor := r.descriptors (r.slot taskId)

/-- A write through the pointer that `get` returns. -/
def modify (r : LinquTaskRing) (taskId : ℤ) (f : LinquTaskDescriptor → LinquTaskDescriptor) :
    LinquTaskRing :=
  { r with descriptors := Function.update r.descriptors (r.slot taskId) (f (r.get taskId)) }

def tryAlloc (r : LinquTaskRing) : Option (ℤ × LinquTaskRing) :=
  if r.hasSpace then
    some (r.currentIndex,
      { r.modify r.currentIndex (fun _ => {}) with currentIndex := r.currentIndex+1 })
  else none

def setLastTaskAlive (r : LinquTaskRing) (v : ℤ) : LinquTaskRing := { r with lastTaskAlive := v }

def Live (r : LinquTaskRing) (t : ℤ) : Prop := r.lastTaskAlive ≤ t ∧ t < r.currentIndex

instance (r : LinquTaskRing) (t : ℤ) : Decidable (r.Live t) := inferInstanceAs (Decidable (_ ∧ _))

structure Windowed (r : LinquTaskRing) : Prop where
  window_pos : 0 < r.windowSize
  alive_nonneg : 0 ≤ r.lastTaskAlive
  alive_le : r.lastTaskAlive ≤ r.currentIndex
  current_le : r.currentIndex ≤ r.lastTaskAlive+r.windowSize

theorem remainder_injective {w a t u : ℤ} (ht : a ≤ t ∧ t < a+w)
    (hu : a ≤ u ∧ u < a+w) (h : t % w = u % w) : t = u := by
  obtain ⟨k,hk⟩ : w ∣ u-t := Int.ModEq.dvd h
  have hk0 : k = 0 := by
    by_contra hne
    rcases lt_or_gt_of_ne hne with hlt | hgt
    · have : w*k ≤ w*(-1) := mul_le_mul_of_nonneg_left (by omega) (by omega)
      omega
    · have : w*1 ≤ w*k := mul_le_mul_of_nonneg_left (by omega) (by omega)
      omega
  rw [hk0] at hk
  omega

theorem slot_injective {r : LinquTaskRing} (hw : r.Windowed) {t u : ℤ} (ht : r.Live t)
    (hu : r.Live u) (h : r.slot t = r.slot u) : t = u := by
  have hc := hw.current_le
  exact remainder_injective (a := r.lastTaskAlive) ⟨ht.1,by have := ht.2; omega⟩
    ⟨hu.1,by have := hu.2; omega⟩ h

theorem get_modify (r : LinquTaskRing) (i j : ℤ) (f : LinquTaskDescriptor → LinquTaskDescriptor) :
    (r.modify i f).get j = if r.slot j = r.slot i then f (r.get j) else r.get j := by
  by_cases h : r.slot j = r.slot i
  · rw [if_pos h]
    change Function.update r.descriptors (r.slot i) (f (r.get i)) (r.slot j) = f (r.get j)
    rw [h, Function.update_self, get, get, h]
  · rw [if_neg h]
    exact Function.update_of_ne h _ _

theorem hasSpace_iff (r : LinquTaskRing) :
    r.hasSpace = true ↔ r.currentIndex < r.lastTaskAlive+r.windowSize := by
  rw [hasSpace, decide_eq_true_iff, activeCount]
  omega

/-- An allocation takes the next id and resets its slot. -/
theorem tryAlloc_spec {r r' : LinquTaskRing} {t : ℤ} (h : r.tryAlloc = some (t,r')) :
    t = r.currentIndex ∧ r.hasSpace = true ∧ r'.windowSize = r.windowSize ∧
      r'.currentIndex = t+1 ∧ r'.lastTaskAlive = r.lastTaskAlive ∧
      ∀ u, r'.get u = if r.slot u = r.slot t then {} else r.get u := by
  unfold tryAlloc at h
  split at h
  · rename_i hspace
    cases h
    exact ⟨rfl,hspace,rfl,rfl,rfl,fun u => r.get_modify r.currentIndex u (fun _ => {})⟩
  · cases h

@[simp] theorem modify_slot (r : LinquTaskRing) (i j : ℤ)
    (f : LinquTaskDescriptor → LinquTaskDescriptor) : (r.modify i f).slot j = r.slot j :=
  rfl

end LinquTaskRing
end Linqu.TaskRing
