import Mathlib.Tactic

/-!
# The ready queue

Task ids in a circular buffer between two counters that only grow. The
counters are not compared when an id is put in, so the queue is first in,
first out only as long as no more ids are in it than the buffer has room for.
-/

set_option autoImplicit false

namespace Linqu.ReadyQueue

structure Queue where
  buf : ℕ → ℤ
  capacity : ℕ
  head : ℕ
  tail : ℕ

def Queue.init (capacity : ℕ) : Queue := ⟨fun _ => -1,capacity,0,0⟩

def Queue.enqueueReady (q : Queue) (taskId : ℤ) : Queue :=
  { q with buf := Function.update q.buf (q.tail % q.capacity) taskId, tail := q.tail+1 }

def Queue.dequeueReady (q : Queue) : Option (ℤ × Queue) :=
  if q.tail ≤ q.head then none
  else some (q.buf (q.head % q.capacity),{ q with head := q.head+1 })

/-- The ids between the counters, oldest first. -/
def Queue.contents (q : Queue) : List ℤ :=
  (List.range (q.tail-q.head)).map (fun i => q.buf ((q.head+i) % q.capacity))

theorem dequeueReady_spec {q q' : Queue} {taskId : ℤ} (h : q.dequeueReady = some (taskId,q')) :
    q.buf (q.head % q.capacity) = taskId ∧ q' = { q with head := q.head+1 } := by
  unfold Queue.dequeueReady at h
  split at h
  · cases h
  · cases h
    exact ⟨rfl,rfl⟩

/-- An id that finds room goes to the end. -/
theorem contents_enqueue {q : Queue} (hle : q.head ≤ q.tail)
    (hroom : q.contents.length < q.capacity) (taskId : ℤ) :
    (q.enqueueReady taskId).contents = q.contents++[taskId] := by
  have hlen : q.contents.length = q.tail-q.head := by simp [Queue.contents]
  have hold : ∀ i ∈ List.range (q.tail-q.head),
      Function.update q.buf (q.tail % q.capacity) taskId ((q.head+i) % q.capacity) =
        q.buf ((q.head+i) % q.capacity) := by
    intro i hi
    rw [List.mem_range] at hi
    refine Function.update_of_ne (fun he => ?_) _ _
    -- two counters less than a capacity apart have different slots
    have hdvd : q.capacity ∣ q.tail-(q.head+i) :=
      (Nat.modEq_iff_dvd' (by omega)).mp he
    exact absurd (Nat.le_of_dvd (by omega) hdvd) (by omega)
  have hlast : q.head+(q.tail-q.head) = q.tail := by omega
  have htail : q.tail+1-q.head = (q.tail-q.head)+1 := by omega
  simp only [Queue.contents, Queue.enqueueReady]
  rw [htail, List.range_succ, List.map_append, List.map_congr_left hold]
  simp [hlast]

/-- The oldest id comes out, and the rest stays. -/
theorem contents_dequeue {q q' : Queue} {taskId : ℤ}
    (h : q.dequeueReady = some (taskId,q')) : q.contents = taskId::q'.contents := by
  unfold Queue.dequeueReady at h
  split at h
  · cases h
  · rename_i hlt
    cases h
    have htail : q.tail-q.head = (q.tail-(q.head+1))+1 := by omega
    simp only [Queue.contents]
    rw [htail, List.range_succ_eq_map, List.map_cons, List.map_map]
    refine congrArg₂ _ rfl (List.map_congr_left fun i _ => ?_)
    simp only [Function.comp_apply]
    congr 2
    omega

theorem dequeue_none_iff {q : Queue} (hle : q.head ≤ q.tail) :
    q.dequeueReady = none ↔ q.contents = [] := by
  have hlen : q.contents.length = q.tail-q.head := by simp [Queue.contents]
  rw [← List.length_eq_zero_iff, hlen, Queue.dequeueReady]
  split
  · simp; omega
  · simp; omega

end Linqu.ReadyQueue
