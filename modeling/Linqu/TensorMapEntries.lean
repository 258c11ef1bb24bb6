import Linqu.TensorMapWriters

/-!
# Entries of the tensor map

What holds of the handle and the producer of every valid entry. An insert may
drop entries and fills one slot; no other operation makes an entry.
-/

set_option autoImplicit false

namespace Linqu.TensorMapEntries
open Linqu.TensorMap Linqu.TensorMapWriters

/-- Every valid entry pairs a handle with a producer that `P` allows. -/
def Every (P : UInt64 → ℤ → Prop) (tm : LinquTensorMap) : Prop :=
  ∀ i, (tm.pool i).valid = true → P (tm.pool i).tensorHandle (tm.pool i).producerTaskId

variable {tm tm' : LinquTensorMap} {P Q : UInt64 → ℤ → Prop} {handle : UInt64} {t : ℤ}

theorem Every.mono (h : Every P tm) (hPQ : ∀ x p, P x p → Q x p) : Every Q tm :=
  fun i hi => hPQ _ _ (h i hi)

theorem Every.of_pool (h : Every P tm) (hpool : tm'.pool = tm.pool) : Every P tm' := by
  intro i hi
  rw [hpool] at hi ⊢
  exact h i hi

theorem init_every {numBuckets poolSize : ℕ}
    (h : LinquTensorMap.init numBuckets poolSize = some tm) : Every P tm := by
  unfold LinquTensorMap.init at h
  split at h
  · cases h
    intro i hi
    cases hi
  · cases h

theorem removeStale_every (hall : Every P tm) (h : tm.removeStaleForHandle handle t = some tm') :
    Every P tm' := by
  simp only [LinquTensorMap.removeStaleForHandle, Option.bind_eq_bind,
    Option.bind_eq_some_iff] at h
  obtain ⟨slots,-,h⟩ := h
  cases h
  intro i hi
  dsimp only at hi ⊢
  split at hi
  · cases hi
  · rename_i hn
    rw [if_neg hn]
    exact hall i hi

theorem writeLink_every (hall : Every P tm) (v : Option ℕ) (l : LinquTensorMap.Link) :
    Every P (tm.writeLink v l) := by
  cases l with
  | bucket b => exact hall
  | slot j =>
    intro i hi
    simp only [LinquTensorMap.writeLink, Function.update_apply] at hi ⊢
    by_cases hij : i = j
    · subst hij
      rw [if_pos rfl] at hi ⊢
      exact hall i hi
    · rw [if_neg hij] at hi ⊢
      exact hall i hi

theorem unlinkFrom_every {idx n : ℕ} {l : LinquTensorMap.Link} (hall : Every P tm)
    (h : tm.unlinkFrom idx n l = some tm') : Every P tm' := by
  induction n generalizing l with
  | zero => cases h
  | succ n ih =>
    rw [LinquTensorMap.unlinkFrom] at h
    split at h
    · cases h
      exact hall
    · split at h
      · cases h
        exact writeLink_every hall _ _
      · exact ih h

theorem unlinkSlot_every {idx : ℕ} (hall : Every P tm) (h : tm.unlinkSlot idx = some tm') :
    Every P tm' := by
  unfold LinquTensorMap.unlinkSlot at h
  split at h
  · simp only [Option.bind_eq_bind, Option.bind_eq_some_iff] at h
    obtain ⟨m,hm,h⟩ := h
    cases h
    have hm := unlinkFrom_every hall hm
    intro i hi
    simp only [Function.update_apply] at hi ⊢
    by_cases hij : i = idx
    · rw [if_pos hij] at hi
      cases hi
    · rw [if_neg hij] at hi ⊢
      exact hm i hi
  · cases h
    exact hall

/-- The entry that is filled is the only new one. -/
theorem insert_every {out : Bool} (hall : Every P tm) (hnew : P handle t)
    (h : LinquTensorMap.insert tm handle t out = some tm') : Every P tm' := by
  unfold LinquTensorMap.insert at h
  split at h
  · cases h
  · obtain ⟨m,hm,rfl⟩ := Option.map_eq_some_iff.mp h
    simp only [LinquTensorMap.vacate, Option.bind_eq_bind, Option.bind_eq_some_iff] at hm
    obtain ⟨u,hu,hm⟩ := hm
    have hm := unlinkSlot_every (removeStale_every hall hu) hm
    intro i hi
    simp only [LinquTensorMap.fillSlot, Function.update_apply] at hi ⊢
    by_cases hij : i = m.nextSlot
    · rw [if_pos hij]
      exact hnew
    · rw [if_neg hij] at hi ⊢
      exact hm i hi

/-- A lookup finds the producer of a valid entry of its handle. -/
theorem lookup_every {p : ℤ} (hall : Every P tm) (h : tm.lookup handle = some (some p)) :
    P handle p := by
  simp only [LinquTensorMap.lookup, Option.bind_eq_bind, Option.bind_eq_some_iff] at h
  obtain ⟨slots,-,h⟩ := h
  obtain ⟨-,-,hbest⟩ := best_spec tm handle slots (-1)
  dsimp only at hbest
  generalize slots.foldl _ (-1 : ℤ) = r at h hbest
  simp only [Option.pure_def, Option.some.injEq] at h
  split at h
  · rename_i h0
    cases h
    rcases hbest with hbest | ⟨i,-,⟨hv,hh,-⟩,hp⟩
    · omega
    · have := hall i hv
      rwa [hh, hp] at this
  · cases h

end Linqu.TensorMapEntries
