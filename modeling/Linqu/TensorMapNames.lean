import Linqu.TensorMap

/-!
# What the tensor map knows about producers

Lookups return ids that were inserted and are not below the retirement mark
of the map. An insert may drop entries and rewrite links; it never changes the
producer of an entry that stays.
-/

set_option autoImplicit false

namespace Linqu.TensorMapNames
open Linqu.TensorMap

variable {tm tm' : LinquTensorMap}

/-- Every valid entry names a task below `n`. -/
def Names (tm : LinquTensorMap) (n : ℤ) : Prop :=
  ∀ i, (tm.pool i).valid = true → (tm.pool i).producerTaskId < n

/-- Entries may be dropped and links rewritten. -/
structure Thins (tm tm' : LinquTensorMap) : Prop where
  alive : tm'.lastTaskAlive = tm.lastTaskAlive
  entries : ∀ i, (tm'.pool i).valid = true →
    (tm.pool i).valid = true ∧ (tm'.pool i).producerTaskId = (tm.pool i).producerTaskId

theorem Thins.refl (tm : LinquTensorMap) : Thins tm tm := ⟨rfl,fun _ h => ⟨h,rfl⟩⟩

theorem Thins.trans {tm'' : LinquTensorMap} (h : Thins tm tm') (h' : Thins tm' tm'') :
    Thins tm tm'' := by
  refine ⟨h'.alive.trans h.alive,fun i hi => ?_⟩
  obtain ⟨hv,hp⟩ := h'.entries i hi
  obtain ⟨hv',hp'⟩ := h.entries i hv
  exact ⟨hv',hp.trans hp'⟩

theorem removeStale_thins {handle : UInt64} {t : ℤ}
    (h : tm.removeStaleForHandle handle t = some tm') : Thins tm tm' := by
  simp only [LinquTensorMap.removeStaleForHandle, Option.bind_eq_bind,
    Option.bind_eq_some_iff] at h
  obtain ⟨slots,-,h⟩ := h
  cases h
  refine ⟨rfl,fun i hi => ?_⟩
  dsimp only at hi ⊢
  split at hi
  · cases hi
  · rename_i hn
    rw [if_neg hn]
    exact ⟨hi,rfl⟩

theorem writeLink_thins (tm : LinquTensorMap) (v : Option ℕ) (l : LinquTensorMap.Link) :
    Thins tm (tm.writeLink v l) := by
  cases l with
  | bucket b => exact ⟨rfl,fun _ h => ⟨h,rfl⟩⟩
  | slot j =>
    refine ⟨rfl,fun i hi => ?_⟩
    simp only [LinquTensorMap.writeLink, Function.update_apply] at hi ⊢
    split at hi
    · rename_i hij
      subst hij
      exact ⟨hi,by simp⟩
    · rename_i hij
      exact ⟨hi,by rw [if_neg hij]⟩

theorem unlinkFrom_thins {idx n : ℕ} {l : LinquTensorMap.Link}
    (h : tm.unlinkFrom idx n l = some tm') : Thins tm tm' := by
  induction n generalizing l with
  | zero => cases h
  | succ n ih =>
    rw [LinquTensorMap.unlinkFrom] at h
    split at h
    · cases h
      exact Thins.refl _
    · split at h
      · cases h
        exact writeLink_thins _ _ _
      · exact ih h

theorem unlinkSlot_thins {idx : ℕ} (h : tm.unlinkSlot idx = some tm') : Thins tm tm' := by
  unfold LinquTensorMap.unlinkSlot at h
  split at h
  · simp only [Option.bind_eq_bind, Option.bind_eq_some_iff] at h
    obtain ⟨m,hm,h⟩ := h
    cases h
    refine (unlinkFrom_thins hm).trans ⟨rfl,fun i hi => ?_⟩
    simp only [Function.update_apply] at hi ⊢
    split at hi
    · cases hi
    · rename_i hne
      exact ⟨hi,by rw [if_neg hne]⟩
  · cases h
    exact Thins.refl _

theorem vacate_thins {handle : UInt64} {t : ℤ} (h : tm.vacate handle t = some tm') :
    Thins tm tm' := by
  simp only [LinquTensorMap.vacate, Option.bind_eq_bind, Option.bind_eq_some_iff] at h
  obtain ⟨m,hm,h⟩ := h
  exact (removeStale_thins hm).trans (unlinkSlot_thins h)

/-- Entries are dropped before a slot is filled. -/
theorem insert_filled {t : ℤ} {handle : UInt64} {out : Bool}
    (h : LinquTensorMap.insert tm handle t out = some tm') :
    ∃ m, Thins tm m ∧ tm' = m.fillSlot m.nextSlot handle t out := by
  unfold LinquTensorMap.insert at h
  split at h
  · cases h
  · obtain ⟨m,hm,rfl⟩ := Option.map_eq_some_iff.mp h
    exact ⟨m,vacate_thins hm,rfl⟩

theorem insert_alive {t : ℤ} {handle : UInt64} {out : Bool}
    (h : LinquTensorMap.insert tm handle t out = some tm') :
    tm'.lastTaskAlive = tm.lastTaskAlive := by
  obtain ⟨m,hthin,rfl⟩ := insert_filled h
  exact hthin.alive

theorem insert_names {n t : ℤ} {handle : UInt64} {out : Bool} (hn : Names tm n) (ht : t < n)
    (h : LinquTensorMap.insert tm handle t out = some tm') :
    Names tm' n ∧ tm'.lastTaskAlive = tm.lastTaskAlive := by
  refine ⟨?_,insert_alive h⟩
  obtain ⟨m,hthin,rfl⟩ := insert_filled h
  intro i hi
  simp only [LinquTensorMap.fillSlot, Function.update_apply] at hi ⊢
  split at hi
  · rename_i heq
    rw [if_pos heq]
    exact ht
  · rename_i hne
    rw [if_neg hne]
    obtain ⟨hv,hp⟩ := hthin.entries i hi
    exact hp ▸ hn i hv

theorem lookup_bounds {n p : ℤ} {handle : UInt64} (hn : Names tm n)
    (h : tm.lookup handle = some (some p)) : 0 ≤ p ∧ tm.lastTaskAlive ≤ p ∧ p < n := by
  simp only [LinquTensorMap.lookup, Option.bind_eq_bind, Option.bind_eq_some_iff] at h
  obtain ⟨slots,-,h⟩ := h
  -- a best that is not the start value was read from a valid entry
  have hbest : ∀ (l : List ℕ) (b : ℤ), (b = -1 ∨ tm.lastTaskAlive ≤ b ∧ b < n) →
      let r := l.foldl (fun best cur =>
        let e := tm.pool cur
        if e.valid ∧ e.tensorHandle = handle ∧ tm.lastTaskAlive ≤ e.producerTaskId ∧
          best < e.producerTaskId then e.producerTaskId else best) b
      r = -1 ∨ tm.lastTaskAlive ≤ r ∧ r < n := by
    intro l
    induction l with
    | nil => intro b hb; exact hb
    | cons i l ih =>
      intro b hb
      refine ih _ ?_
      dsimp only
      split
      · rename_i he
        exact Or.inr ⟨he.2.2.1,hn i he.1⟩
      · exact hb
  have hb := hbest slots (-1) (Or.inl rfl)
  dsimp only at hb
  generalize slots.foldl _ (-1 : ℤ) = r at h hb
  simp only [Option.pure_def, Option.some.injEq] at h
  split at h
  · cases h
    omega
  · cases h

end Linqu.TensorMapNames
