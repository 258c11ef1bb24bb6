import Linqu.Orchestrator

/-!
# Maps as lists of pairs

`mapSet` and `mapErase` stand for assignment to and removal from an
`unordered_map`, `List.lookup` for `find`. A key that is set or erased leaves
the lookups of the others alone; the entries with a given value are counted.
-/

set_option autoImplicit false

namespace Linqu.Tables
open Linqu.Orchestrator

theorem mem_mapSet {m : List (ℤ × ℤ)} {k v id g : ℤ} :
    (id,g) ∈ mapSet m k v ↔ id = k ∧ g = v ∨ (id,g) ∈ m ∧ id ≠ k := by
  simp [mapSet]

theorem mem_mapErase {m : List (ℤ × ℤ)} {k id g : ℤ} :
    (id,g) ∈ mapErase m k ↔ (id,g) ∈ m ∧ id ≠ k := by
  simp [mapErase]

theorem mapSet_fresh {β : Type} {m : List (ℤ × β)} {k : ℤ} {v : β} (h : ∀ e ∈ m, e.1 ≠ k) :
    mapSet m k v = (k,v)::m := by
  rw [mapSet, List.filter_eq_self.mpr fun e he => decide_eq_true (h e he)]

theorem lookup_mapErase {β : Type} {m : List (ℤ × β)} {k g : ℤ} (h : g ≠ k) :
    (mapErase m k).lookup g = m.lookup g := by
  induction m with
  | nil => rfl
  | cons e m ih =>
    by_cases hek : e.1 = k
    · rw [mapErase, List.filter_cons_of_neg (by simpa using hek)]
      change (mapErase m k).lookup g = _
      have hge : (g == e.1) = false := by simpa [hek] using h
      rw [ih, List.lookup_cons, hge]
    · rw [mapErase, List.filter_cons_of_pos (by simpa using hek), List.lookup_cons, List.lookup_cons]
      cases g == e.1 with
      | true => rfl
      | false => exact ih

theorem lookup_mapSet_self {β : Type} (m : List (ℤ × β)) (k : ℤ) (v : β) :
    (mapSet m k v).lookup k = some v := by
  rw [mapSet, List.lookup_cons_self]

theorem lookup_mapSet {β : Type} {m : List (ℤ × β)} {k g : ℤ} {v : β} (h : g ≠ k) :
    (mapSet m k v).lookup g = m.lookup g := by
  have hne : (g == k) = false := by simpa using h
  rw [mapSet, List.lookup_cons, hne]
  exact lookup_mapErase h

theorem lookup_of_mem {m : List (ℤ × ℤ)} {t g : ℤ} (hk : (m.map Prod.fst).Nodup)
    (hm : (t,g) ∈ m) : m.lookup t = some g := by
  induction m with
  | nil => cases hm
  | cons e m ih =>
    rw [List.map_cons, List.nodup_cons] at hk
    rw [List.lookup_cons]
    rcases List.mem_cons.mp hm with rfl | hm
    · simp
    · have hne : (t == e.1) = false := by
        apply beq_false_of_ne
        intro he
        exact hk.1 (List.mem_map.mpr ⟨(t,g),hm,he⟩)
      rw [hne]
      exact ih hk.2 hm

theorem mem_of_lookup {m : List (ℤ × ℤ)} {t g : ℤ} (h : m.lookup t = some g) : (t,g) ∈ m := by
  obtain ⟨l₁,l₂,hl,-⟩ := List.lookup_eq_some_iff.mp h
  rw [hl]
  simp

theorem countP_mapSet_le (m : List (ℤ × ℤ)) (k g u : ℤ) :
    (mapSet m k g).countP (fun e => decide (e.2 = u)) ≤
      m.countP (fun e => decide (e.2 = u))+if g = u then 1 else 0 := by
  rw [mapSet, List.countP_cons]
  simp only [decide_eq_true_eq]
  exact Nat.add_le_add_right (List.filter_sublist.countP_le) _

/-- With distinct keys an erased key takes one entry away. -/
theorem countP_mapErase {m : List (ℤ × ℤ)} {k g : ℤ} (hk : (m.map Prod.fst).Nodup)
    (hm : (k,g) ∈ m) (u : ℤ) :
    m.countP (fun e => decide (e.2 = u)) =
      (mapErase m k).countP (fun e => decide (e.2 = u))+if g = u then 1 else 0 := by
  induction m with
  | nil => cases hm
  | cons e m ih =>
    rw [List.map_cons, List.nodup_cons] at hk
    rcases List.mem_cons.mp hm with rfl | hm
    · have hid : mapErase ((k,g)::m) k = m := by
        rw [mapErase, List.filter_cons_of_neg (by simp)]
        exact List.filter_eq_self.mpr fun e he =>
          decide_eq_true fun hek => hk.1 (List.mem_map.mpr ⟨e,he,hek⟩)
      rw [hid, List.countP_cons]
      simp only [decide_eq_true_eq]
    · have hne : e.1 ≠ k := fun he => hk.1 (List.mem_map.mpr ⟨(k,g),hm,he.symm⟩)
      have hid : mapErase (e::m) k = e::mapErase m k :=
        List.filter_cons_of_pos (by simpa using hne)
      rw [hid, List.countP_cons, List.countP_cons, ih hk.2 hm]
      omega

theorem countP_mapErase_le {m : List (ℤ × ℤ)} {k g : ℤ} (h : m.lookup k = some g) (u : ℤ) :
    (mapErase m k).countP (fun e => decide (e.2 = u))+(if g = u then 1 else 0) ≤
      m.countP (fun e => decide (e.2 = u)) := by
  induction m with
  | nil => cases h
  | cons e m ih =>
    rw [List.lookup_cons] at h
    by_cases hek : e.1 = k
    · have hge : e.2 = g := by simpa [hek] using h
      have hsub : mapErase (e::m) k = mapErase m k := List.filter_cons_of_neg (by simp [hek])
      have hle := (List.filter_sublist (l := m) (p := fun e => decide (e.1 ≠ k))).countP_le
        (p := fun e => decide (e.2 = u))
      rw [hsub, List.countP_cons, ← hge]
      simp only [decide_eq_true_eq]
      exact Nat.add_le_add_right hle _
    · have hne : (k == e.1) = false := by simpa using Ne.symm hek
      rw [hne] at h
      have hcons : mapErase (e::m) k = e::mapErase m k :=
        List.filter_cons_of_pos (by simpa using hek)
      have hih := ih h
      rw [hcons, List.countP_cons, List.countP_cons]
      omega

end Linqu.Tables
