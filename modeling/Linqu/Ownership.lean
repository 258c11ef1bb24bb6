import Mathlib.Tactic

/-!
# Owners and a queue

Items are handed from one owner to another, or wait in a queue. No item has
two owners, and none waits while it has one.
-/

set_option autoImplicit false

namespace Linqu.Ownership

variable {ι τ : Type*}

structure Exclusive (owns : ι → Option τ) (queue : List τ) : Prop where
  single : ∀ a b t, owns a = some t → owns b = some t → a = b
  nodup : queue.Nodup
  apart : ∀ a t, owns a = some t → t ∉ queue

/-- An item without an owner that does not wait either. -/
def Free (owns : ι → Option τ) (queue : List τ) (t : τ) : Prop :=
  (∀ a, owns a ≠ some t) ∧ t ∉ queue

variable {owns : ι → Option τ} {queue : List τ} {t : τ}

theorem Exclusive.push (h : Exclusive owns queue) (hf : Free owns queue t) :
    Exclusive owns (queue++[t]) := by
  refine ⟨h.single,?_,fun a u ha hm => ?_⟩
  · exact List.nodup_append.mpr ⟨h.nodup,List.nodup_singleton t,fun x hx y hy =>
      List.mem_singleton.mp hy ▸ fun he => hf.2 (he ▸ hx)⟩
  · rcases List.mem_append.mp hm with hm | hm
    · exact h.apart a u ha hm
    · rw [List.mem_singleton.mp hm] at ha
      exact hf.1 a ha

variable [DecidableEq ι]

/-- Any change at one owner that only drops its item. -/
theorem Exclusive.drop (h : Exclusive owns queue) (a : ι) :
    Exclusive (Function.update owns a none) queue := by
  have hold : ∀ b u, Function.update owns a none b = some u → owns b = some u := by
    intro b u hb
    rw [Function.update_apply] at hb
    split at hb
    · cases hb
    · exact hb
  exact ⟨fun b c u hb hc => h.single b c u (hold b u hb) (hold c u hc),h.nodup,
    fun b u hb => h.apart b u (hold b u hb)⟩

/-- What an owner has dropped is free. -/
theorem Exclusive.free_of_drop (h : Exclusive owns queue) {a : ι} (ha : owns a = some t) :
    Free (Function.update owns a none) queue t := by
  refine ⟨fun b hb => ?_,h.apart a t ha⟩
  rw [Function.update_apply] at hb
  split at hb
  · cases hb
  · rename_i hne
    exact hne (h.single b a t hb ha)

theorem Exclusive.take (h : Exclusive owns queue) (a : ι) (hf : Free owns queue t) :
    Exclusive (Function.update owns a (some t)) queue := by
  refine ⟨fun b c u hb hc => ?_,h.nodup,fun b u hb => ?_⟩
  · rw [Function.update_apply] at hb hc
    split at hb
    · rename_i hba
      cases hb
      split at hc
      · rename_i hca
        rw [hba, hca]
      · exact absurd hc (hf.1 c)
    · split at hc
      · cases hc
        exact absurd hb (hf.1 b)
      · exact h.single b c u hb hc
  · rw [Function.update_apply] at hb
    split at hb
    · cases hb
      exact hf.2
    · exact h.apart b u hb

end Linqu.Ownership
