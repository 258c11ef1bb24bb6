import Linqu.Transition

/-!
# Two runs with and without some of the steps

A step relation is observed through `view`. `Removable` says that what is seen
after any part of a run is what the kept steps of that part lead to on their
own. `Unwinding` is a relation between the two runs that proves it, step by
step; for a deterministic relation a removed step has to leave the view alone.
-/

set_option autoImplicit false

namespace Linqu.Noninterference
open Linqu.Transition

variable {σ ι α : Type*} {step : σ → ι → σ → Prop} {keep : ι → Bool} {view : σ → α}

def Removable (step : σ → ι → σ → Prop) (keep : ι → Bool) (view : σ → α) (l : List ι)
    (s : σ) : Prop :=
  ∀ pre t, pre <+: l → Run step pre s t →
    ∃ u, Run step (pre.filter keep) s u ∧ view u = view t

/-- `R t u` relates the run with all steps to the run with the kept ones. -/
structure Unwinding (step : σ → ι → σ → Prop) (cond : σ → ι → Prop) (keep : ι → Bool)
    (view : σ → α) (R : σ → σ → Prop) : Prop where
  view_eq : ∀ s u, R s u → view u = view s
  kept : ∀ s u a t, R s u → cond s a → keep a = true → step s a t →
    ∃ u', step u a u' ∧ R t u'
  removed : ∀ s u a t, R s u → cond s a → keep a = false → step s a t → R t u

namespace Unwinding

variable {cond : σ → ι → Prop} {R : σ → σ → Prop}

theorem run (h : Unwinding step cond keep view R) {l : List ι} {s t u : σ} (hR : R s u)
    (hg : Guarded step cond l s) (hr : Run step l s t) :
    ∃ u', Run step (l.filter keep) u u' ∧ R t u' := by
  induction l generalizing s u with
  | nil =>
    cases hr
    exact ⟨u,rfl,hR⟩
  | cons a l ih =>
    obtain ⟨m,hm,hr⟩ := hr
    by_cases hk : keep a = true
    · obtain ⟨v,hv,hRv⟩ := h.kept s u a m hR hg.1 hk hm
      obtain ⟨u',hu',hRt⟩ := ih hRv (hg.2 m hm) hr
      rw [List.filter_cons_of_pos hk]
      exact ⟨u',⟨v,hv,hu'⟩,hRt⟩
    · have hRm := h.removed s u a m hR hg.1 (Bool.eq_false_iff.mpr hk) hm
      rw [List.filter_cons_of_neg hk]
      exact ih hRm (hg.2 m hm) hr

theorem removable (h : Unwinding step cond keep view R) {l : List ι} {s : σ} (hR : R s s)
    (hg : Guarded step cond l s) : Removable step keep view l s := by
  intro pre t hpre hr
  obtain ⟨rest,rfl⟩ := hpre
  obtain ⟨u,hu,hRt⟩ := h.run hR (guarded_append hg).1 hr
  exact ⟨u,hu,h.view_eq t u hRt⟩

end Unwinding

theorem run_unique (hdet : ∀ s a t t', step s a t → step s a t' → t = t') {l : List ι}
    {s t t' : σ} (h : Run step l s t) (h' : Run step l s t') : t = t' := by
  induction l generalizing s with
  | nil =>
    cases h
    exact h'
  | cons a l ih =>
    obtain ⟨m,hm,h⟩ := h
    obtain ⟨m',hm',h'⟩ := h'
    cases hdet s a m m' hm hm'
    exact ih h h'

/-- A step that can be left out is not seen. -/
theorem Removable.unseen (hdet : ∀ s a t t', step s a t → step s a t' → t = t') {l pre : List ι}
    {a : ι} {s t t' : σ} (h : Removable step keep view l s) (hpre : pre++[a] <+: l)
    (hr : Run step pre s t) (hs : step t a t') (hk : keep a = false) : view t' = view t := by
  have hr' : Run step (pre++[a]) s t' := run_append.mpr ⟨t,hr,t',hs,rfl⟩
  obtain ⟨u,hu,hview⟩ := h pre t ((List.prefix_append pre [a]).trans hpre) hr
  obtain ⟨u',hu',hview'⟩ := h (pre++[a]) t' hpre hr'
  have hsame : (pre++[a]).filter keep = pre.filter keep := by
    simp [List.filter_append, hk]
  rw [hsame] at hu'
  cases run_unique hdet hu hu'
  exact hview'.symm.trans hview

end Linqu.Noninterference
