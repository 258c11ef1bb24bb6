import Linqu.Transition

/-!
# Paths of a system

What one part of a larger system goes through while that takes a step is a
path: a guarded run of the part, and what its labels add up to. Where a step
reaches one state at most, paths compose, so that what the steps of the larger
system are for the part, its runs are as well.
-/

set_option autoImplicit false

namespace Linqu.Simulation
open Linqu.Transition

variable {τ κ β : Type*} {stepB : τ → κ → τ → Prop}

/-- A step reaches one state at most. -/
def Functional (stepB : τ → κ → τ → Prop) : Prop :=
  ∀ u a v v', stepB u a v → stepB u a v' → v = v'

theorem run_functional (hfun : Functional stepB) {l : List κ} {u v v' : τ}
    (h : Run stepB l u v) (h' : Run stepB l u v') : v = v' := by
  induction l generalizing u with
  | nil => exact Eq.trans h.symm h'
  | cons a l ih =>
    obtain ⟨m,hm,hr⟩ := h
    obtain ⟨m',hm',hr'⟩ := h'
    rw [hfun u a m m' hm hm'] at hr
    exact ih hr hr'

theorem guarded_concat {cond : τ → κ → Prop} {l l' : List κ} {u : τ}
    (h : Guarded stepB cond l u) (h' : ∀ v, Run stepB l u v → Guarded stepB cond l' v) :
    Guarded stepB cond (l++l') u := by
  induction l generalizing u with
  | nil => exact h' u rfl
  | cons a l ih => exact ⟨h.1,fun m hm => ih (h.2 m hm) fun v hv => h' v ⟨m,hm,hv⟩⟩

/-- A guarded run from one state to another, and what its labels add up to. -/
def Leads (stepB : τ → κ → τ → Prop) (cond : τ → κ → Prop) (g : κ → List β) (u v : τ)
    (out : List β) : Prop :=
  ∃ l, Run stepB l u v ∧ Guarded stepB cond l u ∧ l.flatMap g = out

variable {cond' : τ → κ → Prop} {g : κ → List β} {u v w : τ} {out out' : List β}

theorem Leads.refl (u : τ) : Leads stepB cond' g u u [] := ⟨[],rfl,trivial,rfl⟩

theorem Leads.single {a : κ} (h : stepB u a v) (hc : cond' u a) : Leads stepB cond' g u v (g a) :=
  ⟨[a],⟨v,h,rfl⟩,⟨hc,fun _ _ => trivial⟩,List.flatMap_singleton g a⟩

theorem Leads.trans (hfun : Functional stepB) (h : Leads stepB cond' g u v out)
    (h' : Leads stepB cond' g v w out') : Leads stepB cond' g u w (out++out') := by
  obtain ⟨l,hr,hg,hout⟩ := h
  obtain ⟨l',hr',hg',hout'⟩ := h'
  refine ⟨l++l',run_append.mpr ⟨v,hr,hr'⟩,guarded_concat hg fun x hx => ?_,?_⟩
  · rw [run_functional hfun hx hr]
    exact hg'
  · rw [List.flatMap_append, hout, hout']

end Linqu.Simulation
