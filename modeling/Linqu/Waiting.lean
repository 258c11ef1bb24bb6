import Mathlib.Tactic

/-!
# Chains of waiting

An open item waits for another open one, or for something else. If no chain of
items that wait for one another goes on for ever, behind every open item there
is one that waits for something else.
-/

set_option autoImplicit false

namespace Linqu.Waiting

variable {α : Type*} {r : α → α → Prop} {P : α → Prop}

theorem exists_chain (hwf : WellFounded r) {Q : α → Prop}
    (h : ∀ a, P a → (∃ b, r b a ∧ P b) ∨ Q a) {a : α} (ha : P a) :
    ∃ e, Relation.ReflTransGen (fun u v => r v u ∧ P v) a e ∧ P e ∧ Q e := by
  induction a using hwf.induction with
  | _ a ih =>
    rcases h a ha with ⟨b,hb,hopen⟩ | he
    · obtain ⟨e,hchain,hrest⟩ := ih b hb hopen
      exact ⟨e,hchain.head ⟨hb,hopen⟩,hrest⟩
    · exact ⟨a,Relation.ReflTransGen.refl,ha,he⟩

/-- If every open item waits for an open one, none is open. -/
theorem none_open (hwf : WellFounded r) (h : ∀ a, P a → ∃ b, r b a ∧ P b) (a : α) : ¬P a := by
  intro ha
  obtain ⟨_,_,_,hfalse⟩ := exists_chain hwf (Q := fun _ => False)
    (fun b hb => Or.inl (h b hb)) ha
  exact hfalse

/-- Natural numbers as integers. -/
theorem int_before_wf : WellFounded (fun p c : ℤ => 0 ≤ p ∧ p < c) := by
  refine Subrelation.wf (r := InvImage (· < ·) Int.toNat) ?_ (InvImage.wf _ Nat.lt_wfRel.wf)
  intro p c h
  change p.toNat < c.toNat
  omega

end Linqu.Waiting
