import Mathlib.Data.List.Nodup
import Mathlib.Data.Finset.Card
import Mathlib.Tactic

/-!
# Intrusive chains in a pool

Nodes of a pool carry one optional successor each, and heads point into the
pool. The facts here are about the chain a head reaches: when it ends, what a
bounded walk returns, and how it changes when a node is cut out or pushed in
front. Nothing depends on what the nodes store.
-/

set_option autoImplicit false

namespace Linqu.Chain

variable {α : Type*}

/-- Following `next` from a head visits exactly the listed nodes and stops. -/
inductive Spans (next : α → Option α) : Option α → List α → Prop
  | nil : Spans next none []
  | cons {a : α} {l : List α} (rest : Spans next (next a) l) : Spans next (some a) (a::l)

def Finite (next : α → Option α) (o : Option α) : Prop := ∃ l, Spans next o l

/-- The nodes met from a head, or `none` when the end is not met in `n` steps. -/
def visit (next : α → Option α) : ℕ → Option α → Option (List α)
  | _, none => some []
  | 0, some _ => none
  | n+1, some a => (visit next n (next a)).map (a::·)

theorem chain_unique {next : α → Option α} {o : Option α} {l m : List α}
    (hl : Spans next o l) (hm : Spans next o m) : l = m := by
  induction hl generalizing m with
  | nil => cases hm; rfl
  | cons _ ih =>
    cases hm with
    | cons rest => rw [ih rest]

theorem visit_chain {next : α → Option α} (n : ℕ) {o : Option α} {l : List α} :
    visit next n o = some l ↔ Spans next o l ∧ l.length ≤ n := by
  constructor
  · intro h
    induction n generalizing o l with
    | zero =>
      cases o with
      | none => cases h; exact ⟨.nil,le_refl _⟩
      | some a => simp [visit] at h
    | succ n ih =>
      cases o with
      | none => cases h; exact ⟨.nil,Nat.zero_le _⟩
      | some a =>
        obtain ⟨m,hm,rfl⟩ := Option.map_eq_some_iff.mp h
        obtain ⟨hc,hlen⟩ := ih hm
        exact ⟨.cons hc,by simpa using hlen⟩
  · rintro ⟨hc,hlen⟩
    induction hc generalizing n with
    | nil => cases n <;> rfl
    | @cons a l rest ih =>
      cases n with
      | zero => simp at hlen
      | succ n =>
        rw [visit, ih n (by simpa using hlen)]
        rfl

theorem chain_drop {next : α → Option α} {o : Option α} {a : α} {l m : List α}
    (h : Spans next o (l++a::m)) : Spans next (some a) (a::m) := by
  induction l generalizing o with
  | nil => cases h with | cons rest => exact .cons rest
  | cons b l ih => cases h with | cons rest => exact ih rest

theorem chain_nodup {next : α → Option α} {o : Option α} {l : List α}
    (h : Spans next o l) : l.Nodup := by
  induction h with
  | nil => exact List.nodup_nil
  | @cons a l rest ih =>
    refine List.nodup_cons.mpr ⟨fun ha => ?_,ih⟩
    obtain ⟨pre,post,rfl⟩ := List.append_of_mem ha
    have hlen := congrArg List.length (chain_unique (chain_drop rest) (.cons rest))
    simp only [List.length_cons, List.length_append] at hlen
    omega

/-- A finite chain whose nodes all lie in a finite set is no longer than it. -/
theorem chain_length_le {next : α → Option α} {o : Option α} {l : List α} (s : Finset α)
    (h : Spans next o l) (hs : ∀ a ∈ l, a ∈ s) : l.length ≤ s.card := by
  classical
  rw [← List.toFinset_card_of_nodup (chain_nodup h)]
  exact Finset.card_le_card (fun a ha => hs a (List.mem_toFinset.mp ha))

theorem chain_mem_step {next : α → Option α} {S : α → Prop}
    (hs : ∀ a, S a → ∀ b, next a = some b → S b) {o : Option α} {l : List α}
    (h : Spans next o l) (ho : ∀ a, o = some a → S a) : ∀ a ∈ l, S a := by
  induction h with
  | nil => simp
  | @cons a l rest ih =>
    have ha := ho a rfl
    intro b hb
    rcases List.mem_cons.mp hb with rfl | hb
    · exact ha
    · exact ih (hs a ha) b hb

theorem finite_none (next : α → Option α) : Finite next none := ⟨[],.nil⟩

theorem finite_some {next : α → Option α} {a : α} :
    Finite next (some a) ↔ Finite next (next a) := by
  constructor
  · rintro ⟨l,h⟩
    cases h with | cons rest => exact ⟨_,rest⟩
  · rintro ⟨l,h⟩
    exact ⟨a::l,.cons h⟩

/-- The listed nodes are the first ones met from a head. -/
def Starts (next : α → Option α) : Option α → List α → Prop
  | _, [] => True
  | o, a::l => o = some a ∧ Starts next (next a) l

theorem starts_append {next : α → Option α} {o : Option α} {l m : List α}
    (h : Starts next o (l++m)) : Starts next o l := by
  induction l generalizing o with
  | nil => trivial
  | cons a l ih => exact ⟨h.1,ih h.2⟩

theorem starts_mem {next : α → Option α} {o : Option α} {l m : List α} (h : Starts next o l)
    (hm : Spans next o m) : ∀ a ∈ l, a ∈ m := by
  induction l generalizing o m with
  | nil => simp
  | cons a l ih =>
    obtain ⟨rfl,hrest⟩ := h
    cases hm with
    | cons rest =>
      intro b hb
      rcases List.mem_cons.mp hb with rfl | hb
      · exact List.mem_cons_self
      · exact List.mem_cons_of_mem _ (ih hrest rest b hb)

section Update

variable [DecidableEq α] {next : α → Option α} {o : Option α}

theorem chain_update {l : List α} (i : α) (v : Option α) (hi : i ∉ l)
    (h : Spans next o l) : Spans (Function.update next i v) o l := by
  induction h with
  | nil => exact .nil
  | @cons a l rest ih =>
    obtain ⟨ha,hl⟩ := not_or.mp (mt List.mem_cons.mpr hi)
    refine .cons ?_
    rw [Function.update_of_ne (Ne.symm ha)]
    exact ih hl

theorem starts_update {l : List α} (i : α) (v : Option α) (hi : i ∉ l) (h : Starts next o l) :
    Starts (Function.update next i v) o l := by
  induction l generalizing o with
  | nil => trivial
  | cons a l ih =>
    obtain ⟨ha,hl⟩ := not_or.mp (mt List.mem_cons.mpr hi)
    refine ⟨h.1,?_⟩
    rw [Function.update_of_ne (Ne.symm ha)]
    exact ih hl h.2

/-- Redirecting the link to a node leaves what is met before the node. -/
theorem starts_redirect {l : List α} {p i : α} (v : Option α) (hp : next p = some i) (hi : i ∉ l)
    (h : Starts next o l) : Starts (Function.update next p v) o l := by
  induction l generalizing o with
  | nil => trivial
  | cons a l ih =>
    obtain ⟨ha,hl⟩ := not_or.mp (mt List.mem_cons.mpr hi)
    refine ⟨h.1,?_⟩
    by_cases hap : a = p
    · -- the link of `a` led to `i`, so nothing of the list comes after it
      cases l with
      | nil => trivial
      | cons b l =>
        have hb := h.2.1
        rw [hap, hp] at hb
        cases hb
        exact absurd List.mem_cons_self hl
    · rw [Function.update_of_ne hap]
      exact ih hl h.2

theorem finite_update {l : List α} {i : α} {v : Option α} (h : Spans next o l)
    (hv : Finite (Function.update next i v) v) : Finite (Function.update next i v) o := by
  induction h with
  | nil => exact finite_none _
  | @cons a l rest ih =>
    refine finite_some.mpr ?_
    by_cases ha : a = i
    · simpa [ha] using hv
    · rwa [Function.update_of_ne ha]

/-- Cutting out the successor of `p` keeps every finite chain finite. -/
theorem finite_splice {p i : α} (hp : next p = some i) (h : Finite next o) :
    Finite (Function.update next p (next i)) o := by
  obtain ⟨l,hl⟩ := h
  by_cases hfin : Finite next (some p)
  · obtain ⟨m,hm⟩ := hfin
    -- the tail behind `i` avoids `p`, so the cut leaves it as it was
    cases hm with
    | @cons _ m rest =>
      have hmp := (List.nodup_cons.mp (chain_nodup (Spans.cons rest))).1
      rw [hp] at rest
      cases rest with
      | @cons _ m rest' =>
        have hr := chain_update p (next i) (fun h => hmp (List.mem_cons_of_mem _ h)) rest'
        exact finite_update hl ⟨m,hr⟩
  · have hpl : p ∉ l := by
      intro hmem
      obtain ⟨pre,post,rfl⟩ := List.append_of_mem hmem
      exact hfin ⟨_,chain_drop hl⟩
    exact ⟨l,chain_update p _ hpl hl⟩

theorem follow_prefix {i : α} {v : Option α} {pre post m : List α} (hi : i ∉ pre)
    (h : Spans next o (pre++i::post)) (hm : Spans (Function.update next i v) o m) :
    ∃ rest, m = pre++rest ∧ Spans (Function.update next i v) (some i) rest := by
  induction pre generalizing o m with
  | nil =>
    cases h with
    | cons _ => exact ⟨m,rfl,hm⟩
  | cons a pre ih =>
    obtain ⟨ha,hpre⟩ := not_or.mp (mt List.mem_cons.mpr hi)
    cases h with
    | cons h =>
      cases hm with
      | cons hm =>
        rw [Function.update_of_ne (Ne.symm ha)] at hm
        obtain ⟨rest,rfl,hr⟩ := ih hpre h hm
        exact ⟨rest,rfl,hr⟩

/-- A node put in front of a chain it already lies on closes a loop. -/
theorem push_loops {i : α} {l : List α} (h : Spans next o l) (hi : i ∈ l) :
    ¬ Finite (Function.update next i o) (some i) := by
  rintro ⟨m,hm⟩
  obtain ⟨pre,post,rfl,hpre⟩ := List.eq_append_cons_of_mem hi
  have htail := hm
  cases htail with
  | @cons _ m htail =>
    rw [Function.update_self] at htail
    obtain ⟨rest,rfl,hr⟩ := follow_prefix hpre h htail
    have hlen := congrArg List.length (chain_unique hr hm)
    simp only [List.length_cons, List.length_append] at hlen
    omega

/-- Pushing `i` in front of the chain of head `t` leaves the chain of every
head finite exactly when `i` was not on that chain. -/
theorem push_finite_iff {β : Type*} [DecidableEq β] (head : β → Option α) (t : β) (i : α)
    (h : ∀ b, Finite next (head b)) {l : List α} (hl : Spans next (head t) l) :
    (∀ b, Finite (Function.update next i (head t)) (Function.update head t (some i) b)) ↔
      i ∉ l := by
  constructor
  · intro hall hi
    have ht := hall t
    rw [Function.update_self] at ht
    exact push_loops hl hi ht
  · intro hi b
    have hv : Finite (Function.update next i (head t)) (head t) := ⟨l,chain_update i _ hi hl⟩
    by_cases hb : b = t
    · subst hb
      rw [Function.update_self]
      refine finite_some.mpr ?_
      rwa [Function.update_self]
    · rw [Function.update_of_ne hb]
      obtain ⟨m,hm⟩ := h b
      exact finite_update hm hv

end Update

end Linqu.Chain
