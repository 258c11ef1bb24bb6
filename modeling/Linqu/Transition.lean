import Mathlib.Tactic

/-!
# Labelled runs

A step relation takes a state and a label to the states reached. `Guarded`
says that every step of a label list meets a condition on the state before
it, `Along` that every state met satisfies a predicate. A step that reaches
no state ends the run there.
-/

set_option autoImplicit false

namespace Linqu.Transition

variable {σ ι : Type*} (step : σ → ι → σ → Prop)

def Run : List ι → σ → σ → Prop
  | [], s, t => s = t
  | a::l, s, t => ∃ m, step s a m ∧ Run l m t

def Guarded (cond : σ → ι → Prop) : List ι → σ → Prop
  | [], _ => True
  | a::l, s => cond s a ∧ ∀ m, step s a m → Guarded cond l m

def Along (P : σ → Prop) : List ι → σ → Prop
  | [], s => P s
  | a::l, s => P s ∧ ∀ m, step s a m → Along P l m

variable {step}

theorem run_append {l l' : List ι} {s t : σ} :
    Run step (l++l') s t ↔ ∃ m, Run step l s m ∧ Run step l' m t := by
  induction l generalizing s with
  | nil => simp [Run]
  | cons a l ih =>
    simp only [List.cons_append, Run, ih]
    constructor
    · rintro ⟨m,hm,n,hn,ht⟩
      exact ⟨n,⟨m,hm,hn⟩,ht⟩
    · rintro ⟨n,⟨m,hm,hn⟩,ht⟩
      exact ⟨m,hm,n,hn,ht⟩

/-- What guarded steps preserve holds at the end of every guarded run. -/
theorem run_invariant {P : σ → Prop} {cond : σ → ι → Prop}
    (hstep : ∀ s a t, P s → cond s a → step s a t → P t) {l : List ι} {s t : σ}
    (hs : P s) (hg : Guarded step cond l s) (hr : Run step l s t) : P t := by
  induction l generalizing s with
  | nil => cases hr; exact hs
  | cons a l ih =>
    obtain ⟨m,hm,hr⟩ := hr
    exact ih (hstep s a m hs hg.1 hm) (hg.2 m hm) hr

/-- What every step preserves holds at the end of every run. -/
theorem run_preserves {P : σ → Prop} (hstep : ∀ s a t, P s → step s a t → P t) {l : List ι}
    {s t : σ} (hs : P s) (hr : Run step l s t) : P t := by
  induction l generalizing s with
  | nil => cases hr; exact hs
  | cons a l ih =>
    obtain ⟨m,hm,hr⟩ := hr
    exact ih (hstep s a m hs hm) hr

/-- The invariant may speak of the labels so far. -/
theorem run_history_from {P : List ι → σ → Prop} {cond : σ → ι → Prop}
    (hstep : ∀ pre s a t, P pre s → cond s a → step s a t → P (pre++[a]) t) {pre l : List ι}
    {s t : σ} (hs : P pre s) (hg : Guarded step cond l s) (hr : Run step l s t) :
    P (pre++l) t := by
  induction l generalizing pre s with
  | nil =>
    cases hr
    rwa [List.append_nil]
  | cons a l ih =>
    obtain ⟨m,hm,hr⟩ := hr
    have := ih (hstep pre s a m hs hg.1 hm) (hg.2 m hm) hr
    rwa [List.append_assoc] at this

theorem run_history {P : List ι → σ → Prop} {cond : σ → ι → Prop}
    (hstep : ∀ pre s a t, P pre s → cond s a → step s a t → P (pre++[a]) t) {l : List ι}
    {s t : σ} (hs : P [] s) (hg : Guarded step cond l s) (hr : Run step l s t) : P l t :=
  run_history_from hstep hs hg hr

theorem guarded_append {cond : σ → ι → Prop} {l l' : List ι} {s : σ}
    (h : Guarded step cond (l++l') s) :
    Guarded step cond l s ∧ ∀ t, Run step l s t → Guarded step cond l' t := by
  induction l generalizing s with
  | nil =>
    refine ⟨trivial,?_⟩
    rintro t rfl
    exact h
  | cons a l ih =>
    refine ⟨⟨h.1,fun m hm => (ih (h.2 m hm)).1⟩,?_⟩
    rintro t ⟨m,hm,hr⟩
    exact (ih (h.2 m hm)).2 t hr

theorem along_head {P : σ → Prop} {l : List ι} {s : σ} (h : Along step P l s) : P s := by
  cases l with
  | nil => exact h
  | cons a l => exact h.1

/-- Along a run means after every part of it. -/
theorem along_runs {P : σ → Prop} {l : List ι} {s : σ} :
    Along step P l s ↔ ∀ pre t, pre <+: l → Run step pre s t → P t := by
  induction l generalizing s with
  | nil =>
    constructor
    · intro h pre t hpre hr
      rw [List.prefix_nil.mp hpre] at hr
      cases hr
      exact h
    · exact fun h => h [] s List.prefix_rfl rfl
  | cons a l ih =>
    constructor
    · rintro ⟨hs,hall⟩ pre t hpre hr
      cases pre with
      | nil => cases hr; exact hs
      | cons b pre =>
        obtain ⟨rfl,htail⟩ := List.cons_prefix_cons.mp hpre
        obtain ⟨m,hm,hr⟩ := hr
        exact ih.mp (hall m hm) pre t htail hr
    · intro h
      refine ⟨h [] s List.nil_prefix rfl,fun m hm => ih.mpr fun pre t hpre hr => ?_⟩
      exact h (a::pre) t (List.cons_prefix_cons.mpr ⟨rfl,hpre⟩) ⟨m,hm,hr⟩

/-- What follows from `P` under an invariant holds along a run with `P`. -/
theorem along_imp {P Q I : σ → Prop} (hinv : ∀ s a t, I s → step s a t → I t)
    (himp : ∀ s, I s → P s → Q s) (l : List ι) {s : σ} (hs : I s) (h : Along step P l s) :
    Along step Q l s := by
  induction l generalizing s with
  | nil => exact himp s hs h
  | cons a l ih => exact ⟨himp s hs h.1,fun m hm => ih (hinv s a m hs hm) (h.2 m hm)⟩

theorem along_congr {P Q : σ → Prop} {s : σ} (h0 : Q s ↔ P s)
    (hstep : ∀ s a t, P s → step s a t → (Q t ↔ P t)) (l : List ι) :
    Along step Q l s ↔ Along step P l s := by
  induction l generalizing s with
  | nil => exact h0
  | cons a l ih =>
    constructor
    · rintro ⟨hq,hall⟩
      have hp := h0.mp hq
      exact ⟨hp,fun m hm => (ih (hstep s a m hp hm)).mp (hall m hm)⟩
    · rintro ⟨hp,hall⟩
      exact ⟨h0.mpr hp,fun m hm => (ih (hstep s a m hp hm)).mpr (hall m hm)⟩

/-- When a step keeps `P` exactly under its guard, a run keeps `P` in every
state it reaches exactly when all of its steps meet the guard. -/
theorem along_iff_guarded {P : σ → Prop} {cond : σ → ι → Prop}
    (hstep : ∀ s a, P s → (cond s a ↔ ∀ t, step s a t → P t)) (l : List ι) {s : σ}
    (hs : P s) : Along step P l s ↔ Guarded step cond l s := by
  induction l generalizing s with
  | nil => simp [Along, Guarded, hs]
  | cons a l ih =>
    constructor
    · rintro ⟨-,hall⟩
      have hP : ∀ t, step s a t → P t := fun t ht => along_head (hall t ht)
      exact ⟨(hstep s a hs).mpr hP,fun m hm => (ih (hP m hm)).mp (hall m hm)⟩
    · rintro ⟨hc,hall⟩
      exact ⟨hs,fun m hm => (ih ((hstep s a hs).mp hc m hm)).mpr (hall m hm)⟩

theorem guarded_mono {c c' : σ → ι → Prop} (h : ∀ s a, c s a → c' s a) {l : List ι} {s : σ}
    (hg : Guarded step c l s) : Guarded step c' l s := by
  induction l generalizing s with
  | nil => trivial
  | cons a l ih => exact ⟨h s a hg.1,fun m hm => ih (hg.2 m hm)⟩

/-- Two conditions that agree under an invariant guard the same runs. -/
theorem guarded_congr {P : σ → Prop} {c d : σ → ι → Prop} (hiff : ∀ s a, P s → (c s a ↔ d s a))
    (hstep : ∀ s a t, P s → d s a → step s a t → P t) (l : List ι) {s : σ} (hs : P s) :
    Guarded step c l s ↔ Guarded step d l s := by
  induction l generalizing s with
  | nil => simp [Guarded]
  | cons a l ih =>
    constructor
    · intro h
      have hd := (hiff s a hs).mp h.1
      exact ⟨hd,fun m hm => (ih (hstep s a m hs hd hm)).mp (h.2 m hm)⟩
    · intro h
      exact ⟨(hiff s a hs).mpr h.1,fun m hm => (ih (hstep s a m hs h.1 hm)).mpr (h.2 m hm)⟩

/-- Guarded means that the condition holds wherever a part of the run leads. -/
theorem guarded_runs {cond : σ → ι → Prop} {l : List ι} {s : σ} :
    Guarded step cond l s ↔
      ∀ pre a t, pre++[a] <+: l → Run step pre s t → cond t a := by
  induction l generalizing s with
  | nil =>
    constructor
    · intro _ pre a t hpre _
      simp at hpre
    · intro _
      trivial
  | cons b l ih =>
    constructor
    · intro h pre a t hpre hr
      cases pre with
      | nil =>
        have hab : a = b := (List.cons_prefix_cons.mp hpre).1
        cases hr
        rw [hab]
        exact h.1
      | cons c pre =>
        obtain ⟨rfl,htail⟩ := List.cons_prefix_cons.mp hpre
        obtain ⟨m,hm,hr⟩ := hr
        exact ih.mp (h.2 m hm) pre a t htail hr
    · intro h
      constructor
      · exact h [] b s (by simp) rfl
      · intro m hm
        apply ih.mpr
        intro pre a t hpre hr
        exact h (b::pre) a t (List.cons_prefix_cons.mpr ⟨rfl,hpre⟩) ⟨m,hm,hr⟩

/-! Runs of a step function can be computed, together with a test of every step. -/

section Checking

variable {f : σ → ι → Option σ} {g : σ → ι → Bool}

def checkRun (f : σ → ι → Option σ) (test : σ → ι → Bool) : List ι → σ → Option σ
  | [], s => some s
  | a::l, s => if test s a then (f s a).bind (checkRun f test l) else none

theorem checkRun_spec {l : List ι} {s t : σ} (h : checkRun f g l s = some t) :
    Run (fun s a t => f s a = some t) l s t ∧
      Guarded (fun s a t => f s a = some t) (fun s a => g s a = true) l s := by
  induction l generalizing s with
  | nil => cases h; exact ⟨rfl,trivial⟩
  | cons a l ih =>
    rw [checkRun] at h
    split at h
    · rename_i ha
      obtain ⟨m,hm,h⟩ := Option.bind_eq_some_iff.mp h
      obtain ⟨hr,hg⟩ := ih h
      refine ⟨⟨m,hm,hr⟩,ha,fun n hn => ?_⟩
      cases hm.symm.trans hn
      exact hg
    · cases h

def checkAlong (f : σ → ι → Option σ) (test : σ → Bool) : List ι → σ → Bool
  | [], s => test s
  | a::l, s => test s && (f s a).all (checkAlong f test l)

theorem along_of_check {test : σ → Bool} {l : List ι} {s : σ} (h : checkAlong f test l s = true) :
    Along (fun s a t => f s a = some t) (fun s => test s = true) l s := by
  induction l generalizing s with
  | nil => exact h
  | cons a l ih =>
    obtain ⟨hs,hall⟩ := Bool.and_eq_true_iff.mp h
    refine ⟨hs,fun m hm => ih ?_⟩
    rw [hm] at hall
    exact hall

/-- A start, a run from it and a test of its end, from one computation. -/
theorem exists_run {o : Option σ} {l : List ι} {c : σ → Bool}
    (h : (o.bind (checkRun f g l)).any c = true) : ∃ s t, o = some s ∧
      Run (fun s a t => f s a = some t) l s t ∧
      Guarded (fun s a t => f s a = some t) (fun s a => g s a = true) l s ∧
      c t = true := by
  obtain ⟨t,ht,hc⟩ := (Option.any_eq_true _ _).mp h
  obtain ⟨s,hs,ht⟩ := Option.bind_eq_some_iff.mp ht
  obtain ⟨hr,hg⟩ := checkRun_spec ht
  exact ⟨s,t,hs,hr,hg,hc⟩

end Checking

/-! Loops as folds. The predicate may depend on what is still to be done. -/

section Folds

variable {α ε : Type*} {σ : Type}

theorem bind_ok {β γ : Type} {x : Except ε β} {f : β → Except ε γ} {t : γ} :
    (x >>= f) = .ok t ↔ ∃ s, x = .ok s ∧ f s = .ok t := by
  cases x with
  | error e => exact ⟨fun h => (by cases h),fun ⟨_,h,_⟩ => (by cases h)⟩
  | ok s => exact ⟨fun h => ⟨s,rfl,h⟩,fun ⟨_,h,hf⟩ => (by cases h; exact hf)⟩

theorem map_ok {β γ : Type} {x : Except ε β} {f : β → γ} {c : γ} :
    x.map f = .ok c ↔ ∃ b, x = .ok b ∧ f b = c := by
  cases x <;> simp [Except.map]

theorem toOption_some {β : Type} {x : Except ε β} {b : β} : x.toOption = some b ↔ x = .ok b := by
  cases x <;> simp [Except.toOption]

theorem foldl_rule {P : List α → σ → Prop} {f : σ → α → σ}
    (hstep : ∀ a l s, P (a::l) s → P l (f s a)) (l : List α) {s : σ} (h : P l s) :
    P [] (l.foldl f s) := by
  induction l generalizing s with
  | nil => exact h
  | cons a l ih => exact ih (hstep a l s h)

theorem foldlM_rule {P : List α → σ → Prop} {f : σ → α → Except ε σ}
    (hstep : ∀ a l s t, P (a::l) s → f s a = .ok t → P l t) (l : List α) {s t : σ}
    (h : P l s) (hf : l.foldlM f s = .ok t) : P [] t := by
  induction l generalizing s with
  | nil => cases hf; exact h
  | cons a l ih =>
    rw [List.foldlM_cons] at hf
    obtain ⟨m,hm,hf⟩ := bind_ok.mp hf
    exact ih (hstep a l s m h hm) hf

end Folds

/-! Counting when one element joins a predicate. -/

section Counting

variable {α : Type*} [DecidableEq α] {f g : α → Bool} {a : α} {l : List α}

theorem countP_le_add_count (h : ∀ c ∈ l, g c = true → f c = true ∨ c = a) :
    l.countP g ≤ l.countP f+l.count a := by
  induction l with
  | nil => simp
  | cons c l ih =>
    have hl := ih (fun d hd => h d (List.mem_cons_of_mem c hd))
    have hc := h c List.mem_cons_self
    rw [List.countP_cons, List.countP_cons, List.count_cons]
    by_cases hg : g c = true
    · rcases hc hg with hf | rfl
      · simp only [hg, hf, if_true]
        omega
      · simp only [hg, beq_self_eq_true, if_true]
        omega
    · simp only [hg, if_false, Bool.false_eq_true]
      omega

theorem countP_eq_add_count (h : ∀ c ∈ l, g c = true ↔ f c = true ∨ c = a) (ha : f a = false) :
    l.countP g = l.countP f+l.count a := by
  induction l with
  | nil => simp
  | cons c l ih =>
    have hl := ih (fun d hd => h d (List.mem_cons_of_mem c hd))
    have hc := h c List.mem_cons_self
    rw [List.countP_cons, List.countP_cons, List.count_cons]
    by_cases hca : c = a
    · subst hca
      simp only [hc.mpr (Or.inr rfl), ha, beq_self_eq_true, if_true, if_false, Bool.false_eq_true]
      omega
    · have heq : g c = f c := by
        rw [Bool.eq_iff_iff, hc, or_iff_left hca]
      simp only [heq, beq_iff_eq, hca, if_false]
      omega

end Counting

end Linqu.Transition
