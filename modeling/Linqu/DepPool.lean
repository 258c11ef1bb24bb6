import Linqu.Chain

/-!
# The dependency list pool

Fanin and fanout lists are offsets into one append-only arena. A new entry is
always put in front of an older one, so every list runs through strictly
decreasing offsets and ends. The offsets -1 and 0 of the source, which end a
list, are `none`.
-/

set_option autoImplicit false

namespace Linqu.DepPool
open Linqu.Chain

structure LinquDepListEntry where
  taskId : ℤ := -1
  next : Option ℕ := none
  deriving DecidableEq, Repr

structure LinquDepListPool where
  pool : ℕ → LinquDepListEntry
  capacity : ℕ
  top : ℕ

namespace LinquDepListPool

def init (capacity : ℕ) : Option LinquDepListPool :=
  if 0 < capacity then some { pool := fun _ => {}, capacity, top := 1 } else none

def reset (p : LinquDepListPool) : LinquDepListPool := { p with top := 1 }

/-- The offset of a new entry and the pool with it, or `none` where the
source asserts that the pool has room. -/
def prepend (p : LinquDepListPool) (currentHead : Option ℕ) (taskId : ℤ) :
    Option (ℕ × LinquDepListPool) :=
  if p.capacity < p.top then none
  else some (p.top,
    { p with pool := Function.update p.pool p.top ⟨taskId,currentHead⟩, top := p.top+1 })

def next (p : LinquDepListPool) (i : ℕ) : Option ℕ := (p.pool i).next

/-- The task ids a walk from a head meets. The loops of the source that walk
a list leave the pool alone, so the walk can be taken before the loop. -/
def tasks (p : LinquDepListPool) (head : Option ℕ) : List ℤ :=
  ((visit p.next p.top head).getD []).map (fun i => (p.pool i).taskId)

structure Sorted (p : LinquDepListPool) : Prop where
  next_lt : ∀ i, i < p.top → ∀ j, p.next i = some j → j < i

/-- A head that points below the bump pointer, or nowhere. -/
def Below (p : LinquDepListPool) (o : Option ℕ) : Prop := ∀ i, o = some i → i < p.top

theorem sorted_finite {p : LinquDepListPool} (hp : p.Sorted) {o : Option ℕ} (ho : p.Below o) :
    Finite p.next o := by
  cases o with
  | none => exact finite_none _
  | some i =>
    induction i using Nat.strong_induction_on with
    | _ i ih =>
      have hi := ho i rfl
      refine finite_some.mpr ?_
      cases hj : p.next i with
      | none => exact finite_none _
      | some j =>
        have hlt := hp.next_lt i hi j hj
        exact ih j hlt (fun k hk => by cases hk; omega)

theorem below_nodes {p : LinquDepListPool} (hp : p.Sorted) {o : Option ℕ} (ho : p.Below o)
    {l : List ℕ} (h : Spans p.next o l) : ∀ i ∈ l, i < p.top :=
  chain_mem_step (S := fun i => i < p.top)
    (fun i hi j hj => (hp.next_lt i hi j hj).trans hi) h ho

theorem tasks_eq {p : LinquDepListPool} (hp : p.Sorted) {o : Option ℕ} (ho : p.Below o)
    {l : List ℕ} (h : Spans p.next o l) : p.tasks o = l.map (fun i => (p.pool i).taskId) := by
  have hlen := chain_length_le (Finset.range p.top) h
    (fun i hi => Finset.mem_range.mpr (below_nodes hp ho h i hi))
  rw [Finset.card_range] at hlen
  rw [tasks, (visit_chain p.top).mpr ⟨h,hlen⟩]
  rfl

@[simp] theorem tasks_none (p : LinquDepListPool) : p.tasks none = [] := by
  unfold tasks
  cases p.top <;> rfl

/-- `n` entries were taken. -/
def Taken (n : ℕ) (p p' : LinquDepListPool) : Prop :=
  p'.top = p.top+n ∧ p'.capacity = p.capacity

theorem taken_refl (p : LinquDepListPool) : Taken 0 p p := ⟨rfl,rfl⟩

theorem Taken.trans {m n : ℕ} {p p' p'' : LinquDepListPool} (h : Taken m p p')
    (h' : Taken n p' p'') : Taken (m+n) p p'' := by
  refine ⟨?_,h'.2.trans h.2⟩
  rw [h'.1, h.1, Nat.add_assoc]

section Prepend

variable {p p' : LinquDepListPool} {head : Option ℕ} {taskId : ℤ} {idx : ℕ}

theorem prepend_spec (h : p.prepend head taskId = some (idx,p')) :
    idx = p.top ∧ p'.top = p.top+1 ∧ p'.capacity = p.capacity ∧
      p'.pool = Function.update p.pool p.top ⟨taskId,head⟩ := by
  unfold prepend at h
  split at h
  · cases h
  · cases h
    exact ⟨rfl,rfl,rfl,rfl⟩

theorem prepend_isSome (p : LinquDepListPool) (head : Option ℕ) (taskId : ℤ) :
    (p.prepend head taskId).isSome = decide (p.top ≤ p.capacity) := by
  unfold prepend
  split
  · rename_i hfull
    exact (decide_eq_false (not_le.mpr hfull)).symm
  · rename_i hroom
    exact (decide_eq_true (not_lt.mp hroom)).symm

theorem taken_prepend (h : p.prepend head taskId = some (idx,p')) : Taken 1 p p' := by
  obtain ⟨-,htop,hcap,-⟩ := prepend_spec h
  exact ⟨htop,hcap⟩

theorem prepend_next (h : p.prepend head taskId = some (idx,p')) :
    p'.next = Function.update p.next p.top head := by
  obtain ⟨-,-,-,hpool⟩ := prepend_spec h
  funext i
  simp only [next, hpool, Function.update_apply]
  split <;> rfl

theorem prepend_sorted (hp : p.Sorted) (hhead : p.Below head)
    (h : p.prepend head taskId = some (idx,p')) : p'.Sorted := by
  obtain ⟨-,htop,-,-⟩ := prepend_spec h
  constructor
  intro i hi j hj
  rw [prepend_next h, Function.update_apply] at hj
  split at hj
  · rename_i heq
    have := hhead j hj
    omega
  · exact hp.next_lt i (by omega) j hj

theorem prepend_below {o : Option ℕ} (ho : p.Below o)
    (h : p.prepend head taskId = some (idx,p')) : p'.Below o ∧ p'.Below (some idx) := by
  obtain ⟨hidx,htop,-,-⟩ := prepend_spec h
  refine ⟨fun i hi => ?_,fun i hi => ?_⟩
  · have := ho i hi; omega
  · cases hi; omega

/-- Lists that existed before a prepend are the same lists after it. -/
theorem tasks_prepend_old (hp : p.Sorted) (hhead : p.Below head) {o : Option ℕ} (ho : p.Below o)
    (h : p.prepend head taskId = some (idx,p')) : p'.tasks o = p.tasks o := by
  obtain ⟨l,hl⟩ := sorted_finite hp ho
  have hlt := below_nodes hp ho hl
  have hnot : p.top ∉ l := fun hm => lt_irrefl _ (hlt _ hm)
  have hl' : Spans p'.next o l := by
    rw [prepend_next h]
    exact chain_update _ _ hnot hl
  rw [tasks_eq (prepend_sorted hp hhead h) (prepend_below ho h).1 hl', tasks_eq hp ho hl]
  obtain ⟨-,-,-,hpool⟩ := prepend_spec h
  apply List.map_congr_left
  intro i hi
  rw [hpool, Function.update_of_ne]
  exact ne_of_lt (hlt i hi)

theorem tasks_prepend_new (hp : p.Sorted) (hhead : p.Below head)
    (h : p.prepend head taskId = some (idx,p')) :
    p'.tasks (some idx) = taskId::p.tasks head := by
  obtain ⟨hidx,-,-,hpool⟩ := prepend_spec h
  have hs := prepend_sorted hp hhead h
  obtain ⟨l,hl⟩ := sorted_finite hs (prepend_below hhead h).1
  have hnew : Spans p'.next (some idx) (idx::l) := by
    refine .cons ?_
    rwa [prepend_next h, hidx, Function.update_self, ← prepend_next h]
  rw [tasks_eq hs (prepend_below hhead h).2 hnew, List.map_cons,
    ← tasks_eq hs (prepend_below hhead h).1 hl, tasks_prepend_old hp hhead hhead h, hpool, hidx,
    Function.update_self]

end Prepend

theorem init_spec {cap : ℕ} {p : LinquDepListPool} (h : init cap = some p) :
    p.top = 1 ∧ p.capacity = cap ∧ 0 < cap := by
  unfold init at h
  split at h
  · rename_i hpos
    cases h
    exact ⟨rfl,rfl,hpos⟩
  · cases h

theorem init_sorted {cap : ℕ} {p : LinquDepListPool} (h : init cap = some p) : p.Sorted := by
  unfold init at h
  split at h
  · cases h
    exact ⟨fun i _ j hj => by cases hj⟩
  · cases h

end LinquDepListPool
end Linqu.DepPool
