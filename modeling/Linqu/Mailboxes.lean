import Mathlib.Tactic

/-!
# Messages in flight

A network is the list of the messages in flight with their addresses, oldest
first. A receiver takes the oldest one for its address. What matters of a
message is read off by a partial function, and counted: taking a message moves
one, and dropping messages only loses some.
-/

set_option autoImplicit false

namespace Linqu.Mailboxes

section Counting

variable {γ β : Type*} [DecidableEq β] {l : List γ} (f : γ → Option β) (t : β)

/-- How often a message shows a thing, once or not at all. -/
def shown (e : γ) : ℕ := (f e).toList.count t

theorem shown_none {e : γ} (h : f e = none) : shown f t e = 0 := by
  rw [shown, h]
  rfl

theorem shown_some {e : γ} {b : β} (h : f e = some b) : shown f t e = [b].count t := by
  rw [shown, h]
  rfl

theorem count_cons (e : γ) :
    ((e::l).filterMap f).count t = shown f t e+(l.filterMap f).count t := by
  cases hf : f e with
  | none => rw [List.filterMap_cons_none hf, shown_none f t hf, Nat.zero_add]
  | some b =>
    rw [List.filterMap_cons_some hf, shown_some f t hf, List.count_cons, List.count_singleton]
    exact Nat.add_comm _ _

theorem count_post (e : γ) :
    ((l++[e]).filterMap f).count t = (l.filterMap f).count t+shown f t e := by
  rw [List.filterMap_append, List.count_append, count_cons f t e, List.filterMap_nil,
    List.count_nil, Nat.add_zero]

theorem count_take [DecidableEq γ] {e : γ} (h : e ∈ l) :
    shown f t e+((l.erase e).filterMap f).count t = (l.filterMap f).count t := by
  rw [← count_cons]
  exact ((List.perm_cons_erase h).symm.filterMap f).count_eq t

theorem count_filter (p : γ → Bool) :
    ((l.filter p).filterMap f).count t ≤ (l.filterMap f).count t :=
  (List.filter_sublist.filterMap f).count_le t

end Counting

/-- The images of a part are a part of the images. -/
theorem subperm_map {α β : Type*} (f : α → β) {l l' : List α} (h : l.Subperm l') :
    (l.map f).Subperm (l'.map f) := by
  obtain ⟨m,hperm,hsub⟩ := h
  exact ⟨m.map f,hperm.map f,hsub.map f⟩

section Addresses

variable {ι μ β : Type*} [DecidableEq ι] [DecidableEq β] {l r : List (ι × μ)} {m : μ} {i : ι}
  (f : ι × μ → Option β) (t : β)

/-- The oldest message for an address, and the others. -/
def next (i : ι) : List (ι × μ) → Option (μ × List (ι × μ))
  | [] => none
  | (j,m)::l => if j = i then some (m,l) else (next i l).map fun r => (r.1,(j,m)::r.2)

/-- The messages for other addresses. -/
def discard (i : ι) (l : List (ι × μ)) : List (ι × μ) := l.filter fun e => e.1 ≠ i

theorem next_perm (h : next i l = some (m,r)) : List.Perm ((i,m)::r) l := by
  induction l generalizing r with
  | nil => cases h
  | cons e l ih =>
    obtain ⟨j,m'⟩ := e
    rw [next] at h
    by_cases hj : j = i
    · rw [if_pos hj] at h
      cases h
      rw [hj]
    · rw [if_neg hj] at h
      obtain ⟨⟨m'',r'⟩,hr,he⟩ := Option.map_eq_some_iff.mp h
      cases he
      exact (List.Perm.swap _ _ _).trans ((ih hr).cons _)

theorem count_next (h : next i l = some (m,r)) :
    shown f t (i,m)+(r.filterMap f).count t = (l.filterMap f).count t := by
  rw [← count_cons]
  exact ((next_perm h).filterMap f).count_eq t

theorem count_discard (i : ι) : ((discard i l).filterMap f).count t ≤ (l.filterMap f).count t :=
  count_filter f t _

end Addresses

end Linqu.Mailboxes
