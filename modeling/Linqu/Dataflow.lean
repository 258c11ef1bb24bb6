import Mathlib.Tactic

/-!
# Dataflow of a binary operation

Nodes read two cells and write one. When every cell is written by one node at
most and the leaves by none, what a cell holds in the end does not depend on
the order in which the nodes run, as long as each runs after the nodes that
write its inputs: it is the operation folded over the leaves under the cell.
-/

set_option autoImplicit false

namespace Linqu.Dataflow

variable {η V : Type*} [DecidableEq η]

structure Node (η : Type*) where
  left : η
  right : η
  out : η
  deriving DecidableEq, Repr

def run (op : V → V → V) (store : η → V) (n : Node η) : η → V :=
  Function.update store n.out (op (store n.left) (store n.right))

/-- The leaves under a cell, from left to right. -/
inductive Under (leaf : η → Prop) (nodes : List (Node η)) : η → List η → Prop where
  | leaf {c : η} (h : leaf c) : Under leaf nodes c [c]
  | node {n : Node η} {l l' : List η} (hn : n ∈ nodes) (hl : Under leaf nodes n.left l)
      (hr : Under leaf nodes n.right l') : Under leaf nodes n.out (l++l')

/-- Each node runs once, after the nodes that write its inputs. -/
structure InOrder (nodes order : List (Node η)) : Prop where
  perm : order.Perm nodes
  after : ∀ pre n post, order = pre++n::post →
    ∀ m ∈ nodes, m.out = n.left ∨ m.out = n.right → m ∈ pre

/-- No cell is written twice, no leaf at all. -/
structure WrittenOnce (leaf : η → Prop) (nodes : List (Node η)) : Prop where
  nodup : (nodes.map Node.out).Nodup
  leaf : ∀ n ∈ nodes, ¬leaf n.out

/-- The operation over a list from left to right; nothing for no element. -/
def reduce (op : V → V → V) : List V → Option V
  | [] => none
  | x::xs => some (xs.foldl op x)

variable {leaf : η → Prop} {nodes : List (Node η)} {c : η} {l : List η}

omit [DecidableEq η] in
theorem Under.mono (h : Under leaf nodes c l) {nodes' : List (Node η)} (hsub : nodes ⊆ nodes') :
    Under leaf nodes' c l := by
  induction h with
  | leaf h => exact .leaf h
  | node hn _ _ hl hr => exact .node (hsub hn) hl hr

omit [DecidableEq η] in
theorem WrittenOnce.eq_of_out (h : WrittenOnce leaf nodes) {n m : Node η} (hn : n ∈ nodes)
    (hm : m ∈ nodes) (he : n.out = m.out) : n = m :=
  List.inj_on_of_nodup_map h.nodup hn hm he

omit [DecidableEq η] in
/-- A cell has one list of leaves. -/
theorem Under.unique (h : Under leaf nodes c l) (hw : WrittenOnce leaf nodes) {l' : List η}
    (h' : Under leaf nodes c l') : l' = l := by
  induction h generalizing l' with
  | @leaf c hc =>
    generalize hd : c = d at h'
    cases h' with
    | leaf _ => rfl
    | node hn _ _ => exact absurd (hd ▸ hc) (hw.leaf _ hn)
  | @node n l₁ l₂ hn _ _ ihl ihr =>
    generalize hd : n.out = d at h'
    cases h' with
    | leaf hc => exact absurd (hd ▸ hc) (hw.leaf _ hn)
    | node hm hl hr =>
      have he := hw.eq_of_out hn hm hd
      subst he
      rw [ihl hl, ihr hr]

theorem reduce_append {op : V → V → V} (hop : ∀ a b c, op (op a b) c = op a (op b c))
    {xs ys : List V} {a b : V} (hx : reduce op xs = some a) (hy : reduce op ys = some b) :
    reduce op (xs++ys) = some (op a b) := by
  have : Std.Associative op := ⟨hop⟩
  cases xs with
  | nil => cases hx
  | cons x xs =>
    cases ys with
    | nil => cases hy
    | cons y ys =>
      cases hx
      cases hy
      simp [reduce, List.foldl_assoc]

/-- After some of the nodes have run: their cells hold the fold, and what no
node has written is as before. -/
theorem run_part {op : V → V → V} (hop : ∀ a b c, op (op a b) c = op a (op b c))
    (hw : WrittenOnce leaf nodes) {order : List (Node η)} (ho : InOrder nodes order)
    (store : η → V) (pre : List (Node η)) (hpre : pre <+: order) :
    (∀ d, (∀ n ∈ pre, n.out ≠ d) → pre.foldl (run op) store d = store d) ∧
    ∀ n ∈ pre, ∀ l, Under leaf nodes n.out l →
      reduce op (l.map store) = some (pre.foldl (run op) store n.out) := by
  induction pre using List.reverseRecOn with
  | nil => simp
  | append_singleton pre n ih =>
    obtain ⟨post,hpost⟩ := hpre
    have hsplit : order = pre++n::post := by simp [← hpost]
    obtain ⟨hkeep,hdone⟩ := ih ⟨n::post,hsplit.symm⟩
    have hmem : ∀ m ∈ pre, m ∈ nodes := fun m hm => ho.perm.mem_iff.mp (by simp [hsplit, hm])
    have hn : n ∈ nodes := ho.perm.mem_iff.mp (by simp [hsplit])
    have hnew : ∀ m ∈ pre, m.out ≠ n.out := by
      intro m hm he
      have hnodup : order.Nodup := ho.perm.nodup_iff.mpr (List.Nodup.of_map _ hw.nodup)
      have hmn := hw.eq_of_out (hmem m hm) hn he
      rw [hsplit, List.nodup_append] at hnodup
      exact hnodup.2.2 m hm n (by simp) hmn
    -- an input of `n` is a leaf or has been written
    have hinput : ∀ d l, (∀ m ∈ nodes, m.out = d → m ∈ pre) → Under leaf nodes d l →
        reduce op (l.map store) = some (pre.foldl (run op) store d) := by
      intro d l hwritten hd
      cases hd with
      | leaf hc =>
        rw [hkeep d fun m hm he => hw.leaf m (hmem m hm) (he ▸ hc)]
        rfl
      | node hm hl hr => exact hdone _ (hwritten _ hm rfl) _ (.node hm hl hr)
    simp only [List.foldl_append, List.foldl_cons, List.foldl_nil]
    constructor
    · intro d hd
      have hne : d ≠ n.out := fun he => hd n (by simp) he.symm
      rw [run, Function.update_of_ne hne]
      exact hkeep d fun m hm => hd m (by simp [hm])
    · intro m hm l hl
      by_cases hmn : m = n
      · subst hmn
        generalize hd : m.out = d at hl
        cases hl with
        | leaf hc => exact absurd (hd ▸ hc) (hw.leaf m hn)
        | node hm' hleft hright =>
          have he := hw.eq_of_out hn hm' hd
          subst he
          rw [List.map_append, run, Function.update_self]
          apply reduce_append hop
          · exact hinput _ _ (fun k hk hko => ho.after pre m post hsplit k hk (.inl hko)) hleft
          · exact hinput _ _ (fun k hk hko => ho.after pre m post hsplit k hk (.inr hko)) hright
      · have hm' : m ∈ pre := by simpa [hmn] using hm
        rw [run, Function.update_of_ne (hnew m hm')]
        exact hdone m hm' l hl

/-- The nodes in any order leave in a cell the fold of the leaves under it. -/
theorem run_under {op : V → V → V} (hop : ∀ a b c, op (op a b) c = op a (op b c))
    (hw : WrittenOnce leaf nodes) {order : List (Node η)} (ho : InOrder nodes order) (store : η → V)
    (h : Under leaf nodes c l) :
    reduce op (l.map store) = some (order.foldl (run op) store c) := by
  obtain ⟨hkeep,hdone⟩ := run_part hop hw ho store order List.prefix_rfl
  cases h with
  | leaf hc =>
    rw [hkeep c fun n hn he => hw.leaf n (ho.perm.mem_iff.mp hn) (he ▸ hc)]
    rfl
  | node hn hl hr => exact hdone _ (ho.perm.mem_iff.mpr hn) _ (.node hn hl hr)

end Linqu.Dataflow
