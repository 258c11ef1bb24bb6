import Mathlib.Order.Interval.Finset.Nat
import Mathlib.Tactic

/-!
# Spans of a circular store

Counters grow without bound and the cell of a counter is its remainder by the
capacity. A span is a run of counters; one that fits crosses no multiple of
the capacity, so its cells are an interval of the store. `Window` is the state
of a store whose spans are taken at the top and given back at the tail. Spans
that have not been given back share no cell.
-/

set_option autoImplicit false

namespace Linqu.CircularStore

structure Span where
  start : ℕ
  size : ℕ
  deriving DecidableEq, Repr

namespace Span

def stop (b : Span) : ℕ := b.start+b.size

def Fits (cap : ℕ) (b : Span) : Prop := b.start % cap+b.size ≤ cap

def cells (cap : ℕ) (b : Span) : Finset ℕ := Finset.Ico (b.start % cap) (b.start % cap+b.size)

variable {cap : ℕ} {b c : Span}

theorem mem_cells {x : ℕ} :
    x ∈ b.cells cap ↔ b.start % cap ≤ x ∧ x < b.start % cap+b.size := by
  simp [cells]

theorem Fits.subset (h : b.Fits cap) : b.cells cap ⊆ Finset.range cap := by
  intro x hx
  rw [mem_cells] at hx
  have hfits : b.start % cap+b.size ≤ cap := h
  apply Finset.mem_range.mpr
  omega

/-- A cell of a span that fits belongs to one of its counters. -/
theorem Fits.counter (h : b.Fits cap) {x : ℕ} (hx : x ∈ b.cells cap) :
    ∃ n, b.start ≤ n ∧ n < b.stop ∧ n % cap = x := by
  have hlt := Finset.mem_range.mp (h.subset hx)
  rw [mem_cells] at hx
  have hdiv := Nat.div_add_mod b.start cap
  refine ⟨b.start+(x-b.start % cap),by omega,?_,?_⟩
  · rw [stop]
    omega
  · have hn : b.start+(x-b.start % cap) = x+cap*(b.start/cap) := by omega
    rw [hn, Nat.add_mul_mod_self_left, Nat.mod_eq_of_lt hlt]

theorem Fits.cell (h : b.Fits cap) {n : ℕ} (hn : b.start ≤ n) (hlt : n < b.stop) :
    n % cap ∈ b.cells cap := by
  have hfits : b.start % cap+b.size ≤ cap := h
  rw [stop] at hlt
  have hdiv := Nat.div_add_mod b.start cap
  have heq : n = b.start % cap+(n-b.start)+cap*(b.start/cap) := by omega
  have hmod : n % cap = b.start % cap+(n-b.start) := by
    rw [heq, Nat.add_mul_mod_self_left, Nat.mod_eq_of_lt (by omega)]
    omega
  rw [mem_cells, hmod]
  omega

/-- Two spans within one turn of the store share no cell. -/
theorem cells_disjoint (hb : b.Fits cap) (hc : c.Fits cap) (hbc : b.stop ≤ c.start)
    (hturn : c.stop ≤ b.start+cap) : Disjoint (c.cells cap) (b.cells cap) := by
  apply Finset.disjoint_left.mpr
  intro x hxc hxb
  obtain ⟨n,hn,hnlt,hnx⟩ := hb.counter hxb
  obtain ⟨m,hm,hmlt,hmx⟩ := hc.counter hxc
  have hdvd : cap ∣ m-n := (Nat.modEq_iff_dvd' (by omega)).mp (hnx.trans hmx.symm)
  have hle := Nat.le_of_dvd (by omega) hdvd
  omega

end Span

/-- The spans taken so far, newest first. -/
structure Window (cap tail top : ℕ) (l : List Span) : Prop where
  le : tail ≤ top
  room : top ≤ tail+cap
  fits : ∀ b ∈ l, b.Fits cap
  below : ∀ b ∈ l, b.stop ≤ top
  stacked : l.Pairwise (fun newer older => older.stop ≤ newer.start)

namespace Window

variable {cap tail top : ℕ} {l : List Span}

theorem empty (cap : ℕ) : Window cap 0 0 [] :=
  ⟨le_rfl,Nat.zero_le _,by simp,by simp,List.Pairwise.nil⟩

theorem push (h : Window cap tail top l) {b : Span} (hb : b.Fits cap) (hstart : top ≤ b.start)
    (hroom : b.stop ≤ tail+cap) : Window cap tail b.stop (b::l) := by
  have hle := h.le
  have hgrow : top ≤ b.stop := by
    rw [Span.stop]
    omega
  constructor
  · omega
  · exact hroom
  · simpa using ⟨hb,h.fits⟩
  · intro c hc
    rcases List.mem_cons.mp hc with rfl | hc
    · exact le_rfl
    · exact (h.below c hc).trans hgrow
  · apply List.Pairwise.cons _ h.stacked
    intro c hc
    exact (h.below c hc).trans hstart

theorem retire (h : Window cap tail top l) {m : ℕ} (hm : tail ≤ m) (htop : m ≤ top) :
    Window cap m top l := by
  have hroom := h.room
  exact ⟨htop,by omega,h.fits,h.below,h.stacked⟩

/-- A span that starts at or after the tail shares no cell with a later one. -/
theorem disjoint (h : Window cap tail top l) : l.Pairwise (fun newer older =>
    tail ≤ older.start → Disjoint (newer.cells cap) (older.cells cap)) := by
  apply h.stacked.imp_of_mem
  intro c b hc hb hbc htail
  have hstop := h.below c hc
  have hroom := h.room
  exact Span.cells_disjoint (h.fits b hb) (h.fits c hc) hbc (by omega)

end Window
end Linqu.CircularStore
