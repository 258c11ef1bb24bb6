import Mathlib.Data.List.TakeWhile
import Mathlib.Tactic

/-!
# Scanning text

A matcher gives what it reads at the head of a list and how many elements it
takes. A scan collects the matches from the left, the search going on behind
each of them. Decimals are read back as they were printed.
-/

set_option autoImplicit false

namespace Linqu.Scanning

variable {α β : Type}

/-- `k` elements still belong to the last match. -/
def scan (m : List α → Option (β × ℕ)) : ℕ → List α → List β
  | _, [] => []
  | k+1, _::cs => scan m k cs
  | 0, c::cs =>
    match m (c::cs) with
    | some (x,n) => x::scan m (n-1) cs
    | none => scan m 0 cs

theorem scan_drop (m : List α → Option (β × ℕ)) (k : ℕ) (cs : List α) :
    scan m k cs = scan m 0 (cs.drop k) := by
  induction cs generalizing k with
  | nil => simp [scan]
  | cons c cs ih =>
    by_cases hk : k = 0
    · simp [hk]
    · obtain ⟨k,rfl⟩ := Nat.exists_eq_succ_of_ne_zero hk
      simpa [scan] using ih k

/-- What no match starts in is passed over. -/
theorem scan_none {m : List α → Option (β × ℕ)} {pre : List α} (rest : List α)
    (h : ∀ s, s ≠ [] → s <:+ pre → m (s++rest) = none) :
    scan m 0 (pre++rest) = scan m 0 rest := by
  induction pre with
  | nil => simp
  | cons c pre ih =>
    have hc : m (c::(pre++rest)) = none := by simpa using h (c::pre) (by simp) (by simp)
    have hrest := ih fun s hne hs => h s hne (hs.trans (by simp))
    simp [scan, hc, hrest]

theorem scan_some {m : List α → Option (β × ℕ)} {w rest : List α} {x : β} (hw : w ≠ [])
    (h : m (w++rest) = some (x,w.length)) : scan m 0 (w++rest) = x::scan m 0 rest := by
  cases w with
  | nil => exact absurd rfl hw
  | cons c w =>
    rw [List.cons_append] at h ⊢
    simp [scan, h, scan_drop m w.length]

/-- The parts before and after the last separator. -/
def splitLast [DecidableEq α] (sep : α) : List α → Option (List α × List α)
  | [] => none
  | c::cs =>
    match splitLast sep cs with
    | some (a,b) => some (c::a,b)
    | none => if c = sep then some ([],cs) else none

theorem splitLast_none [DecidableEq α] {sep : α} {cs : List α} (h : sep ∉ cs) :
    splitLast sep cs = none := by
  induction cs with
  | nil => rfl
  | cons c cs ih =>
    simp only [List.mem_cons, not_or] at h
    simp [splitLast, ih h.2, Ne.symm h.1]

theorem splitLast_append [DecidableEq α] {sep : α} (a : List α) {b : List α} (h : sep ∉ b) :
    splitLast sep (a++sep::b) = some (a,b) := by
  induction a with
  | nil => simp [splitLast, splitLast_none h]
  | cons c a ih => simp [splitLast, ih]

/-- A word without the separator that is read before one lies in what stands there. -/
theorem prefix_of_separated {sep : α} {w s rest tail : List α} (hw : sep ∉ w)
    (h : w++tail = s++sep::rest) : w <+: s := by
  induction w generalizing s with
  | nil => simp
  | cons c w ih =>
    simp only [List.mem_cons, not_or] at hw
    cases s with
    | nil => simp [Ne.symm hw.1] at h
    | cons d s =>
      simp only [List.cons_append, List.cons.injEq] at h
      simpa [h.1] using ih hw.2 h.2

/-- A digit string that is not empty. -/
def Digits (ds : List Char) : Prop := ds ≠ [] ∧ ∀ d ∈ ds, d.isDigit

theorem Digits.not_mem {ds : List Char} (h : Digits ds) {c : Char} (hc : c.isDigit = false) :
    c ∉ ds := by
  intro hmem
  simp [h.2 c hmem] at hc

/-- What follows a number without being part of it. -/
def Stops (rest : List Char) : Prop := ∀ c ∈ rest.head?, c.isDigit = false

theorem digits_toDigits (n : ℕ) : Digits (Nat.toDigits 10 n) :=
  ⟨Nat.toDigits_ne_nil,fun _ hd => Nat.isDigit_of_mem_toDigits (by decide) (by decide) hd⟩

theorem takeWhile_toDigits (n : ℕ) {rest : List Char} (h : Stops rest) :
    (Nat.toDigits 10 n++rest).takeWhile Char.isDigit = Nat.toDigits 10 n := by
  rw [List.takeWhile_append_of_pos (digits_toDigits n).2]
  cases rest with
  | nil => simp
  | cons c rest => simp [h c (by simp)]

theorem dropWhile_toDigits (n : ℕ) {rest : List Char} (h : Stops rest) :
    (Nat.toDigits 10 n++rest).dropWhile Char.isDigit = rest := by
  rw [List.dropWhile_append_of_pos (digits_toDigits n).2]
  cases rest with
  | nil => simp
  | cons c rest => simp [h c (by simp)]

theorem toDigits_leading (n : ℕ) (h : (Nat.toDigits 10 n).head? = some '0') : n = 0 := by
  induction n using Nat.strong_induction_on with
  | _ n ih =>
    by_cases hn : n < 10
    · rw [Nat.toDigits_of_lt_base hn] at h
      simpa using h
    · rw [Nat.toDigits_of_base_le (by decide) (by omega),
        List.head?_append_of_ne_nil _ Nat.toDigits_ne_nil] at h
      have := ih (n/10) (by omega) h
      omega

end Linqu.Scanning
