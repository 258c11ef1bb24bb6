import Linqu.OrchestrationApi
import Linqu.Scanning

/-!
# Socket paths

The transport writes a node's coordinate into the path of its socket, and the
discovery reads it back with two regular expressions. In both of them a run of
digits ends before an underscore or a point, so the longest run is the match.
-/

set_option autoImplicit false

namespace Linqu.SocketPaths
open Linqu.OrchestrationApi Linqu.Scanning

abbrev Path := List Char

def makeSocketPath (basePath : Path) (coord : LinquCoordinate) (level : UInt8) : Path :=
  let p := if basePath = [] then "/tmp/linqu".toList else basePath
  let p := if p.getLast? ≠ some '/' then p++['/'] else p
  let p := p++"L6_".toList++Nat.toDigits 10 coord.l6Idx.toNat++['/']
  let p := if level ≤ 5 then p++"L5_".toList++Nat.toDigits 10 coord.l5Idx.toNat++['/'] else p
  let p := if level ≤ 4 then p++"L4_".toList++Nat.toDigits 10 coord.l4Idx.toNat++['/'] else p
  let p := if level ≤ 3 then p++"L3_".toList++Nat.toDigits 10 coord.l3Idx.toNat++['/'] else p
  p++"daemon_L".toList++Nat.toDigits 10 level.toNat++".sock".toList

/-- `strtol` stops at its greatest value, and `int` keeps the low 32 bits. -/
def atoi (ds : List Char) : ℤ :=
  ((min (Nat.ofDigitChars 10 ds 0) (2^63-1) : ℕ) : ℤ).bmod (2^32)

/-- The groups and the length of a match of `L(\d+)_(\d+)` at the head. -/
def coordRe : Path → Option ((List Char × List Char) × ℕ)
  | 'L'::cs =>
    match cs.dropWhile Char.isDigit with
    | '_'::r =>
      let lv := cs.takeWhile Char.isDigit
      let idx := r.takeWhile Char.isDigit
      if lv = [] ∨ idx = [] then none else some ((lv,idx),lv.length+idx.length+2)
    | _ => none
  | _ => none

/-- The group of `daemon_L(\d+)\.sock` when it matches the whole name. -/
def sockRe (fname : Path) : Option (List Char) :=
  match fname.dropPrefix? "daemon_L".toList with
  | some cs =>
    if cs.takeWhile Char.isDigit ≠ [] ∧
        cs.dropWhile Char.isDigit = ".sock".toList then
      some (cs.takeWhile Char.isDigit)
    else none
  | none => none

/-- One turn of the loop over the matches. -/
def assign (coord : LinquCoordinate) (m : List Char × List Char) : LinquCoordinate :=
  let idx := atoi m.2
  match atoi m.1 with
  | 6 => { coord with l6Idx := .ofInt idx }
  | 5 => { coord with l5Idx := .ofInt idx }
  | 4 => { coord with l4Idx := .ofInt idx }
  | 3 => { coord with l3Idx := .ofInt idx }
  | 2 => { coord with l2Idx := .ofInt idx }
  | 1 => { coord with l1Idx := .ofInt idx }
  | 0 => { coord with l0Idx := .ofInt idx }
  | _ => coord

def parseSocketPath (path : Path) : Option (LinquCoordinate × UInt8) :=
  match splitLast '/' path with
  | none => none
  | some (dirPart,fname) =>
    match sockRe fname with
    | none => none
    | some ds => some ((scan coordRe 0 dirPart).foldl assign {},.ofInt (atoi ds))

/-- A substring of the form `L<digits>_<digits>`. -/
def HasCoordinate (base : Path) : Prop :=
  ∃ lv idx, Digits lv ∧ Digits idx ∧ 'L'::(lv ++ '_'::idx) <:+: base

def component (d : ℕ × ℕ) : Path := 'L'::(Nat.toDigits 10 d.1++ '_'::Nat.toDigits 10 d.2)

/-- The levels a path names, from the top down. -/
def components (coord : LinquCoordinate) (level : UInt8) : List (ℕ × ℕ) :=
  (6,coord.l6Idx.toNat)::
    ((if level ≤ 5 then [(5,coord.l5Idx.toNat)] else []) ++
      (if level ≤ 4 then [(4,coord.l4Idx.toNat)] else []) ++
        (if level ≤ 3 then [(3,coord.l3Idx.toNat)] else []))

/-- The base without the separator it may end with. -/
def root (basePath : Path) : Path :=
  let p := if basePath = [] then "/tmp/linqu".toList else basePath
  if p.getLast? = some '/' then p.dropLast else p

def fileName (level : UInt8) : Path :=
  "daemon_L".toList++Nat.toDigits 10 level.toNat++".sock".toList

def dirs (ds : List (ℕ × ℕ)) : Path := ds.flatMap fun d => '/'::component d

theorem append_component (b : Prop) [Decidable b] (q lit : Path) (k n : ℕ)
    (hk : lit = 'L'::(Nat.toDigits 10 k++['_'])) :
    (if b then q++['/']++lit++Nat.toDigits 10 n++['/'] else q++['/']) =
      q++dirs (if b then [(k,n)] else [])++['/'] := by
  by_cases hb : b
  · simp [hb, hk, dirs, component]
  · simp [hb, dirs]

theorem makeSocketPath_eq (basePath : Path) (coord : LinquCoordinate) (level : UInt8) :
    makeSocketPath basePath coord level =
      (root basePath++dirs (components coord level)) ++ '/'::fileName level := by
  have hroot : ∀ p : Path, (if p.getLast? ≠ some '/' then p++['/'] else p) =
      (if p.getLast? = some '/' then p.dropLast else p)++['/'] := by
    intro p
    by_cases hp : p.getLast? = some '/'
    · simp [hp, List.dropLast_append_getLast? _ hp]
    · simp [hp]
  have h6 : ∀ q : Path, q++['/']++['L','6','_']++Nat.toDigits 10 coord.l6Idx.toNat++['/'] =
      q++dirs [(6,coord.l6Idx.toNat)]++['/'] := fun q => by
    simpa only [if_true] using append_component True q ['L','6','_'] 6 coord.l6Idx.toNat rfl
  have h5 := fun q => append_component (level ≤ 5) q ['L','5','_'] 5 coord.l5Idx.toNat rfl
  have h4 := fun q => append_component (level ≤ 4) q ['L','4','_'] 4 coord.l4Idx.toNat rfl
  have h3 := fun q => append_component (level ≤ 3) q ['L','3','_'] 3 coord.l3Idx.toNat rfl
  have hdirs : dirs (components coord level) = dirs [(6,coord.l6Idx.toNat)]++
      (dirs (if level ≤ 5 then [(5,coord.l5Idx.toNat)] else [])++
        (dirs (if level ≤ 4 then [(4,coord.l4Idx.toNat)] else [])++
          dirs (if level ≤ 3 then [(3,coord.l3Idx.toNat)] else []))) := by
    simp only [dirs, components, ← List.flatMap_append, List.singleton_append,
      List.append_assoc]
  unfold makeSocketPath
  rw [show "L6_".toList = ['L','6','_'] by decide, show "L5_".toList = ['L','5','_'] by decide,
    show "L4_".toList = ['L','4','_'] by decide, show "L3_".toList = ['L','3','_'] by decide]
  simp only [hroot]
  simp only [h6, h5, h4, h3]
  unfold fileName root
  generalize "daemon_L".toList = daemon
  generalize ".sock".toList = sock
  generalize "/tmp/linqu".toList = linqu
  simp only [hdirs, List.append_assoc, List.cons_append, List.nil_append]

theorem coordRe_spec {cs lv idx : List Char} {n : ℕ} (h : coordRe cs = some ((lv,idx),n)) :
    Digits lv ∧ Digits idx ∧ ∃ rest, cs = 'L'::(lv ++ '_'::idx)++rest := by
  unfold coordRe at h
  split at h
  · rename_i cs
    split at h
    · rename_i r hr
      simp only [Option.ite_none_left_eq_some, not_or, Option.some.injEq, Prod.mk.injEq] at h
      obtain ⟨⟨hlv,hidx⟩,⟨rfl,rfl⟩,-⟩ := h
      refine ⟨⟨hlv,fun _ hd => List.mem_takeWhile_imp hd⟩,
        ⟨hidx,fun _ hd => List.mem_takeWhile_imp hd⟩,r.dropWhile Char.isDigit,?_⟩
      have hcs := List.takeWhile_append_dropWhile (p := Char.isDigit) (l := cs)
      have hrs := List.takeWhile_append_dropWhile (p := Char.isDigit) (l := r)
      rw [hr] at hcs
      simp [hrs, hcs]
    · simp at h
  · simp at h

theorem hasCoordinate_iff (base : Path) :
    HasCoordinate base ↔ ∃ s ∈ base.tails, (coordRe s).isSome := by
  constructor
  · intro ⟨lv,idx,hlv,hidx,pre,rest,hbase⟩
    refine ⟨ 'L'::(lv ++ '_'::idx)++rest,by simp [← hbase],?_⟩
    have hlevel : (lv ++ '_'::(idx++rest)).takeWhile Char.isDigit = lv := by
      simp [List.takeWhile_append_of_pos hlv.2]
    have htail : (lv ++ '_'::(idx++rest)).dropWhile Char.isDigit = '_'::(idx++rest) := by
      simp [List.dropWhile_append_of_pos hlv.2]
    have hindex : (idx++rest).takeWhile Char.isDigit ≠ [] := by
      simp [List.takeWhile_append_of_pos hidx.2, hidx.1]
    simp [coordRe, hlevel, htail, hindex, hlv.1]
  · intro ⟨s,hs,hm⟩
    obtain ⟨⟨⟨lv,idx⟩,n⟩,hc⟩ := Option.isSome_iff_exists.mp hm
    obtain ⟨hlv,hidx,rest,rfl⟩ := coordRe_spec hc
    exact ⟨lv,idx,hlv,hidx,(List.prefix_append _ rest).isInfix.trans
      ((List.mem_tails _ _).mp hs).isInfix⟩

instance (base : Path) : Decidable (HasCoordinate base) :=
  decidable_of_iff' _ (hasCoordinate_iff base)

theorem coordRe_component (d : ℕ × ℕ) {rest : Path} (h : Stops rest) :
    coordRe (component d++rest) =
      some ((Nat.toDigits 10 d.1,Nat.toDigits 10 d.2),(component d).length) := by
  have hsep : Stops ('_'::(Nat.toDigits 10 d.2++rest)) := by simp [Stops]
  simp [coordRe, component, takeWhile_toDigits _ h, takeWhile_toDigits _ hsep,
    dropWhile_toDigits _ hsep, Nat.toDigits_ne_nil]
  omega

/-- No match of the expression reaches over a separator. -/
theorem coordRe_base {base : Path} (hb : ¬HasCoordinate base) (rest : Path) {s : Path}
    (hs : s <:+ base) : coordRe (s ++ '/'::rest) = none := by
  by_contra hne
  obtain ⟨⟨⟨lv,idx⟩,n⟩,h⟩ := Option.ne_none_iff_exists'.mp hne
  obtain ⟨hlv,hidx,tail,heq⟩ := coordRe_spec h
  have hsep : '/' ∉ 'L'::(lv ++ '_'::idx) := by
    simp [hlv.not_mem (show '/'.isDigit = false by decide),
      hidx.not_mem (show '/'.isDigit = false by decide)]
  have hpre := prefix_of_separated hsep heq.symm
  exact hb ⟨lv,idx,hlv,hidx,hpre.isInfix.trans hs.isInfix⟩

theorem stops_dirs (ds : List (ℕ × ℕ)) : Stops (dirs ds) := by
  cases ds with
  | nil => simp [Stops, dirs]
  | cons d ds => simp [Stops, dirs]

theorem scan_dirs (ds : List (ℕ × ℕ)) :
    scan coordRe 0 (dirs ds) =
      ds.map fun d => (Nat.toDigits 10 d.1,Nat.toDigits 10 d.2) := by
  induction ds with
  | nil => simp [dirs, scan]
  | cons d ds ih =>
    have hone : scan coordRe 0 (component d++dirs ds) =
        (Nat.toDigits 10 d.1,Nat.toDigits 10 d.2)::scan coordRe 0 (dirs ds) :=
      scan_some (by simp [component]) (coordRe_component d (stops_dirs ds))
    have hsep : coordRe ('/'::(component d++dirs ds)) = none := by simp [coordRe]
    rw [show dirs (d::ds) = '/'::(component d++dirs ds) by simp [dirs]]
    simp [scan, hsep, hone, ih]

theorem scan_path {base : Path} (hb : ¬HasCoordinate base) (d : ℕ × ℕ) (ds : List (ℕ × ℕ)) :
    scan coordRe 0 (base++dirs (d::ds)) =
      (d::ds).map fun d => (Nat.toDigits 10 d.1,Nat.toDigits 10 d.2) := by
  rw [← scan_dirs (d::ds)]
  apply scan_none
  intro s _ hs
  simpa [dirs] using coordRe_base hb (component d++dirs ds) hs

theorem root_free {base : Path} (hb : ¬HasCoordinate base) : ¬HasCoordinate (root base) := by
  have hdefault : ¬HasCoordinate "/tmp/linqu".toList := by
    intro ⟨lv,idx,_,_,h⟩
    have hmem : 'L' ∈ "/tmp/linqu".toList := h.subset (by simp)
    simp at hmem
  have hdrop : ∀ p : Path, ¬HasCoordinate p →
      ¬HasCoordinate (if p.getLast? = some '/' then p.dropLast else p) := by
    intro p hp
    by_cases hl : p.getLast? = some '/'
    · rw [if_pos hl]
      intro ⟨lv,idx,hlv,hidx,h⟩
      exact hp ⟨lv,idx,hlv,hidx,h.trans (List.dropLast_prefix p).isInfix⟩
    · rwa [if_neg hl]
  unfold root
  by_cases he : base = []
  · simpa [he] using hdrop _ hdefault
  · simpa [he] using hdrop _ hb

theorem sockRe_fileName (level : UInt8) :
    sockRe (fileName level) = some (Nat.toDigits 10 level.toNat) := by
  have hstop : Stops ".sock".toList := by simp [Stops]
  have hdrop : (fileName level).dropPrefix? "daemon_L".toList =
      some (Nat.toDigits 10 level.toNat++".sock".toList) := by
    unfold fileName
    rw [List.append_assoc]
    exact List.dropPrefix?_append_of_beq _ (by simp)
  simp only [sockRe, hdrop, takeWhile_toDigits _ hstop, dropWhile_toDigits _ hstop]
  simp [Nat.toDigits_ne_nil]

theorem separator_not_in_fileName (level : UInt8) : '/' ∉ fileName level := by
  have hd := (digits_toDigits level.toNat).not_mem (show '/'.isDigit = false by decide)
  unfold fileName
  simp only [List.mem_append, hd, or_false]
  decide

theorem atoi_toDigits {n : ℕ} (h : n < 2^31) : atoi (Nat.toDigits 10 n) = n := by
  unfold atoi
  rw [Nat.ofDigitChars_ten_toDigits]
  have hmin : min n (2^63-1) = n := by omega
  rw [hmin]
  exact Int.bmod_eq_of_le (by omega) (by omega)

/-- The index a coordinate has at a level. -/
def levelIndex (coord : LinquCoordinate) : ℕ → ℕ
  | 0 => coord.l0Idx.toNat
  | 1 => coord.l1Idx.toNat
  | 2 => coord.l2Idx.toNat
  | 3 => coord.l3Idx.toNat
  | 4 => coord.l4Idx.toNat
  | 5 => coord.l5Idx.toNat
  | 6 => coord.l6Idx.toNat
  | _ => 0

@[simp] theorem ofInt_byte (x : UInt8) : UInt8.ofInt x.toNat = x := by
  have hx : ((x.toNat:ℤ) % 2^8).toNat = x.toNat := by
    have := x.toNat_lt
    omega
  rw [UInt8.ofInt, hx, UInt8.ofNat_toNat]

@[simp] theorem ofInt_word (x : UInt16) : UInt16.ofInt x.toNat = x := by
  have hx : ((x.toNat:ℤ) % 2^16).toNat = x.toNat := by
    have := x.toNat_lt
    omega
  rw [UInt16.ofInt, hx, UInt16.ofNat_toNat]

@[simp] theorem atoi_byte (x : UInt8) : atoi (Nat.toDigits 10 x.toNat) = x.toNat :=
  atoi_toDigits (by have := x.toNat_lt; omega)

@[simp] theorem atoi_word (x : UInt16) : atoi (Nat.toDigits 10 x.toNat) = x.toNat :=
  atoi_toDigits (by have := x.toNat_lt; omega)

/-- What is left of a coordinate in the path of a node of its level. -/
def kept (coord : LinquCoordinate) (level : UInt8) : LinquCoordinate :=
  { l6Idx := coord.l6Idx
    l5Idx := if level ≤ 5 then coord.l5Idx else 0
    l4Idx := if level ≤ 4 then coord.l4Idx else 0
    l3Idx := if level ≤ 3 then coord.l3Idx else 0 }

theorem assign_components (coord : LinquCoordinate) (level : UInt8) :
    ((components coord level).map fun d => (Nat.toDigits 10 d.1,Nat.toDigits 10 d.2)).foldl
      assign {} = kept coord level := by
  have h6 : ∀ c x, assign c (Nat.toDigits 10 6,Nat.toDigits 10 x) =
      { c with l6Idx := .ofInt (atoi (Nat.toDigits 10 x)) } := fun _ _ => by
    unfold assign
    rw [atoi_toDigits (show 6 < 2^31 by decide)]
    rfl
  have h5 : ∀ c x, assign c (Nat.toDigits 10 5,Nat.toDigits 10 x) =
      { c with l5Idx := .ofInt (atoi (Nat.toDigits 10 x)) } := fun _ _ => by
    unfold assign
    rw [atoi_toDigits (show 5 < 2^31 by decide)]
    rfl
  have h4 : ∀ c x, assign c (Nat.toDigits 10 4,Nat.toDigits 10 x) =
      { c with l4Idx := .ofInt (atoi (Nat.toDigits 10 x)) } := fun _ _ => by
    unfold assign
    rw [atoi_toDigits (show 4 < 2^31 by decide)]
    rfl
  have h3 : ∀ c x, assign c (Nat.toDigits 10 3,Nat.toDigits 10 x) =
      { c with l3Idx := .ofInt (atoi (Nat.toDigits 10 x)) } := fun _ _ => by
    unfold assign
    rw [atoi_toDigits (show 3 < 2^31 by decide)]
    rfl
  by_cases hl5 : level ≤ 5 <;> by_cases hl4 : level ≤ 4 <;> by_cases hl3 : level ≤ 3 <;>
    simp [components, kept, hl5, hl4, hl3, h6, h5, h4, h3]

theorem parse_make {base : Path} (hb : ¬HasCoordinate base) (coord : LinquCoordinate)
    (level : UInt8) :
    parseSocketPath (makeSocketPath base coord level) = some (kept coord level,level) := by
  unfold parseSocketPath
  rw [makeSocketPath_eq, splitLast_append _ (separator_not_in_fileName level)]
  have hscan : scan coordRe 0 (root base++dirs (components coord level)) =
      (components coord level).map fun d => (Nat.toDigits 10 d.1,Nat.toDigits 10 d.2) :=
    scan_path (root_free hb) _ _
  simp only [sockRe_fileName, hscan, assign_components, atoi_byte, ofInt_byte]

theorem levelIndex_kept (coord : LinquCoordinate) {level : UInt8} (h3 : 3 ≤ level)
    (h6 : level ≤ 6) (k : ℕ) :
    levelIndex (kept coord level) k = if level.toNat ≤ k then levelIndex coord k else 0 := by
  have hlow : 3 ≤ level.toNat := UInt8.le_iff_toNat_le.mp h3
  have hhigh : level.toNat ≤ 6 := UInt8.le_iff_toNat_le.mp h6
  have hl5 : level ≤ 5 ↔ level.toNat ≤ 5 := UInt8.le_iff_toNat_le
  have hl4 : level ≤ 4 ↔ level.toNat ≤ 4 := UInt8.le_iff_toNat_le
  have hl3 : level ≤ 3 ↔ level.toNat ≤ 3 := UInt8.le_iff_toNat_le
  have h5 := apply_ite UInt8.toNat (level ≤ 5) coord.l5Idx 0
  have h4 := apply_ite UInt8.toNat (level ≤ 4) coord.l4Idx 0
  have h3 := apply_ite UInt16.toNat (level ≤ 3) coord.l3Idx 0
  unfold levelIndex kept
  split <;> grind

/-- Discovery recovers what the transport wrote: for every base without a
coordinate in it, the path of a node of level 3 to 6 is read as that level and
the coordinate cut off below it, so two nodes of one level share a path only
when they agree from that level up. -/
theorem discovery_recovers (base : Path) (hb : ¬HasCoordinate base) (level : UInt8)
    (h3 : 3 ≤ level) (h6 : level ≤ 6) :
    (∀ coord, ∃ found, parseSocketPath (makeSocketPath base coord level) = some (found,level) ∧
      ∀ k, levelIndex found k = if level.toNat ≤ k then levelIndex coord k else 0) ∧
    ∀ coord coord', makeSocketPath base coord level = makeSocketPath base coord' level →
      ∀ k, level.toNat ≤ k → levelIndex coord k = levelIndex coord' k := by
  have hkept : ∀ coord k, levelIndex (kept coord level) k =
      if level.toNat ≤ k then levelIndex coord k else 0 :=
    fun coord => levelIndex_kept coord h3 h6
  refine ⟨fun coord => ⟨_,parse_make hb coord level,hkept coord⟩,?_⟩
  intro coord coord' hpath k hk
  have hparse := congrArg parseSocketPath hpath
  simp only [parse_make hb, Option.some.injEq, Prod.mk.injEq, and_true] at hparse
  have hk₁ := hkept coord k
  have hk₂ := hkept coord' k
  rw [if_pos hk] at hk₁ hk₂
  rw [← hk₁, ← hk₂, hparse]

/-- A base that ends with a separator and has an underscore in it. -/
theorem discovery_recovers_spool :
    ∃ found, parseSocketPath (makeSocketPath "/var/L_1/".toList { l5Idx := 2, l4Idx := 1 } 4) =
      some (found,4) ∧ levelIndex found 4 = 1 := by
  have hbase : ¬HasCoordinate "/var/L_1/".toList := by decide
  obtain ⟨found,hparse,hk⟩ :=
    (discovery_recovers "/var/L_1/".toList hbase 4 (by decide) (by decide)).1
      { l5Idx := 2, l4Idx := 1 }
  exact ⟨found,hparse,by rw [hk]; decide⟩

end Linqu.SocketPaths
