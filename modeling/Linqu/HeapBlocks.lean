import Linqu.HeapRing
import Linqu.CircularStore
import Linqu.Transition

/-!
# Blocks of the heap ring

`SizeRing` is the heap ring over `size_t`: sums and differences wrap around.
A history records the values that `top()` has had, the blocks handed out and
the bytes the top has been advanced by. While the bytes advanced stay below
`2^64` no operation wraps around and the ring is the one over the naturals,
whose blocks are the spans of a circular store.
-/

set_option autoImplicit false

namespace Linqu.HeapBlocks
open Linqu.HeapRing Linqu.CircularStore Linqu.Transition

/-! The ring over the naturals. -/

section Counters

variable {r r' : LinquHeapRing} {size pos : ℕ}

/-- A block starts at the top, or after the gap when it would straddle the end. -/
def startOf (r : LinquHeapRing) (size : ℕ) : ℕ :=
  if r.top % r.capacity+size ≤ r.capacity then r.top
  else r.top+(r.capacity-r.top % r.capacity)

theorem available_eq (h : r.tail ≤ r.top) : r.available = r.capacity-(r.top-r.tail) := by
  rw [LinquHeapRing.available, LinquHeapRing.used, if_pos h]

theorem tryAlloc_some : r.tryAlloc size = some (pos,r') ↔ 0 < size ∧ size ≤ r.capacity ∧
    startOf r size-r.top+size ≤ r.available ∧ pos = startOf r size % r.capacity ∧
    r' = { r with top := startOf r size+size } := by
  unfold LinquHeapRing.tryAlloc startOf
  dsimp only
  by_cases hsize : size = 0 ∨ r.capacity < size
  · simp only [if_pos hsize, reduceCtorEq, false_iff]
    omega
  · have hpos : r.top % r.capacity < r.capacity := Nat.mod_lt _ (by omega)
    rw [if_neg hsize]
    by_cases hfree : r.available < size
    · simp only [if_pos hfree, reduceCtorEq, false_iff]
      omega
    · rw [if_neg hfree]
      by_cases hfit : r.top % r.capacity+size ≤ r.capacity
      · simp only [if_pos hfit, Option.some.injEq, Prod.mk.injEq]
        constructor
        · rintro ⟨rfl,rfl⟩
          exact ⟨by omega,by omega,by omega,rfl,rfl⟩
        · rintro ⟨-,-,-,rfl,rfl⟩
          exact ⟨rfl,rfl⟩
      · simp only [if_neg hfit]
        by_cases hgap : r.available < size+(r.capacity-r.top % r.capacity)
        · simp only [if_pos hgap, reduceCtorEq, false_iff]
          omega
        · simp only [if_neg hgap, Option.some.injEq, Prod.mk.injEq]
          constructor
          · rintro ⟨rfl,rfl⟩
            exact ⟨by omega,by omega,by omega,rfl,rfl⟩
          · rintro ⟨-,-,-,rfl,rfl⟩
            exact ⟨rfl,rfl⟩

theorem top_le_startOf : r.top ≤ startOf r size := by
  unfold startOf
  split <;> omega

/-- A block does not straddle the end of the store. -/
theorem startOf_fits (hcap : 0 < r.capacity) (hsize : size ≤ r.capacity) :
    (⟨startOf r size,size⟩ : Span).Fits r.capacity := by
  have hdiv := Nat.div_add_mod r.top r.capacity
  have hlt := Nat.mod_lt r.top hcap
  unfold startOf
  rw [Span.Fits]
  split
  · assumption
  · have hstart : r.top+(r.capacity-r.top % r.capacity) =
        r.capacity*(r.top/r.capacity+1) := by
      rw [Nat.mul_add]
      omega
    simp only [hstart, Nat.mul_mod_right]
    omega

theorem tryAlloc_top (h : r.tryAlloc size = some (pos,r')) : r.top < r'.top := by
  obtain ⟨hpos,-,-,-,rfl⟩ := tryAlloc_some.mp h
  have hstart : r.top ≤ startOf r size := top_le_startOf
  dsimp only
  omega

/-- A block is taken from the free part, with the gap before it. -/
theorem tryAlloc_room (htail : r.tail ≤ r.top) (h : r.tryAlloc size = some (pos,r')) :
    r'.tail = r.tail ∧ r'.top ≤ r'.tail+r'.capacity := by
  obtain ⟨hpos,-,hroom,-,rfl⟩ := tryAlloc_some.mp h
  have hstart : r.top ≤ startOf r size := top_le_startOf
  rw [available_eq htail] at hroom
  dsimp only
  omega

/-- A successful allocation takes a span at the top of the window. -/
theorem tryAlloc_push {l : List Span} (h : Window r.capacity r.tail r.top l)
    (hr : r.tryAlloc size = some (pos,r')) :
    Window r'.capacity r'.tail r'.top (⟨startOf r size,size⟩::l) := by
  obtain ⟨hpos,hsize,hroom,-,rfl⟩ := tryAlloc_some.mp hr
  rw [available_eq h.le] at hroom
  have hle := h.le
  have hwin := h.room
  have hstart : r.top ≤ startOf r size := top_le_startOf
  apply h.push (startOf_fits (by omega) hsize) hstart
  rw [Span.stop]
  dsimp only
  omega

end Counters
/-! The ring over `size_t`. -/

structure SizeRing where
  capacity : UInt64
  top : UInt64
  tail : UInt64
  deriving DecidableEq, Repr

namespace SizeRing

def init (capacityBytes : UInt64) : SizeRing := ⟨capacityBytes,0,0⟩

def used (r : SizeRing) : UInt64 :=
  if r.tail ≤ r.top then r.top-r.tail else r.capacity-r.tail+r.top

def available (r : SizeRing) : UInt64 := r.capacity-r.used

/-- The offset of the block in the store when the call returns true, and the
ring after the call. -/
def tryAlloc (r : SizeRing) (size : UInt64) : Option UInt64 × SizeRing :=
  if size = 0 ∨ r.capacity < size then (none,r)
  else if r.available < size then (none,r)
  else
    let pos := r.top % r.capacity
    if pos+size ≤ r.capacity then (some pos,{ r with top := r.top+size })
    else
      let waste := r.capacity-pos
      if r.available < size+waste then (none,r)
      else (some ((r.top+waste) % r.capacity),{ r with top := r.top+waste+size })

def retireTo (r : SizeRing) (newTail : UInt64) : SizeRing := { r with tail := newTail }

def toNat (r : SizeRing) : LinquHeapRing := ⟨r.capacity.toNat,r.top.toNat,r.tail.toNat⟩

/-- The bytes by which a successful call advances the top. -/
def advance (r : SizeRing) (size : UInt64) : ℕ :=
  if r.top % r.capacity+size ≤ r.capacity then size.toNat
  else (r.capacity-r.top % r.capacity).toNat+size.toNat

variable {r r' : SizeRing} {size pos : UInt64}

theorem tryAlloc_failed (h : (r.tryAlloc size).1 = none) : (r.tryAlloc size).2 = r := by
  unfold tryAlloc at h ⊢
  dsimp only at h ⊢
  by_cases hsize : size = 0 ∨ r.capacity < size
  · simp [hsize]
  · by_cases hfree : r.available < size
    · simp [hsize, hfree]
    · by_cases hfit : r.top % r.capacity+size ≤ r.capacity
      · simp [hsize, hfree, hfit] at h
      · by_cases hgap : r.available < size+(r.capacity-r.top % r.capacity)
        · simp [hsize, hfree, hfit, hgap]
        · simp [hsize, hfree, hfit, hgap] at h

theorem available_toNat (htail : r.tail.toNat ≤ r.top.toNat)
    (hroom : r.top.toNat ≤ r.tail.toNat+r.capacity.toNat) :
    r.available.toNat = r.toNat.available := by
  have hle : r.tail ≤ r.top := UInt64.le_iff_toNat_le.mpr htail
  have hused : r.used.toNat = r.top.toNat-r.tail.toNat := by
    rw [used, if_pos hle, UInt64.toNat_sub_of_le _ _ hle]
  have hcap : r.used ≤ r.capacity := by
    apply UInt64.le_iff_toNat_le.mpr
    omega
  rw [available_eq (r := r.toNat) htail, available, UInt64.toNat_sub_of_le _ _ hcap, hused]
  rfl

theorem pos_toNat : (r.top % r.capacity).toNat = r.top.toNat % r.capacity.toNat :=
  UInt64.toNat_mod _ _

/-- The gap between the top and the end of the store. -/
theorem waste_toNat (hcap : 0 < r.capacity.toNat) : (r.capacity-r.top % r.capacity).toNat =
    r.capacity.toNat-r.top.toNat % r.capacity.toNat := by
  have hlt := Nat.mod_lt r.top.toNat hcap
  rw [UInt64.toNat_sub_of_le, pos_toNat]
  rw [UInt64.le_iff_toNat_le, pos_toNat]
  omega

theorem fits_iff (hsmall : r.top.toNat % r.capacity.toNat+size.toNat < 2^64) :
    r.top % r.capacity+size ≤ r.capacity ↔
      r.top.toNat % r.capacity.toNat+size.toNat ≤ r.capacity.toNat := by
  rw [UInt64.le_iff_toNat_le, UInt64.toNat_add, pos_toNat, Nat.mod_eq_of_lt hsmall]

/-- What a successful call has tested, and where it takes the block. -/
theorem tryAlloc_cases (h : r.tryAlloc size = (some pos,r')) :
    0 < size.toNat ∧ size.toNat ≤ r.capacity.toNat ∧
      (r.top % r.capacity+size ≤ r.capacity ∧ ¬ r.available < size ∧
          pos = r.top % r.capacity ∧ r' = { r with top := r.top+size } ∨
        ¬ r.top % r.capacity+size ≤ r.capacity ∧
          ¬ r.available < size+(r.capacity-r.top % r.capacity) ∧
          pos = (r.top+(r.capacity-r.top % r.capacity)) % r.capacity ∧
          r' = { r with top := r.top+(r.capacity-r.top % r.capacity)+size }) := by
  unfold tryAlloc at h
  dsimp only at h
  by_cases hsize : size = 0 ∨ r.capacity < size
  · simp [hsize] at h
  · rw [if_neg hsize] at h
    have hzero : size.toNat ≠ 0 := by
      intro h0
      exact hsize (Or.inl (UInt64.toNat_inj.mp h0))
    have hcap : size.toNat ≤ r.capacity.toNat := by
      by_contra hlt
      exact hsize (Or.inr (UInt64.lt_iff_toNat_lt.mpr (by omega)))
    apply And.intro (Nat.pos_of_ne_zero hzero)
    apply And.intro hcap
    by_cases hfree : r.available < size
    · simp [hfree] at h
    · rw [if_neg hfree] at h
      by_cases hfit : r.top % r.capacity+size ≤ r.capacity
      · rw [if_pos hfit] at h
        cases h
        exact Or.inl ⟨hfit,hfree,rfl,rfl⟩
      · rw [if_neg hfit] at h
        by_cases hgap : r.available < size+(r.capacity-r.top % r.capacity)
        · simp [hgap] at h
        · rw [if_neg hgap] at h
          cases h
          exact Or.inr ⟨hfit,hgap,rfl,rfl⟩

/-- A successful call that does not carry the top past `2^64` is one of the
ring over the naturals. -/
theorem tryAlloc_toNat (htail : r.tail.toNat ≤ r.top.toNat)
    (hroom : r.top.toNat ≤ r.tail.toNat+r.capacity.toNat)
    (hsmall : r.top.toNat+r.advance size < 2^64) (h : r.tryAlloc size = (some pos,r')) :
    r.toNat.tryAlloc size.toNat = some (pos.toNat,r'.toNat) ∧
      r'.top.toNat = r.top.toNat+r.advance size := by
  have havail := available_toNat htail hroom
  have hle : r.top.toNat % r.capacity.toNat ≤ r.top.toNat := Nat.mod_le _ _
  obtain ⟨hpos,hcap,⟨hfit,hfree,rfl,rfl⟩ | ⟨hfit,hgap,rfl,rfl⟩⟩ := tryAlloc_cases h
  · rw [advance, if_pos hfit] at hsmall ⊢
    rw [UInt64.lt_iff_toNat_lt, havail] at hfree
    have hstart : startOf r.toNat size.toNat = r.top.toNat :=
      if_pos ((fits_iff (by omega)).mp hfit)
    have htop : (r.top+size).toNat = r.top.toNat+size.toNat := by
      rw [UInt64.toNat_add]
      omega
    apply And.intro _ htop
    apply tryAlloc_some.mpr
    rw [hstart]
    refine ⟨hpos,hcap,?_,pos_toNat,?_⟩
    · change r.top.toNat-r.top.toNat+size.toNat ≤ _
      omega
    · rw [toNat, ← htop]
      rfl
  · rw [advance, if_neg hfit] at hsmall ⊢
    rw [waste_toNat (by omega)] at hsmall ⊢
    rw [UInt64.lt_iff_toNat_lt, havail, UInt64.toNat_add, waste_toNat (by omega)] at hgap
    have hskip : (r.top+(r.capacity-r.top % r.capacity)).toNat =
        r.top.toNat+(r.capacity.toNat-r.top.toNat % r.capacity.toNat) := by
      rw [UInt64.toNat_add, waste_toNat (by omega)]
      omega
    have hstart : startOf r.toNat size.toNat =
        r.top.toNat+(r.capacity.toNat-r.top.toNat % r.capacity.toNat) :=
      if_neg fun hf => hfit ((fits_iff (by omega)).mpr hf)
    have htop : (r.top+(r.capacity-r.top % r.capacity)+size).toNat =
        r.top.toNat+(r.capacity.toNat-r.top.toNat % r.capacity.toNat)+size.toNat := by
      rw [UInt64.toNat_add, hskip]
      omega
    refine ⟨tryAlloc_some.mpr ?_,by rw [htop]; omega⟩
    rw [hstart]
    refine ⟨hpos,hcap,?_,?_,?_⟩
    · change r.top.toNat+(r.capacity.toNat-r.top.toNat % r.capacity.toNat)-
        r.top.toNat+size.toNat ≤ _
      omega
    · rw [UInt64.toNat_mod, hskip]
      rfl
    · rw [toNat, ← htop]
      rfl

end SizeRing

/-! Histories. -/

/-- A block handed out, with `top()` before and after the call. -/
structure Block where
  before : UInt64
  offset : UInt64
  size : UInt64
  after : UInt64
  deriving DecidableEq, Repr

def Block.bytes (b : Block) : Finset ℕ :=
  Finset.Ico b.offset.toNat (b.offset.toNat+b.size.toNat)

def Block.span (b : Block) : Span := ⟨b.after.toNat-b.size.toNat,b.size.toNat⟩

structure History where
  ring : SizeRing
  tops : List UInt64
  blocks : List Block
  advanced : ℕ
  deriving DecidableEq, Repr

def History.init (capacity : UInt64) : History := ⟨.init capacity,[0],[],0⟩

inductive HeapCall where
  | tryAlloc (size : UInt64)
  | retireTo (newTail : UInt64)
  deriving DecidableEq, Repr

/-- The tail is only moved to a value that `top()` has had and that is not
below it. -/
def perform (h : History) : HeapCall → Option History
  | .tryAlloc size =>
    match h.ring.tryAlloc size with
    | (some offset,ring) => some
        { ring, tops := ring.top::h.tops,
          blocks := ⟨h.ring.top,offset,size,ring.top⟩::h.blocks,
          advanced := h.advanced+h.ring.advance size }
    | (none,ring) => some { h with ring }
  | .retireTo newTail =>
    if newTail ∈ h.tops ∧ h.ring.tail ≤ newTail then
      some { h with ring := h.ring.retireTo newTail }
    else none

def Performs (h : History) (c : HeapCall) (h' : History) : Prop := perform h c = some h'

structure Sound (capacity : UInt64) (h : History) : Prop where
  capacity_eq : h.ring.capacity = capacity
  top : h.ring.top.toNat = h.advanced
  tops : ∀ m ∈ h.tops, m.toNat ≤ h.ring.top.toNat
  window : Window capacity.toNat h.ring.tail.toNat h.ring.top.toNat (h.blocks.map Block.span)
  placed : ∀ b ∈ h.blocks, b.before.toNat ≤ b.span.start ∧
    b.offset.toNat = b.span.start % capacity.toNat

theorem init_sound (capacity : UInt64) : Sound capacity (.init capacity) :=
  ⟨rfl,rfl,by simp [History.init],Window.empty _,by simp [History.init]⟩

theorem Sound.bytes {capacity : UInt64} {h : History} (hs : Sound capacity h) {b : Block}
    (hb : b ∈ h.blocks) : b.bytes = b.span.cells capacity.toNat := by
  rw [Block.bytes, Span.cells, (hs.placed b hb).2]
  rfl

theorem Sound.alloc {capacity offset size : UInt64} {h : History} {ring : SizeRing}
    (hs : Sound capacity h) (hr : h.ring.tryAlloc size = (some offset,ring))
    (hsmall : h.advanced+h.ring.advance size < 2^64) :
    Sound capacity { ring, tops := ring.top::h.tops,
                     blocks := ⟨h.ring.top,offset,size,ring.top⟩::h.blocks,
                     advanced := h.advanced+h.ring.advance size } := by
  have hcap := hs.capacity_eq
  have hwin := hs.window
  rw [← hcap] at hwin
  rw [← hs.top] at hsmall
  obtain ⟨halloc,htop⟩ := SizeRing.tryAlloc_toNat hwin.le hwin.room hsmall hr
  obtain ⟨-,-,-,hoff,hring⟩ := tryAlloc_some.mp halloc
  have hpush := tryAlloc_push (r := h.ring.toNat) hwin halloc
  have hspan : ring.top.toNat = startOf h.ring.toNat size.toNat+size.toNat :=
    congrArg LinquHeapRing.top hring
  have hcap' : ring.capacity = capacity := by
    rw [← hcap]
    exact UInt64.toNat_inj.mp (congrArg LinquHeapRing.capacity hring)
  have hstart : (⟨h.ring.top,offset,size,ring.top⟩ : Block).span =
      ⟨startOf h.ring.toNat size.toNat,size.toNat⟩ := by
    simp [Block.span, hspan]
  constructor
  · exact hcap'
  · rw [← hs.top]
    exact htop
  · intro m hm
    rcases List.mem_cons.mp hm with rfl | hm
    · exact le_rfl
    · have := hs.tops m hm
      dsimp only
      omega
  · rw [List.map_cons, hstart, ← hcap']
    exact hpush
  · intro b hb
    rcases List.mem_cons.mp hb with rfl | hb
    · rw [hstart, ← hcap]
      exact ⟨top_le_startOf (r := h.ring.toNat),hoff⟩
    · exact hs.placed b hb

theorem Sound.retire {capacity m : UInt64} {h : History} (hs : Sound capacity h)
    (hm : m ∈ h.tops) (htail : h.ring.tail ≤ m) :
    Sound capacity { h with ring := h.ring.retireTo m } := by
  refine ⟨hs.capacity_eq,hs.top,hs.tops,?_,hs.placed⟩
  exact hs.window.retire (UInt64.le_iff_toNat_le.mp htail) (hs.tops m hm)

/-- The bytes advanced only grow, and a call that keeps them below `2^64`
keeps the history sound. -/
theorem sound_step {capacity : UInt64} {h h' : History} {c : HeapCall} (hp : Performs h c h') :
    h.advanced ≤ h'.advanced ∧
      (Sound capacity h → h'.advanced < 2^64 → Sound capacity h') := by
  cases c with
  | tryAlloc size =>
    unfold Performs perform at hp
    dsimp only at hp
    split at hp
    · rename_i offset ring hr
      cases hp
      exact ⟨Nat.le_add_right _ _,fun hs hsmall => hs.alloc hr hsmall⟩
    · rename_i ring hr
      cases hp
      have hring := SizeRing.tryAlloc_failed (congrArg Prod.fst hr)
      rw [hr] at hring
      change ring = h.ring at hring
      rw [hring]
      exact ⟨le_rfl,fun hs _ => hs⟩
  | retireTo m =>
    unfold Performs perform at hp
    dsimp only at hp
    split at hp
    · rename_i hm
      cases hp
      exact ⟨le_rfl,fun hs _ => hs.retire hm.1 hm.2⟩
    · cases hp

theorem run_sound {capacity : UInt64} {calls : List HeapCall} {h h' : History}
    (hs : Sound capacity h) (hr : Run Performs calls h h') (hsmall : h'.advanced < 2^64) :
    Sound capacity h' := by
  apply run_preserves (P := fun h => h.advanced < 2^64 → Sound capacity h) _ (fun _ => hs) hr hsmall
  intro u c v hu huv hv
  obtain ⟨hle,hstep⟩ := sound_step huv
  exact hstep (hu (by omega)) hv

/-- Every block lies in the store, the blocks whose allocation started at or
above the tail are pairwise disjoint, and a failed allocation changes nothing. -/
theorem blocks_disjoint {capacity : UInt64} {calls : List HeapCall} {h : History}
    (hrun : Run Performs calls (.init capacity) h) (hsmall : h.advanced < 2^64) :
    (∀ b ∈ h.blocks, b.bytes ⊆ Finset.range capacity.toNat) ∧
      (h.blocks.filter (fun b => h.ring.tail ≤ b.before)).Pairwise
        (fun b c => Disjoint b.bytes c.bytes) ∧
      ∀ size, (h.ring.tryAlloc size).1 = none → (h.ring.tryAlloc size).2 = h.ring := by
  have hs := run_sound (init_sound capacity) hrun hsmall
  refine ⟨?_,?_,fun size => SizeRing.tryAlloc_failed⟩
  · intro b hb
    rw [hs.bytes hb]
    exact (hs.window.fits b.span (List.mem_map_of_mem hb)).subset
  · apply List.pairwise_filter.mpr
    have hdis := hs.window.disjoint
    rw [List.pairwise_map] at hdis
    apply hdis.imp_of_mem
    intro b c hb hc hbc _ hlive
    rw [hs.bytes hb, hs.bytes hc]
    apply hbc
    have htail := UInt64.le_iff_toNat_le.mp (of_decide_eq_true hlive)
    exact htail.trans (hs.placed c hc).1

/-- The first block is given back; the third skips the gap behind the second. -/
def aroundTheEnd : List HeapCall := [.tryAlloc 60,.retireTo 60,.tryAlloc 30,.tryAlloc 50]

theorem blocks_disjoint_around_the_end : ∃ h, Run Performs aroundTheEnd (.init 100) h ∧
    h.blocks = [⟨90,0,50,150⟩,⟨60,60,30,90⟩,⟨0,0,60,60⟩] ∧ h.ring.tail = 60 ∧
    (∀ b ∈ h.blocks, b.bytes ⊆ Finset.range 100) ∧
      (h.blocks.filter (fun b => h.ring.tail ≤ b.before)).Pairwise
        (fun b c => Disjoint b.bytes c.bytes) ∧
      ∀ size, (h.ring.tryAlloc size).1 = none → (h.ring.tryAlloc size).2 = h.ring := by
  obtain ⟨h₀,h,h0,hr,-,ht⟩ := exists_run (f := perform) (g := fun _ _ => true)
    (l := aroundTheEnd) (o := some (.init 100))
    (c := fun h => decide (h.blocks = [⟨90,0,50,150⟩,⟨60,60,30,90⟩,⟨0,0,60,60⟩]) &&
      decide (h.ring.tail = 60) && decide (h.advanced < 2^64)) (by decide +kernel)
  cases h0
  simp only [Bool.and_eq_true, decide_eq_true_eq] at ht
  exact ⟨h,hr,ht.1.1,ht.1.2,blocks_disjoint hr ht.2⟩

end Linqu.HeapBlocks
