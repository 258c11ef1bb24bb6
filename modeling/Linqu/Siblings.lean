import Linqu.PeerRegistry

/-!
# Sibling queries

`peers_same_parent` compares indices as `index_at` returns them, which keeps
8 bits of the 16-bit indices of levels 0, 2 and 3. Two parents whose indices
agree modulo 256 are one parent to it.
-/

set_option autoImplicit false

namespace Linqu.Siblings
open Linqu.OrchestrationApi Linqu.PeerRegistry

/-- The index of a level in its own width. -/
def index (c : LinquCoordinate) : ℕ → ℕ
  | 0 => c.l0Idx.toNat
  | 1 => c.l1Idx.toNat
  | 2 => c.l2Idx.toNat
  | 3 => c.l3Idx.toNat
  | 4 => c.l4Idx.toNat
  | 5 => c.l5Idx.toNat
  | 6 => c.l6Idx.toNat
  | _ => 0

inductive RegistryOp where
  | add (peer : PeerInfo)
  | remove (coord : LinquCoordinate) (level : UInt8)
  | setAlive (coord : LinquCoordinate) (level : UInt8) (alive : Bool)

def apply (r : PeerRegistry) : RegistryOp → PeerRegistry
  | .add peer => r.add peer
  | .remove coord level => r.remove coord level
  | .setAlive coord level alive => r.setAlive coord level alive

def built (ops : List RegistryOp) : PeerRegistry := ops.foldl apply {}

/-- Equal indices at every level above the child's. -/
def SameParent (childLevel : ℕ) (c d : LinquCoordinate) : Prop :=
  ∀ lv, childLevel < lv → lv ≤ 6 → index c lv = index d lv

/-- Different parents whose indices agree modulo 256. -/
def Confused (childLevel : ℕ) (c d : LinquCoordinate) : Prop :=
  (∀ lv, childLevel < lv → lv ≤ 6 → index c lv % 256 = index d lv % 256) ∧
    ∃ lv, childLevel < lv ∧ lv ≤ 6 ∧ index c lv ≠ index d lv

/-- The query returns the alive entries of the level under the same parent,
each once. -/
structure Exact (r : PeerRegistry) (c : LinquCoordinate) (childLevel : UInt8) : Prop where
  once : ((r.peersSameParent c childLevel).map (fun p => (p.coord,p.level))).Nodup
  mem : ∀ p, p ∈ r.peersSameParent c childLevel ↔
    ((p.coord,childLevel),p) ∈ r.peers ∧ p.alive = true ∧
      SameParent childLevel.toNat p.coord c

/-- Each key is held once, and an entry is filed under its own key. -/
structure Filed (r : PeerRegistry) : Prop where
  nodup : (r.peers.map Prod.fst).Nodup
  key : ∀ e ∈ r.peers, e.1 = (e.2.coord,e.2.level)

theorem filed_apply {r : PeerRegistry} (h : Filed r) (op : RegistryOp) : Filed (apply r op) := by
  have hfilter : ∀ k : CoordLevelKey, ((r.peers.filter (fun e => e.1 ≠ k)).map Prod.fst).Nodup :=
    fun k => h.nodup.sublist (List.filter_sublist.map Prod.fst)
  cases op with
  | add peer =>
    constructor
    · simp [apply, PeerRegistry.add]
      simpa using hfilter (peer.coord,peer.level)
    · intro e he
      simp [apply, PeerRegistry.add] at he
      rcases he with rfl | ⟨he,-⟩
      · rfl
      · exact h.key e he
  | remove coord level =>
    constructor
    · simpa [apply, PeerRegistry.remove] using hfilter (coord,level)
    · intro e he
      simp [apply, PeerRegistry.remove] at he
      exact h.key e he.1
  | setAlive coord level alive =>
    have hfst : ∀ e : CoordLevelKey × PeerInfo,
        (if e.1 = (coord,level) then (e.1,{ e.2 with alive }) else e).1 = e.1 := by
      intro e
      by_cases he : e.1 = (coord,level) <;> simp [he]
    constructor
    · simpa [apply, PeerRegistry.setAlive, Function.comp_def, hfst] using h.nodup
    · intro e he
      obtain ⟨f,hf,rfl⟩ := List.mem_map.mp he
      by_cases hfk : f.1 = (coord,level)
      · simpa [hfk] using h.key f hf
      · simpa [hfk] using h.key f hf

theorem filed_built (ops : List RegistryOp) : Filed (built ops) := by
  have hfold : ∀ r, Filed r → Filed (ops.foldl apply r) := by
    induction ops with
    | nil => exact fun r h => h
    | cons op ops ih => exact fun r h => ih _ (filed_apply h op)
  exact hfold {} ⟨List.nodup_nil,by simp⟩

theorem indexAt_eq_iff (c d : LinquCoordinate) (lv : ℕ) :
    indexAt c lv = indexAt d lv ↔ index c lv % 256 = index d lv % 256 := by
  rw [← UInt8.toNat_inj]
  match lv with
  | 0 => simp [indexAt, index]
  | 2 => simp [indexAt, index]
  | 3 => simp [indexAt, index]
  | 1 => simp [indexAt, index, Nat.mod_eq_of_lt (UInt8.toNat_lt _)]
  | 4 => simp [indexAt, index, Nat.mod_eq_of_lt (UInt8.toNat_lt _)]
  | 5 => simp [indexAt, index, Nat.mod_eq_of_lt (UInt8.toNat_lt _)]
  | 6 => simp [indexAt, index, Nat.mod_eq_of_lt (UInt8.toNat_lt _)]
  | _+7 => simp [indexAt, index]

/-- The loop compares the levels above the child's, up to the one it starts at. -/
theorem sameParent_iff (childLevel : ℕ) (c d : LinquCoordinate) (top : ℕ) :
    sameParent childLevel c d top = true ↔
      ∀ lv, childLevel < lv → lv ≤ top → index c lv % 256 = index d lv % 256 := by
  induction top with
  | zero =>
    simp only [sameParent, true_iff]
    intro lv h1 h2
    omega
  | succ top ih =>
    by_cases hchild : childLevel < top+1
    · by_cases heq : indexAt c (top+1) = indexAt d (top+1)
      · simp only [sameParent, if_pos hchild, heq, ne_eq, not_true_eq_false, if_false, ih]
        constructor
        · intro h lv h1 h2
          by_cases hlv : lv = top+1
          · rw [hlv]
            exact (indexAt_eq_iff c d (top+1)).mp heq
          · exact h lv h1 (by omega)
        · exact fun h lv h1 h2 => h lv h1 (by omega)
      · simp only [sameParent, if_pos hchild, ne_eq, heq, not_false_eq_true, if_true]
        constructor
        · intro h
          cases h
        · exact fun h => absurd ((indexAt_eq_iff c d (top+1)).mpr (h (top+1) hchild le_rfl)) heq
    · simp only [sameParent, if_neg hchild, true_iff]
      intro lv h1 h2
      omega

theorem mem_peersSameParent {r : PeerRegistry} (h : Filed r) (self : LinquCoordinate)
    (childLevel : UInt8) (p : PeerInfo) :
    p ∈ r.peersSameParent self childLevel ↔
      ((p.coord,childLevel),p) ∈ r.peers ∧ p.alive = true ∧
        sameParent childLevel.toNat p.coord self 6 = true := by
  simp only [PeerRegistry.peersSameParent, List.mem_map, List.mem_filter, decide_eq_true_eq]
  constructor
  · rintro ⟨⟨k,q⟩,⟨hmem,hlevel,hrest⟩,rfl⟩
    have hkey : k = (q.coord,q.level) := h.key _ hmem
    subst hkey hlevel
    exact ⟨hmem,hrest⟩
  · rintro ⟨hmem,hrest⟩
    exact ⟨_,⟨hmem,rfl,hrest⟩,rfl⟩

theorem once_peersSameParent {r : PeerRegistry} (h : Filed r) (self : LinquCoordinate)
    (childLevel : UInt8) :
    ((r.peersSameParent self childLevel).map (fun p => (p.coord,p.level))).Nodup := by
  rw [PeerRegistry.peersSameParent, List.map_map]
  have hkeys : ∀ l : List (CoordLevelKey × PeerInfo), l ⊆ r.peers →
      l.map ((fun p => (p.coord,p.level))∘Prod.snd) = l.map Prod.fst := by
    intro l hl
    apply List.map_congr_left
    exact fun e he => (h.key e (hl he)).symm
  rw [hkeys _ List.filter_sublist.subset]
  exact h.nodup.sublist (List.filter_sublist.map Prod.fst)

/-- The query is exact as long as no alive entry of the level is confused
with a sibling. -/
theorem siblings_exact_iff (ops : List RegistryOp) (self : LinquCoordinate) (childLevel : UInt8) :
    Exact (built ops) self childLevel ↔
      ∀ p, ((p.coord,childLevel),p) ∈ (built ops).peers → p.alive = true →
        ¬Confused childLevel.toNat p.coord self := by
  have hfiled := filed_built ops
  constructor
  · intro h p hmem halive hconf
    obtain ⟨hmod,lv,h1,h2,hne⟩ := hconf
    have hp : p ∈ (built ops).peersSameParent self childLevel := by
      rw [mem_peersSameParent hfiled, sameParent_iff]
      exact ⟨hmem,halive,hmod⟩
    exact hne (((h.mem p).mp hp).2.2 lv h1 h2)
  · intro h
    refine ⟨once_peersSameParent hfiled self childLevel,fun p => ?_⟩
    rw [mem_peersSameParent hfiled, sameParent_iff]
    constructor
    · rintro ⟨hmem,halive,hmod⟩
      refine ⟨hmem,halive,fun lv h1 h2 => ?_⟩
      by_contra hne
      exact h p hmem halive ⟨hmod,lv,h1,h2,hne⟩
    · rintro ⟨hmem,halive,hsame⟩
      exact ⟨hmem,halive,fun lv h1 h2 => by rw [hsame lv h1 h2]⟩

/-- Host 256 is taken for host 0 when their chips are asked for. -/
theorem host_256_is_sibling :
    ¬Exact (built [.add ⟨{ l3Idx := 256 },2,"",true⟩]) {} 2 := by
  intro h
  have hp := ((h.mem ⟨{ l3Idx := 256 },2,"",true⟩).mp (by decide)).2.2 3 (by decide) (by decide)
  revert hp
  decide

/-- Confusion needs one of the 16-bit indices above the child's level. -/
theorem Confused.level {childLevel : ℕ} {c d : LinquCoordinate} (h : Confused childLevel c d) :
    childLevel < 3 ∧ (c.l3Idx ≠ d.l3Idx ∨ childLevel < 2 ∧ c.l2Idx ≠ d.l2Idx) := by
  obtain ⟨hmod,lv,h1,h2,hne⟩ := h
  have hlv := hmod lv h1 h2
  match lv with
  | 0 => omega
  | 1 | 4 | 5 | 6 =>
    simp only [index, Nat.mod_eq_of_lt (UInt8.toNat_lt _)] at hlv hne
    exact absurd hlv hne
  | 2 => exact ⟨by omega,.inr ⟨by omega,fun he => hne (by simp [index, he])⟩⟩
  | 3 => exact ⟨by omega,.inl fun he => hne (by simp [index, he])⟩
  | _+7 => omega

/-- From the hosts up every index has 8 bits, and the query is exact. -/
theorem siblings_of_hosts (ops : List RegistryOp) (self : LinquCoordinate) (childLevel : UInt8)
    (h : 3 ≤ childLevel.toNat) : Exact (built ops) self childLevel := by
  have hfiled := filed_built ops
  refine ⟨once_peersSameParent hfiled self childLevel,fun p => ?_⟩
  rw [mem_peersSameParent hfiled, sameParent_iff]
  have hiff : (∀ lv, childLevel.toNat < lv → lv ≤ 6 → index p.coord lv % 256 = index self lv % 256) ↔
      SameParent childLevel.toNat p.coord self := by
    constructor
    · intro hmod lv h1 h2
      by_contra hne
      have hlow := (show Confused childLevel.toNat p.coord self from ⟨hmod,lv,h1,h2,hne⟩).level.1
      omega
    · exact fun hsame lv h1 h2 => by rw [hsame lv h1 h2]
  rw [hiff]

end Linqu.Siblings
