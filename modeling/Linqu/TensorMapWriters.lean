import Linqu.TensorMapChains
import Linqu.OrchestrationApi

/-!
# The tensor map as a map of last writers

The reference is a plain map from handles to the task that wrote them last.
As long as no pool slot is used twice the hash table represents it: the chain
of a bucket holds exactly the slots filled for its handles, no valid entry is
newer than the last writer of its handle, and the entry of a last writer that
is not retired is valid.
-/

set_option autoImplicit false

namespace Linqu.TensorMapWriters
open Linqu.Chain Linqu.TensorMap Linqu.TensorMap.LinquTensorMap Linqu.TensorMapChains
open Linqu.OrchestrationApi

abbrev Writers := UInt64 → Option ℤ

structure Represents (tm : LinquTensorMap) (w : Writers) : Prop where
  room : tm.nextEntry ≤ tm.poolSize
  unused : ∀ i, tm.nextEntry ≤ i → (tm.pool i).valid = false
  chain : ∀ b, ∃ l, Spans tm.bucketNext (tm.buckets b) l ∧
    ∀ i, i ∈ l ↔ i < tm.nextEntry ∧ tm.hash (tm.pool i).tensorHandle = b
  le_last : ∀ i, (tm.pool i).valid = true →
    ∃ t, w (tm.pool i).tensorHandle = some t ∧ (tm.pool i).producerTaskId ≤ t
  last : ∀ h t, w h = some t → tm.lastTaskAlive ≤ t →
    ∃ i, (tm.pool i).valid = true ∧ (tm.pool i).tensorHandle = h ∧ (tm.pool i).producerTaskId = t
  nonneg : ∀ h t, w h = some t → 0 ≤ t

variable {tm tm' : LinquTensorMap} {w : Writers}

theorem init_represents {numBuckets poolSize : ℕ}
    (h : LinquTensorMap.init numBuckets poolSize = some tm) : Represents tm (fun _ => none) := by
  unfold LinquTensorMap.init at h
  split at h
  · cases h
    constructor
    · exact Nat.zero_le _
    · intro i _
      rfl
    · intro b
      exact ⟨[],.nil,by simp⟩
    · intro i hi
      cases hi
    · intro h t ht
      cases ht
    · intro h t ht
      cases ht
  · cases h

theorem Represents.invalidate (h : Represents tm w) {n : ℤ} (hn : tm.lastTaskAlive ≤ n) :
    Represents (tm.invalidateBelow n) w :=
  { h with last := fun handle t ht hle => h.last handle t ht (hn.trans hle) }

theorem Represents.filled (h : Represents tm w) {i : ℕ} (hi : (tm.pool i).valid = true) :
    i < tm.nextEntry := by
  by_contra hn
  rw [h.unused i (not_lt.mp hn)] at hi
  cases hi

/-- The walks of a bucket end and meet exactly its filled slots. -/
theorem Represents.bucketSlots (h : Represents tm w) (b : ℕ) :
    ∃ l, tm.bucketSlots b = some l ∧ Spans tm.bucketNext (tm.buckets b) l ∧
      ∀ i, i ∈ l ↔ i < tm.nextEntry ∧ tm.hash (tm.pool i).tensorHandle = b := by
  obtain ⟨l,hl,hmem⟩ := h.chain b
  have hlen := chain_length_le (Finset.range tm.nextEntry) hl
    (fun i hi => Finset.mem_range.mpr ((hmem i).mp hi).1)
  rw [Finset.card_range] at hlen
  exact ⟨l,(visit_chain _).mpr ⟨hl,hlen.trans h.room⟩,hl,hmem⟩

/-! Lookup. -/

/-- The entries that a lookup considers. -/
def Candidate (tm : LinquTensorMap) (handle : UInt64) (i : ℕ) : Prop :=
  (tm.pool i).valid = true ∧ (tm.pool i).tensorHandle = handle ∧
    tm.lastTaskAlive ≤ (tm.pool i).producerTaskId

theorem best_spec (tm : LinquTensorMap) (handle : UInt64) (l : List ℕ) : ∀ b : ℤ,
    let r := l.foldl (fun best cur =>
      let e := tm.pool cur
      if e.valid ∧ e.tensorHandle = handle ∧ tm.lastTaskAlive ≤ e.producerTaskId ∧
        best < e.producerTaskId then e.producerTaskId else best) b
    b ≤ r ∧ (∀ i ∈ l, Candidate tm handle i → (tm.pool i).producerTaskId ≤ r) ∧
      (r = b ∨ ∃ i ∈ l, Candidate tm handle i ∧ (tm.pool i).producerTaskId = r) := by
  induction l with
  | nil =>
    intro b
    simp
  | cons i l ih =>
    intro b
    rw [List.foldl_cons]
    dsimp only at ih ⊢
    split
    · rename_i hc
      obtain ⟨hle,hall,hr⟩ := ih (tm.pool i).producerTaskId
      generalize l.foldl _ _ = r at hle hall hr ⊢
      have hi : Candidate tm handle i := ⟨hc.1,hc.2.1,hc.2.2.1⟩
      refine ⟨hc.2.2.2.le.trans hle,?_,Or.inr ?_⟩
      · intro j hj hcand
        rcases List.mem_cons.mp hj with rfl | hj
        · exact hle
        · exact hall j hj hcand
      · rcases hr with hr | ⟨j,hj,hcand⟩
        · exact ⟨i,List.mem_cons_self,hi,hr.symm⟩
        · exact ⟨j,List.mem_cons_of_mem i hj,hcand⟩
    · rename_i hc
      obtain ⟨hle,hall,hr⟩ := ih b
      generalize l.foldl _ _ = r at hle hall hr ⊢
      refine ⟨hle,?_,?_⟩
      · intro j hj hcand
        rcases List.mem_cons.mp hj with rfl | hj
        · apply le_trans _ hle
          by_contra hlt
          exact hc ⟨hcand.1,hcand.2.1,hcand.2.2,not_le.mp hlt⟩
        · exact hall j hj hcand
      · rcases hr with hr | ⟨j,hj,hcand⟩
        · exact Or.inl hr
        · exact Or.inr ⟨j,List.mem_cons_of_mem i hj,hcand⟩

/-- A lookup returns the last writer unless it is retired. -/
theorem Represents.lookup (h : Represents tm w) (handle : UInt64) :
    tm.lookup handle = some ((w handle).filter (fun t => decide (tm.lastTaskAlive ≤ t))) := by
  obtain ⟨l,hl,-,hmem⟩ := h.bucketSlots (tm.hash handle)
  obtain ⟨hge,hall,hr⟩ := best_spec tm handle l (-1)
  rw [LinquTensorMap.lookup, hl]
  dsimp only [Option.bind_eq_bind, Option.bind_some, Option.pure_def] at hge hall hr ⊢
  generalize l.foldl _ _ = r at hge hall hr ⊢
  congr 1
  -- a candidate is never newer than the last writer
  have hcand : ∀ i, Candidate tm handle i →
      ∃ t, w handle = some t ∧ (tm.pool i).producerTaskId ≤ t ∧ tm.lastTaskAlive ≤ t := by
    intro i hi
    obtain ⟨t,ht,hle⟩ := h.le_last i hi.1
    rw [hi.2.1] at ht
    exact ⟨t,ht,hle,hi.2.2.trans hle⟩
  by_cases hlast : ∃ t, w handle = some t ∧ tm.lastTaskAlive ≤ t
  · obtain ⟨t,ht,halive⟩ := hlast
    obtain ⟨i,hv,hh,hp⟩ := h.last handle t ht halive
    have hi : i ∈ l := (hmem i).mpr ⟨h.filled hv,by rw [hh]⟩
    have hlow : t ≤ r := by
      have hle := hall i hi ⟨hv,hh,by rw [hp]; exact halive⟩
      rwa [hp] at hle
    have h0 := h.nonneg handle t ht
    have hup : r = t := by
      rcases hr with hr | ⟨j,-,hj,hjr⟩
      · omega
      · obtain ⟨t',ht',hle',-⟩ := hcand j hj
        cases ht.symm.trans ht'
        omega
    rw [if_pos (by omega), ht, hup]
    rw [Option.filter_some, if_pos (decide_eq_true halive)]
  · have hrn : r = -1 := by
      rcases hr with hr | ⟨j,-,hj,-⟩
      · exact hr
      · obtain ⟨t,ht,-,halive⟩ := hcand j hj
        exact absurd ⟨t,ht,halive⟩ hlast
    rw [if_neg (by omega)]
    cases hw : w handle with
    | none => rfl
    | some t =>
      have hn : ¬ tm.lastTaskAlive ≤ t := fun hle => hlast ⟨t,hw,hle⟩
      rw [Option.filter_some, if_neg (by simpa using hn)]

/-! Insert. -/

/-- The table once stale entries are dropped: entries of one handle may have
lost their flag. -/
theorem removeStale_spec (h : Represents tm w) (handle : UInt64) (tid : ℤ) :
    ∃ mid, tm.removeStaleForHandle handle tid = some mid ∧ SameLinks tm mid ∧
      mid.lastTaskAlive = tm.lastTaskAlive ∧ ∀ i, mid.pool i = tm.pool i ∨
        mid.pool i = clear (tm.pool i) ∧ (tm.pool i).tensorHandle = handle := by
  obtain ⟨l,hl,-,-⟩ := h.bucketSlots (tm.hash handle)
  have hlinks : ∀ mid, tm.removeStaleForHandle handle tid = some mid → SameLinks tm mid :=
    fun _ hm => remove_stale_links hm
  unfold removeStaleForHandle at hlinks ⊢
  rw [hl] at hlinks ⊢
  refine ⟨_,rfl,hlinks _ rfl,rfl,?_⟩
  intro i
  dsimp only
  split
  · rename_i hc
    simp only [Bool.and_eq_true, beq_iff_eq] at hc
    exact Or.inr ⟨rfl,hc.2.1.1.1.2⟩
  · exact Or.inl rfl

/-- An insert that takes a slot for the first time. -/
structure Inserted (tm tm' : LinquTensorMap) (handle : UInt64) (tid : ℤ) : Prop where
  nextEntry : tm'.nextEntry = tm.nextEntry+1
  poolSize : tm'.poolSize = tm.poolSize
  alive : tm'.lastTaskAlive = tm.lastTaskAlive
  hash : ∀ k, tm'.hash k = tm.hash k
  buckets : tm'.buckets = Function.update tm.buckets (tm.hash handle) (some tm.nextEntry)
  next : tm'.bucketNext = Function.update tm.bucketNext tm.nextEntry (tm.buckets (tm.hash handle))
  new : (tm'.pool tm.nextEntry).valid = true ∧ (tm'.pool tm.nextEntry).tensorHandle = handle ∧
    (tm'.pool tm.nextEntry).producerTaskId = tid
  old : ∀ i, i ≠ tm.nextEntry → tm'.pool i = tm.pool i ∨
    tm'.pool i = clear (tm.pool i) ∧ (tm.pool i).tensorHandle = handle

theorem insert_inserted (h : Represents tm w) (hroom : tm.nextEntry < tm.poolSize)
    (handle : UInt64) (tid : ℤ) :
    ∃ tm', LinquTensorMap.insert tm handle tid true = some tm' ∧ Inserted tm tm' handle tid := by
  obtain ⟨mid,hmid,hlinks,halive,hpool⟩ := removeStale_spec h handle tid
  have hslot : mid.nextSlot = tm.nextEntry := by
    rw [nextSlot, hlinks.nextEntry, hlinks.poolSize, Nat.mod_eq_of_lt hroom]
  -- the slot was never filled, so there is nothing to unlink
  have hfree : (mid.pool tm.nextEntry).valid = false := by
    rcases hpool tm.nextEntry with hp | ⟨hp,-⟩
    · rw [hp]
      exact h.unused _ le_rfl
    · rw [hp]
      rfl
  have hvac : tm.vacate handle tid = some mid := by
    rw [vacate, hmid]
    show mid.unlinkSlot mid.nextSlot = some mid
    rw [hslot, unlinkSlot, hfree]
    rfl
  have hhash : ∀ k, mid.hash k = tm.hash k := by
    intro k
    rw [LinquTensorMap.hash, LinquTensorMap.hash, hlinks.numBuckets]
  refine ⟨mid.fillSlot tm.nextEntry handle tid true,?_,?_⟩
  · rw [LinquTensorMap.insert, if_neg (Nat.ne_of_gt (Nat.zero_lt_of_lt hroom)), hvac,
      Option.map_some, hslot]
  · constructor
    · show mid.nextEntry+1 = _
      rw [hlinks.nextEntry]
    · exact hlinks.poolSize
    · exact halive
    · exact hhash
    · show Function.update mid.buckets (mid.hash handle) _ = _
      rw [hlinks.buckets, hhash]
    · rw [fill_slot_bucket_next, hlinks.bucketNext, hlinks.buckets, hhash]
    · simp [fillSlot]
    · intro i hi
      have hsame : (mid.fillSlot tm.nextEntry handle tid true).pool i = mid.pool i :=
        Function.update_of_ne hi ..
      rw [hsame]
      exact hpool i

namespace Inserted

variable {handle : UInt64} {tid : ℤ}

theorem fields (e : Inserted tm tm' handle tid) {i : ℕ} (hi : i ≠ tm.nextEntry) :
    (tm'.pool i).tensorHandle = (tm.pool i).tensorHandle ∧
      (tm'.pool i).producerTaskId = (tm.pool i).producerTaskId ∧
      ((tm'.pool i).valid = true → (tm.pool i).valid = true) := by
  rcases e.old i hi with hp | ⟨hp,-⟩
  · rw [hp]
    exact ⟨rfl,rfl,id⟩
  · rw [hp]
    exact ⟨rfl,rfl,fun hv => by cases hv⟩

theorem chain (e : Inserted tm tm' handle tid) (h : Represents tm w) (b : ℕ) :
    ∃ l, Spans tm'.bucketNext (tm'.buckets b) l ∧
      ∀ i, i ∈ l ↔ i < tm'.nextEntry ∧ tm'.hash (tm'.pool i).tensorHandle = b := by
  obtain ⟨l,hl,hmem⟩ := h.chain b
  have hnot : tm.nextEntry ∉ l := fun hm => lt_irrefl _ ((hmem _).mp hm).1
  have hl' := chain_update tm.nextEntry (tm.buckets (tm.hash handle)) hnot hl
  have hiff : ∀ i, i ≠ tm.nextEntry →
      (i ∈ l ↔ i < tm.nextEntry+1 ∧ tm.hash (tm'.pool i).tensorHandle = b) := by
    intro i hi
    have hlt : i < tm.nextEntry ↔ i < tm.nextEntry+1 := by omega
    rw [hmem, (e.fields hi).1, hlt]
  rw [e.next, e.buckets, e.nextEntry]
  simp only [e.hash]
  by_cases hb : b = tm.hash handle
  · subst hb
    rw [Function.update_self]
    refine ⟨tm.nextEntry::l,.cons (by rwa [Function.update_self]),fun i => ?_⟩
    by_cases hi : i = tm.nextEntry
    · subst hi
      simp [e.new.2.1]
    · rw [List.mem_cons, or_iff_right hi]
      exact hiff i hi
  · rw [Function.update_of_ne hb]
    refine ⟨l,hl',fun i => ?_⟩
    by_cases hi : i = tm.nextEntry
    · subst hi
      simp [e.new.2.1, hnot, Ne.symm hb]
    · exact hiff i hi

theorem represents (e : Inserted tm tm' handle tid) (h : Represents tm w)
    (hroom : tm.nextEntry < tm.poolSize) (h0 : 0 ≤ tid)
    (hle : ∀ t, w handle = some t → t ≤ tid) :
    Represents tm' (Function.update w handle (some tid)) where
  room := by
    rw [e.nextEntry, e.poolSize]
    exact hroom
  unused i hi := by
    rw [e.nextEntry] at hi
    have hne : i ≠ tm.nextEntry := by omega
    by_contra hv
    have hlt := h.filled ((e.fields hne).2.2 (by simpa using hv))
    omega
  chain := e.chain h
  le_last i hi := by
    by_cases hin : i = tm.nextEntry
    · subst hin
      rw [e.new.2.1, e.new.2.2]
      exact ⟨tid,Function.update_self ..,le_rfl⟩
    · obtain ⟨hh,hp,hv⟩ := e.fields hin
      obtain ⟨t,ht,hlt⟩ := h.le_last i (hv hi)
      rw [hh, hp]
      by_cases hk : (tm.pool i).tensorHandle = handle
      · rw [hk] at ht ⊢
        exact ⟨tid,Function.update_self ..,hlt.trans (hle t ht)⟩
      · exact ⟨t,by rw [Function.update_of_ne hk, ht],hlt⟩
  last k t ht hlive := by
    by_cases hk : k = handle
    · subst hk
      rw [Function.update_self] at ht
      cases ht
      exact ⟨tm.nextEntry,e.new⟩
    · rw [Function.update_of_ne hk] at ht
      rw [e.alive] at hlive
      obtain ⟨i,hv,hh,hp⟩ := h.last k t ht hlive
      -- only entries of `handle` lose their flag
      have hsame : tm'.pool i = tm.pool i := by
        rcases e.old i (h.filled hv).ne with hs | ⟨-,hs⟩
        · exact hs
        · exact absurd (hh.symm.trans hs) hk
      exact ⟨i,by rw [hsame]; exact ⟨hv,hh,hp⟩⟩
  nonneg k t ht := by
    by_cases hk : k = handle
    · subst hk
      rw [Function.update_self] at ht
      cases ht
      exact h0
    · rw [Function.update_of_ne hk] at ht
      exact h.nonneg k t ht

end Inserted

end Linqu.TensorMapWriters
