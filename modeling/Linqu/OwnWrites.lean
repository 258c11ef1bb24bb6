import Linqu.TensorMapWriters
import Linqu.TensorMapNames

/-!
# What a task finds of its own writes

While the parameters of one submission are entered, the table holds entries
of the new task. They are the newest on their bucket chains and an insert
only ever recycles the oldest of them, once the pool is full of them; so a
lookup finds the task itself exactly when one of its last `poolSize` writes
was to the handle. Nothing is assumed about the other entries.
-/

set_option autoImplicit false

namespace Linqu.OwnWrites
open Linqu.Chain Linqu.TensorMap Linqu.TensorMap.LinquTensorMap Linqu.TensorMapChains
open Linqu.TensorMapNames Linqu.TensorMapWriters

/-- The entries of a task: slots and handles, newest first. -/
structure Own (tm : LinquTensorMap) (tid : ℤ) (recent : List (ℕ × UInt64)) : Prop where
  entry : ∀ e ∈ recent, (tm.pool e.1).valid = true ∧ (tm.pool e.1).tensorHandle = e.2 ∧
    (tm.pool e.1).producerTaskId = tid
  chain : ∀ b, Starts tm.bucketNext (tm.buckets b)
    ((recent.filter (fun e => tm.hash e.2 = b)).map Prod.fst)
  all : ∀ i, (tm.pool i).valid = true → (tm.pool i).producerTaskId = tid →
    i ∈ recent.map Prod.fst
  newest : ∀ i, (tm.pool i).valid = true → (tm.pool i).producerTaskId ≤ tid

variable {tm tm' : LinquTensorMap} {tid : ℤ} {recent : List (ℕ × UInt64)}

/-- Before the first write there are only entries of older tasks. -/
theorem own_nil (h : Names tm tid) : Own tm tid [] := by
  refine ⟨by simp,fun b => trivial,?_,fun i hi => (h i hi).le⟩
  intro i hi hp
  have := h i hi
  omega

theorem Own.lookup (h : Own tm tid recent) (h0 : 0 ≤ tid) (halive : tm.lastTaskAlive ≤ tid)
    {handle : UInt64} {found : Option ℤ} (hf : tm.lookup handle = some found) :
    found = some tid ↔ handle ∈ recent.map Prod.snd := by
  obtain ⟨l,hl,hf⟩ := Option.bind_eq_some_iff.mp hf
  obtain ⟨hspan,-⟩ := (visit_chain _).mp hl
  obtain ⟨-,hall,hr⟩ := best_spec tm handle l (-1)
  dsimp only [Option.pure_def] at hall hr hf
  generalize l.foldl _ _ = r at hall hr hf
  cases hf
  constructor
  · intro hfound
    have hrt : r = tid := by
      split at hfound
      · exact Option.some.inj hfound
      · cases hfound
    rcases hr with hr | ⟨i,-,hi,hir⟩
    · omega
    · obtain ⟨e,he,hei⟩ := List.mem_map.mp (h.all i hi.1 (hir.trans hrt))
      have hh := (h.entry e he).2.1
      rw [hei, hi.2.1] at hh
      exact List.mem_map.mpr ⟨e,he,hh.symm⟩
  · intro hm
    obtain ⟨e,he,rfl⟩ := List.mem_map.mp hm
    obtain ⟨hv,hh,hp⟩ := h.entry e he
    have hmem : e.1 ∈ l := by
      apply starts_mem (h.chain (tm.hash e.2)) hspan
      exact List.mem_map_of_mem (List.mem_filter.mpr ⟨he,by simp⟩)
    have hle := hall e.1 hmem ⟨hv,hh,by rw [hp]; exact halive⟩
    have hge : r ≤ tid := by
      rcases hr with hr | ⟨i,-,hi,hir⟩
      · omega
      · rw [← hir]
        exact h.newest i hi.1
    rw [hp] at hle
    rw [if_pos (by omega), le_antisymm hge hle]

/-! Insert. -/

/-- Tables whose links agree where the entries of the task are, and in which
other entries may have lost their flag. -/
theorem Own.of_entries (h : Own tm tid recent)
    (hhash : ∀ k, tm'.hash k = tm.hash k)
    (hentry : ∀ i, (tm'.pool i).valid = true → (tm.pool i).valid = true ∧
      (tm'.pool i).producerTaskId = (tm.pool i).producerTaskId)
    (hown : ∀ e ∈ recent, (tm'.pool e.1).valid = true ∧
      (tm'.pool e.1).tensorHandle = (tm.pool e.1).tensorHandle)
    (hchain : ∀ b l, (∀ i ∈ l, i ∈ recent.map Prod.fst) →
      Starts tm.bucketNext (tm.buckets b) l → Starts tm'.bucketNext (tm'.buckets b) l) :
    Own tm' tid recent := by
  constructor
  · intro e he
    obtain ⟨hv,hh⟩ := hown e he
    obtain ⟨-,hh',hp⟩ := h.entry e he
    exact ⟨hv,hh.trans hh',(hentry e.1 hv).2.trans hp⟩
  · intro b
    simp only [hhash]
    apply hchain b _ _ (h.chain b)
    intro i hi
    obtain ⟨e,he,rfl⟩ := List.mem_map.mp hi
    exact List.mem_map_of_mem (List.mem_filter.mp he).1
  · intro i hi hp
    obtain ⟨hv,hp'⟩ := hentry i hi
    exact h.all i hv (hp'.symm.trans hp)
  · intro i hi
    obtain ⟨hv,hp⟩ := hentry i hi
    rw [hp]
    exact h.newest i hv

/-- Entries of the task keep their flag while stale ones are dropped. -/
theorem Own.stale (h : Own tm tid recent) {handle : UInt64}
    (hs : tm.removeStaleForHandle handle tid = some tm') : Own tm' tid recent := by
  have hlinks := remove_stale_links hs
  have hthin := removeStale_thins hs
  apply h.of_entries _ hthin.entries
  · intro e he
    obtain ⟨hv,-,hp⟩ := h.entry e he
    obtain ⟨slots,-,hs⟩ := Option.bind_eq_some_iff.mp hs
    cases hs
    dsimp only
    rw [if_neg]
    · exact ⟨hv,rfl⟩
    · simp [hp]
  · intro b l _ hl
    rw [hlinks.bucketNext, hlinks.buckets]
    exact hl
  · intro k
    rw [LinquTensorMap.hash, LinquTensorMap.hash, hlinks.numBuckets]

theorem write_link_entry (tm : LinquTensorMap) (v : Option ℕ) (p : Link) (i : ℕ) :
    (tm.writeLink v p).pool i =
      { tm.pool i with nextInBucket := ((tm.writeLink v p).pool i).nextInBucket } := by
  cases p with
  | bucket b => rfl
  | slot j =>
    by_cases hij : i = j
    · subst hij
      simp [writeLink]
    · simp [writeLink, Function.update_of_ne hij]

/-- Taking a slot off its chain changes no entry and no chain in front of it. -/
theorem unlink_from_keeps {idx n : ℕ} {place : Link} (h : tm.unlinkFrom idx n place = some tm') :
    (∀ i, tm'.pool i = { tm.pool i with nextInBucket := (tm'.pool i).nextInBucket }) ∧
      tm'.numBuckets = tm.numBuckets ∧ ∀ b l, idx ∉ l →
        Starts tm.bucketNext (tm.buckets b) l → Starts tm'.bucketNext (tm'.buckets b) l := by
  rcases unlink_from_spec h with rfl | ⟨p,hp,rfl⟩
  · exact ⟨fun i => rfl,rfl,fun b l _ hl => hl⟩
  · refine ⟨write_link_entry tm _ p,(write_link_tasks tm _ p).2.2.2.1,?_⟩
    intro b l hidx hl
    cases p with
    | bucket c =>
      change Starts tm.bucketNext (Function.update tm.buckets c (tm.bucketNext idx) b) l
      by_cases hbc : b = c
      · cases l with
        | nil => trivial
        | cons a l =>
          have ha : tm.buckets b = some idx := by
            rw [hbc]
            exact hp
          rw [ha] at hl
          cases hl.1
          exact absurd List.mem_cons_self hidx
      · rw [Function.update_of_ne hbc]
        exact hl
    | slot j =>
      have hnext := bucket_next_update tm j { tm.pool j with nextInBucket := tm.bucketNext idx }
      change Starts (bucketNext { tm with pool := _ }) (tm.buckets b) l
      rw [hnext]
      exact starts_redirect _ hp hidx hl

theorem Own.chain_left {last : List (ℕ × UInt64)} (h : Own tm tid (recent++last)) (b : ℕ) :
    Starts tm.bucketNext (tm.buckets b)
      ((recent.filter (fun e => tm.hash e.2 = b)).map Prod.fst) := by
  have hb := h.chain b
  rw [List.filter_append, List.map_append] at hb
  exact starts_append hb

theorem Own.all_left {last : List (ℕ × UInt64)} (h : Own tm tid (recent++last)) {idx i : ℕ}
    (hlast : ∀ e ∈ last, e.1 = idx) (hi : (tm.pool i).valid = true)
    (hp : (tm.pool i).producerTaskId = tid) (hne : i ≠ idx) : i ∈ recent.map Prod.fst := by
  have hm := h.all i hi hp
  rw [List.map_append, List.mem_append] at hm
  apply hm.resolve_right
  intro hm
  obtain ⟨e,he,rfl⟩ := List.mem_map.mp hm
  exact hne (hlast e he)

/-- The slot to be filled holds no entry once it is unlinked. -/
theorem Own.unlink {last : List (ℕ × UInt64)} (h : Own tm tid (recent++last)) {idx : ℕ}
    (hidx : idx ∉ recent.map Prod.fst) (hlast : ∀ e ∈ last, e.1 = idx)
    (hu : tm.unlinkSlot idx = some tm') :
    Own tm' tid recent ∧ (tm'.pool idx).valid = false := by
  unfold unlinkSlot at hu
  split at hu
  · obtain ⟨mid,hmid,hu⟩ := Option.bind_eq_some_iff.mp hu
    cases hu
    obtain ⟨hentry,hbuckets,hchain⟩ := unlink_from_keeps hmid
    have hlinks := clear_slot_links mid idx
    have hpool : ∀ i, i ≠ idx → Function.update mid.pool idx (clear (mid.pool idx)) i =
        { tm.pool i with nextInBucket := (mid.pool i).nextInBucket } := by
      intro i hi
      rw [Function.update_of_ne hi]
      exact hentry i
    have hne : ∀ i, (Function.update mid.pool idx (clear (mid.pool idx)) i).valid = true →
        i ≠ idx := by
      rintro i hi rfl
      rw [Function.update_self] at hi
      cases hi
    refine ⟨⟨?_,?_,?_,?_⟩,by simp [clear]⟩
    · intro e he
      have hei : e.1 ≠ idx := fun heq => hidx (heq ▸ List.mem_map_of_mem he)
      dsimp only
      rw [hpool e.1 hei]
      exact h.entry e (List.mem_append_left _ he)
    · intro b
      have hhash : ∀ k, LinquTensorMap.hash { mid with
          pool := Function.update mid.pool idx (clear (mid.pool idx)) } k = tm.hash k := by
        intro k
        rw [LinquTensorMap.hash, LinquTensorMap.hash]
        exact congrArg _ (by rw [hbuckets])
      simp only [hhash]
      rw [hlinks.bucketNext]
      apply hchain b _ _ (h.chain_left b)
      intro hm
      obtain ⟨e,he,rfl⟩ := List.mem_map.mp hm
      exact hidx (List.mem_map_of_mem (List.mem_filter.mp he).1)
    · intro i hi hp
      have hin := hne i hi
      dsimp only at hi hp
      rw [hpool i hin] at hi hp
      exact h.all_left hlast hi hp hin
    · intro i hi
      have hin := hne i hi
      dsimp only at hi ⊢
      rw [hpool i hin] at hi ⊢
      exact h.newest i hi
  · rename_i hfree
    cases hu
    refine ⟨⟨?_,h.chain_left,?_,h.newest⟩,by simpa using hfree⟩
    · intro e he
      exact h.entry e (List.mem_append_left _ he)
    · intro i hi hp
      apply h.all_left hlast hi hp
      rintro rfl
      exact hfree hi

theorem Own.fill (h : Own tm tid recent) {idx : ℕ} (hidx : idx ∉ recent.map Prod.fst)
    (hfree : (tm.pool idx).valid = false) (handle : UInt64) (out : Bool) :
    Own (tm.fillSlot idx handle tid out) tid ((idx,handle)::recent) := by
  have hpool : ∀ i, i ≠ idx → (tm.fillSlot idx handle tid out).pool i = tm.pool i :=
    fun i hi => Function.update_of_ne hi ..
  have hhash : ∀ k, (tm.fillSlot idx handle tid out).hash k = tm.hash k := fun _ => rfl
  constructor
  · intro e he
    rcases List.mem_cons.mp he with rfl | he
    · simp [fillSlot]
    · rw [hpool e.1 (fun heq => hidx (heq ▸ List.mem_map_of_mem he))]
      exact h.entry e he
  · intro b
    have hnot : idx ∉ (recent.filter (fun e => tm.hash e.2 = b)).map Prod.fst := by
      intro hm
      obtain ⟨e,he,rfl⟩ := List.mem_map.mp hm
      exact hidx (List.mem_map_of_mem (List.mem_filter.mp he).1)
    have hrest := starts_update idx (tm.buckets (tm.hash handle)) hnot (h.chain b)
    simp only [hhash]
    rw [fill_slot_bucket_next]
    change Starts _ (Function.update tm.buckets (tm.hash handle) (some idx) b) _
    by_cases hb : tm.hash handle = b
    · rw [List.filter_cons_of_pos (by simp [hb]), hb, Function.update_self, List.map_cons]
      refine ⟨rfl,?_⟩
      rw [hb] at hrest
      rw [Function.update_self]
      exact hrest
    · rw [List.filter_cons_of_neg (by simp [hb]), Function.update_of_ne (Ne.symm hb)]
      exact hrest
  · intro i hi hp
    by_cases hin : i = idx
    · simp [hin]
    · rw [hpool i hin] at hi hp
      simp only [List.map_cons, List.mem_cons]
      exact Or.inr (h.all i hi hp)
  · intro i hi
    by_cases hin : i = idx
    · simp [hin, fillSlot]
    · rw [hpool i hin] at hi ⊢
      exact h.newest i hi

/-- `last` is the entry whose slot is used again, if there is one. -/
theorem Own.insert {last : List (ℕ × UInt64)} (h : Own tm tid (recent++last)) {handle : UInt64}
    {out : Bool} (hslot : tm.nextSlot ∉ recent.map Prod.fst)
    (hlast : ∀ e ∈ last, e.1 = tm.nextSlot)
    (hi : LinquTensorMap.insert tm handle tid out = some tm') :
    Own tm' tid ((tm.nextSlot,handle)::recent) ∧ tm'.nextEntry = tm.nextEntry+1 ∧
      tm'.poolSize = tm.poolSize := by
  unfold LinquTensorMap.insert at hi
  split at hi
  · cases hi
  · obtain ⟨v,hv,hi⟩ := Option.map_eq_some_iff.mp hi
    cases hi
    obtain ⟨mid,hmid,hv⟩ := Option.bind_eq_some_iff.mp hv
    have hlinks := remove_stale_links hmid
    obtain ⟨hnext,hsize⟩ := unlink_slot_cursor hv
    have hmids : mid.nextSlot = tm.nextSlot := by
      rw [nextSlot, nextSlot, hlinks.nextEntry, hlinks.poolSize]
    have hvs : v.nextSlot = tm.nextSlot := by
      rw [nextSlot, hnext, hsize]
      exact hmids
    rw [hmids] at hv
    obtain ⟨hown,hfree⟩ := (h.stale hmid).unlink hslot hlast hv
    rw [hvs]
    exact ⟨hown.fill hslot hfree handle out,by rw [← hlinks.nextEntry, ← hnext]; rfl,
      hsize.trans hlinks.poolSize⟩

/-! The slots of the last writes. -/

/-- The slots that the writes of the listed handles took, newest first, before
a cursor. -/
def placed (poolSize : ℕ) : ℕ → List UInt64 → List (ℕ × UInt64)
  | _, [] => []
  | n, handle::rest => ((n-1) % poolSize,handle)::placed poolSize (n-1) rest

theorem placed_handles (poolSize : ℕ) (l : List UInt64) : ∀ n,
    (placed poolSize n l).map Prod.snd = l := by
  induction l with
  | nil => intro n; rfl
  | cons a l ih =>
    intro n
    rw [placed, List.map_cons, ih]

/-- Going back `d` writes from the cursor. -/
theorem placed_get (poolSize : ℕ) (l : List UInt64) : ∀ n d e,
    (placed poolSize n l)[d]? = some e → d < l.length ∧ e.1 = (n-1-d) % poolSize := by
  induction l with
  | nil =>
    intro n d e h
    simp [placed] at h
  | cons a l ih =>
    intro n d e h
    rw [placed] at h
    cases d with
    | zero =>
      simp only [List.getElem?_cons_zero, Option.some.injEq] at h
      simp [← h]
    | succ d =>
      rw [List.getElem?_cons_succ] at h
      obtain ⟨hlt,he⟩ := ih (n-1) d e h
      rw [he]
      exact ⟨by simpa using hlt,by congr 1; omega⟩

theorem slot_ne {n d poolSize : ℕ} (hd : d+1 < poolSize) (hn : d < n) :
    (n-1-d) % poolSize ≠ n % poolSize := by
  intro h
  have hdvd : poolSize ∣ n-(n-1-d) := (Nat.modEq_iff_dvd' (by omega)).mp h
  have hle := Nat.le_of_dvd (by omega) hdvd
  omega

/-- The writes that still have their entries are the last `poolSize`. -/
theorem Own.insert_placed {written : List UInt64} (hpos : 0 < tm.poolSize)
    (hn : written.length ≤ tm.nextEntry)
    (h : Own tm tid ((placed tm.poolSize tm.nextEntry written).take tm.poolSize))
    {handle : UInt64} {out : Bool} (hi : LinquTensorMap.insert tm handle tid out = some tm') :
    Own tm' tid
        ((placed tm'.poolSize tm'.nextEntry (handle::written)).take tm'.poolSize) ∧
      (handle::written).length ≤ tm'.nextEntry ∧ tm'.poolSize = tm.poolSize := by
  obtain ⟨p,hp⟩ : ∃ p, tm.poolSize = p+1 := ⟨tm.poolSize-1,by omega⟩
  have hget := placed_get tm.poolSize written tm.nextEntry
  have hsplit := List.take_add_one (l := placed tm.poolSize tm.nextEntry written) (i := p)
  rw [← hp] at hsplit
  rw [hsplit] at h
  have hslot : tm.nextSlot ∉
      ((placed tm.poolSize tm.nextEntry written).take p).map Prod.fst := by
    intro hm
    obtain ⟨e,he,heq⟩ := List.mem_map.mp hm
    obtain ⟨d,hd⟩ := List.mem_iff_getElem?.mp he
    rw [List.getElem?_take] at hd
    split at hd
    · obtain ⟨hlt,hd⟩ := hget d e hd
      rw [hd] at heq
      exact slot_ne (by omega) (by omega) heq
    · cases hd
  have hlast : ∀ e ∈ (placed tm.poolSize tm.nextEntry written)[p]?.toList,
      e.1 = tm.nextSlot := by
    intro e he
    obtain ⟨hlt,he⟩ := hget p e (Option.mem_toList.mp he)
    have hback : tm.nextEntry-1-p = tm.nextEntry-tm.poolSize := by omega
    rw [he, hback, nextSlot, ← Nat.mod_eq_sub_mod (by omega)]
  obtain ⟨hown,hnext,hsize⟩ := h.insert hslot hlast hi
  rw [hnext, hsize, placed, Nat.add_sub_cancel, List.length_cons]
  refine ⟨?_,by omega,rfl⟩
  rw [hp] at hown ⊢
  rw [List.take_succ_cons, ← hp]
  rw [← hp] at hown
  exact hown

end Linqu.OwnWrites
