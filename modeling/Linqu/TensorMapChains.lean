import Linqu.TensorMap
import Linqu.Transition

/-!
# When the chains of the tensor map stay finite

Every operation but `insert` leaves all links alone. An insert cuts at most
one link and then puts the recycled slot in front of one bucket chain and one
task chain. The chains stay finite exactly when the slot is on neither of the
two at that moment; a slot whose entry was dropped by its flag, or whose old
task chain is the new one, still is.
-/

set_option autoImplicit false

namespace Linqu.TensorMapChains
open Linqu.Chain Linqu.TensorMap Linqu.TensorMap.LinquTensorMap Linqu.Transition

structure InPool (tm : LinquTensorMap) : Prop where
  size_pos : 0 < tm.poolSize
  bucket_head : ∀ b i, tm.buckets b = some i → i < tm.poolSize
  bucket_next : ∀ i, i < tm.poolSize → ∀ j, tm.bucketNext i = some j → j < tm.poolSize
  task_head : ∀ k i, tm.taskHeads k = some i → i < tm.poolSize
  task_next : ∀ i, i < tm.poolSize → ∀ j, tm.taskNext i = some j → j < tm.poolSize

structure ChainsFinite (tm : LinquTensorMap) : Prop where
  buckets : ∀ b, Finite tm.bucketNext (tm.buckets b)
  tasks : ∀ k, Finite tm.taskNext (tm.taskHeads k)

theorem in_pool_length {tm : LinquTensorMap} {next : ℕ → Option ℕ} {o : Option ℕ} {l : List ℕ}
    (ho : ∀ i, o = some i → i < tm.poolSize)
    (hn : ∀ i, i < tm.poolSize → ∀ j, next i = some j → j < tm.poolSize)
    (h : Spans next o l) : l.length ≤ tm.poolSize := by
  have hmem := chain_mem_step hn h ho
  have hle := chain_length_le (Finset.range tm.poolSize) h (fun i hi => Finset.mem_range.mpr (hmem i hi))
  simpa using hle

theorem bucket_slots_iff {tm : LinquTensorMap} (hp : InPool tm) {b : ℕ} {l : List ℕ} :
    tm.bucketSlots b = some l ↔ Spans tm.bucketNext (tm.buckets b) l := by
  rw [bucketSlots, visit_chain]
  exact and_iff_left_of_imp (in_pool_length (hp.bucket_head b) hp.bucket_next)

theorem task_slots_iff {tm : LinquTensorMap} (hp : InPool tm) {k : ℤ} {l : List ℕ} :
    tm.taskSlots k = some l ↔ Spans tm.taskNext (tm.taskHeads k) l := by
  rw [taskSlots, visit_chain]
  exact and_iff_left_of_imp (in_pool_length (hp.task_head k) hp.task_next)

/-- Two tables that differ in flags only: same links, heads and cursor. -/
structure SameLinks (tm tm' : LinquTensorMap) : Prop where
  buckets : tm'.buckets = tm.buckets
  bucketNext : tm'.bucketNext = tm.bucketNext
  taskHeads : tm'.taskHeads = tm.taskHeads
  taskNext : tm'.taskNext = tm.taskNext
  poolSize : tm'.poolSize = tm.poolSize
  numBuckets : tm'.numBuckets = tm.numBuckets
  nextEntry : tm'.nextEntry = tm.nextEntry

theorem SameLinks.inPool {tm tm' : LinquTensorMap} (h : SameLinks tm tm') (hp : InPool tm) :
    InPool tm' := by
  obtain ⟨h1,h2,h3,h4,h5,-,-⟩ := h
  constructor
  · rw [h5]; exact hp.size_pos
  · rw [h1,h5]; exact hp.bucket_head
  · rw [h2,h5]; exact hp.bucket_next
  · rw [h3,h5]; exact hp.task_head
  · rw [h4,h5]; exact hp.task_next

theorem SameLinks.chainsFinite {tm tm' : LinquTensorMap} (h : SameLinks tm tm')
    (hc : ChainsFinite tm) : ChainsFinite tm' := by
  constructor
  · rw [h.bucketNext,h.buckets]; exact hc.buckets
  · rw [h.taskNext,h.taskHeads]; exact hc.tasks

theorem clear_links (e : LinquTensorMapEntry) (c : Prop) [Decidable c] :
    (if c then clear e else e).nextInBucket = e.nextInBucket ∧
      (if c then clear e else e).nextInTask = e.nextInTask := by
  split <;> exact ⟨rfl,rfl⟩

theorem clear_same_links (tm : LinquTensorMap) (c : ℕ → Prop) [DecidablePred c] :
    SameLinks tm { tm with pool := fun i => if c i then clear (tm.pool i) else tm.pool i } where
  buckets := rfl
  bucketNext := funext fun i => (clear_links (tm.pool i) (c i)).1
  taskHeads := rfl
  taskNext := funext fun i => (clear_links (tm.pool i) (c i)).2
  poolSize := rfl
  numBuckets := rfl
  nextEntry := rfl

theorem remove_stale_links {tm tm' : LinquTensorMap} {handle : UInt64} {taskId : ℤ}
    (h : tm.removeStaleForHandle handle taskId = some tm') : SameLinks tm tm' := by
  obtain ⟨slots,-,hs⟩ := Option.bind_eq_some_iff.mp h
  cases hs
  exact clear_same_links tm _

theorem remove_stale_returns {tm : LinquTensorMap} (hp : InPool tm) (hc : ChainsFinite tm)
    (handle : UInt64) (taskId : ℤ) : ∃ tm', tm.removeStaleForHandle handle taskId = some tm' := by
  obtain ⟨l,hl⟩ := hc.buckets (tm.hash handle)
  rw [removeStaleForHandle, (bucket_slots_iff hp).mpr hl]
  exact ⟨_,rfl⟩

theorem cleanup_links {tm tm' : LinquTensorMap} {taskId : ℤ}
    (h : tm.cleanupTask taskId = some tm') : SameLinks tm tm' := by
  unfold cleanupTask at h
  split at h
  · cases h
  · obtain ⟨slots,-,hs⟩ := Option.bind_eq_some_iff.mp h
    cases hs
    exact clear_same_links tm _

theorem cleanup_returns {tm : LinquTensorMap} (hp : InPool tm) (hc : ChainsFinite tm)
    (taskId : ℤ) : ∃ tm', tm.cleanupTask taskId = some tm' := by
  obtain ⟨l,hl⟩ := hc.tasks (tm.taskSlot taskId)
  have hpos : tm.poolSize ≠ 0 := Nat.pos_iff_ne_zero.mp hp.size_pos
  rw [cleanupTask, if_neg hpos, (task_slots_iff hp).mpr hl]
  exact ⟨_,rfl⟩

theorem lookup_returns {tm : LinquTensorMap} (hp : InPool tm) (hc : ChainsFinite tm)
    (handle : UInt64) : ∃ r, tm.lookup handle = some r := by
  obtain ⟨l,hl⟩ := hc.buckets (tm.hash handle)
  rw [lookup, (bucket_slots_iff hp).mpr hl]
  exact ⟨_,rfl⟩

/-- The unlink loop returns the table as it is, or with the one link that
pointed at the slot redirected past it. -/
theorem unlink_from_spec {tm tm' : LinquTensorMap} {idx n : ℕ} {place : Link}
    (h : tm.unlinkFrom idx n place = some tm') :
    tm' = tm ∨ ∃ p, tm.readLink p = some idx ∧ tm' = tm.writeLink (tm.bucketNext idx) p := by
  induction n generalizing place with
  | zero => cases h
  | succ n ih =>
    rw [unlinkFrom] at h
    split at h
    · cases h; exact Or.inl rfl
    · rename_i cur hcur
      split at h
      · rename_i heq
        cases h
        exact Or.inr ⟨place,by rw [hcur,heq],rfl⟩
      · exact ih h

theorem unlink_from_returns {tm : LinquTensorMap} (idx : ℕ) (place : Link) {n : ℕ} {l : List ℕ}
    (h : Spans tm.bucketNext (tm.readLink place) l) (hn : l.length < n) :
    ∃ tm', tm.unlinkFrom idx n place = some tm' := by
  induction l generalizing n place with
  | nil =>
    obtain ⟨k,rfl⟩ : ∃ k, n = k+1 := ⟨n-1,by simp at hn; omega⟩
    have hr : tm.readLink place = none := by
      generalize tm.readLink place = o at h
      cases h; rfl
    exact ⟨tm,by rw [unlinkFrom,hr]⟩
  | cons a l ih =>
    obtain ⟨k,rfl⟩ : ∃ k, n = k+1 := ⟨n-1,by simp at hn; omega⟩
    have hr : tm.readLink place = some a ∧ Spans tm.bucketNext (tm.bucketNext a) l := by
      generalize tm.readLink place = o at h
      cases h with | cons rest => exact ⟨rfl,rest⟩
    rw [unlinkFrom,hr.1]
    dsimp only
    split
    · exact ⟨_,rfl⟩
    · exact ih (.slot a) hr.2 (by simp at hn; omega)

theorem bucket_next_update (tm : LinquTensorMap) (i : ℕ) (e : LinquTensorMapEntry) :
    bucketNext { tm with pool := Function.update tm.pool i e } =
      Function.update tm.bucketNext i e.nextInBucket := by
  funext j
  by_cases hj : j = i
  · subst hj; simp [bucketNext]
  · simp [bucketNext, Function.update_of_ne hj]

theorem task_next_update (tm : LinquTensorMap) (i : ℕ) (e : LinquTensorMapEntry) :
    taskNext { tm with pool := Function.update tm.pool i e } =
      Function.update tm.taskNext i e.nextInTask := by
  funext j
  by_cases hj : j = i
  · subst hj; simp [taskNext]
  · simp [taskNext, Function.update_of_ne hj]

theorem write_link_tasks (tm : LinquTensorMap) (v : Option ℕ) (p : Link) :
    (tm.writeLink v p).taskNext = tm.taskNext ∧ (tm.writeLink v p).taskHeads = tm.taskHeads ∧
      (tm.writeLink v p).poolSize = tm.poolSize ∧
      (tm.writeLink v p).numBuckets = tm.numBuckets ∧
      (tm.writeLink v p).nextEntry = tm.nextEntry := by
  cases p with
  | bucket b => exact ⟨rfl,rfl,rfl,rfl,rfl⟩
  | slot i =>
    refine ⟨?_,rfl,rfl,rfl,rfl⟩
    exact (task_next_update tm i _).trans (Function.update_eq_self i _)

theorem write_link_finite {tm : LinquTensorMap} (hc : ChainsFinite tm) {idx : ℕ} {p : Link}
    (hr : tm.readLink p = some idx) : ChainsFinite (tm.writeLink (tm.bucketNext idx) p) := by
  constructor
  · intro b
    cases p with
    | bucket c =>
      change Finite tm.bucketNext (Function.update tm.buckets c (tm.bucketNext idx) b)
      by_cases hb : b = c
      · subst hb
        have h := hc.buckets b
        rw [show tm.buckets b = some idx from hr] at h
        rw [Function.update_self]
        exact finite_some.mp h
      · rw [Function.update_of_ne hb]
        exact hc.buckets b
    | slot i =>
      have hn := bucket_next_update tm i { tm.pool i with nextInBucket := tm.bucketNext idx }
      change Finite (bucketNext { tm with pool := _ }) (tm.buckets b)
      rw [hn]
      exact finite_splice hr (hc.buckets b)
  · obtain ⟨h1,h2,-⟩ := write_link_tasks tm (tm.bucketNext idx) p
    rw [h1,h2]
    exact hc.tasks

theorem write_link_in_pool {tm : LinquTensorMap} (hp : InPool tm) {idx : ℕ}
    (hi : idx < tm.poolSize) (p : Link) : InPool (tm.writeLink (tm.bucketNext idx) p) := by
  obtain ⟨h1,h2,h3,-⟩ := write_link_tasks tm (tm.bucketNext idx) p
  constructor
  · rw [h3]; exact hp.size_pos
  · intro b i hb
    rw [h3]
    cases p with
    | bucket c =>
      change Function.update tm.buckets c (tm.bucketNext idx) b = some i at hb
      by_cases hbc : b = c
      · rw [hbc,Function.update_self] at hb
        exact hp.bucket_next idx hi i hb
      · rw [Function.update_of_ne hbc] at hb
        exact hp.bucket_head b i hb
    | slot _ => exact hp.bucket_head b i hb
  · intro i hin j hj
    rw [h3] at hin ⊢
    cases p with
    | bucket _ => exact hp.bucket_next i hin j hj
    | slot k =>
      have hn := bucket_next_update tm k { tm.pool k with nextInBucket := tm.bucketNext idx }
      change bucketNext { tm with pool := _ } i = some j at hj
      rw [hn] at hj
      by_cases hik : i = k
      · rw [hik,Function.update_self] at hj
        exact hp.bucket_next idx hi j hj
      · rw [Function.update_of_ne hik] at hj
        exact hp.bucket_next i hin j hj
  · rw [h2,h3]; exact hp.task_head
  · rw [h1,h3]; exact hp.task_next

theorem clear_slot_links (tm : LinquTensorMap) (idx : ℕ) :
    SameLinks tm { tm with pool := Function.update tm.pool idx (clear (tm.pool idx)) } where
  buckets := rfl
  bucketNext := (bucket_next_update tm idx _).trans (Function.update_eq_self idx _)
  taskHeads := rfl
  taskNext := (task_next_update tm idx _).trans (Function.update_eq_self idx _)
  poolSize := rfl
  numBuckets := rfl
  nextEntry := rfl

/-- What the first half of `insert` leaves behind. -/
structure Vacated (tm tm' : LinquTensorMap) : Prop where
  inPool : InPool tm'
  finite : ChainsFinite tm'
  taskHeads : tm'.taskHeads = tm.taskHeads
  taskNext : tm'.taskNext = tm.taskNext
  poolSize : tm'.poolSize = tm.poolSize
  numBuckets : tm'.numBuckets = tm.numBuckets
  nextEntry : tm'.nextEntry = tm.nextEntry

theorem SameLinks.vacated {tm tm' : LinquTensorMap} (h : SameLinks tm tm') (hp : InPool tm)
    (hc : ChainsFinite tm) : Vacated tm tm' :=
  ⟨h.inPool hp,h.chainsFinite hc,h.taskHeads,h.taskNext,h.poolSize,h.numBuckets,h.nextEntry⟩

theorem Vacated.trans {t₁ t₂ t₃ : LinquTensorMap} (h : Vacated t₁ t₂) (h' : Vacated t₂ t₃) :
    Vacated t₁ t₃ :=
  ⟨h'.inPool,h'.finite,h'.taskHeads.trans h.taskHeads,h'.taskNext.trans h.taskNext,
    h'.poolSize.trans h.poolSize,h'.numBuckets.trans h.numBuckets,h'.nextEntry.trans h.nextEntry⟩

theorem unlink_slot_vacated {tm tm' : LinquTensorMap} (hp : InPool tm) (hc : ChainsFinite tm)
    {idx : ℕ} (hi : idx < tm.poolSize) (h : tm.unlinkSlot idx = some tm') : Vacated tm tm' := by
  unfold unlinkSlot at h
  split at h
  · obtain ⟨mid,hmid,hs⟩ := Option.bind_eq_some_iff.mp h
    cases hs
    have hm : Vacated tm mid := by
      rcases unlink_from_spec hmid with rfl | ⟨p,hr,rfl⟩
      · exact ⟨hp,hc,rfl,rfl,rfl,rfl,rfl⟩
      · obtain ⟨h1,h2,h3,h4,h5⟩ := write_link_tasks tm (tm.bucketNext idx) p
        exact ⟨write_link_in_pool hp hi p,write_link_finite hc hr,h2,h1,h3,h4,h5⟩
    exact hm.trans ((clear_slot_links mid idx).vacated hm.inPool hm.finite)
  · cases h
    exact ⟨hp,hc,rfl,rfl,rfl,rfl,rfl⟩

theorem unlink_slot_cursor {tm tm' : LinquTensorMap} {idx : ℕ} (h : tm.unlinkSlot idx = some tm') :
    tm'.nextEntry = tm.nextEntry ∧ tm'.poolSize = tm.poolSize := by
  unfold unlinkSlot at h
  split at h
  · obtain ⟨mid,hmid,h⟩ := Option.bind_eq_some_iff.mp h
    cases h
    rcases unlink_from_spec hmid with rfl | ⟨p,-,rfl⟩
    · exact ⟨rfl,rfl⟩
    · obtain ⟨-,-,hsize,-,hnext⟩ := write_link_tasks tm (tm.bucketNext idx) p
      exact ⟨hnext,hsize⟩
  · cases h
    exact ⟨rfl,rfl⟩

theorem unlink_slot_returns {tm : LinquTensorMap} (hp : InPool tm) (hc : ChainsFinite tm)
    (idx : ℕ) : ∃ tm', tm.unlinkSlot idx = some tm' := by
  unfold unlinkSlot
  split
  · obtain ⟨l,hl⟩ := hc.buckets (tm.hash (tm.pool idx).tensorHandle)
    have hlen := in_pool_length (hp.bucket_head _) hp.bucket_next hl
    obtain ⟨mid,hmid⟩ := unlink_from_returns idx
      (.bucket (tm.hash (tm.pool idx).tensorHandle)) (n := tm.poolSize+1) hl (by omega)
    rw [hmid]
    exact ⟨_,rfl⟩
  · exact ⟨tm,rfl⟩

theorem next_slot_lt {tm : LinquTensorMap} (hp : InPool tm) : tm.nextSlot < tm.poolSize :=
  Nat.mod_lt _ hp.size_pos

theorem vacate_spec {tm tm' : LinquTensorMap} (hp : InPool tm) (hc : ChainsFinite tm)
    {handle : UInt64} {taskId : ℤ} (h : tm.vacate handle taskId = some tm') :
    Vacated tm tm' := by
  obtain ⟨mid,hmid,hu⟩ := Option.bind_eq_some_iff.mp h
  have hm := (remove_stale_links hmid).vacated hp hc
  exact hm.trans (unlink_slot_vacated hm.inPool hm.finite (next_slot_lt hm.inPool) hu)

theorem vacate_returns {tm : LinquTensorMap} (hp : InPool tm) (hc : ChainsFinite tm)
    (handle : UInt64) (taskId : ℤ) : ∃ tm', tm.vacate handle taskId = some tm' := by
  obtain ⟨mid,hmid⟩ := remove_stale_returns hp hc handle taskId
  have hm := (remove_stale_links hmid).vacated hp hc
  obtain ⟨tm',h⟩ := unlink_slot_returns hm.inPool hm.finite mid.nextSlot
  exact ⟨tm',by rw [vacate,hmid]; exact h⟩

theorem fill_slot_bucket_next (tm : LinquTensorMap) (idx : ℕ) (handle : UInt64) (taskId : ℤ)
    (isOutput : Bool) : (tm.fillSlot idx handle taskId isOutput).bucketNext =
      Function.update tm.bucketNext idx (tm.buckets (tm.hash handle)) :=
  bucket_next_update tm idx _

theorem fill_slot_task_next (tm : LinquTensorMap) (idx : ℕ) (handle : UInt64) (taskId : ℤ)
    (isOutput : Bool) : (tm.fillSlot idx handle taskId isOutput).taskNext =
      Function.update tm.taskNext idx (tm.taskHeads (tm.taskSlot taskId)) :=
  task_next_update tm idx _

theorem fill_slot_finite_iff {tm : LinquTensorMap} (hc : ChainsFinite tm) (idx : ℕ)
    (handle : UInt64) (taskId : ℤ) (isOutput : Bool) {bs ts : List ℕ}
    (hb : Spans tm.bucketNext (tm.buckets (tm.hash handle)) bs)
    (ht : Spans tm.taskNext (tm.taskHeads (tm.taskSlot taskId)) ts) :
    ChainsFinite (tm.fillSlot idx handle taskId isOutput) ↔ idx ∉ bs ∧ idx ∉ ts := by
  rw [← push_finite_iff tm.buckets (tm.hash handle) idx hc.buckets hb,
    ← push_finite_iff tm.taskHeads (tm.taskSlot taskId) idx hc.tasks ht]
  have h1 := fill_slot_bucket_next tm idx handle taskId isOutput
  have h2 := fill_slot_task_next tm idx handle taskId isOutput
  constructor
  · intro h
    exact ⟨h1 ▸ h.buckets,h2 ▸ h.tasks⟩
  · rintro ⟨hbs,hts⟩
    exact ⟨h1 ▸ hbs,h2 ▸ hts⟩

theorem fill_slot_in_pool {tm : LinquTensorMap} (hp : InPool tm) {idx : ℕ}
    (hi : idx < tm.poolSize) (handle : UInt64) (taskId : ℤ) (isOutput : Bool) :
    InPool (tm.fillSlot idx handle taskId isOutput) := by
  constructor
  · exact hp.size_pos
  · intro b i hb
    change Function.update tm.buckets (tm.hash handle) (some idx) b = some i at hb
    rw [Function.update_apply] at hb
    split at hb
    · cases hb; exact hi
    · exact hp.bucket_head b i hb
  · intro i hin j hj
    simp only [bucketNext, fillSlot, Function.update_apply] at hj
    split at hj
    · exact hp.bucket_head _ j hj
    · exact hp.bucket_next i hin j hj
  · intro k i hk
    change Function.update tm.taskHeads (tm.taskSlot taskId) (some idx) k = some i at hk
    rw [Function.update_apply] at hk
    split at hk
    · cases hk; exact hi
    · exact hp.task_head k i hk
  · intro i hin j hj
    simp only [taskNext, fillSlot, Function.update_apply] at hj
    split at hj
    · exact hp.task_head _ j hj
    · exact hp.task_next i hin j hj

inductive Op where
  | insert (handle : UInt64) (producerTaskId : ℤ) (isOutput : Bool)
  | invalidateBelow (lastAlive : ℤ)
  | cleanupTask (taskId : ℤ)
  deriving DecidableEq, Repr

def step (tm : LinquTensorMap) : Op → Option LinquTensorMap
  | .insert handle producerTaskId isOutput => tm.insert handle producerTaskId isOutput
  | .invalidateBelow lastAlive => some (tm.invalidateBelow lastAlive)
  | .cleanupTask taskId => tm.cleanupTask taskId

def Steps (tm : LinquTensorMap) (op : Op) (tm' : LinquTensorMap) : Prop := step tm op = some tm'

/-- The slot an insert takes over is off the two chains it is pushed onto,
once the insert has unlinked it if its flag is still set. -/
def Recyclable (tm : LinquTensorMap) : Op → Prop
  | .insert handle producerTaskId _ => ∀ vacated, tm.vacate handle producerTaskId = some vacated →
      (∀ bs, vacated.bucketSlots (vacated.hash handle) = some bs → tm.nextSlot ∉ bs) ∧
      (∀ ts, vacated.taskSlots (vacated.taskSlot producerTaskId) = some ts → tm.nextSlot ∉ ts)
  | _ => True

/-- Following either kind of link from a head visits no slot twice. -/
def NoSlotTwice (tm : LinquTensorMap) : Prop :=
  (∀ b, ∃ l, Spans tm.bucketNext (tm.buckets b) l ∧ l.Nodup) ∧
    (∀ k, ∃ l, Spans tm.taskNext (tm.taskHeads k) l ∧ l.Nodup)

theorem no_slot_twice_iff (tm : LinquTensorMap) : NoSlotTwice tm ↔ ChainsFinite tm := by
  constructor
  · rintro ⟨hb,ht⟩
    exact ⟨fun b => (hb b).imp fun _ h => h.1,fun k => (ht k).imp fun _ h => h.1⟩
  · rintro ⟨hb,ht⟩
    exact ⟨fun b => (hb b).imp fun _ h => ⟨h,chain_nodup h⟩,
      fun k => (ht k).imp fun _ h => ⟨h,chain_nodup h⟩⟩

theorem insert_eq {tm vacated : LinquTensorMap} (hp : InPool tm) {handle : UInt64} {taskId : ℤ}
    (isOutput : Bool) (h : tm.vacate handle taskId = some vacated) :
    tm.insert handle taskId isOutput =
      some (vacated.fillSlot vacated.nextSlot handle taskId isOutput) := by
  rw [LinquTensorMap.insert, if_neg (Nat.pos_iff_ne_zero.mp hp.size_pos), h]
  rfl

theorem step_in_pool {tm tm' : LinquTensorMap} (hp : InPool tm) (hc : ChainsFinite tm) {op : Op}
    (h : step tm op = some tm') : InPool tm' := by
  cases op with
  | insert handle taskId isOutput =>
    obtain ⟨v,hv⟩ := vacate_returns hp hc handle taskId
    have hvs := vacate_spec hp hc hv
    rw [step, insert_eq hp isOutput hv] at h
    cases h
    exact fill_slot_in_pool hvs.inPool (next_slot_lt hvs.inPool) _ _ _
  | invalidateBelow n => cases h; exact ⟨hp.1,hp.2,hp.3,hp.4,hp.5⟩
  | cleanupTask taskId => exact (cleanup_links h).inPool hp

theorem step_returns {tm : LinquTensorMap} (hp : InPool tm) (hc : ChainsFinite tm) (op : Op) :
    ∃ tm', step tm op = some tm' := by
  cases op with
  | insert handle taskId isOutput =>
    obtain ⟨v,hv⟩ := vacate_returns hp hc handle taskId
    exact ⟨_,insert_eq hp isOutput hv⟩
  | invalidateBelow n => exact ⟨_,rfl⟩
  | cleanupTask taskId => exact cleanup_returns hp hc taskId

/-- One operation keeps all chains finite exactly when its slot is recyclable. -/
theorem step_finite_iff {tm tm' : LinquTensorMap} (hp : InPool tm) (hc : ChainsFinite tm)
    {op : Op} (h : step tm op = some tm') : Recyclable tm op ↔ ChainsFinite tm' := by
  cases op with
  | insert handle taskId isOutput =>
    obtain ⟨v,hv⟩ := vacate_returns hp hc handle taskId
    have hvs := vacate_spec hp hc hv
    rw [step, insert_eq hp isOutput hv] at h
    cases h
    obtain ⟨bs,hb⟩ := hvs.finite.buckets (v.hash handle)
    obtain ⟨ts,ht⟩ := hvs.finite.tasks (v.taskSlot taskId)
    have hslot : v.nextSlot = tm.nextSlot := by rw [nextSlot,nextSlot,hvs.nextEntry,hvs.poolSize]
    rw [fill_slot_finite_iff hvs.finite _ _ _ _ hb ht, hslot]
    constructor
    · intro hr
      obtain ⟨hbs,hts⟩ := hr v hv
      exact ⟨hbs bs ((bucket_slots_iff hvs.inPool).mpr hb),
        hts ts ((task_slots_iff hvs.inPool).mpr ht)⟩
    · rintro ⟨hbs,hts⟩ v' hv'
      obtain rfl : v = v' := Option.some.inj (hv.symm.trans hv')
      constructor
      · intro l hl
        rwa [chain_unique ((bucket_slots_iff hvs.inPool).mp hl) hb]
      · intro l hl
        rwa [chain_unique ((task_slots_iff hvs.inPool).mp hl) ht]
  | invalidateBelow n =>
    cases h
    exact ⟨fun _ => ⟨hc.1,hc.2⟩,fun _ => trivial⟩
  | cleanupTask taskId => exact ⟨fun _ => (cleanup_links h).chainsFinite hc,fun _ => trivial⟩

theorem init_in_pool {nb ps : ℕ} (hps : 0 < ps) {tm : LinquTensorMap}
    (h : init nb ps = some tm) : InPool tm ∧ ChainsFinite tm := by
  unfold init at h
  split at h
  · cases h
    refine ⟨⟨hps,?_,?_,?_,?_⟩,⟨fun _ => finite_none _,fun _ => finite_none _⟩⟩
    · intro b i hi; cases hi
    · intro i _ j hj; cases hj; exact hps
    · intro k i hi; cases hi
    · intro i _ j hj; cases hj; exact hps
  · cases h

/-- What a state owes its callers: no chain visits a slot twice, and every
further operation and lookup returns. -/
def Sound (tm : LinquTensorMap) : Prop :=
  NoSlotTwice tm ∧ (∀ op, ∃ tm', step tm op = some tm') ∧
    ∀ handle, ∃ r, tm.lookup handle = some r

theorem sound_iff {tm : LinquTensorMap} (hp : InPool tm) : Sound tm ↔ ChainsFinite tm := by
  constructor
  · intro h
    exact (no_slot_twice_iff tm).mp h.1
  · intro hc
    exact ⟨(no_slot_twice_iff tm).mpr hc,step_returns hp hc,lookup_returns hp hc⟩

/-- A run from `init`, however often it wraps the pool, is sound in every
state it reaches exactly when every insert finds its slot recyclable. -/
theorem sound_along_iff_recyclable (numBuckets poolSize : ℕ) (hpos : 0 < poolSize)
    (tm : LinquTensorMap) (hinit : init numBuckets poolSize = some tm) (ops : List Op) :
    Along Steps Sound ops tm ↔ Guarded Steps Recyclable ops tm := by
  obtain ⟨hp,hc⟩ := init_in_pool hpos hinit
  have hstep : ∀ s a, (InPool s ∧ ChainsFinite s) →
      (Recyclable s a ↔ ∀ t, Steps s a t → InPool t ∧ ChainsFinite t) := by
    rintro s a ⟨hps,hcs⟩
    obtain ⟨t,ht⟩ := step_returns hps hcs a
    constructor
    · intro hr u hu
      exact ⟨step_in_pool hps hcs hu,(step_finite_iff hps hcs hu).mp hr⟩
    · intro hall
      exact (step_finite_iff hps hcs ht).mpr (hall t ht).2
  rw [← along_iff_guarded hstep ops ⟨hp,hc⟩]
  apply along_congr
  · exact ⟨fun h => ⟨hp,(sound_iff hp).mp h⟩,fun h => (sound_iff hp).mpr h.2⟩
  · rintro s a t hs ht
    have hpt := step_in_pool hs.1 hs.2 ht
    exact ⟨fun h => ⟨hpt,(sound_iff hpt).mp h⟩,fun h => (sound_iff hpt).mpr h.2⟩

theorem sound_along_two_slots : ∃ tm, init 1 2 = some tm ∧
    (Along Steps Sound [.insert 7 0 true, .insert 8 1 true] tm ↔
      Guarded Steps Recyclable [.insert 7 0 true, .insert 8 1 true] tm) :=
  ⟨_,rfl,sound_along_iff_recyclable 1 2 (by decide) _ rfl _⟩

theorem self_loop_not_finite {next : ℕ → Option ℕ} {i : ℕ} (h : next i = some i) :
    ¬ Finite next (some i) := by
  rintro ⟨l,hl⟩
  have hrest := hl
  cases hrest with
  | cons rest =>
    rw [h] at rest
    have hlen := congrArg List.length (chain_unique rest hl)
    simp at hlen

/-- With one slot the second write of a handle clears the flag of the entry
it is about to recycle, so the slot is pushed in front of itself. -/
theorem rewrite_loops : ∃ tm tm', init 1 1 = some tm ∧
    Run Steps [.insert 7 0 true, .insert 7 1 true] tm tm' ∧
    ¬ NoSlotTwice tm' ∧ tm'.lookup 7 = none := by
  have h : (do
      let tm ← init 1 1
      let tm ← step tm (.insert 7 0 true)
      let tm ← step tm (.insert 7 1 true)
      return (tm.buckets 0,tm.bucketNext 0,tm.lookup 7)) = some (some 0,some 0,none) := by
    decide +kernel
  obtain ⟨tm,h0,h⟩ := Option.bind_eq_some_iff.mp h
  obtain ⟨tm₁,h1,h⟩ := Option.bind_eq_some_iff.mp h
  obtain ⟨tm₂,h2,h⟩ := Option.bind_eq_some_iff.mp h
  obtain ⟨hhead,hnext,hlook⟩ : tm₂.buckets 0 = some 0 ∧ tm₂.bucketNext 0 = some 0 ∧
      tm₂.lookup 7 = none := by
    simpa using h
  refine ⟨tm,tm₂,h0,⟨tm₁,h1,tm₂,h2,rfl⟩,?_,hlook⟩
  intro hn
  have hf := ((no_slot_twice_iff _).mp hn).buckets 0
  rw [hhead] at hf
  exact self_loop_not_finite hnext hf

end Linqu.TensorMapChains
