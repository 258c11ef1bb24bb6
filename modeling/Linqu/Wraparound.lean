import Linqu.TaskRing
import Linqu.TensorMapChains
import Linqu.Transition

/-!
# Counters of 32 bits

The task ring counts its allocations and the tensor map its inserts in signed
32-bit integers that nothing sets back. The window test is a difference and
keeps its meaning when the counters wrap; the ids and the remainders by the
pool size do not, as they are taken of the counter itself.
-/

set_option autoImplicit false

namespace Linqu.Wraparound
open Linqu.TaskRing Linqu.TensorMap Linqu.TensorMapChains Linqu.Transition

structure TaskRing32 where
  descriptors : Int32 → LinquTaskDescriptor
  windowSize : Int32
  currentIndex : Int32
  lastTaskAlive : Int32

namespace TaskRing32

def init (ws : Int32) : Option TaskRing32 :=
  if 0 < ws ∧ ws &&& (ws-1) = 0 then some ⟨fun _ => {},ws,0,0⟩ else none

def activeCount (r : TaskRing32) : Int32 := r.currentIndex-r.lastTaskAlive

def hasSpace (r : TaskRing32) : Bool := decide (r.activeCount < r.windowSize)

def slot (r : TaskRing32) (taskId : Int32) : Int32 := taskId &&& (r.windowSize-1)

def get (r : TaskRing32) (taskId : Int32) : LinquTaskDescriptor := r.descriptors (r.slot taskId)

def tryAlloc (r : TaskRing32) : Int32 × TaskRing32 :=
  if r.hasSpace then
    (r.currentIndex,{ r with
      currentIndex := r.currentIndex+1
      descriptors := Function.update r.descriptors (r.slot r.currentIndex) {} })
  else (-1,r)

/-- `none` is a failed assertion. -/
def alloc (r : TaskRing32) : Option (Int32 × TaskRing32) :=
  if 0 ≤ r.tryAlloc.1 then some r.tryAlloc else none

def setLastTaskAlive (r : TaskRing32) (v : Int32) : TaskRing32 := { r with lastTaskAlive := v }

end TaskRing32

/-- The tensor map with its cursor. The cursor of `table` is the number of
inserts. -/
structure TensorMap32 where
  table : LinquTensorMap
  nextEntry : Int32

namespace TensorMap32

def poolSize (tm : TensorMap32) : Int32 := Int32.ofNat tm.table.poolSize

def poolIndex (tm : TensorMap32) : Int32 := tm.nextEntry % tm.poolSize

def taskSlot (tm : TensorMap32) (taskId : Int32) : Int32 := taskId % tm.poolSize

def InPool (tm : TensorMap32) (i : Int32) : Prop := 0 ≤ i ∧ i < tm.poolSize

instance (tm : TensorMap32) (i : Int32) : Decidable (tm.InPool i) :=
  inferInstanceAs (Decidable (_ ∧ _))

/-- An index outside the pool has no defined effect. -/
def insert (tm : TensorMap32) (handle : UInt64) (producerTaskId : Int32) (isOutput : Bool) :
    Option TensorMap32 := do
  let table ← tm.table.removeStaleForHandle handle producerTaskId.toInt
  if tm.InPool tm.poolIndex ∧ tm.InPool (tm.taskSlot producerTaskId) then
    let table ← table.unlinkSlot tm.poolIndex.toInt.toNat
    return ⟨table.fillSlot tm.poolIndex.toInt.toNat handle producerTaskId.toInt isOutput,
      tm.nextEntry+1⟩
  else none

end TensorMap32

/-- `returned` are the ids handed out, the latest first. -/
structure State where
  ring : TaskRing32
  map : TensorMap32
  returned : List Int32

def start (ws numBuckets poolSize : Int32) : Option State := do
  let ring ← TaskRing32.init ws
  let table ← LinquTensorMap.init numBuckets.toInt.toNat poolSize.toInt.toNat
  return ⟨ring,⟨table,0⟩,[]⟩

inductive Call where
  | tryAlloc
  | setLastTaskAlive (v : Int32)
  | insert (handle : UInt64) (producerTaskId : Int32) (isOutput : Bool)
  | invalidateBelow (lastAlive : Int32)

/-- Producers are tasks the ring has handed out. -/
def exec (s : State) : Call → Option State
  | .tryAlloc => some (if s.ring.hasSpace then
      { s with ring := s.ring.tryAlloc.2, returned := s.ring.tryAlloc.1::s.returned } else s)
  | .setLastTaskAlive v => some { s with ring := s.ring.setLastTaskAlive v }
  | .insert handle producer isOutput =>
    if producer ∈ s.returned then
      (s.map.insert handle producer isOutput).map (fun map => { s with map }) else none
  | .invalidateBelow v => some { s with
      map := { s.map with table := s.map.table.invalidateBelow v.toInt } }

def step (s : State) (c : Call) (t : State) : Prop := exec s c = some t

/-- What is asked of a call: a new id, not negative and above all before it,
and indices inside the pool. -/
def Good (s : State) : Call → Prop
  | .tryAlloc => s.ring.hasSpace = true →
      s.ring.alloc = some s.ring.tryAlloc ∧ 0 ≤ s.ring.tryAlloc.1 ∧
        ∀ u ∈ s.returned, u < s.ring.tryAlloc.1
  | .insert _ producer _ => producer ∈ s.returned →
      s.map.InPool s.map.poolIndex ∧ s.map.InPool (s.map.taskSlot producer)
  | _ => True

/-- The call comes before its counter has wrapped, or the wrapped cursor is a
multiple of the pool size. -/
def Unwrapped (s : State) : Call → Prop
  | .tryAlloc => s.ring.hasSpace = true → s.returned.length < 2^31
  | .insert _ producer _ => producer ∈ s.returned →
      s.map.table.nextEntry % 2^32 < 2^31 ∨
        s.map.table.poolSize ∣ 2^32-s.map.table.nextEntry % 2^32
  | _ => True

/-- The counters are the numbers of allocations and of inserts modulo 2^32. -/
structure Counted (s : State) : Prop where
  few : s.returned.length ≤ 2^31
  current : s.ring.currentIndex.toInt = (s.returned.length:ℤ).bmod (2^32)
  ids : ∀ u ∈ s.returned, 0 ≤ u.toInt ∧ u.toInt < s.returned.length
  next : s.map.nextEntry.toInt = (s.map.table.nextEntry:ℤ).bmod (2^32)
  pool_pos : 0 < s.map.table.poolSize
  pool_lt : s.map.table.poolSize < 2^31

theorem bmod_of_lt {n : ℕ} (h : n < 2^31) : (n:ℤ).bmod (2^32) = n := by
  rw [Int.bmod_eq_of_le] <;> omega

theorem bmod_succ (n : ℕ) : ((n:ℤ).bmod (2^32)+1).bmod (2^32) = ((n+1:ℕ):ℤ).bmod (2^32) := by
  rw [Int.bmod_add_bmod]
  push_cast
  rfl

theorem bmod_cases (n : ℕ) :
    n % 2^32 < 2^31 ∧ (n:ℤ).bmod (2^32) = (n % 2^32 : ℕ) ∨
      2^31 ≤ n % 2^32 ∧ (n:ℤ).bmod (2^32) = -((2^32-n % 2^32 : ℕ):ℤ) := by
  rw [Int.bmod_def]
  by_cases h : n % 2^32 < 2^31
  · left
    have hlow : (n:ℤ) % ((2^32:ℕ):ℤ) < (((2^32:ℕ):ℤ)+1)/2 := by omega
    rw [if_pos hlow]
    exact ⟨h,by push_cast; rfl⟩
  · right
    have hlow : ¬(n:ℤ) % ((2^32:ℕ):ℤ) < (((2^32:ℕ):ℤ)+1)/2 := by omega
    rw [if_neg hlow]
    exact ⟨by omega,by omega⟩

/-- The C remainder lies in the pool for what is not negative and for the
multiples of the pool size. -/
theorem tmod_in_range (x : ℤ) {p : ℤ} (hp : 0 < p) :
    (0 ≤ x.tmod p ∧ x.tmod p < p) ↔ 0 ≤ x ∨ p ∣ x := by
  by_cases hx : 0 ≤ x
  · simp [hx, Int.tmod_nonneg p hx, Int.tmod_lt_of_pos x hp]
  · simp only [hx, false_or]
    have hneg : x.tmod p ≤ 0 := by
      have hopp : 0 ≤ (-x).tmod p := Int.tmod_nonneg p (by omega)
      rw [Int.neg_tmod] at hopp
      omega
    rw [Int.dvd_iff_tmod_eq_zero]
    omega

theorem toInt_succ (i : Int32) : (i+1).toInt = (i.toInt+1).bmod (2^32) := by
  rw [Int32.toInt_add, Int32.toInt_one]

theorem poolSize_toInt {tm : TensorMap32} (h : tm.table.poolSize < 2^31) :
    tm.poolSize.toInt = tm.table.poolSize :=
  Int32.toInt_ofNat_of_lt h

theorem inPool_mod_iff {tm : TensorMap32} (hpos : 0 < tm.table.poolSize)
    (hlt : tm.table.poolSize < 2^31) (i : Int32) :
    tm.InPool (i % tm.poolSize) ↔ 0 ≤ i.toInt ∨ (tm.table.poolSize:ℤ) ∣ i.toInt := by
  rw [TensorMap32.InPool, Int32.le_iff_toInt_le, Int32.lt_iff_toInt_lt, Int32.toInt_mod,
    poolSize_toInt hlt]
  exact tmod_in_range i.toInt (by omega)

theorem tryAlloc_space {r : TaskRing32} (h : r.hasSpace = true) :
    r.tryAlloc.1 = r.currentIndex ∧ r.tryAlloc.2.currentIndex = r.currentIndex+1 := by
  simp [TaskRing32.tryAlloc, h]

theorem alloc_good_iff {s : State} (h : Counted s) :
    (0 ≤ s.ring.currentIndex ∧ ∀ u ∈ s.returned, u < s.ring.currentIndex) ↔
      s.returned.length < 2^31 := by
  have hfew := h.few
  rw [Int32.le_iff_toInt_le, h.current]
  simp only [Int32.lt_iff_toInt_lt, h.current]
  constructor
  · rintro ⟨hnonneg,-⟩
    by_contra hmany
    rw [show s.returned.length = 2^31 by omega] at hnonneg
    revert hnonneg
    decide
  · intro hlt
    rw [bmod_of_lt hlt]
    exact ⟨by simp,fun u hu => (h.ids u hu).2⟩

/-- A call does what is asked exactly when it is unwrapped. -/
theorem good_iff (s : State) (c : Call) (h : Counted s) : Good s c ↔ Unwrapped s c := by
  cases c with
  | tryAlloc =>
    have hiff := alloc_good_iff h
    simp only [Good, Unwrapped]
    constructor
    · intro hgood hspace
      obtain ⟨-,hrest⟩ := hgood hspace
      rw [(tryAlloc_space hspace).1] at hrest
      exact hiff.mp hrest
    · intro hunwrapped hspace
      have hrest := hiff.mpr (hunwrapped hspace)
      rw [← (tryAlloc_space hspace).1] at hrest
      exact ⟨by simp [TaskRing32.alloc, hrest.1],hrest⟩
  | insert handle producer isOutput =>
    simp only [Good, Unwrapped]
    refine forall_congr' fun hprod => ?_
    have hslot : s.map.InPool (s.map.taskSlot producer) :=
      (inPool_mod_iff h.pool_pos h.pool_lt producer).mpr (.inl (h.ids producer hprod).1)
    have hindex : s.map.InPool s.map.poolIndex ↔ _ :=
      inPool_mod_iff h.pool_pos h.pool_lt s.map.nextEntry
    rw [and_iff_left hslot, hindex, h.next]
    rcases bmod_cases s.map.table.nextEntry with ⟨hlow,hmod⟩ | ⟨hhigh,hmod⟩
    · have hnonneg : (0:ℤ) ≤ (s.map.table.nextEntry % 2^32 : ℕ) := by omega
      rw [hmod]
      simp only [hnonneg, true_or, hlow]
    · have hneg : ¬(0:ℤ) ≤ -((2^32-s.map.table.nextEntry % 2^32 : ℕ):ℤ) := by omega
      rw [hmod, Int.dvd_neg, Int.natCast_dvd_natCast]
      simp only [hneg, false_or, Nat.not_lt.mpr hhigh]
  | setLastTaskAlive v => simp [Good, Unwrapped]
  | invalidateBelow v => simp [Good, Unwrapped]

theorem insert_counts {tm tm' : TensorMap32} {handle : UInt64} {producer : Int32}
    {isOutput : Bool} (h : tm.insert handle producer isOutput = some tm') :
    tm'.table.nextEntry = tm.table.nextEntry+1 ∧ tm'.table.poolSize = tm.table.poolSize ∧
      tm'.nextEntry = tm.nextEntry+1 := by
  obtain ⟨stale,hstale,h⟩ := Option.bind_eq_some_iff.mp h
  split at h
  · obtain ⟨table,htable,h⟩ := Option.bind_eq_some_iff.mp h
    cases h
    have h1 := remove_stale_links hstale
    have h2 := unlink_slot_cursor htable
    exact ⟨by simp [LinquTensorMap.fillSlot, h1.nextEntry, h2.1],
      by simp [LinquTensorMap.fillSlot, h1.poolSize, h2.2],rfl⟩
  · cases h

theorem step_counted (s : State) (c : Call) (t : State) (h : Counted s) (hc : Unwrapped s c)
    (hs : step s c t) : Counted t := by
  cases c with
  | tryAlloc =>
    cases hs
    by_cases hspace : s.ring.hasSpace = true
    · have hlt := hc hspace
      obtain ⟨hid,hnext⟩ := tryAlloc_space hspace
      rw [if_pos hspace]
      refine ⟨hlt,?_,?_,h.next,h.pool_pos,h.pool_lt⟩
      · simp only [hnext, List.length_cons]
        rw [toInt_succ, h.current, bmod_succ]
      · intro u hu
        simp only [List.length_cons]
        push_cast
        rcases List.mem_cons.mp hu with rfl | hu
        · rw [hid, h.current, bmod_of_lt hlt]
          omega
        · have := h.ids u hu
          omega
    · rwa [if_neg hspace]
  | setLastTaskAlive v =>
    cases hs
    exact ⟨h.few,h.current,h.ids,h.next,h.pool_pos,h.pool_lt⟩
  | insert handle producer isOutput =>
    simp only [step, exec] at hs
    split at hs
    · obtain ⟨map,hmap,rfl⟩ := Option.map_eq_some_iff.mp hs
      obtain ⟨hcount,hsize,hnext⟩ := insert_counts hmap
      refine ⟨h.few,h.current,h.ids,?_,?_,?_⟩
      · simp only [hnext, hcount]
        rw [toInt_succ, h.next, bmod_succ]
      · simpa [hsize] using h.pool_pos
      · simpa [hsize] using h.pool_lt
    · cases hs
  | invalidateBelow v =>
    cases hs
    exact ⟨h.few,h.current,h.ids,h.next,h.pool_pos,h.pool_lt⟩

theorem start_fields {ws numBuckets poolSize : Int32} {s : State}
    (hs : start ws numBuckets poolSize = some s) :
    s.returned = [] ∧ s.ring.currentIndex = 0 ∧ s.ring.lastTaskAlive = 0 ∧
      s.ring.windowSize = ws ∧ 0 < ws ∧ s.map.nextEntry = 0 ∧ s.map.table.nextEntry = 0 ∧
      s.map.table.poolSize = poolSize.toInt.toNat := by
  obtain ⟨ring,hring,hs⟩ := Option.bind_eq_some_iff.mp hs
  obtain ⟨table,htable,hs⟩ := Option.bind_eq_some_iff.mp hs
  cases hs
  simp only [TaskRing32.init] at hring
  simp only [LinquTensorMap.init] at htable
  split at hring
  · rename_i hws
    cases hring
    split at htable
    · cases htable
      exact ⟨rfl,rfl,rfl,rfl,hws.1,rfl,rfl,rfl⟩
    · cases htable
  · cases hring

theorem start_counted {ws numBuckets poolSize : Int32} {s : State} (hp : 0 < poolSize)
    (hs : start ws numBuckets poolSize = some s) : Counted s := by
  obtain ⟨hret,hcur,-,-,-,hnext,hcount,hsize⟩ := start_fields hs
  rw [Int32.lt_iff_toInt_lt, Int32.toInt_zero] at hp
  have hlt := poolSize.toInt_lt
  constructor
  · simp [hret]
  · simp [hret, hcur]
  · simp [hret]
  · simp [hnext, hcount]
  · omega
  · omega

/-- A run asks nothing of the counters that they do not give exactly when no
allocation and no insert of it comes after its counter has wrapped. -/
theorem counters_survive_iff {ws numBuckets poolSize : Int32} {s : State} (hp : 0 < poolSize)
    (hs : start ws numBuckets poolSize = some s) (calls : List Call) :
    Guarded step Good calls s ↔ Guarded step Unwrapped calls s :=
  guarded_congr good_iff step_counted calls (start_counted hp hs)

theorem counters_survive_short : ∃ s, start 16 16 64 = some s ∧
    Guarded step Good [.tryAlloc,.insert 7 0 true] s := by
  obtain ⟨s,hs⟩ : ∃ s, start 16 16 64 = some s := Option.isSome_iff_exists.mp (by decide)
  obtain ⟨hret,-,-,-,-,-,hcount,-⟩ := start_fields hs
  refine ⟨s,hs,(counters_survive_iff (by decide) hs _).mpr ⟨?_,fun t ht => ⟨?_,fun _ _ => trivial⟩⟩⟩
  · intro _
    simp [hret]
  · intro _
    cases ht
    left
    split <;> simp [hcount]

/-- Before the cursor wraps an insert is that of the unbounded table. -/
theorem insert_unbounded {s : State} (h : Counted s) {producer : Int32}
    (hp : producer ∈ s.returned) (hn : s.map.table.nextEntry < 2^31) (handle : UInt64)
    (isOutput : Bool) :
    (s.map.insert handle producer isOutput).map TensorMap32.table =
      s.map.table.insert handle producer.toInt isOutput := by
  have hnext : s.map.nextEntry.toInt = s.map.table.nextEntry := by rw [h.next, bmod_of_lt hn]
  have hindex : s.map.InPool s.map.poolIndex :=
    (inPool_mod_iff h.pool_pos h.pool_lt _).mpr (.inl (by omega))
  have hslot : s.map.InPool (s.map.taskSlot producer) :=
    (inPool_mod_iff h.pool_pos h.pool_lt _).mpr (.inl (h.ids producer hp).1)
  have hidx : s.map.poolIndex.toInt.toNat = s.map.table.nextSlot := by
    rw [TensorMap32.poolIndex, Int32.toInt_mod, hnext, poolSize_toInt h.pool_lt,
      ← Int.ofNat_tmod, Int.toNat_natCast, LinquTensorMap.nextSlot]
  have hpool : s.map.table.poolSize ≠ 0 := h.pool_pos.ne'
  rw [LinquTensorMap.insert, if_neg hpool, TensorMap32.insert, LinquTensorMap.vacate]
  cases hstale : s.map.table.removeStaleForHandle handle producer.toInt with
  | none => rfl
  | some stale =>
    have hlinks := remove_stale_links hstale
    have hsame : stale.nextSlot = s.map.table.nextSlot := by
      rw [LinquTensorMap.nextSlot, LinquTensorMap.nextSlot, hlinks.nextEntry, hlinks.poolSize]
    simp only [Option.bind_eq_bind, Option.bind_some, hindex, hslot, and_self, if_true, hidx, hsame]
    cases hunlink : stale.unlinkSlot s.map.table.nextSlot with
    | none => rfl
    | some table =>
      have hcursor := unlink_slot_cursor hunlink
      have hfilled : table.nextSlot = s.map.table.nextSlot := by
        rw [← hsame, LinquTensorMap.nextSlot, LinquTensorMap.nextSlot, hcursor.1, hcursor.2]
      simp [hfilled]

/-- Allocations, each retired before the next. -/
def spins : ℕ → List Call
  | 0 => []
  | n+1 => spins n++[.tryAlloc,.setLastTaskAlive (Int32.ofNat (n+1))]

structure Spun (s : State) (n : ℕ) : Prop where
  counted : Counted s
  length : s.returned.length = n
  current : s.ring.currentIndex = Int32.ofNat n
  retired : s.ring.lastTaskAlive = Int32.ofNat n
  window : 0 < s.ring.windowSize

theorem Spun.hasSpace {s : State} {n : ℕ} (h : Spun s n) : s.ring.hasSpace = true := by
  rw [TaskRing32.hasSpace, TaskRing32.activeCount, h.current, h.retired, Int32.sub_self]
  exact decide_eq_true h.window

theorem spins_run {s : State} (h : Spun s 0) (n : ℕ) (hn : n ≤ 2^31) :
    ∃ t, Run step (spins n) s t ∧ Spun t n := by
  induction n with
  | zero => exact ⟨s,rfl,h⟩
  | succ n ih =>
    obtain ⟨t,hrun,ht⟩ := ih (by omega)
    have hspace := ht.hasSpace
    obtain ⟨hid,hnext⟩ := tryAlloc_space hspace
    have hunwrapped : Unwrapped t .tryAlloc := fun _ => by rw [ht.length]; omega
    have halloc : step t .tryAlloc { t with
        ring := t.ring.tryAlloc.2, returned := t.ring.tryAlloc.1::t.returned } := by
      rw [step, exec, if_pos hspace]
    have hcount := step_counted t .tryAlloc _ ht.counted hunwrapped halloc
    refine ⟨_,run_append.mpr ⟨t,hrun,_,halloc,_,rfl,rfl⟩,?_⟩
    constructor
    · exact step_counted _ (.setLastTaskAlive (Int32.ofNat (n+1))) _ hcount trivial rfl
    · simp [ht.length]
    · simp only [TaskRing32.setLastTaskAlive, hnext, ht.current]
      exact (Int32.ofNat_add n 1).symm
    · rfl
    · simpa [TaskRing32.setLastTaskAlive, TaskRing32.tryAlloc, hspace] using ht.window

theorem start_spun {ws numBuckets poolSize : Int32} {s : State} (hp : 0 < poolSize)
    (hs : start ws numBuckets poolSize = some s) : Spun s 0 := by
  obtain ⟨hret,hcur,halive,hwin,hws,-⟩ := start_fields hs
  exact ⟨start_counted hp hs,by simp [hret],by rw [hcur]; rfl,by rw [halive]; rfl,hwin ▸ hws⟩

theorem spins_not_good {s : State} (h : Spun s 0) {n : ℕ} (hn : n = 2^31) :
    ¬Guarded step Good (spins n++[.tryAlloc]) s := by
  intro hgood
  obtain ⟨t,hrun,ht⟩ := spins_run h n hn.le
  have hlast := ((guarded_append hgood).2 t hrun).1
  have hfew := (good_iff t .tryAlloc ht.counted).mp hlast ht.hasSpace
  rw [ht.length] at hfew
  omega

/-- After 2^31 allocations, all retired, the next id is negative. -/
theorem id_turns_negative : ∃ s, start 16 16 64 = some s ∧
    ¬Guarded step Good (spins (2^31)++[.tryAlloc]) s := by
  obtain ⟨s,hs⟩ : ∃ s, start 16 16 64 = some s := Option.isSome_iff_exists.mp (by decide)
  exact ⟨s,hs,spins_not_good (start_spun (by decide) hs) rfl⟩

end Linqu.Wraparound
