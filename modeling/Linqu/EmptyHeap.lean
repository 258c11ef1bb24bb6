import Linqu.HeapBlocks
import Linqu.RingsInStep

/-!
# Allocation from an empty heap

The gap at the end of the store is charged against the free space even when
nothing is allocated. An empty ring thus accepts a request that fits behind
the top or before it, and no other. An orchestrator whose tasks are all
retired has nothing to wait for, so there the refused request is the deadlock.
-/

set_option autoImplicit false

namespace Linqu.EmptyHeap
open Linqu.HeapRing Linqu.HeapBlocks Linqu.Transition Linqu.Orchestrator
open Linqu.Orchestrator.LinquOrchestratorState Linqu.OrchestratorRule Linqu.RingsInStep

/-- The largest size of the vector that holds the store. -/
def maxSize : ℕ := 2^63-1

/-- The request fits between the top and the end of the store, or before the top. -/
def Roomy (capacity top size : ℕ) : Prop :=
  top % capacity+size ≤ capacity ∨ size ≤ top % capacity

/-! The ring over `size_t`. -/

section Words

variable {r : SizeRing} {size : UInt64}

theorem perform_capacity {h h' : History} {c : HeapCall} (hp : Performs h c h') :
    h'.ring.capacity = h.ring.capacity := by
  unfold Performs perform at hp
  cases c with
  | tryAlloc size =>
    have hring : (h.ring.tryAlloc size).2.capacity = h.ring.capacity := by
      unfold SizeRing.tryAlloc
      dsimp only
      repeat' split
      all_goals rfl
    dsimp only at hp
    split at hp
    · rename_i offset ring hr
      cases hp
      rw [hr] at hring
      exact hring
    · rename_i ring hr
      cases hp
      rw [hr] at hring
      exact hring
  | retireTo m =>
    dsimp only at hp
    split at hp
    · cases hp
      rfl
    · cases hp

theorem run_capacity {capacity : UInt64} {calls : List HeapCall} {h : History}
    (hr : Run Performs calls (.init capacity) h) : h.ring.capacity = capacity := by
  apply run_preserves (P := fun h => h.ring.capacity = capacity) _ rfl hr
  intro u c v hu huv
  exact (perform_capacity huv).trans hu

theorem accepts_iff (hused : r.used = 0) (hcap : r.capacity.toNat ≤ maxSize) (hpos : 0 < size)
    (hle : size ≤ r.capacity) :
    (r.tryAlloc size).1.isSome ↔ Roomy r.capacity.toNat r.top.toNat size.toNat := by
  have hfree : r.available = r.capacity := by
    rw [SizeRing.available, hused]
    simp
  have hsize : ¬ (size = 0 ∨ r.capacity < size) := by
    rw [UInt64.le_iff_toNat_le] at hle
    rw [UInt64.lt_iff_toNat_lt] at hpos
    rintro (rfl | h)
    · exact absurd hpos (by simp)
    · rw [UInt64.lt_iff_toNat_lt] at h
      omega
  have hsome : ¬ r.capacity < size := fun h => hsize (Or.inr h)
  rw [UInt64.le_iff_toNat_le] at hle
  rw [UInt64.lt_iff_toNat_lt] at hpos
  simp only [UInt64.toNat_zero] at hpos
  unfold maxSize at hcap
  have hlt : r.top.toNat % r.capacity.toNat < r.capacity.toNat := Nat.mod_lt _ (by omega)
  have hfit : r.top % r.capacity+size ≤ r.capacity ↔
      r.top.toNat % r.capacity.toNat+size.toNat ≤ r.capacity.toNat :=
    SizeRing.fits_iff (by omega)
  have hgap : r.capacity < size+(r.capacity-r.top % r.capacity) ↔
      ¬ size.toNat ≤ r.top.toNat % r.capacity.toNat := by
    rw [UInt64.lt_iff_toNat_lt, UInt64.toNat_add, SizeRing.waste_toNat (by omega),
      Nat.mod_eq_of_lt (by omega)]
    omega
  unfold SizeRing.tryAlloc Roomy
  dsimp only
  rw [if_neg hsize, hfree, if_neg hsome]
  by_cases h1 : r.top.toNat % r.capacity.toNat+size.toNat ≤ r.capacity.toNat
  · rw [if_pos (hfit.mpr h1)]
    simp [h1]
  · rw [if_neg (fun h => h1 (hfit.mp h))]
    by_cases h2 : size.toNat ≤ r.top.toNat % r.capacity.toNat
    · rw [if_neg (fun h => hgap.mp h h2)]
      simp [h2]
    · rw [if_pos (hgap.mpr h2)]
      simp [h1, h2]

end Words

/-! The ring of an orchestrator. -/

theorem empty_accepts_iff {r : LinquHeapRing} {size : ℕ} (hempty : r.tail = r.top)
    (hpos : 0 < size) (hle : size ≤ r.capacity) :
    (r.tryAlloc size).isSome ↔ Roomy r.capacity r.top size := by
  have hfree : r.available = r.capacity := by
    rw [available_eq hempty.le, hempty]
    simp
  have hlt : r.top % r.capacity < r.capacity := Nat.mod_lt _ (by omega)
  have hroom : startOf r size-r.top+size ≤ r.capacity ↔ Roomy r.capacity r.top size := by
    unfold startOf Roomy
    split <;> omega
  rw [Option.isSome_iff_exists, ← hroom]
  constructor
  · rintro ⟨⟨pos,r'⟩,h⟩
    have hsome := (tryAlloc_some.mp h).2.2.1
    rwa [hfree] at hsome
  · intro h
    rw [← hfree] at h
    exact ⟨_,tryAlloc_some.mpr ⟨hpos,hle,h,rfl,rfl⟩⟩

/-- With no live task the call moves nothing of the heap ring. -/
theorem advance_idle {log : List ℕ} {s : State} (h : Ledger log s)
    (hidle : s.taskRing.lastTaskAlive = s.taskRing.currentIndex) :
    s.tryAdvanceRingPointers.heapRing = s.heapRing := by
  have hle := h.ring.alive_le
  obtain ⟨-,hcur,-,-⟩ := cursor_spec hle
  obtain ⟨-,-,-,-,hheap⟩ := advance_spec hle h.map
  rw [hheap, if_neg]
  rintro ⟨hlt,-⟩
  omega

/-- The deadlock of `alloc_tensor` with nothing live is that of the ring. -/
theorem never_deadlocks_iff {log : List ℕ} {s : State} {size : ℕ} (h : Ledger log s)
    (hidle : s.taskRing.lastTaskAlive = s.taskRing.currentIndex) (hpos : 0 < size) :
    (∀ arrivals, exec s (.allocTensor size arrivals) ≠ .error .heapRingDeadlock) ↔
      (s.heapRing.tryAlloc size).isSome := by
  have hzero : size ≠ 0 := by omega
  constructor
  · intro hnever
    by_contra hnone
    apply hnever []
    have hnone : s.heapRing.tryAlloc size = none := by simpa using hnone
    have hnext : ∀ u : State, Still s u →
        u.tryAdvanceRingPointers.heapRing.tryAlloc size = none := by
      intro u hu
      rw [advance_idle (h.still hu) (by rw [hu.alive, hu.current, hidle]), hu.heapRing]
      exact hnone
    have hwait := hnext { s with nextTensorHandle := s.nextTensorHandle+1,
                                 heapBlockCount := s.heapBlockCount+1 }
      ⟨rfl,rfl,rfl,rfl,rfl,rfl,rfl,fun _ => rfl⟩
    simp [exec, allocTensor, hzero, waitForHeap, hnone, awaitHeap, hwait, Except.map, bind,
      Except.bind]
  · intro hsome arrivals
    obtain ⟨⟨pos,r⟩,hr⟩ := Option.isSome_iff_exists.mp hsome
    simp [exec_allocTensor hr hzero arrivals]

/-- An empty ring accepts exactly the requests that fit behind the top or
before it; so does `alloc_tensor` with every task retired and nothing allocated
since, where any other request of at most the capacity is the deadlock. -/
theorem empty_heap_accepts_iff {size : UInt64} (hpos : 0 < size) :
    (∀ (capacity : UInt64) (calls : List HeapCall) (h : History), capacity.toNat ≤ maxSize →
      Run Performs calls (.init capacity) h → h.ring.used = 0 → size ≤ capacity →
      ((h.ring.tryAlloc size).1.isSome ↔ Roomy capacity.toNat h.ring.top.toNat size.toNat)) ∧
    ∀ (backend : Backend) (cfg : LinquOrchConfigInternal) (s₀ s : State) (calls : List ApiCall),
      init backend cfg = .ok s₀ → Run ApiSteps calls s₀ s →
      s.taskRing.lastTaskAlive = s.taskRing.currentIndex →
      s.heapRing.top = newestRetired (recorded calls s₀ []) s.taskRing.lastTaskAlive →
      size.toNat ≤ s.heapRing.capacity →
      ((∀ arrivals, exec s (.allocTensor size.toNat arrivals) ≠ .error .heapRingDeadlock) ↔
        Roomy s.heapRing.capacity s.heapRing.top size.toNat) := by
  constructor
  · intro capacity calls h hcap hrun hused hle
    have heq := run_capacity hrun
    have haccepts := accepts_iff hused (by rw [heq]; exact hcap) hpos (by rw [heq]; exact hle)
    rwa [heq] at haccepts
  · intro backend cfg s₀ s calls hinit hrun hidle hnothing hle
    have hledger := run_ledger (init_ledger hinit) hrun
    have hempty : s.heapRing.tail = s.heapRing.top := by rw [hledger.tail, hnothing]
    have hpos' : 0 < size.toNat := UInt64.lt_iff_toNat_lt.mp hpos
    rw [never_deadlocks_iff hledger hidle hpos']
    exact empty_accepts_iff hempty hpos' hle

/-- A block of 60 bytes of the 100 is used by a task that has been retired. -/
def usedOnce : List ApiCall :=
  [.op .scopeBegin,.op (.allocTensor 60 []),.op (.submitTask {} none [] []),.op .scopeEnd]

theorem empty_heap_accepts_thirty :
    (∃ h, Run Performs [.tryAlloc 60,.retireTo 60] (.init 100) h ∧ h.ring.used = 0 ∧
      (h.ring.tryAlloc 30).1.isSome) ∧
    ∃ s₀ s, init .none smallHeap = .ok s₀ ∧ Run ApiSteps usedOnce s₀ s ∧
      ∀ arrivals, exec s (.allocTensor 30 arrivals) ≠ .error .heapRingDeadlock := by
  have haccepts := empty_heap_accepts_iff (show (0 : UInt64) < 30 by decide)
  constructor
  · obtain ⟨h₀,h,h0,hr,-,ht⟩ := exists_run (f := perform) (g := fun _ _ => true)
      (l := [.tryAlloc 60,.retireTo 60]) (o := some (.init 100))
      (c := fun h => decide (h.ring.used = 0) && decide (h.ring.top = 60)) (by decide +kernel)
    cases h0
    simp only [Bool.and_eq_true, decide_eq_true_eq] at ht
    obtain ⟨hused,htop⟩ := ht
    refine ⟨h,hr,hused,(haccepts.1 100 _ h (by decide) hr hused (by decide)).mpr ?_⟩
    rw [htop]
    exact Or.inl (by decide)
  · obtain ⟨s₀,s,h₀,hr,-,ht⟩ := exists_run (f := fun s c => (execApi s c).toOption)
      (g := fun _ _ => true) (l := usedOnce) (o := (init .none smallHeap).toOption)
      (c := fun s => decide (s.heapRing.capacity = 100) &&
        decide (s.taskRing.lastTaskAlive = s.taskRing.currentIndex) &&
        decide (s.heapRing.top = 60) && decide (s.heapRing.tail = 60)) (by decide +kernel)
    simp only [Bool.and_eq_true, decide_eq_true_eq] at ht
    obtain ⟨⟨⟨hcap,hidle⟩,htop⟩,htail⟩ := ht
    have hinit := toOption_some.mp h₀
    have hnothing := (run_ledger (init_ledger hinit) hr).tail
    rw [htail, ← htop] at hnothing
    have hle : (30 : UInt64).toNat ≤ s.heapRing.capacity := by
      rw [hcap]
      decide
    refine ⟨s₀,s,hinit,hr,(haccepts.2 _ _ s₀ s _ hinit hr hidle hnothing hle).mpr ?_⟩
    rw [hcap, htop]
    exact Or.inl (by decide)

def isDeadlock : Except Fault State → Bool
  | .error .heapRingDeadlock => true
  | _ => false

/-- 70 of 100 bytes are refused by an empty ring, and `alloc_tensor` fails. -/
theorem empty_heap_refuses :
    (∃ h, Run Performs [.tryAlloc 60,.retireTo 60] (.init 100) h ∧ h.ring.used = 0 ∧
      (h.ring.tryAlloc 70).1 = none) ∧
    ∃ s₀ s, init .none smallHeap = .ok s₀ ∧ Run ApiSteps usedOnce s₀ s ∧
      s.heapRing.capacity = 100 ∧ s.taskRing.lastTaskAlive = s.taskRing.currentIndex ∧
      s.heapRing.used = 0 ∧ exec s (.allocTensor 70 []) = .error .heapRingDeadlock := by
  constructor
  · obtain ⟨h₀,h,h0,hr,-,ht⟩ := exists_run (f := perform) (g := fun _ _ => true)
      (l := [.tryAlloc 60,.retireTo 60]) (o := some (.init 100))
      (c := fun h => decide (h.ring.used = 0) && decide ((h.ring.tryAlloc 70).1 = none))
      (by decide +kernel)
    cases h0
    simp only [Bool.and_eq_true, decide_eq_true_eq] at ht
    exact ⟨h,hr,ht⟩
  · obtain ⟨s₀,s,h₀,hr,-,ht⟩ := exists_run (f := fun s c => (execApi s c).toOption)
      (g := fun _ _ => true) (l := usedOnce) (o := (init .none smallHeap).toOption)
      (c := fun s => decide (s.heapRing.capacity = 100) &&
        decide (s.taskRing.lastTaskAlive = s.taskRing.currentIndex) &&
        decide (s.heapRing.used = 0) && isDeadlock (exec s (.allocTensor 70 [])))
      (by decide +kernel)
    simp only [Bool.and_eq_true, decide_eq_true_eq] at ht
    obtain ⟨⟨⟨hcap,hidle⟩,hused⟩,hdead⟩ := ht
    refine ⟨s₀,s,toOption_some.mp h₀,hr,hcap,hidle,hused,?_⟩
    unfold isDeadlock at hdead
    split at hdead
    · assumption
    · cases hdead

end Linqu.EmptyHeap
