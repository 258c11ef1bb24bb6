import Linqu.OrchestratorCalls
import Linqu.HeapBlocks

/-!
# The rings in step

The task ring, the heap ring, the tensor map and the metrics each keep a copy
of the bounds of the live window. `Ledger` relates them to the list of the
heap ends that the submissions since the last reset have recorded. Completions
and scopes leave all of it alone, a submission adds one entry, retirement
moves the bounds along the list, and a reset empties it. Nothing is assumed
about dependency lists or the entries of the tensor map, which a reset does
not clean up.
-/

set_option autoImplicit false

namespace Linqu.RingsInStep
open Linqu.TaskRing Linqu.HeapRing Linqu.HeapBlocks Linqu.TensorMap Linqu.TensorMapNames
open Linqu.Orchestrator Linqu.Orchestrator.LinquOrchestratorState Linqu.OrchestrationApi
open Linqu.Transition Linqu.OrchestratorRule Linqu.OrchestratorShape Linqu.OrchestratorCalls

/-- A call of the interface, a reset, or a change of the backend. -/
inductive ApiCall where
  | op (o : Op)
  | reset
  | setBackend (b : Backend)
  deriving DecidableEq, Repr

def execApi (s : State) : ApiCall → Except Fault State
  | .op o => exec s o
  | .reset => .ok s.reset
  | .setBackend backend => .ok { s with backend }

def ApiSteps (s : State) (c : ApiCall) (s' : State) : Prop := (execApi s c).toOption = some s'

/-- A call that has submitted a task has recorded its `heap_end`. -/
def logAfter (log : List ℕ) (s s' : State) : List ℕ :=
  if s.taskRing.currentIndex < s'.taskRing.currentIndex then
    log++[(s'.get s.taskRing.currentIndex).heapEnd]
  else log

def recordEnd (log : List ℕ) (s s' : State) : ApiCall → List ℕ
  | .reset => []
  | _ => logAfter log s s'

/-- The heap ends recorded in a run since its last reset, in the order of the
task ids. -/
def recorded : List ApiCall → State → List ℕ → List ℕ
  | [], _, log => log
  | c::calls, s, log =>
    (execApi s c).toOption.elim log (fun s' => recorded calls s' (recordEnd log s s' c))

/-- What was recorded for the newest retired task. -/
def newestRetired (log : List ℕ) (alive : ℤ) : ℕ :=
  if alive = 0 then 0 else log.getD (alive-1).toNat 0

structure Ledger (log : List ℕ) (s : State) : Prop where
  map : s.tensorMap.lastTaskAlive = s.taskRing.lastTaskAlive
  ring : s.taskRing.Windowed
  length : (log.length : ℤ) = s.taskRing.currentIndex
  sorted : log.Pairwise (· ≤ ·)
  top : ∀ e ∈ log, e ≤ s.heapRing.top
  held : ∀ i : ℕ, s.taskRing.Live i → log[i]? = some (s.get i).heapEnd
  tail : s.heapRing.tail = newestRetired log s.taskRing.lastTaskAlive
  room : s.heapRing.top ≤ s.heapRing.tail+s.heapRing.capacity
  submitted : (s.tasksSubmitted : ℤ) = s.taskRing.currentIndex
  retired : (s.taskRetireCount : ℤ) = s.taskRing.lastTaskAlive

/-! What leaves the bounds alone. -/

structure Still (s s' : State) : Prop where
  window : s'.taskRing.windowSize = s.taskRing.windowSize
  current : s'.taskRing.currentIndex = s.taskRing.currentIndex
  alive : s'.taskRing.lastTaskAlive = s.taskRing.lastTaskAlive
  heapRing : s'.heapRing = s.heapRing
  map : s'.tensorMap.lastTaskAlive = s.tensorMap.lastTaskAlive
  submitted : s'.tasksSubmitted = s.tasksSubmitted
  retired : s'.taskRetireCount = s.taskRetireCount
  heapEnd : ∀ t, (s'.get t).heapEnd = (s.get t).heapEnd

theorem Still.refl (s : State) : Still s s := ⟨rfl,rfl,rfl,rfl,rfl,rfl,rfl,fun _ => rfl⟩

theorem Still.trans {s m u : State} (h : Still s m) (h' : Still m u) : Still s u := by
  refine ⟨h'.window.trans h.window,h'.current.trans h.current,h'.alive.trans h.alive,
    h'.heapRing.trans h.heapRing,h'.map.trans h.map,h'.submitted.trans h.submitted,
    h'.retired.trans h.retired,?_⟩
  intro t
  exact (h'.heapEnd t).trans (h.heapEnd t)

theorem still_modify (s : State) (t : ℤ) {f : LinquTaskDescriptor → LinquTaskDescriptor}
    (hf : ∀ d, (f d).heapEnd = d.heapEnd) : Still s (s.modify t f) :=
  ⟨rfl,rfl,rfl,rfl,rfl,rfl,rfl,fun u => get_modify_field LinquTaskDescriptor.heapEnd u hf⟩

theorem still_setStatus (s : State) (t : ℤ) (v : Status) : Still s (s.setStatus t v) :=
  still_modify s t fun _ => rfl

theorem still_check (s : State) (t : ℤ) : Still s (s.checkTaskConsumed t) := by
  unfold checkTaskConsumed
  split
  · exact still_setStatus s t .consumed
  · exact Still.refl s

theorem Ledger.still {log : List ℕ} {s s' : State} (h : Ledger log s) (hs : Still s s') :
    Ledger log s' := by
  obtain ⟨h1,h2,h3,h4⟩ := h.ring
  refine ⟨?_,⟨?_,?_,?_,?_⟩,?_,h.sorted,?_,?_,?_,?_,?_,?_⟩
  · rw [hs.map, hs.alive]
    exact h.map
  · rw [hs.window]
    exact h1
  · rw [hs.alive]
    exact h2
  · rw [hs.alive, hs.current]
    exact h3
  · rw [hs.alive, hs.current, hs.window]
    exact h4
  · rw [hs.current]
    exact h.length
  · rw [hs.heapRing]
    exact h.top
  · intro i hi
    rw [LinquTaskRing.Live, hs.alive, hs.current] at hi
    rw [hs.heapEnd]
    exact h.held i hi
  · rw [hs.heapRing, hs.alive]
    exact h.tail
  · rw [hs.heapRing]
    exact h.room
  · rw [hs.submitted, hs.current]
    exact h.submitted
  · rw [hs.retired, hs.alive]
    exact h.retired

/-! Completions. -/

theorem still_dispatchOnly {s s' : State} (h : DispatchOnly s s') : Still s s' := by
  rw [h.eq]
  exact ⟨rfl,rfl,rfl,rfl,rfl,rfl,rfl,fun _ => rfl⟩

theorem still_rule (s : State) : PropagateRule (fun _ _ _ _ u => Still s u) where
  release p _ _ _ _ u h :=
    (h.trans (still_modify u p (f := fun d => { d with fanoutRefcount := d.fanoutRefcount+1 })
      fun _ => rfl)).trans (still_check _ p)
  notify c _ _ _ u h _ := h.trans (still_modify u c fun _ => rfl)
  skip _ _ _ _ h _ := h
  ready c _ _ u h _ _ := h.trans (still_setStatus u c .ready)
  run c _ _ u h _ _ _ := h.trans (still_setStatus u c .running)
  dispatch c _ _ u u' spec h _ _ hb _ hm := by
    have hrun := still_setStatus u c .running
    have honly := dispatchFrom_only c _ _ _ _ 0 (u.setStatus c .running) u' hb hm
    have herase : Still u' (u'.eraseSpec c) := ⟨rfl,rfl,rfl,rfl,rfl,rfl,rfl,fun _ => rfl⟩
    exact ((h.trans hrun).trans (still_dispatchOnly honly)).trans herase
  count g _ _ u _ _ h := by
    have hassign : Still u (u.assignSubId g) := ⟨rfl,rfl,rfl,rfl,rfl,rfl,rfl,fun _ => rfl⟩
    exact (h.trans hassign).trans (still_modify _ g fun _ => rfl)
  complete g _ _ u _ _ h := h.trans (still_setStatus u g .completed)
  erase c _ _ u _ _ h := h.trans ⟨rfl,rfl,rfl,rfl,rfl,rfl,rfl,fun _ => rfl⟩
  finish t _ _ u h := h.trans (still_check u t)

theorem still_propagate {fuel : ℕ} {s s' : State} {t : ℤ}
    (h : propagateCompletion fuel s t = .ok s') : Still s s' :=
  propagate_rule (still_rule s) (b := []) (c := []) h (Still.refl s)

theorem still_complete {s s' : State} {t : ℤ} (h : s.complete t = .ok s') : Still s s' :=
  (still_setStatus s t .completed).trans (still_propagate h)

theorem still_onTaskComplete {s s' : State} {t : ℤ} (h : s.onTaskComplete t = .ok s') :
    Still s s' := by
  have hreport : Still s (s.record (.report t)) := ⟨rfl,rfl,rfl,rfl,rfl,rfl,rfl,fun _ => rfl⟩
  unfold onTaskComplete at h
  dsimp only at h
  split at h
  · rename_i g _
    have herase : Still (s.record (.report t)) ((s.record (.report t)).eraseSubId t) :=
      ⟨rfl,rfl,rfl,rfl,rfl,rfl,rfl,fun _ => rfl⟩
    have hcount : Still s (((s.record (.report t)).eraseSubId t).countSubTask g) :=
      (hreport.trans herase).trans (still_modify _ g fun _ => rfl)
    split at h
    · exact hcount.trans (still_complete h)
    · cases h
      exact hcount
  · split at h
    · exact hreport.trans (still_complete h)
    · cases h
      exact hreport

theorem still_deliver {ids : List ℤ} {s s' : State} (h : s.deliver ids = .ok s') : Still s s' :=
  foldlM_rule (P := fun _ u => Still s u)
    (fun _ _ _ _ hu hv => hu.trans (still_onTaskComplete hv)) ids (Still.refl s) h

theorem still_dispatchSubTask {fuel : ℕ} {g : ℤ} {k : Option String} {gp : List LinquParam}
    {n i : ℕ} {sub : LinquSubTaskSpec} {s s' : State}
    (h : s.dispatchSubTask (propagateCompletion fuel) g k gp n i sub = .ok s') : Still s s' := by
  have hassign : Still s (s.assignSubId g) := ⟨rfl,rfl,rfl,rfl,rfl,rfl,rfl,fun _ => rfl⟩
  have hcount : Still s ((s.assignSubId g).countSubTask g) :=
    hassign.trans (still_modify _ g fun _ => rfl)
  unfold dispatchSubTask at h
  dsimp only at h
  split at h
  · cases h
    exact hassign.trans ⟨rfl,rfl,rfl,rfl,rfl,rfl,rfl,fun _ => rfl⟩
  · split at h
    · exact (hcount.trans (still_setStatus _ g .completed)).trans (still_propagate h)
    · cases h
      exact hcount

theorem still_dispatchFrom {fuel : ℕ} {g : ℤ} {k : Option String} {gp : List LinquParam} {n : ℕ}
    {arrivals : ℕ → List ℤ} (subs : List LinquSubTaskSpec) : ∀ (i : ℕ) (s s' : State),
      dispatchFrom (propagateCompletion fuel) (fun i s => s.deliver (arrivals i)) g k gp n i subs
        s = .ok s' → Still s s' := by
  induction subs with
  | nil =>
    intro i s s' h
    cases h
    exact Still.refl s
  | cons sub rest ih =>
    intro i s s' h
    obtain ⟨m,hm,h⟩ := bind_ok.mp h
    obtain ⟨u,hu,h⟩ := bind_ok.mp h
    exact ((still_dispatchSubTask hm).trans (still_deliver hu)).trans (ih (i+1) u s' h)

theorem still_launchTask {s s' : State} {tid : ℤ} {target : LinquCoordinate} {k : Option String}
    {params : List LinquParam} (h : s.launchTask tid target k params = .ok s') : Still s s' := by
  have hrun := still_setStatus s tid .running
  unfold launchTask at h
  dsimp only at h
  split at h
  · cases h
    exact hrun.trans ⟨rfl,rfl,rfl,rfl,rfl,rfl,rfl,fun _ => rfl⟩
  · refine hrun.trans (Still.trans ?_ (still_complete h))
    exact ⟨rfl,rfl,rfl,rfl,rfl,rfl,rfl,fun _ => rfl⟩
  · exact hrun.trans (still_complete h)

theorem still_launchGroup {s s' : State} {tid : ℤ} {k : Option String} {gp : List LinquParam}
    {subs : List LinquSubTaskSpec} {arrivals : List (List ℤ)}
    (h : s.launchGroup tid k gp subs arrivals = .ok s') : Still s s' := by
  unfold launchGroup at h
  split at h
  · exact still_complete h
  · split at h
    · exact (still_setStatus s tid .running).trans (still_dispatchFrom subs 0 _ s' h)
    · cases h
      exact (still_setStatus s tid .pending).trans ⟨rfl,rfl,rfl,rfl,rfl,rfl,rfl,fun _ => rfl⟩

/-! Retirement. -/

/-- Where the cursor of `try_advance_ring_pointers` stops. -/
def cursorOf (s : State) : ℤ := s.consumedUpTo s.taskRing.activeCount.toNat s.taskRing.lastTaskAlive

theorem cursor_spec {s : State} (h : s.taskRing.lastTaskAlive ≤ s.taskRing.currentIndex) :
    s.taskRing.lastTaskAlive ≤ cursorOf s ∧ cursorOf s ≤ s.taskRing.currentIndex ∧
      (∀ t, s.taskRing.lastTaskAlive ≤ t → t < cursorOf s → (s.get t).status = .consumed) ∧
      (cursorOf s < s.taskRing.currentIndex → (s.get (cursorOf s)).status ≠ .consumed) := by
  obtain ⟨h1,h2,h3,h4⟩ := consumedUpTo_spec s s.taskRing.activeCount.toNat s.taskRing.lastTaskAlive
  have hact : ((s.taskRing.activeCount.toNat : ℕ) : ℤ) =
      s.taskRing.currentIndex-s.taskRing.lastTaskAlive := by
    apply Int.toNat_of_nonneg
    rw [LinquTaskRing.activeCount]
    omega
  unfold cursorOf
  refine ⟨h1,by omega,fun t ht hlt => (h3 t ht hlt).2,fun hlt => ?_⟩
  exact h4 (by omega) hlt

/-- What the call moves. -/
theorem advance_spec {s : State} (hle : s.taskRing.lastTaskAlive ≤ s.taskRing.currentIndex)
    (hmap : s.tensorMap.lastTaskAlive = s.taskRing.lastTaskAlive) :
    s.tryAdvanceRingPointers.taskRing = s.taskRing.setLastTaskAlive (cursorOf s) ∧
      s.tryAdvanceRingPointers.tensorMap.lastTaskAlive = cursorOf s ∧
      s.tryAdvanceRingPointers.tasksSubmitted = s.tasksSubmitted ∧
      s.tryAdvanceRingPointers.taskRetireCount =
        s.taskRetireCount+(cursorOf s-s.taskRing.lastTaskAlive).toNat ∧
      s.tryAdvanceRingPointers.heapRing =
        if s.taskRing.lastTaskAlive < cursorOf s ∧ 0 < cursorOf s ∧
            s.heapRing.tail < (s.get (cursorOf s-1)).heapEnd then
          s.heapRing.retireTo (s.get (cursorOf s-1)).heapEnd
        else s.heapRing := by
  obtain ⟨h1,-,-,-⟩ := cursor_spec hle
  unfold tryAdvanceRingPointers
  change s.taskRing.lastTaskAlive ≤ s.consumedUpTo _ _ at h1
  unfold cursorOf
  dsimp only
  generalize s.consumedUpTo s.taskRing.activeCount.toNat s.taskRing.lastTaskAlive = cursor at h1 ⊢
  by_cases hlt : s.taskRing.lastTaskAlive < cursor
  · rw [if_pos hlt]
    have hget : ∀ t, LinquOrchestratorState.get { s with
        taskRetireCount := s.taskRetireCount+(cursor-s.taskRing.lastTaskAlive).toNat
        taskRing := s.taskRing.setLastTaskAlive cursor
        tensorMap := s.tensorMap.invalidateBelow cursor } t = s.get t := fun _ => rfl
    rw [hget]
    by_cases hheap : 0 < cursor ∧ s.heapRing.tail < (s.get (cursor-1)).heapEnd
    · rw [if_pos hheap, if_pos ⟨hlt,hheap⟩]
      exact ⟨rfl,rfl,rfl,rfl,rfl⟩
    · rw [if_neg hheap, if_neg (fun hand => hheap hand.2)]
      exact ⟨rfl,rfl,rfl,rfl,rfl⟩
  · have heq : cursor = s.taskRing.lastTaskAlive := by omega
    rw [if_neg hlt, if_neg (fun hand => hlt hand.1), heq]
    exact ⟨rfl,hmap,rfl,rfl,rfl⟩

theorem newestRetired_le {log : List ℕ} (hs : log.Pairwise (· ≤ ·)) {a i : ℕ} {e : ℕ}
    (hai : a ≤ i) (hi : log[i]? = some e) : newestRetired log a ≤ e := by
  unfold newestRetired
  split
  · exact Nat.zero_le e
  · rename_i hne
    obtain ⟨hlen,rfl⟩ := List.getElem?_eq_some_iff.mp hi
    have hidx : ((a : ℤ)-1).toNat = a-1 := by omega
    rw [hidx, List.getD_eq_getElem _ _ (by omega)]
    exact hs.rel_get_of_lt (a := ⟨a-1,by omega⟩) (b := ⟨i,hlen⟩) (by
      show a-1 < i
      omega)

theorem Ledger.advance {log : List ℕ} {s : State} (h : Ledger log s) :
    Ledger log s.tryAdvanceRingPointers := by
  obtain ⟨hw,h0,hle,hcur⟩ := h.ring
  obtain ⟨h1,h2,-,-⟩ := cursor_spec hle
  obtain ⟨hring,hmap,hsub,hret,hheap⟩ := advance_spec hle h.map
  have halive : s.tryAdvanceRingPointers.taskRing.lastTaskAlive = cursorOf s := by
    rw [hring]
    rfl
  have hcurrent : s.tryAdvanceRingPointers.taskRing.currentIndex = s.taskRing.currentIndex := by
    rw [hring]
    rfl
  have htail : s.tryAdvanceRingPointers.heapRing.tail = newestRetired log (cursorOf s) := by
    by_cases hlt : s.taskRing.lastTaskAlive < cursorOf s
    · obtain ⟨i,hi⟩ := Int.eq_ofNat_of_zero_le (show 0 ≤ cursorOf s-1 by omega)
      obtain ⟨a,ha⟩ := Int.eq_ofNat_of_zero_le h0
      have hheld := h.held i ⟨by omega,by omega⟩
      have hnew : newestRetired log (cursorOf s) = (s.get (cursorOf s-1)).heapEnd := by
        rw [newestRetired, if_neg (by omega), hi, Int.toNat_natCast, List.getD_eq_getElem?_getD,
          hheld]
        rfl
      have hold : s.heapRing.tail ≤ (s.get (cursorOf s-1)).heapEnd := by
        rw [h.tail, ha, hi]
        exact newestRetired_le h.sorted (by omega) hheld
      rw [hheap, hnew]
      split
      · rfl
      · omega
    · have heq : cursorOf s = s.taskRing.lastTaskAlive := by omega
      rw [hheap, if_neg (fun hand => hlt hand.1), h.tail, heq]
  have htop : s.tryAdvanceRingPointers.heapRing.top = s.heapRing.top ∧
      s.tryAdvanceRingPointers.heapRing.capacity = s.heapRing.capacity ∧
      s.heapRing.tail ≤ s.tryAdvanceRingPointers.heapRing.tail := by
    rw [hheap]
    split
    · rename_i hand
      exact ⟨rfl,rfl,hand.2.2.le⟩
    · exact ⟨rfl,rfl,le_rfl⟩
  refine ⟨?_,⟨?_,?_,?_,?_⟩,?_,h.sorted,?_,?_,?_,?_,?_,?_⟩
  · rw [hmap, halive]
  · rw [hring]
    exact hw
  · rw [halive]
    omega
  · rw [halive, hcurrent]
    exact h2
  · rw [halive, hring]
    show s.taskRing.currentIndex ≤ cursorOf s+s.taskRing.windowSize
    omega
  · rw [hcurrent]
    exact h.length
  · rw [htop.1]
    exact h.top
  · intro i hi
    rw [LinquTaskRing.Live, halive, hcurrent] at hi
    rw [LinquOrchestratorState.get, hring]
    exact h.held i ⟨h1.trans hi.1,hi.2⟩
  · rw [htail, halive]
  · rw [htop.1, htop.2.1]
    have hroom := h.room
    omega
  · rw [hsub, hcurrent]
    exact h.submitted
  · rw [hret, halive]
    have hr := h.retired
    push_cast
    omega

/-! Waiting for a slot, and blocks of the heap. -/

theorem ledger_waitForSpace {log : List ℕ} {arrivals : List (List ℤ)} {s s' : State}
    (h : Ledger log s) (hs : s.waitForSpace arrivals = .ok s') : Ledger log s' :=
  waitForSpace_keeps (fun _ hu => hu.advance) (fun _ _ _ hu hv => hu.still (still_onTaskComplete hv))
    (fun _ _ hu => hu.still ⟨rfl,rfl,rfl,rfl,rfl,rfl,rfl,fun _ => rfl⟩) h hs

theorem Ledger.tail_le {log : List ℕ} {s : State} (h : Ledger log s) :
    s.heapRing.tail ≤ s.heapRing.top := by
  have h0 := h.ring.alive_nonneg
  have hlen := h.length
  have hle := h.ring.alive_le
  rw [h.tail, newestRetired]
  split
  · exact Nat.zero_le _
  · rw [List.getD_eq_getElem _ _ (by omega)]
    exact h.top _ (List.getElem_mem _)

theorem Ledger.alloc {log : List ℕ} {s : State} {size pos : ℕ} {r : LinquHeapRing}
    (h : Ledger log s) (hr : s.heapRing.tryAlloc size = some (pos,r)) :
    Ledger log { s with heapRing := r } := by
  obtain ⟨htail,hroom⟩ := tryAlloc_room h.tail_le hr
  have htop := (tryAlloc_top hr).le
  refine ⟨h.map,h.ring,h.length,h.sorted,?_,h.held,?_,hroom,h.submitted,h.retired⟩
  · intro e he
    exact (h.top e he).trans htop
  · exact htail.trans h.tail

theorem ledger_allocTensor {log : List ℕ} {size : ℕ} {arrivals : List (List ℤ)} {s s' : State}
    {handle : UInt64} (h : Ledger log s) (hs : s.allocTensor size arrivals = .ok (handle,s')) :
    Ledger log s' := by
  have h0 : Ledger log { s with nextTensorHandle := s.nextTensorHandle+1 } :=
    h.still ⟨rfl,rfl,rfl,rfl,rfl,rfl,rfl,fun _ => rfl⟩
  unfold allocTensor at hs
  dsimp only at hs
  split at hs
  · cases hs
    exact h0
  · obtain ⟨m,hm,hs⟩ := bind_ok.mp hs
    obtain ⟨u,pos,r,hu,hr,rfl⟩ := waitForHeap_keeps (fun _ hu => hu.advance)
      (fun _ _ _ hu hv => hu.still (still_onTaskComplete hv))
      (fun _ _ hu => hu.still ⟨rfl,rfl,rfl,rfl,rfl,rfl,rfl,fun _ => rfl⟩) h0 hm
    have hledger := hu.alloc hr
    cases hs
    exact hledger.still ⟨rfl,rfl,rfl,rfl,rfl,rfl,rfl,fun _ => rfl⟩

/-- A block that fits is taken without waiting. -/
theorem exec_allocTensor {s : State} {size pos : ℕ} {r : LinquHeapRing}
    (h : s.heapRing.tryAlloc size = some (pos,r)) (hsize : size ≠ 0) (arrivals : List (List ℤ)) :
    exec s (.allocTensor size arrivals) = .ok
      { s with nextTensorHandle := s.nextTensorHandle+1, heapRing := r,
               peakHeapUsed := max s.peakHeapUsed r.used } := by
  simp [exec, allocTensor, hsize, waitForHeap, h, Except.map, bind, Except.bind, pure,
    Except.pure]

/-! Submission. -/

theorem still_addEdge {s s' : State} {p tid : ℤ} (h : s.addEdge p tid = .ok s') : Still s s' := by
  obtain ⟨i₁,pool₁,i₂,-,-,hrest,hring,hget⟩ := addEdge_spec h
  refine ⟨by rw [hring],by rw [hring],by rw [hring],by rw [hrest],by rw [hrest],by rw [hrest],
    by rw [hrest],?_⟩
  intro t
  rw [hget]

theorem still_linkParam {tid : ℤ} {p : LinquParam} {u u' : State} {n n' : ℕ}
    (h : linkParam tid (u,n) p = .ok (u',n')) : Still u u' := by
  obtain ⟨⟨r,l⟩,hr,hw⟩ := bind_ok.mp h
  have hread : Still u r := by
    unfold linkRead at hr
    split at hr
    · obtain ⟨found,-,hr⟩ := bind_ok.mp hr
      cases found with
      | none =>
        cases hr
        exact Still.refl u
      | some q =>
        obtain ⟨w,hedge,hr⟩ := bind_ok.mp hr
        cases hr
        exact still_addEdge hedge
    · cases hr
      exact Still.refl u
  unfold linkWrite at hw
  split at hw
  · obtain ⟨tm,htm,hw⟩ := bind_ok.mp hw
    cases hw
    exact hread.trans ⟨rfl,rfl,rfl,rfl,insert_alive (required_ok.mp htm),rfl,rfl,fun _ => rfl⟩
  · cases hw
    exact hread

theorem still_linkParams {tid : ℤ} (params : List LinquParam) : ∀ (u u' : State) (n n' : ℕ),
    params.foldlM (linkParam tid) (u,n) = .ok (u',n') → Still u u' := by
  induction params with
  | nil =>
    intro u u' n n' h
    cases h
    exact Still.refl u
  | cons p rest ih =>
    intro u u' n n' h
    rw [List.foldlM_cons] at h
    obtain ⟨⟨v,k⟩,hv,h⟩ := bind_ok.mp h
    exact (still_linkParam hv).trans (ih v u' k n' h)

theorem still_joinScope {s s' : State} {tid : ℤ} (h : s.joinScope tid = .ok s') : Still s s' := by
  obtain ⟨hj,-⟩ := joinScope_spec h
  rw [hj]
  exact ⟨rfl,rfl,rfl,rfl,rfl,rfl,rfl,fun _ => rfl⟩

/-- The effect of the common part of the submit functions on the bounds. -/
structure Extended (s s' : State) : Prop where
  space : s.taskRing.hasSpace = true
  window : s'.taskRing.windowSize = s.taskRing.windowSize
  current : s'.taskRing.currentIndex = s.taskRing.currentIndex+1
  alive : s'.taskRing.lastTaskAlive = s.taskRing.lastTaskAlive
  heapRing : s'.heapRing = s.heapRing
  map : s'.tensorMap.lastTaskAlive = s.tensorMap.lastTaskAlive
  submitted : s'.tasksSubmitted = s.tasksSubmitted+1
  retired : s'.taskRetireCount = s.taskRetireCount
  heapEnd : ∀ t, (s'.get t).heapEnd =
    if s.taskRing.slot t = s.taskRing.slot s.taskRing.currentIndex then s.heapRing.top
    else (s.get t).heapEnd

theorem enterTask_extended {s s' : State} {k : String} {group : Option ℕ}
    {params : List LinquParam} {tid : ℤ} (he : s.enterTask k group params = .ok (tid,s')) :
    Extended s s' := by
  obtain ⟨⟨tid',a⟩,ha,he⟩ := bind_ok.mp he
  obtain ⟨⟨u,n⟩,hu,he⟩ := bind_ok.mp he
  obtain ⟨j,hj,he⟩ := bind_ok.mp he
  cases he
  have o := allocTask_opened ha (fun d => { d with
    kernelSo := k, taskId := tid, scopeDepth := a.scopeStack.depth.toNat,
    isGroup := group.isSome, groupSize := group.getD 0 })
  have hlink := still_linkParams params _ u 0 n hu
  have hfan : Still u (u.modify tid (fun d => { d with faninCount := n })) :=
    still_modify u tid fun _ => rfl
  have hst := (hlink.trans hfan).trans (still_joinScope hj)
  generalize a.modify tid _ = s₀ at o hst
  have hrest := o.rest
  refine ⟨o.space,hst.window.trans o.window,?_,hst.alive.trans o.alive,?_,?_,?_,?_,?_⟩
  · rw [← o.tid_eq, ← o.current]
    exact hst.current
  · show j.heapRing = s.heapRing
    rw [hst.heapRing, hrest]
  · show j.tensorMap.lastTaskAlive = _
    rw [hst.map, hrest]
  · show j.tasksSubmitted+1 = _
    rw [hst.submitted, hrest]
  · show j.taskRetireCount = _
    rw [hst.retired, hrest]
  · intro t
    show ((j.modify tid _).get t).heapEnd = _
    have hslot : j.taskRing.slot t = j.taskRing.slot tid ↔
        s.taskRing.slot t = s.taskRing.slot s.taskRing.currentIndex := by
      simp only [LinquTaskRing.slot, hst.window, o.window, o.tid_eq]
    rw [get_modify, if_congr hslot rfl rfl]
    split
    · show j.heapRing.top = _
      rw [hst.heapRing, hrest]
    · rename_i hne
      rw [hst.heapEnd, o.get, o.tid_eq, if_neg hne]

theorem Extended.windowed {s s' : State} (e : Extended s s') (h : s.taskRing.Windowed) :
    s'.taskRing.Windowed := by
  obtain ⟨h1,h2,h3,h4⟩ := h
  have hspace := s.taskRing.hasSpace_iff.mp e.space
  constructor
  · rw [e.window]
    exact h1
  · rw [e.alive]
    exact h2
  · rw [e.alive, e.current]
    omega
  · rw [e.alive, e.current, e.window]
    omega

theorem Ledger.extend {log : List ℕ} {s s' : State} (h : Ledger log s) (e : Extended s s') :
    Ledger (log++[s'.heapRing.top]) s' ∧
      (s'.get s.taskRing.currentIndex).heapEnd = s'.heapRing.top := by
  have hwin := e.windowed h.ring
  have h0 := h.ring.alive_nonneg
  have hle := h.ring.alive_le
  have hlen := h.length
  have hnew : (s'.get s.taskRing.currentIndex).heapEnd = s'.heapRing.top := by
    rw [e.heapEnd, if_pos rfl, e.heapRing]
  refine ⟨⟨?_,hwin,?_,?_,?_,?_,?_,?_,?_,?_⟩,hnew⟩
  · rw [e.map, e.alive]
    exact h.map
  · rw [e.current, List.length_append]
    push_cast
    simp [hlen]
  · apply List.pairwise_append.mpr
    refine ⟨h.sorted,List.pairwise_singleton _ _,?_⟩
    intro x hx y hy
    rw [List.mem_singleton.mp hy, e.heapRing]
    exact h.top x hx
  · intro x hx
    rcases List.mem_append.mp hx with hx | hx
    · rw [e.heapRing]
      exact h.top x hx
    · rw [List.mem_singleton.mp hx]
  · intro i hi
    have hcur := e.current
    have hi2 : (i : ℤ) < s.taskRing.currentIndex+1 := hcur ▸ hi.2
    by_cases heq : (i : ℤ) = s.taskRing.currentIndex
    · have hidx : i = log.length := by omega
      rw [heq, hnew, hidx, List.getElem?_append_right (le_refl _)]
      simp
    · have hold : s.taskRing.Live i := ⟨e.alive ▸ hi.1,by omega⟩
      have hlast : s'.taskRing.Live s.taskRing.currentIndex := ⟨by rw [e.alive]; exact hle,by omega⟩
      have hne : s.taskRing.slot i ≠ s.taskRing.slot s.taskRing.currentIndex := by
        intro hs
        apply heq
        apply LinquTaskRing.slot_injective hwin hi hlast
        rw [LinquTaskRing.slot, LinquTaskRing.slot, e.window]
        exact hs
      rw [e.heapEnd, if_neg hne, List.getElem?_append_left (by omega)]
      exact h.held i hold
  · rw [e.heapRing, e.alive, h.tail]
    unfold newestRetired
    split
    · rfl
    · rw [List.getD_append _ _ _ _ (by omega)]
  · rw [e.heapRing]
    exact h.room
  · rw [e.submitted, e.current]
    push_cast
    rw [h.submitted]
  · rw [e.retired, e.alive]
    exact h.retired

/-! Calls and runs. -/

theorem still_closeScope {s s' : State} (h : s.closeScope = .ok s') : Still s s' := by
  apply closeScope_rule (P := Still s) _ _ _ h
  · intro _ _
    exact ⟨rfl,rfl,rfl,rfl,rfl,rfl,rfl,fun _ => rfl⟩
  · intro u t hu
    exact hu.trans (still_modify u t fun _ => rfl)
  · intro u t hu
    exact hu.trans (still_check u t)

/-- A call that submits nothing. -/
theorem Ledger.keeps {log : List ℕ} {s s' : State} (h : Ledger log s) (h' : Ledger log s') :
    Ledger (logAfter log s s') s' := by
  have hcur := h.length.symm.trans h'.length
  rw [logAfter, if_neg (by omega)]
  exact h'

/-- A submission: the wait, the new task, and the completions at its end. -/
theorem Ledger.submits {log : List ℕ} {s m e s' : State} (h : Ledger log s) (hm : Ledger log m)
    (he : Extended m e) (hs : Still e s') : Ledger (logAfter log s s') s' := by
  obtain ⟨hext,hnew⟩ := hm.extend he
  have hcur : s.taskRing.currentIndex = m.taskRing.currentIndex :=
    h.length.symm.trans hm.length
  have hcur' : s'.taskRing.currentIndex = m.taskRing.currentIndex+1 :=
    hs.current.trans he.current
  rw [logAfter, if_pos (by omega), hcur, hs.heapEnd, hnew]
  exact hext.still hs

theorem exec_ledger {log : List ℕ} {s s' : State} {o : Op} (h : Ledger log s)
    (hs : exec s o = .ok s') : Ledger (logAfter log s s') s' := by
  cases o with
  | submitTask target k params arrivals =>
    obtain ⟨m,hm,hs⟩ := bind_ok.mp hs
    obtain ⟨⟨tid,e⟩,he,hs⟩ := bind_ok.mp hs
    exact h.submits (ledger_waitForSpace h hm) (enterTask_extended he) (still_launchTask hs)
  | submitTaskGroup k params subs arrivals dispatchArrivals =>
    obtain ⟨m,hm,hs⟩ := bind_ok.mp hs
    obtain ⟨⟨tid,e⟩,he,hs⟩ := bind_ok.mp hs
    exact h.submits (ledger_waitForSpace h hm) (enterTask_extended he) (still_launchGroup hs)
  | scopeBegin =>
    obtain ⟨st,-,hs⟩ := bind_ok.mp hs
    cases hs
    exact h.keeps (h.still ⟨rfl,rfl,rfl,rfl,rfl,rfl,rfl,fun _ => rfl⟩)
  | scopeEnd =>
    obtain ⟨m,hm,hs⟩ := bind_ok.mp hs
    cases hs
    exact h.keeps (h.still (still_closeScope hm)).advance
  | allocTensor size arrivals =>
    obtain ⟨b,hb,rfl⟩ := map_ok.mp hs
    exact h.keeps (ledger_allocTensor h hb)
  | freeTensor handle =>
    cases hs
    exact h.keeps (h.still ⟨rfl,rfl,rfl,rfl,rfl,rfl,rfl,fun _ => rfl⟩)
  | orchestrationDone =>
    cases hs
    exact h.keeps (h.still ⟨rfl,rfl,rfl,rfl,rfl,rfl,rfl,fun _ => rfl⟩)
  | onTaskComplete t => exact h.keeps (h.still (still_onTaskComplete hs))
  | onScopeRelease t =>
    cases hs
    exact h.keeps (h.still (still_check s t))
  | tryAdvanceRingPointers =>
    cases hs
    exact h.keeps h.advance

theorem Ledger.empty {s : State} (hw : 0 < s.taskRing.windowSize)
    (hcur : s.taskRing.currentIndex = 0) (halive : s.taskRing.lastTaskAlive = 0)
    (hmap : s.tensorMap.lastTaskAlive = 0) (htop : s.heapRing.top = 0)
    (htail : s.heapRing.tail = 0) (hsub : s.tasksSubmitted = 0) (hret : s.taskRetireCount = 0) :
    Ledger [] s := by
  refine ⟨?_,⟨hw,?_,?_,?_⟩,?_,List.Pairwise.nil,?_,?_,?_,?_,?_,?_⟩
  · rw [hmap, halive]
  · rw [halive]
  · rw [halive, hcur]
  · rw [halive, hcur]
    omega
  · rw [hcur]
    rfl
  · intro e he
    cases he
  · rintro i ⟨-,hi⟩
    omega
  · rw [htail, halive]
    rfl
  · rw [htop]
    exact Nat.zero_le _
  · rw [hsub, hcur]
    rfl
  · rw [hret, halive]
    rfl

theorem init_ledger {backend : Backend} {cfg : LinquOrchConfigInternal} {s : State}
    (h : init backend cfg = .ok s) : Ledger [] s := by
  obtain ⟨hw,hcur,halive,-⟩ := init_ring h
  obtain ⟨r,d,m,-,-,hm,rfl⟩ := init_spec h
  have hmap : m.lastTaskAlive = 0 := by
    unfold LinquTensorMap.init at hm
    split at hm
    · cases hm
      rfl
    · cases hm
  exact Ledger.empty hw hcur halive hmap rfl rfl rfl rfl

theorem api_ledger {log : List ℕ} {s s' : State} {c : ApiCall} (h : Ledger log s)
    (hs : ApiSteps s c s') : Ledger (recordEnd log s s' c) s' := by
  have hs := toOption_some.mp hs
  cases c with
  | op o => exact exec_ledger h hs
  | reset =>
    cases hs
    exact Ledger.empty h.ring.window_pos rfl rfl rfl rfl rfl rfl rfl
  | setBackend backend =>
    cases hs
    exact h.keeps (h.still ⟨rfl,rfl,rfl,rfl,rfl,rfl,rfl,fun _ => rfl⟩)

theorem run_ledger {calls : List ApiCall} {log : List ℕ} {s s' : State} (h : Ledger log s)
    (hr : Run ApiSteps calls s s') : Ledger (recorded calls s log) s' := by
  induction calls generalizing s log with
  | nil =>
    cases hr
    exact h
  | cons c calls ih =>
    obtain ⟨m,hm,hr⟩ := hr
    have hexec : (execApi s c).toOption = some m := hm
    rw [recorded, hexec]
    exact ih (api_ledger h hm) hr

/-- The bounds that the structures keep, against the recorded heap ends. -/
structure InStep (log : List ℕ) (s : State) : Prop where
  map : s.tensorMap.lastTaskAlive = s.taskRing.lastTaskAlive
  window : 0 ≤ s.taskRing.lastTaskAlive ∧ s.taskRing.lastTaskAlive ≤ s.taskRing.currentIndex ∧
    s.taskRing.currentIndex ≤ s.taskRing.lastTaskAlive+s.taskRing.windowSize
  ends : ∀ t u, s.taskRing.Live t → s.taskRing.Live u → t ≤ u →
    (s.get t).heapEnd ≤ (s.get u).heapEnd
  top : ∀ t, s.taskRing.Live t → (s.get t).heapEnd ≤ s.heapRing.top
  recorded : ∀ t, s.taskRing.Live t → log[t.toNat]? = some (s.get t).heapEnd
  tail : s.heapRing.tail = newestRetired log s.taskRing.lastTaskAlive
  room : s.heapRing.tail ≤ s.heapRing.top ∧
    s.heapRing.top-s.heapRing.tail ≤ s.heapRing.capacity
  counts : (s.tasksSubmitted : ℤ) = s.taskRing.currentIndex ∧
    (s.taskRetireCount : ℤ) = s.taskRing.lastTaskAlive
  advance : ∀ t, s.taskRing.Live t → (t < s.tryAdvanceRingPointers.taskRing.lastTaskAlive ↔
    ∀ u, s.taskRing.lastTaskAlive ≤ u → u ≤ t → (s.get u).status = .consumed)

theorem Ledger.inStep {log : List ℕ} {s : State} (h : Ledger log s) : InStep log s := by
  obtain ⟨-,h0,hle,hcur⟩ := h.ring
  have hheld : ∀ t, s.taskRing.Live t → log[t.toNat]? = some (s.get t).heapEnd := by
    intro t ht
    have hcast : ((t.toNat : ℕ) : ℤ) = t := Int.toNat_of_nonneg (h0.trans ht.1)
    have hl := h.held t.toNat (by rw [hcast]; exact ht)
    rw [hcast] at hl
    exact hl
  refine ⟨h.map,⟨h0,hle,hcur⟩,?_,?_,hheld,h.tail,⟨h.tail_le,?_⟩,⟨h.submitted,h.retired⟩,?_⟩
  · intro t u ht hu htu
    obtain ⟨hi,hti⟩ := List.getElem?_eq_some_iff.mp (hheld t ht)
    obtain ⟨hj,huj⟩ := List.getElem?_eq_some_iff.mp (hheld u hu)
    rcases htu.eq_or_lt with rfl | hlt
    · exact le_rfl
    · rw [← hti, ← huj]
      exact List.pairwise_iff_getElem.mp h.sorted _ _ hi hj (by
        have := ht.1
        omega)
  · intro t ht
    obtain ⟨hi,hti⟩ := List.getElem?_eq_some_iff.mp (hheld t ht)
    rw [← hti]
    exact h.top _ (List.getElem_mem hi)
  · have hroom := h.room
    omega
  · obtain ⟨h1,h2,h3,h4⟩ := cursor_spec hle
    obtain ⟨hring,-⟩ := advance_spec hle h.map
    have halive : s.tryAdvanceRingPointers.taskRing.lastTaskAlive = cursorOf s := by
      rw [hring]
      rfl
    intro t ht
    rw [halive]
    constructor
    · intro hlt u hu hut
      exact h3 u hu (by omega)
    · intro hall
      by_contra hge
      have hlt : cursorOf s < s.taskRing.currentIndex := by
        have := ht.2
        omega
      exact h4 hlt (hall _ h1 (by omega))

/-- In every state between calls, in runs of any calls, resets and completions
in any order, with any backend. -/
theorem rings_in_step {backend : Backend} {cfg : LinquOrchConfigInternal} {s₀ s : State}
    {calls : List ApiCall} (hinit : init backend cfg = .ok s₀)
    (hrun : Run ApiSteps calls s₀ s) : InStep (recorded calls s₀ []) s :=
  (run_ledger (init_ledger hinit) hrun).inStep

def smallHeap : LinquOrchConfigInternal := { taskRingWindow := 2, heapRingCapacity := 100 }

/-- Two tasks with a block each are retired; the third block skips the gap at
the end of the store. -/
def wrapAround : List ApiCall :=
  [.op .scopeBegin,.op (.allocTensor 40 []),.op (.submitTask {} none [] []),
    .op (.allocTensor 40 []),.op (.submitTask {} none [] []),.op .scopeEnd,
    .op (.allocTensor 30 [])]

theorem rings_in_step_wrapped : ∃ s₀ s, init .none smallHeap = .ok s₀ ∧
    Run ApiSteps wrapAround s₀ s ∧ InStep (recorded wrapAround s₀ []) s ∧
    s.heapRing.tail = 80 ∧ s.heapRing.top = 130 := by
  obtain ⟨s₀,s,h₀,hr,-,ht⟩ := exists_run (f := fun s c => (execApi s c).toOption)
    (g := fun _ _ => true) (l := wrapAround) (o := (init .none smallHeap).toOption)
    (c := fun s => decide (s.heapRing.tail = 80) && decide (s.heapRing.top = 130))
    (by decide +kernel)
  simp only [Bool.and_eq_true, decide_eq_true_eq] at ht
  have hinit := toOption_some.mp h₀
  exact ⟨s₀,s,hinit,hr,rings_in_step hinit hr,ht.1,ht.2⟩

end Linqu.RingsInStep
