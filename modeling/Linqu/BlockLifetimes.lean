import Linqu.HeapBlocks
import Linqu.RingsInStep

/-!
# How long a tensor keeps its block

`alloc_tensor` reserves a block before any task uses it, and the block is given
back when the task that is submitted next retires, whatever that task names.
`Usage` adds to the state the blocks reserved for the handles, with the id of
the task they are charged to, and the handles that each task names. A block
keeps its bytes while the task it is charged to is not retired; once that task
is retired the bytes are free, although a later task may still name the handle.
-/

set_option autoImplicit false

namespace Linqu.BlockLifetimes
open Linqu.TaskRing Linqu.HeapRing Linqu.CircularStore Linqu.HeapBlocks Linqu.Transition
open Linqu.Orchestrator Linqu.Orchestrator.LinquOrchestratorState Linqu.OrchestrationApi
open Linqu.OrchestratorRule Linqu.OrchestratorCalls Linqu.RingsInStep

/-- A block that `alloc_tensor` reserved for a handle; `charged` is the id of
the next task submitted, whose `heap_end` is the first to cover the block. -/
structure Reserved where
  handle : UInt64
  charged : ℤ
  span : Span
  deriving DecidableEq, Repr

structure Usage where
  state : State
  blocks : List Reserved
  named : List (ℤ × UInt64)

def Usage.init (s : State) : Usage := ⟨s,[],[]⟩

/-- The handles of the INPUT, OUTPUT and INOUT parameters of a list. -/
def handles (params : List LinquParam) : List UInt64 :=
  (params.filter (fun p => p.type ≠ .scalar)).map LinquParam.handle

/-- The handles that a call submits; those of a group include its sub-tasks'. -/
def namedBy : Op → List UInt64
  | .submitTask _ _ params _ => handles params
  | .submitTaskGroup _ params subs _ _ =>
      handles params++subs.flatMap (fun sub => handles sub.privateParams)
  | _ => []

/-- The block that a call reserves: it ends at the top after the call. -/
def reservedBy (s s' : State) : Op → List Reserved
  | .allocTensor size _ =>
      if size = 0 then []
      else [⟨s.nextTensorHandle,s'.taskRing.currentIndex,⟨s'.heapRing.top-size,size⟩⟩]
  | _ => []

def observe (u : Usage) (op : Op) : Except Fault Usage := do
  let s ← exec u.state op
  return { state := s, blocks := reservedBy u.state s op++u.blocks,
           named := (namedBy op).map (fun h => (u.state.taskRing.currentIndex,h))++u.named }

def Observes (u : Usage) (op : Op) (u' : Usage) : Prop := (observe u op).toOption = some u'

/-- An unretired task names the handle. -/
def Usage.InUse (u : Usage) (handle : UInt64) : Prop :=
  ∃ t, u.state.taskRing.lastTaskAlive ≤ t ∧ (t,handle) ∈ u.named

instance (u : Usage) (handle : UInt64) : Decidable (u.InUse handle) :=
  decidable_of_iff (∃ p ∈ u.named, u.state.taskRing.lastTaskAlive ≤ p.1 ∧ p.2 = handle)
    ⟨fun ⟨p,hp,ht,hh⟩ => ⟨p.1,ht,hh ▸ hp⟩,fun ⟨_,ht,hm⟩ => ⟨_,hm,ht,rfl⟩⟩

/-- The blocks of a handle in use share no byte with those reserved later. -/
def Apart (u : Usage) : Prop :=
  u.blocks.Pairwise (fun later earlier => u.InUse earlier.handle →
    Disjoint (later.span.cells u.state.heapRing.capacity)
      (earlier.span.cells u.state.heapRing.capacity))

instance (u : Usage) : Decidable (Apart u) := inferInstanceAs (Decidable (List.Pairwise _ _))

/-- No block of a handle in use is charged to a retired task. -/
def Kept (u : Usage) : Prop :=
  ∀ b ∈ u.blocks, u.InUse b.handle → u.state.taskRing.lastTaskAlive ≤ b.charged

instance (u : Usage) : Decidable (Kept u) := inferInstanceAs (Decidable (∀ b ∈ u.blocks, _))

/-! What a call does to the heap ring and to the recorded heap ends. -/

/-- Only the tail may have moved, and not backwards. -/
structure Onward (s s' : State) : Prop where
  capacity : s'.heapRing.capacity = s.heapRing.capacity
  top : s'.heapRing.top = s.heapRing.top
  tail : s.heapRing.tail ≤ s'.heapRing.tail

theorem Onward.refl (s : State) : Onward s s := ⟨rfl,rfl,le_rfl⟩

theorem Onward.trans {s m s' : State} (h : Onward s m) (h' : Onward m s') : Onward s s' :=
  ⟨h'.capacity.trans h.capacity,h'.top.trans h.top,h.tail.trans h'.tail⟩

theorem onward_of_eq {s s' : State} (h : s'.heapRing = s.heapRing) : Onward s s' := by
  constructor <;> rw [h]

theorem onward_advance {log : List ℕ} {s : State} (h : Ledger log s) :
    Onward s s.tryAdvanceRingPointers := by
  obtain ⟨-,-,-,-,hheap⟩ := advance_spec h.ring.alive_le h.map
  by_cases hand : s.taskRing.lastTaskAlive < cursorOf s ∧ 0 < cursorOf s ∧
      s.heapRing.tail < (s.get (cursorOf s-1)).heapEnd
  · rw [if_pos hand] at hheap
    constructor
    · rw [hheap]
      rfl
    · rw [hheap]
      rfl
    · rw [hheap]
      exact hand.2.2.le
  · rw [if_neg hand] at hheap
    exact onward_of_eq hheap

/-- What the wait loops keep. -/
def Waited (log : List ℕ) (s u : State) : Prop := Ledger log u ∧ Onward s u

theorem Waited.advance {log : List ℕ} {s u : State} (h : Waited log s u) :
    Waited log s u.tryAdvanceRingPointers :=
  ⟨h.1.advance,h.2.trans (onward_advance h.1)⟩

theorem Waited.still {log : List ℕ} {s u v : State} (h : Waited log s u) (hs : Still u v) :
    Waited log s v :=
  ⟨h.1.still hs,h.2.trans (onward_of_eq hs.heapRing)⟩

/-- The effect of a call, by what it does to the recorded heap ends. -/
inductive Booking (s s' : State) (log : List ℕ) : Op → List ℕ → Prop
  | keeps {op : Op} (none : reservedBy s s' op = []) (waited : Waited log s s') :
      Booking s s' log op log
  | submits {op : Op} (none : reservedBy s s' op = []) (onward : Onward s s')
      (ledger : Ledger (log++[s'.heapRing.top]) s') :
      Booking s s' log op (log++[s'.heapRing.top])
  | reserves {size pos : ℕ} {arrivals : List (List ℤ)} {u : State} (waited : Waited log s u)
      (ledger : Ledger log s') (alloc : u.heapRing.tryAlloc size = some (pos,s'.heapRing)) :
      Booking s s' log (.allocTensor size arrivals) log

theorem booking_submits {log : List ℕ} {s m e s' : State} {op : Op}
    (hm : Waited log s m) (he : Extended m e) (hs : Still e s') (hop : reservedBy s s' op = []) :
    Booking s s' log op (log++[s'.heapRing.top]) := by
  have hring : s'.heapRing = e.heapRing := hs.heapRing
  have hext := (hm.1.extend he).1
  rw [← hring] at hext
  exact .submits hop (hm.2.trans (onward_of_eq (hring.trans he.heapRing))) (hext.still hs)

theorem booking_allocTensor {log : List ℕ} {size : ℕ} {arrivals : List (List ℤ)} {s s' : State}
    {handle : UInt64} (h : Ledger log s) (hs : s.allocTensor size arrivals = .ok (handle,s')) :
    Booking s s' log (.allocTensor size arrivals) log := by
  have hledger := ledger_allocTensor h hs
  have h0 : Waited log s { s with nextTensorHandle := s.nextTensorHandle+1 } :=
    Waited.still ⟨h,Onward.refl s⟩ ⟨rfl,rfl,rfl,rfl,rfl,rfl,rfl,fun _ => rfl⟩
  unfold allocTensor at hs
  dsimp only at hs
  split at hs
  · rename_i hsize
    cases hs
    exact .keeps (by simp [reservedBy, hsize]) h0
  · obtain ⟨m,hm,hs⟩ := bind_ok.mp hs
    obtain ⟨u,pos,r,hu,hr,rfl⟩ := waitForHeap_keeps (J := Waited log s) (fun _ hu => hu.advance)
      (fun _ _ _ hu hv => hu.still (still_onTaskComplete hv))
      (fun _ _ hu => hu.still ⟨rfl,rfl,rfl,rfl,rfl,rfl,rfl,fun _ => rfl⟩) h0 hm
    cases hs
    exact .reserves hu hledger hr

theorem exec_booking {log : List ℕ} {s s' : State} {op : Op} (h : Ledger log s)
    (hs : exec s op = .ok s') : ∃ log', Booking s s' log op log' := by
  have h0 : Waited log s s := ⟨h,Onward.refl s⟩
  have hwait : ∀ {arrivals m}, s.waitForSpace arrivals = .ok m → Waited log s m := fun hm =>
    waitForSpace_keeps (J := Waited log s) (fun _ hu => hu.advance)
      (fun _ _ _ hu hv => hu.still (still_onTaskComplete hv))
      (fun _ _ hu => hu.still ⟨rfl,rfl,rfl,rfl,rfl,rfl,rfl,fun _ => rfl⟩) h0 hm
  cases op with
  | submitTask target k params arrivals =>
    obtain ⟨m,hm,hs⟩ := bind_ok.mp hs
    obtain ⟨⟨tid,e⟩,he,hs⟩ := bind_ok.mp hs
    exact ⟨_,booking_submits (hwait hm) (enterTask_extended he) (still_launchTask hs) rfl⟩
  | submitTaskGroup k params subs arrivals dispatchArrivals =>
    obtain ⟨m,hm,hs⟩ := bind_ok.mp hs
    obtain ⟨⟨tid,e⟩,he,hs⟩ := bind_ok.mp hs
    exact ⟨_,booking_submits (hwait hm) (enterTask_extended he) (still_launchGroup hs) rfl⟩
  | scopeBegin =>
    obtain ⟨st,-,hs⟩ := bind_ok.mp hs
    cases hs
    exact ⟨log,.keeps rfl (h0.still ⟨rfl,rfl,rfl,rfl,rfl,rfl,rfl,fun _ => rfl⟩)⟩
  | scopeEnd =>
    obtain ⟨m,hm,hs⟩ := bind_ok.mp hs
    cases hs
    exact ⟨log,.keeps rfl (h0.still (still_closeScope hm)).advance⟩
  | allocTensor size arrivals =>
    obtain ⟨b,hb,rfl⟩ := map_ok.mp hs
    exact ⟨log,booking_allocTensor h hb⟩
  | freeTensor handle =>
    cases hs
    exact ⟨log,.keeps rfl (h0.still ⟨rfl,rfl,rfl,rfl,rfl,rfl,rfl,fun _ => rfl⟩)⟩
  | orchestrationDone =>
    cases hs
    exact ⟨log,.keeps rfl (h0.still ⟨rfl,rfl,rfl,rfl,rfl,rfl,rfl,fun _ => rfl⟩)⟩
  | onTaskComplete t => exact ⟨log,.keeps rfl (h0.still (still_onTaskComplete hs))⟩
  | onScopeRelease t =>
    cases hs
    exact ⟨log,.keeps rfl (h0.still (still_check s t))⟩
  | tryAdvanceRingPointers =>
    cases hs
    exact ⟨log,.keeps rfl h0.advance⟩

/-! The blocks against the recorded heap ends. -/

/-- What was recorded before a block was reserved lies below it, what is
recorded since lies above it. -/
structure Charged (log : List ℕ) (current : ℤ) (b : Reserved) : Prop where
  nonneg : 0 ≤ b.charged
  le : b.charged ≤ current
  nonempty : 0 < b.span.size
  before : ∀ (i e : ℕ), (i : ℤ) < b.charged → log[i]? = some e → e ≤ b.span.start
  after : ∀ (i e : ℕ), b.charged ≤ i → log[i]? = some e → b.span.stop ≤ e

structure Booked (log : List ℕ) (u : Usage) : Prop where
  ledger : Ledger log u.state
  window : Window u.state.heapRing.capacity u.state.heapRing.tail u.state.heapRing.top
    (u.blocks.map Reserved.span)
  charged : ∀ b ∈ u.blocks, Charged log u.state.taskRing.currentIndex b

theorem init_booked {backend : Backend} {cfg : LinquOrchConfigInternal} {s : State}
    (h : init backend cfg = .ok s) : Booked [] (.init s) := by
  have hledger := init_ledger h
  refine ⟨hledger,?_,by simp [Usage.init]⟩
  obtain ⟨r,d,m,-,-,-,rfl⟩ := init_spec h
  exact Window.empty _

/-- A block is in front of the tail exactly while its task is not retired. -/
theorem Charged.tail_le {log : List ℕ} {s : State} {b : Reserved} (h : Ledger log s)
    (hb : Charged log s.taskRing.currentIndex b) :
    s.heapRing.tail ≤ b.span.start ↔ s.taskRing.lastTaskAlive ≤ b.charged := by
  have hsize := hb.nonempty
  have hneg := hb.nonneg
  have hle := h.ring.alive_le
  have hlen := h.length
  rw [h.tail, newestRetired]
  by_cases hzero : s.taskRing.lastTaskAlive ≤ 0
  · have h0 := h.ring.alive_nonneg
    rw [if_pos (by omega)]
    simp only [Nat.zero_le, true_iff]
    omega
  · obtain ⟨i,hi⟩ := Int.eq_ofNat_of_zero_le (show 0 ≤ s.taskRing.lastTaskAlive-1 by omega)
    have hlt : i < log.length := by omega
    have hget := List.getElem?_eq_getElem hlt
    have hbefore := hb.before i log[i]
    have hafter := hb.after i log[i]
    rw [if_neg (by omega), hi, Int.toNat_natCast, List.getD_eq_getElem _ _ hlt]
    by_cases hcharged : s.taskRing.lastTaskAlive ≤ b.charged
    · have hstart := hbefore (by omega) hget
      simp [hcharged, hstart]
    · have hstop := hafter (by omega) hget
      rw [Span.stop] at hstop
      simp only [hcharged, iff_false]
      omega

theorem Booked.apart {log : List ℕ} {u : Usage} (h : Booked log u) (hk : Kept u) : Apart u := by
  have hdis := h.window.disjoint
  rw [List.pairwise_map] at hdis
  apply hdis.imp_of_mem
  intro c b _ hb hcb huse
  exact hcb (((h.charged b hb).tail_le h.ledger).mpr (hk b hb huse))

/-! Calls and runs. -/

theorem Charged.append {log : List ℕ} {current current' : ℤ} {b : Reserved} {top : ℕ}
    (h : Charged log current b) (hcur : current ≤ current') (hlen : (log.length : ℤ) = current)
    (htop : b.span.stop ≤ top) : Charged (log++[top]) current' b := by
  have hle := h.le
  have hend : ∀ i e, (log++[top])[i]? = some e → log.length ≤ i → e = top := by
    intro i e hi hlt
    obtain ⟨hlt',rfl⟩ := List.getElem?_eq_some_iff.mp hi
    rw [List.length_append, List.length_singleton] at hlt'
    rw [List.getElem_append_right hlt]
    simp
  refine ⟨h.nonneg,hle.trans hcur,h.nonempty,?_,?_⟩
  · intro i e hi he
    rw [List.getElem?_append_left (by omega)] at he
    exact h.before i e hi he
  · intro i e hi he
    by_cases hlt : i < log.length
    · rw [List.getElem?_append_left hlt] at he
      exact h.after i e hi he
    · rw [hend i e he (by omega)]
      exact htop

theorem observe_spec {u u' : Usage} {op : Op} (h : Observes u op u') :
    exec u.state op = .ok u'.state ∧ u'.blocks = reservedBy u.state u'.state op++u.blocks ∧
      u'.named =
        (namedBy op).map (fun h => (u.state.taskRing.currentIndex,h))++u.named := by
  obtain ⟨s,hs,h⟩ := bind_ok.mp (toOption_some.mp h)
  cases h
  exact ⟨hs,rfl,rfl⟩

/-- The blocks that were there, after a call that moved the tail only. -/
theorem Booked.waited {log : List ℕ} {u : Usage} {s : State} (h : Booked log u)
    (hw : Waited log u.state s) :
    Window s.heapRing.capacity s.heapRing.tail s.heapRing.top (u.blocks.map Reserved.span) ∧
      ∀ b ∈ u.blocks, Charged log s.taskRing.currentIndex b := by
  obtain ⟨hl,ho⟩ := hw
  constructor
  · rw [ho.capacity, ho.top]
    apply h.window.retire ho.tail
    rw [← ho.top]
    exact hl.tail_le
  · rw [← hl.length, h.ledger.length]
    exact h.charged

theorem booked_reserves {log : List ℕ} {u : Usage} {m s : State} {size pos : ℕ} {b : Reserved}
    (h : Booked log u) (hw : Waited log u.state m) (hl : Ledger log s)
    (hr : m.heapRing.tryAlloc size = some (pos,s.heapRing))
    (hb : b.charged = s.taskRing.currentIndex) (hspan : b.span = ⟨s.heapRing.top-size,size⟩) :
    Window s.heapRing.capacity s.heapRing.tail s.heapRing.top
      ((b::u.blocks).map Reserved.span) ∧
      ∀ c ∈ b::u.blocks, Charged log s.taskRing.currentIndex c := by
  obtain ⟨hwin,hcharged⟩ := h.waited hw
  obtain ⟨hpos,-,-,-,hring⟩ := tryAlloc_some.mp hr
  have htop : s.heapRing.top = startOf m.heapRing size+size :=
    congrArg LinquHeapRing.top hring
  have hstart : b.span = ⟨startOf m.heapRing size,size⟩ := by
    rw [hspan, htop, Nat.add_sub_cancel]
  have hle : m.heapRing.top ≤ startOf m.heapRing size := top_le_startOf
  constructor
  · rw [List.map_cons, hstart]
    exact tryAlloc_push hwin hr
  · intro c hc
    rcases List.mem_cons.mp hc with rfl | hc
    · refine ⟨?_,hb.le,?_,?_,?_⟩
      · rw [hb]
        exact hl.ring.alive_nonneg.trans hl.ring.alive_le
      · rw [hspan]
        exact hpos
      · intro i e _ he
        rw [hstart]
        exact (hw.1.top e (List.mem_of_getElem? he)).trans hle
      · intro i e hi he
        have hlen := hl.length
        have hlt := (List.getElem?_eq_some_iff.mp he).1
        omega
    · rw [← hl.length, hw.1.length]
      exact hcharged c hc

theorem booked_step {log : List ℕ} {u u' : Usage} {op : Op} (h : Booked log u)
    (hs : Observes u op u') : ∃ log', Booked log' u' := by
  obtain ⟨hexec,hblocks,-⟩ := observe_spec hs
  obtain ⟨log',hbook⟩ := exec_booking h.ledger hexec
  cases hbook with
  | keeps hnone hw =>
    rw [hnone, List.nil_append] at hblocks
    obtain ⟨hwin,hcharged⟩ := h.waited hw
    exact ⟨log,hw.1,by rw [hblocks]; exact hwin,by rw [hblocks]; exact hcharged⟩
  | submits hnone ho hl =>
    rw [hnone, List.nil_append] at hblocks
    refine ⟨_,hl,?_,?_⟩
    · rw [hblocks, ho.capacity, ho.top]
      apply h.window.retire ho.tail
      rw [← ho.top]
      exact hl.tail_le
    · intro b hb
      rw [hblocks] at hb
      have hlen := hl.length
      rw [List.length_append, List.length_singleton, Nat.cast_add, h.ledger.length] at hlen
      apply (h.charged b hb).append _ h.ledger.length
      · rw [ho.top]
        exact h.window.below b.span (List.mem_map_of_mem hb)
      · omega
  | @reserves size pos arrivals m hw hl hr =>
    have hpos : size ≠ 0 := by
      have := (tryAlloc_some.mp hr).1
      omega
    simp only [reservedBy, if_neg hpos, List.singleton_append] at hblocks
    obtain ⟨hwin,hcharged⟩ := booked_reserves (b := ⟨u.state.nextTensorHandle,
      u'.state.taskRing.currentIndex,⟨u'.state.heapRing.top-size,size⟩⟩) h hw hl hr rfl rfl
    exact ⟨log,hl,by rw [hblocks]; exact hwin,by rw [hblocks]; exact hcharged⟩

/-! A block whose task has retired can be overwritten. -/

theorem take_byte {u : Usage} (hle : u.state.heapRing.tail ≤ u.state.heapRing.top)
    (hroom : u.state.heapRing.top < u.state.heapRing.tail+u.state.heapRing.capacity) :
    ∃ u' c, Observes u (.allocTensor 1 []) u' ∧ u'.state.taskRing = u.state.taskRing ∧
      u'.state.heapRing = { u.state.heapRing with top := u.state.heapRing.top+1 } ∧
      u'.named = u.named ∧ u'.blocks = c::u.blocks ∧ c.span = ⟨u.state.heapRing.top,1⟩ := by
  have hlt := Nat.mod_lt u.state.heapRing.top (show 0 < u.state.heapRing.capacity by omega)
  have hstart : startOf u.state.heapRing 1 = u.state.heapRing.top := by
    rw [startOf, if_pos (by omega)]
  have halloc : u.state.heapRing.tryAlloc 1 = some (u.state.heapRing.top % u.state.heapRing.capacity,
      { u.state.heapRing with top := u.state.heapRing.top+1 }) := by
    apply tryAlloc_some.mpr
    rw [hstart, available_eq hle]
    exact ⟨by omega,by omega,by omega,rfl,rfl⟩
  obtain ⟨s,hexec,hring,hheap⟩ : ∃ s, exec u.state (.allocTensor 1 []) = .ok s ∧
      s.taskRing = u.state.taskRing ∧
      s.heapRing = { u.state.heapRing with top := u.state.heapRing.top+1 } :=
    ⟨_,exec_allocTensor halloc one_ne_zero [],rfl,rfl⟩
  have hobs : observe u (.allocTensor 1 []) =
      .ok ⟨s,reservedBy u.state s (.allocTensor 1 [])++u.blocks,u.named⟩ := by
    rw [observe, hexec]
    rfl
  refine ⟨_,⟨_,_,⟨s.heapRing.top-1,1⟩⟩,toOption_some.mpr hobs,hring,hheap,rfl,rfl,?_⟩
  simp [hheap]

/-- One byte at a time, up to any counter within the window. -/
theorem take_bytes (n : ℕ) : ∀ u : Usage, u.state.heapRing.tail ≤ u.state.heapRing.top →
    u.state.heapRing.top+n < u.state.heapRing.tail+u.state.heapRing.capacity →
    ∃ ops u' c l, Run Observes ops u u' ∧ u'.state.taskRing = u.state.taskRing ∧
      u'.state.heapRing.capacity = u.state.heapRing.capacity ∧ u'.named = u.named ∧
      u'.blocks = c::(l++u.blocks) ∧ c.span = ⟨u.state.heapRing.top+n,1⟩ := by
  induction n with
  | zero =>
    intro u hle hroom
    obtain ⟨u',c,hs,hring,hheap,hnamed,hblocks,hspan⟩ := take_byte hle hroom
    exact ⟨[_],u',c,[],⟨u',hs,rfl⟩,hring,by rw [hheap],hnamed,hblocks,hspan⟩
  | succ n ih =>
    intro u hle hroom
    obtain ⟨v,b,hs,hring,hheap,hnamed,hblocks,-⟩ := take_byte hle (by omega)
    have hv : v.state.heapRing.tail ≤ v.state.heapRing.top ∧
        v.state.heapRing.top+n < v.state.heapRing.tail+v.state.heapRing.capacity := by
      rw [hheap]
      dsimp only
      omega
    obtain ⟨ops,u',c,l,hr,hring',hcap,hnamed',hblocks',hspan⟩ := ih v hv.1 hv.2
    refine ⟨_::ops,u',c,l++[b],⟨v,hs,hr⟩,hring'.trans hring,?_,hnamed'.trans hnamed,?_,?_⟩
    · rw [hcap, hheap]
    · rw [hblocks', hblocks]
      simp
    · rw [hspan, hheap, add_right_comm, add_assoc]

/-- The block of a handle in use whose task is retired can be reserved again. -/
theorem Booked.overwritten {log : List ℕ} {u : Usage} (h : Booked log u) {b : Reserved}
    (hb : b ∈ u.blocks) (huse : u.InUse b.handle)
    (hretired : b.charged < u.state.taskRing.lastTaskAlive)
    (hturn : u.state.heapRing.top ≤ b.span.start+u.state.heapRing.capacity) :
    ∃ ops u', Run Observes ops u u' ∧ ¬ Apart u' := by
  have hcharged := h.charged b hb
  have hfits := h.window.fits b.span (List.mem_map_of_mem hb)
  have hsize := hcharged.nonempty
  have hfree : b.span.start < u.state.heapRing.tail := by
    by_contra hge
    have := (hcharged.tail_le h.ledger).mp (by omega)
    omega
  obtain ⟨ops,u',c,l,hr,hring,hcap,hnamed,hblocks,hspan⟩ := take_bytes
    (b.span.start+u.state.heapRing.capacity-u.state.heapRing.top) u h.window.le (by omega)
  have hcounter : c.span = ⟨b.span.start+u.state.heapRing.capacity,1⟩ := by
    rw [hspan]
    congr 1
    omega
  refine ⟨ops,u',hr,fun hap => ?_⟩
  unfold Apart at hap
  rw [hblocks, List.pairwise_cons] at hap
  have huse' : u'.InUse b.handle := by
    obtain ⟨t,ht,hm⟩ := huse
    exact ⟨t,by rw [hring]; exact ht,by rw [hnamed]; exact hm⟩
  have hdis := hap.1 b (by simp [hb]) huse'
  rw [hcap, hcounter] at hdis
  -- the last byte taken is the first byte of the block, one turn later
  have hcell := hfits.cell (n := b.span.start) le_rfl (by rw [Span.stop]; omega)
  apply Finset.disjoint_left.mp hdis _ hcell
  rw [Span.mem_cells]
  simp

theorem run_booked {backend : Backend} {cfg : LinquOrchConfigInternal} {s₀ : State} {u : Usage}
    {ops : List Op} (hinit : init backend cfg = .ok s₀)
    (hrun : Run Observes ops (.init s₀) u) : ∃ log, Booked log u := by
  apply run_preserves (P := fun u => ∃ log, Booked log u) _ ⟨[],init_booked hinit⟩ hrun
  rintro u op u' ⟨log,h⟩ hs
  exact booked_step h hs

/-- While no block of a handle in use is charged to a retired task, the bytes of
a handle in use are not reserved again. A block charged to a retired task may
be, as soon as the top comes round to it. -/
theorem kept_blocks_apart {backend : Backend} {cfg : LinquOrchConfigInternal} {s₀ : State}
    {ops : List Op} (hinit : init backend cfg = .ok s₀) :
    (Along Observes Kept ops (.init s₀) → Along Observes Apart ops (.init s₀)) ∧
      ∀ u, Run Observes ops (.init s₀) u → ∀ b ∈ u.blocks, u.InUse b.handle →
        b.charged < u.state.taskRing.lastTaskAlive →
        u.state.heapRing.top ≤ b.span.start+u.state.heapRing.capacity →
        ∃ more u', Run Observes more u u' ∧ ¬ Apart u' := by
  constructor
  · apply along_imp (I := fun u => ∃ log, Booked log u) _ _ ops ⟨[],init_booked hinit⟩
    · rintro u op u' ⟨log,h⟩ hs
      exact booked_step h hs
    · rintro u ⟨log,h⟩ hk
      exact h.apart hk
  · intro u hrun b hb huse hretired hturn
    obtain ⟨log,h⟩ := run_booked hinit hrun
    exact h.overwritten hb huse hretired hturn

/-- The task that is submitted after the allocation uses the block. -/
def usedByNext : List Op :=
  [.scopeBegin,.allocTensor 60 [],.submitTask {} none [linquMakeOutput 1] [],.allocTensor 40 [],
    .onTaskComplete 0,.scopeEnd,.allocTensor 30 []]

theorem kept_blocks_apart_next : ∃ s₀, init .dispatcher smallHeap = .ok s₀ ∧
    Along Observes Apart usedByNext (.init s₀) := by
  have hcheck : ((init .dispatcher smallHeap).toOption).any (fun s =>
      checkAlong (fun u op => (observe u op).toOption) (fun u => decide (Kept u)) usedByNext
        (.init s)) = true := by decide +kernel
  obtain ⟨s₀,h₀,hc⟩ := (Option.any_eq_true _ _).mp hcheck
  have hkept := along_of_check hc
  simp only [decide_eq_true_eq] at hkept
  have hinit := toOption_some.mp h₀
  exact ⟨s₀,hinit,(kept_blocks_apart hinit).1 hkept⟩

/-- The task that is submitted after the allocation retires before the task
that reads the block. -/
def usedLater : List Op :=
  [.scopeBegin,.allocTensor 60 [],.submitTask {} none [] [],.onTaskComplete 0,.scopeEnd,
    .submitTask {} none [linquMakeInput 1] [],.allocTensor 40 [],.allocTensor 30 []]

/-- The third block covers the first 30 bytes of the first, which the running
task 1 reads. -/
theorem block_reserved_twice : ∃ s₀ u, init .dispatcher smallHeap = .ok s₀ ∧
    Run Observes usedLater (.init s₀) u ∧ u.InUse 1 ∧
    u.blocks.map (fun b => (b.handle,b.span)) = [(3,⟨100,30⟩),(2,⟨60,40⟩),(1,⟨0,60⟩)] ∧
    u.state.heapRing.capacity = 100 ∧ ¬ Apart u := by
  obtain ⟨u₀,u,h₀,hr,-,ht⟩ := exists_run (f := fun u op => (observe u op).toOption)
    (g := fun _ _ => true) (l := usedLater)
    (o := ((init .dispatcher smallHeap).toOption).map Usage.init)
    (c := fun u => decide (u.InUse 1) && decide (u.blocks.map (fun b => (b.handle,b.span)) =
        [(3,⟨100,30⟩),(2,⟨60,40⟩),(1,⟨0,60⟩)]) &&
      decide (u.state.heapRing.capacity = 100) && decide (¬ Apart u)) (by decide +kernel)
  obtain ⟨s₀,hs₀,rfl⟩ := Option.map_eq_some_iff.mp h₀
  simp only [Bool.and_eq_true, decide_eq_true_eq] at ht
  exact ⟨s₀,u,toOption_some.mp hs₀,hr,ht.1.1.1,ht.1.1.2,ht.1.2,ht.2⟩

end Linqu.BlockLifetimes
