import Linqu.Dispatchers
import Linqu.Transition

/-!
# Waiting for remote tasks

The sender of the remote dispatcher counts an id before its message is sent
and takes it back when the send fails; the receive thread takes one back for
every TASK_COMPLETE message. The critical sections come in any order. Nothing
ties a message to an id that is out, so that the count is right exactly as
long as the messages and the failures are.
-/

set_option autoImplicit false

namespace Linqu.WaitAll
open Linqu.Dispatchers Linqu.MsgTypes Linqu.Transition

/-- The dispatcher, with a record of what was called and received. -/
structure Session where
  dispatcher : RemoteDispatcher := {}
  dispatched : Finset Int32 := ∅
  sending : Finset Int32 := ∅
  failed : Finset Int32 := ∅
  reported : Finset Int32 := ∅

inductive Event where
  | enter (taskId : Int32)
  | leave (taskId : Int32) (ok : Bool)
  | recv (payload : List UInt8)

/-- The id in a TASK_COMPLETE message. One that is too short has none. -/
def carried (payload : List UInt8) : Option Int32 :=
  if payload.length < 8 then none else some (ntohl payload 0).toInt32

/-- The ids are distinct, and `send` returns once. Messages are arbitrary. -/
def step (s : Session) : Event → Option Session
  | .enter t =>
    if t ∈ s.dispatched then none else
      some { s with
        dispatcher := s.dispatcher.dispatchEnter t
        dispatched := insert t s.dispatched
        sending := insert t s.sending }
  | .leave t ok =>
    if t ∈ s.sending then
      some { s with
        dispatcher := (s.dispatcher.dispatchLeave t ok).2
        sending := s.sending.erase t
        failed := if ok then s.failed else insert t s.failed }
    else none
  | .recv payload =>
    some { s with
      dispatcher := (s.dispatcher.recvTaskComplete payload).2
      reported := (carried payload).elim s.reported fun t => insert t s.reported }

def Steps (s : Session) (e : Event) (t : Session) : Prop := step s e = some t

/-- The ids that were dispatched, did not fail and were not reported. -/
def out (s : Session) : Finset Int32 := (s.dispatched \ s.failed) \ s.reported

/-- The count is that of the ids that are out, and `wait_all` leaves none. -/
def Counted (s : Session) : Prop :=
  s.dispatcher.outstanding = (out s).card ∧ (s.dispatcher.waitAllReady = true → out s = ∅)

/-- A message carries an id that is out, and only such an id fails. -/
def Timely (s : Session) : Event → Prop
  | .enter _ => True
  | .leave t ok => ok = false → t ∈ s.sending → t ∉ s.reported
  | .recv payload => ∃ t ∈ out s, carried payload = some t

/-- What the record keeps as long as the count is right. -/
structure Ordered (s : Session) : Prop where
  sending : ∀ t ∈ s.sending, t ∈ s.dispatched ∧ t ∉ s.failed
  failed : s.failed ⊆ s.dispatched
  reported : s.reported ⊆ s.dispatched

theorem mem_out {s : Session} {t : Int32} :
    t ∈ out s ↔ t ∈ s.dispatched ∧ t ∉ s.failed ∧ t ∉ s.reported := by
  simp [out, and_assoc]

theorem counted_iff {s : Session} : Counted s ↔ s.dispatcher.outstanding = (out s).card := by
  constructor
  · intro h
    exact h.1
  · intro h
    apply And.intro h
    intro hready
    have hle : s.dispatcher.outstanding ≤ 0 := of_decide_eq_true hready
    apply Finset.card_eq_zero.mp
    omega

/-- An id that is out leaves a count of one less. -/
theorem card_erase {a : Finset Int32} {t : Int32} {n : ℤ} (hn : n = a.card) :
    n-1 = (a.erase t).card ↔ t ∈ a := by
  by_cases ht : t ∈ a
  · have hcard := Finset.card_erase_add_one ht
    simp only [ht, iff_true]
    omega
  · rw [Finset.erase_eq_of_notMem ht]
    simp only [ht, iff_false]
    omega

section Events

variable {s s' : Session} {t : Int32}

/-! What each event does. -/

theorem enter_iff : Steps s (.enter t) s' ↔ t ∉ s.dispatched ∧
    { s with
      dispatcher := s.dispatcher.dispatchEnter t
      dispatched := insert t s.dispatched
      sending := insert t s.sending } = s' := by
  by_cases ht : t ∈ s.dispatched <;> simp [Steps, step, ht]

theorem leave_iff {ok : Bool} : Steps s (.leave t ok) s' ↔ t ∈ s.sending ∧
    { s with
      dispatcher := (s.dispatcher.dispatchLeave t ok).2
      sending := s.sending.erase t
      failed := if ok then s.failed else insert t s.failed } = s' := by
  by_cases ht : t ∈ s.sending <;> simp [Steps, step, ht]

theorem recv_iff {payload : List UInt8} : Steps s (.recv payload) s' ↔
    { s with
      dispatcher := (s.dispatcher.recvTaskComplete payload).2
      reported := (carried payload).elim s.reported fun t => insert t s.reported } = s' := by
  simp [Steps, step]

theorem out_enter (h : Ordered s) (hs : Steps s (.enter t) s') : out s' = insert t (out s) := by
  obtain ⟨ht,rfl⟩ := enter_iff.mp hs
  ext u
  simp only [mem_out, Finset.mem_insert]
  constructor
  · rintro ⟨rfl | hu,hrest⟩
    · exact Or.inl rfl
    · exact Or.inr ⟨hu,hrest⟩
  · rintro (rfl | ⟨hu,hrest⟩)
    · exact ⟨Or.inl rfl,fun hf => ht (h.failed hf),fun hr => ht (h.reported hr)⟩
    · exact ⟨Or.inr hu,hrest⟩

theorem out_leave {ok : Bool} (hs : Steps s (.leave t ok) s') :
    out s' = if ok then out s else (out s).erase t := by
  obtain ⟨-,rfl⟩ := leave_iff.mp hs
  cases ok with
  | true => rfl
  | false =>
    ext u
    simp only [mem_out, Finset.mem_insert, Finset.mem_erase, Bool.false_eq_true, if_false]
    tauto

theorem out_recv {payload : List UInt8} (hs : Steps s (.recv payload) s') :
    out s' = (carried payload).elim (out s) fun t => (out s).erase t := by
  cases recv_iff.mp hs
  ext u
  cases carried payload with
  | none => simp only [mem_out, Option.elim]
  | some t =>
    simp only [mem_out, Option.elim, Finset.mem_insert, Finset.mem_erase]
    tauto

/-- Only a report of an id that is not out can spoil the record. -/
theorem Ordered.next {e : Event} (h : Ordered s) (he : Timely s e) (hs : Steps s e s') :
    Ordered s' := by
  cases e with
  | enter t =>
    obtain ⟨ht,rfl⟩ := enter_iff.mp hs
    constructor
    · intro u hu
      rcases Finset.mem_insert.mp hu with rfl | hu
      · exact ⟨Finset.mem_insert_self _ _,fun hf => ht (h.failed hf)⟩
      · exact ⟨Finset.mem_insert_of_mem (h.sending u hu).1,(h.sending u hu).2⟩
    · exact h.failed.trans (Finset.subset_insert _ _)
    · exact h.reported.trans (Finset.subset_insert _ _)
  | leave t ok =>
    obtain ⟨ht,rfl⟩ := leave_iff.mp hs
    constructor
    · intro u hu
      have ⟨hne,hmem⟩ := Finset.mem_erase.mp hu
      have ⟨hd,hf⟩ := h.sending u hmem
      cases ok with
      | true => exact ⟨hd,hf⟩
      | false => exact ⟨hd,fun hins => (Finset.mem_insert.mp hins).elim hne hf⟩
    · cases ok with
      | true => exact h.failed
      | false => exact Finset.insert_subset (h.sending t ht).1 h.failed
    · exact h.reported
  | recv payload =>
    obtain ⟨t,ht,hc⟩ := he
    cases recv_iff.mp hs
    rw [hc]
    exact ⟨h.sending,h.failed,Finset.insert_subset (mem_out.mp ht).1 h.reported⟩

/-- A step keeps the count right exactly when it is timely. -/
theorem counted_next {e : Event} (h : Ordered s) (hc : Counted s) (hs : Steps s e s') :
    Counted s' ↔ Timely s e := by
  have hn := counted_iff.mp hc
  rw [counted_iff]
  cases e with
  | enter t =>
    rw [out_enter h hs]
    obtain ⟨ht,rfl⟩ := enter_iff.mp hs
    have hnot : t ∉ out s := fun hmem => ht (mem_out.mp hmem).1
    rw [Finset.card_insert_of_notMem hnot]
    show s.dispatcher.outstanding+1 = _ ↔ True
    simp [hn]
  | leave t ok =>
    rw [out_leave hs]
    obtain ⟨ht,rfl⟩ := leave_iff.mp hs
    cases ok with
    | true =>
      show s.dispatcher.outstanding = _ ↔ _
      simp [Timely, hn]
    | false =>
      show s.dispatcher.outstanding-1 = _ ↔ _
      have ⟨hd,hf⟩ := h.sending t ht
      simp [card_erase hn, Timely, mem_out, ht, hd, hf]
  | recv payload =>
    rw [out_recv hs]
    cases recv_iff.mp hs
    show s.dispatcher.outstanding-1 = _ ↔ ∃ t ∈ out s, carried payload = some t
    cases carried payload with
    | none =>
      simp only [Option.elim, reduceCtorEq, and_false, exists_false, iff_false]
      omega
    | some t => simp [card_erase hn]

theorem timely_of_stuck {e : Event} (h : step s e = none) : Timely s e := by
  cases e with
  | enter t => trivial
  | leave t ok =>
    intro _ ht
    simp [step, ht] at h
  | recv payload => cases h

end Events

theorem ordered_start : Ordered {} where
  sending := by simp
  failed := by simp
  reported := by simp

theorem counted_start : Counted {} := counted_iff.mpr rfl

/-- For every sequence of calls, send outcomes and messages: the count is
right in every state exactly when every message carries an id that is out and
no id fails that a message has carried. -/
theorem counted_iff_timely (l : List Event) :
    Along Steps Counted l {} ↔ Guarded Steps Timely l {} := by
  have hboth : Along Steps Counted l {} ↔ Along Steps (fun s => Ordered s ∧ Counted s) l {} := by
    apply along_congr
    · exact ⟨fun h => ⟨ordered_start,h⟩,fun h => h.2⟩
    · rintro s e t ⟨h,hc⟩ hs
      exact ⟨fun ht => ⟨h.next ((counted_next h hc hs).mp ht) hs,ht⟩,fun ht => ht.2⟩
  rw [hboth]
  apply along_iff_guarded _ l ⟨ordered_start,counted_start⟩
  rintro s e ⟨h,hc⟩
  constructor
  · intro he t hs
    exact ⟨h.next he hs,(counted_next h hc hs).mpr he⟩
  · intro hall
    cases hs : step s e with
    | none => exact timely_of_stuck hs
    | some t => exact (counted_next h hc hs).mp (hall t hs).2

/-! Two tasks are sent. The first is reported twice, or there is a message
that is too short. -/

def twoSent : List Event := [.enter 1,.leave 1 true,.enter 2,.leave 2 true]

def twice : List Event := [.recv [0,0,0,1,0,0,0,0],.recv [0,0,0,1,0,0,0,0]]

def short : List Event := [.recv [0,0,0,1,0,0,0,0],.recv []]

theorem returns_early (l : List Event)
    (hl : ((some {}).bind (checkRun step (fun _ _ => true) l)).any
      (fun s => s.dispatcher.waitAllReady && decide (2 ∈ out s)) = true) :
    ∃ s, Run Steps l {} s ∧ s.dispatcher.waitAllReady = true ∧ 2 ∈ out s := by
  obtain ⟨s₀,s,h₀,hr,-,hs⟩ := exists_run hl
  cases h₀
  obtain ⟨hready,hout⟩ := Bool.and_eq_true_iff.mp hs
  exact ⟨s,hr,hready,of_decide_eq_true hout⟩

/-- `wait_all` returns although no message has carried the second id. -/
theorem wait_all_returns_early :
    (∃ s, Run Steps (twoSent++twice) {} s ∧ s.dispatcher.waitAllReady = true ∧ 2 ∈ out s) ∧
      ∃ s, Run Steps (twoSent++short) {} s ∧ s.dispatcher.waitAllReady = true ∧ 2 ∈ out s := by
  constructor
  · exact returns_early _ (by decide +kernel)
  · exact returns_early _ (by decide +kernel)

end Linqu.WaitAll
