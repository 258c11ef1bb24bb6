import Linqu.LevelRuntime
import Linqu.Transition

/-!
# The ready queue as a FIFO

`enqueue_ready` has no test for a full buffer. What bounds the queue is the
task ring: an id in the queue is one of a task that no worker has taken yet,
such a task is not consumed, and the ring keeps what is not consumed. So the
queued ids are distinct live ids, and these are no more than the window.

Between the calls of the queue tasks are allocated, workers finish the tasks
they have taken, finished tasks are consumed and the ring advances over
consumed ones.
-/

set_option autoImplicit false

namespace Linqu.ReadyFifo
open Linqu.TaskRing Linqu.ReadyQueue Linqu.Level Linqu.Transition

/-- The counters of the queue as they are stored. -/
structure ReadyQueue32 where
  buf : ℤ → ℤ
  capacity : Int32
  head : Int32
  tail : Int32

namespace ReadyQueue32

def init (capacity : Int32) : ReadyQueue32 := ⟨fun _ => -1,capacity,0,0⟩

def enqueueReady (q : ReadyQueue32) (taskId : ℤ) : ReadyQueue32 :=
  { q with buf := Function.update q.buf (q.tail % q.capacity).toInt taskId, tail := q.tail+1 }

def dequeueReady (q : ReadyQueue32) : ℤ × ReadyQueue32 :=
  if q.tail ≤ q.head then (-1,q)
  else (q.buf (q.head % q.capacity).toInt,{ q with head := q.head+1 })

def toQueue (q : ReadyQueue32) : Queue :=
  ⟨fun i => q.buf i,q.capacity.toInt.toNat,q.head.toInt.toNat,q.tail.toInt.toNat⟩

/-- The ids put in and not yet taken, oldest first. -/
def contents (q : ReadyQueue32) : List ℤ := q.toQueue.contents

/-- No more than `n` ids have been put in. -/
structure Counters (q : ReadyQueue32) (n : ℕ) : Prop where
  capacity_pos : 0 < q.capacity.toInt
  head_nonneg : 0 ≤ q.head.toInt
  head_le : q.head.toInt ≤ q.tail.toInt
  tail_le : q.tail.toInt ≤ n

variable {q : ReadyQueue32} {n : ℕ}

theorem Counters.mono (h : Counters q n) {m : ℕ} (hnm : n ≤ m) : Counters q m :=
  ⟨h.capacity_pos,h.head_nonneg,h.head_le,h.tail_le.trans (by exact_mod_cast hnm)⟩

theorem toInt_succ {i : Int32} {m : ℕ} (h0 : 0 ≤ i.toInt) (hi : i.toInt ≤ m) (hm : m+1 < 2^31) :
    (i+1).toInt = i.toInt+1 := by
  rw [Int32.toInt_add, Int32.toInt_one, Int.bmod_eq_of_le] <;> omega

theorem index_eq {i c : Int32} (hi : 0 ≤ i.toInt) (hc : 0 < c.toInt) :
    (i % c).toInt = ((i.toInt.toNat % c.toInt.toNat : ℕ):ℤ) := by
  rw [Int32.toInt_mod, Int.tmod_eq_emod_of_nonneg hi]
  push_cast
  rw [Int.toNat_of_nonneg hi, Int.toNat_of_nonneg hc.le]

theorem enqueue_toQueue (h : Counters q n) (hn : n+1 < 2^31) (taskId : ℤ) :
    (q.enqueueReady taskId).toQueue = q.toQueue.enqueueReady taskId ∧
      Counters (q.enqueueReady taskId) (n+1) := by
  have h1 := h.head_nonneg
  have h2 := h.head_le
  have h3 := h.tail_le
  have hsucc := toInt_succ (by omega : 0 ≤ q.tail.toInt) h3 hn
  have hindex := index_eq (by omega : 0 ≤ q.tail.toInt) h.capacity_pos
  constructor
  · simp only [toQueue, enqueueReady, Queue.enqueueReady, hsucc, hindex, Queue.mk.injEq, true_and]
    constructor
    · ext i
      by_cases hi : i = q.tail.toInt.toNat % q.capacity.toInt.toNat
      · simp [hi]
      · rw [Function.update_of_ne hi, Function.update_of_ne (by exact_mod_cast hi)]
    · omega
  · refine ⟨h.capacity_pos,h1,?_,?_⟩ <;> simp only [enqueueReady, hsucc]
    · omega
    · push_cast
      omega

theorem dequeue_empty (h : Counters q n) (hempty : q.contents = []) :
    q.dequeueReady = (-1,q) := by
  have hle : q.toQueue.head ≤ q.toQueue.tail := Int.toNat_le_toNat h.head_le
  have hnone := (dequeue_none_iff hle).mpr hempty
  have h1 := h.head_nonneg
  have h2 := h.head_le
  unfold Queue.dequeueReady at hnone
  split at hnone
  · rename_i htail
    have hle32 : q.tail ≤ q.head := by
      rw [Int32.le_iff_toInt_le]
      simp only [toQueue] at htail
      omega
    simp [dequeueReady, hle32]
  · cases hnone

theorem dequeue_first (h : Counters q n) (hn : n < 2^31) {t : ℤ} {l : List ℤ}
    (hl : q.contents = t::l) :
    ∃ q', q.dequeueReady = (t,q') ∧ q'.contents = l ∧ q'.capacity = q.capacity ∧
      Counters q' n := by
  have h1 := h.head_nonneg
  have h2 := h.head_le
  have h3 := h.tail_le
  have hlen : q.contents.length = q.tail.toInt.toNat-q.head.toInt.toNat := by
    simp [contents, Queue.contents, toQueue]
  have hlt : q.head.toInt < q.tail.toInt := by
    rw [hl, List.length_cons] at hlen
    omega
  have hsucc : (q.head+1).toInt = q.head.toInt+1 := by
    rw [Int32.toInt_add, Int32.toInt_one, Int.bmod_eq_of_le] <;> omega
  have hlt32 : ¬q.tail ≤ q.head := by
    rw [Int32.le_iff_toInt_le]
    omega
  have hcounters : Counters { q with head := q.head+1 } n := by
    refine ⟨h.capacity_pos,?_,?_,h3⟩ <;> simp only [hsucc] <;> omega
  have hqueue : q.toQueue.dequeueReady =
      some (q.buf (q.head % q.capacity).toInt,{ q with head := q.head+1 }.toQueue) := by
    rw [Queue.dequeueReady, if_neg (by simp only [toQueue]; omega), index_eq h1 h.capacity_pos]
    simp only [toQueue, hsucc, Option.some.injEq, Prod.mk.injEq, Queue.mk.injEq, true_and, and_true]
    omega
  have hcontents := contents_dequeue hqueue
  rw [contents] at hl
  obtain ⟨ht,hrest⟩ := List.cons.inj (hl.symm.trans hcontents)
  exact ⟨{ q with head := q.head+1 },by rw [dequeueReady, if_neg hlt32, ht],hrest.symm,rfl,hcounters⟩

end ReadyQueue32

/-- `put` are the ids put into the queue so far, `running` those that a worker
has taken and not finished. -/
structure State where
  ring : LinquTaskRing
  queue : ReadyQueue32
  running : List ℤ
  put : List ℤ

def start (cfg : LevelRuntimeConfig) : Option State :=
  (LinquTaskRing.init cfg.taskRingWindow).map
    (fun ring => ⟨ring,.init (Int32.ofNat cfg.readyQueueCapacity),[],[]⟩)

/-- The loop of `try_advance_ring_pointers`. -/
def consumedUpTo (r : LinquTaskRing) : ℕ → ℤ → ℤ
  | 0, cursor => cursor
  | n+1, cursor =>
    if cursor < r.currentIndex ∧ (r.get cursor).status = .consumed then
      consumedUpTo r n (cursor+1)
    else cursor

def advance (r : LinquTaskRing) : LinquTaskRing :=
  r.setLastTaskAlive (consumedUpTo r r.activeCount.toNat r.lastTaskAlive)

inductive Call where
  | alloc
  | enqueueReady (taskId : ℤ)
  | dequeueReady
  /-- A store of a status that says nothing about completion. -/
  | store (taskId : ℤ) (status : Status)
  /-- `on_task_complete` by the worker that has taken the task. -/
  | finish (taskId : ℤ)
  /-- `check_task_consumed`, once its counts are reached. -/
  | consume (taskId : ℤ)
  | advance
  deriving DecidableEq, Repr

def setStatus (r : LinquTaskRing) (taskId : ℤ) (v : Status) : LinquTaskRing :=
  r.modify taskId (fun d => { d with status := v })

def exec (s : State) : Call → Option State
  | .alloc => s.ring.tryAlloc.map (fun r => { s with ring := r.2 })
  | .enqueueReady t => some { s with queue := s.queue.enqueueReady t, put := s.put++[t] }
  | .dequeueReady =>
    let (t,queue) := s.queue.dequeueReady
    some { s with queue, running := if t < 0 then s.running else t::s.running }
  | .store t v => if v.isDone then none else some { s with ring := setStatus s.ring t v }
  | .finish t =>
    if t ∈ s.running then
      some { s with ring := setStatus s.ring t .completed, running := s.running.erase t }
    else none
  | .consume t =>
    if (s.ring.get t).status = .completed then
      some { s with ring := setStatus s.ring t .consumed }
    else some s
  | .advance => some { s with ring := advance s.ring }

def step (s : State) (c : Call) (t : State) : Prop := exec s c = some t

/-- An id is put in for an unretired task, and not a second time. -/
def Fresh (s : State) : Call → Prop
  | .enqueueReady t => s.ring.Live t ∧ t ∉ s.put
  | _ => True

def queueCalls : List Call → ℕ
  | [] => 0
  | .enqueueReady _::l => queueCalls l+1
  | .dequeueReady::l => queueCalls l+1
  | _::l => queueCalls l

def enqueued : List Call → List ℤ
  | [] => []
  | .enqueueReady t::l => t::enqueued l
  | _::l => enqueued l

/-- What the calls of `dequeue_ready` return. -/
def answers : List Call → State → List ℤ
  | [], _ => []
  | .dequeueReady::l, s =>
    s.queue.dequeueReady.1::((exec s .dequeueReady).map (answers l)).getD []
  | c::l, s => ((exec s c).map (answers l)).getD []

/-- What they return on an unbounded queue. -/
def fifoAnswers : List Call → List ℤ → List ℤ
  | [], _ => []
  | .enqueueReady t::l, q => fifoAnswers l (q++[t])
  | .dequeueReady::l, [] => -1::fifoAnswers l []
  | .dequeueReady::l, t::q => t::fifoAnswers l q
  | _::l, q => fifoAnswers l q

/-- Ids that wait for a worker or for the end of their work. -/
def waiting (s : State) : List ℤ := s.queue.contents++s.running

/-- Waiting ids are distinct, live and not done. -/
structure Sound (s : State) (n : ℕ) : Prop where
  windowed : s.ring.Windowed
  window : s.ring.windowSize ≤ s.queue.capacity.toInt
  counters : s.queue.Counters n
  nodup : (waiting s).Nodup
  live : ∀ t ∈ waiting s, s.ring.Live t
  open_ : ∀ t ∈ waiting s, (s.ring.get t).status.isDone = false
  put : ∀ t ∈ waiting s, t ∈ s.put
  done : ∀ t, s.ring.Live t → (s.ring.get t).status.isDone = true → t ∈ s.put

theorem consumedUpTo_spec (r : LinquTaskRing) (n : ℕ) (cursor : ℤ)
    (hle : cursor ≤ r.currentIndex) :
    cursor ≤ consumedUpTo r n cursor ∧ consumedUpTo r n cursor ≤ r.currentIndex ∧
      ∀ t, cursor ≤ t → t < consumedUpTo r n cursor → (r.get t).status = .consumed := by
  induction n generalizing cursor with
  | zero => exact ⟨le_rfl,hle,fun t h1 h2 => absurd h2 (by simp only [consumedUpTo]; omega)⟩
  | succ n ih =>
    by_cases h : cursor < r.currentIndex ∧ (r.get cursor).status = .consumed
    · rw [consumedUpTo, if_pos h]
      obtain ⟨h1,h2,h3⟩ := ih (cursor+1) (by omega)
      refine ⟨by omega,h2,fun t ht1 ht2 => ?_⟩
      by_cases ht : t = cursor
      · rw [ht]
        exact h.2
      · exact h3 t (by omega) ht2
    · rw [consumedUpTo, if_neg h]
      exact ⟨le_rfl,hle,fun t h1 h2 => absurd h2 (by omega)⟩

theorem get_setStatus (r : LinquTaskRing) (t u : ℤ) (v : Status) :
    ((setStatus r t v).get u).status = if r.slot u = r.slot t then v else (r.get u).status := by
  rw [setStatus, LinquTaskRing.get_modify]
  by_cases h : r.slot u = r.slot t <;> simp [h]

variable {s e : State} {n : ℕ} {t : ℤ}

theorem Sound.mono (h : Sound s n) {m : ℕ} (hnm : n ≤ m) : Sound s m :=
  { h with counters := h.counters.mono hnm }

/-- Distinct live ids are no more than the queue has room for. -/
theorem Sound.length_le (h : Sound s n) {l : List ℤ} (hn : l.Nodup)
    (hl : ∀ t ∈ l, s.ring.Live t) : l.length ≤ s.queue.capacity.toInt.toNat := by
  have hsub : l.toFinset ⊆ Finset.Ico s.ring.lastTaskAlive s.ring.currentIndex := by
    intro t ht
    have := hl t (List.mem_toFinset.mp ht)
    exact Finset.mem_Ico.mpr this
  have hcard := Finset.card_le_card hsub
  rw [List.toFinset_card_of_nodup hn, Int.card_Ico] at hcard
  have h1 := h.windowed.current_le
  have h2 := h.window
  omega

theorem Sound.alloc (h : Sound s n) {r : LinquTaskRing} (hr : s.ring.tryAlloc = some (t,r)) :
    Sound { s with ring := r } n := by
  obtain ⟨ht,hspace,hwin,hcur,halive,hget⟩ := LinquTaskRing.tryAlloc_spec hr
  rw [LinquTaskRing.hasSpace_iff] at hspace
  have hpos := h.windowed.window_pos
  have hnonneg := h.windowed.alive_nonneg
  have hle := h.windowed.alive_le
  have hwindowed : r.Windowed := by
    constructor <;> omega
  have hlive : ∀ u, s.ring.Live u → r.Live u := by
    intro u hu
    exact ⟨halive ▸ hu.1,by have := hu.2; omega⟩
  refine ⟨hwindowed,hwin ▸ h.window,h.counters,h.nodup,?_,?_,h.put,?_⟩
  · exact fun u hu => hlive u (h.live u hu)
  · intro u hu
    rw [hget]
    by_cases hslot : s.ring.slot u = s.ring.slot t
    · simp [hslot, Status.isDone]
    · simpa [hslot] using h.open_ u hu
  · intro u hu hdone
    rw [hget] at hdone
    by_cases hslot : s.ring.slot u = s.ring.slot t
    · simp [hslot, Status.isDone] at hdone
    · rw [if_neg hslot] at hdone
      have hne : u ≠ t := fun he => hslot (by rw [he])
      have hlt : u < r.currentIndex := hu.2
      exact h.done u ⟨halive ▸ hu.1,by omega⟩ hdone

theorem Sound.enqueue (h : Sound s n) (hn : n+1 < 2^31) (hlive : s.ring.Live t)
    (hfresh : t ∉ s.put) :
    Sound { s with queue := s.queue.enqueueReady t, put := s.put++[t] } (n+1) ∧
      (s.queue.enqueueReady t).contents = s.queue.contents++[t] := by
  have hnew : t ∉ waiting s := fun hm => hfresh (h.put t hm)
  have hqueued : t ∉ s.queue.contents := fun hm => hnew (List.mem_append_left _ hm)
  have hroom : s.queue.contents.length < s.queue.capacity.toInt.toNat := by
    have hlen := h.length_le (l := t::s.queue.contents)
      (List.nodup_cons.mpr ⟨hqueued,(List.nodup_append.mp h.nodup).1⟩)
      (fun u hu => by
        rcases List.mem_cons.mp hu with rfl | hu
        · exact hlive
        · exact h.live u (List.mem_append_left _ hu))
    simpa using hlen
  obtain ⟨hqueue,hcounters⟩ := ReadyQueue32.enqueue_toQueue h.counters hn t
  have hcontents : (s.queue.enqueueReady t).contents = s.queue.contents++[t] := by
    rw [ReadyQueue32.contents, hqueue]
    exact contents_enqueue (Int.toNat_le_toNat h.counters.head_le) hroom t
  have hperm : (waiting { s with queue := s.queue.enqueueReady t, put := s.put++[t] }).Perm
      (t::waiting s) := by
    simp only [waiting, hcontents, List.append_assoc, List.singleton_append]
    exact List.perm_middle
  have hnotDone : (s.ring.get t).status.isDone = false := by
    by_contra hdone
    exact hfresh (h.done t hlive (by simpa using hdone))
  refine ⟨⟨h.windowed,h.window,hcounters,?_,?_,?_,?_,?_⟩,hcontents⟩
  · exact hperm.nodup_iff.mpr (List.nodup_cons.mpr ⟨hnew,h.nodup⟩)
  · intro u hu
    rcases List.mem_cons.mp (hperm.mem_iff.mp hu) with rfl | hu
    · exact hlive
    · exact h.live u hu
  · intro u hu
    rcases List.mem_cons.mp (hperm.mem_iff.mp hu) with rfl | hu
    · exact hnotDone
    · exact h.open_ u hu
  · intro u hu
    rcases List.mem_cons.mp (hperm.mem_iff.mp hu) with rfl | hu
    · simp
    · simp [h.put u hu]
  · intro u hu hdone
    simp [h.done u hu hdone]

/-- What `dequeue_ready` returns and leaves. -/
theorem Sound.dequeue (h : Sound s n) (hn : n < 2^31) (he : step s .dequeueReady e) :
    Sound e n ∧ (s.queue.contents = [] ∧ s.queue.dequeueReady.1 = -1 ∧ e.queue.contents = [] ∨
      ∃ t l, s.queue.contents = t::l ∧ 0 ≤ t ∧ s.queue.dequeueReady.1 = t ∧
        e.queue.contents = l) := by
  cases hl : s.queue.contents with
  | nil =>
    have hq := ReadyQueue32.dequeue_empty h.counters hl
    simp only [step, exec, hq] at he
    cases he
    exact ⟨h,.inl ⟨rfl,by rw [hq],hl⟩⟩
  | cons t l =>
    obtain ⟨q',hq,hrest,hcap,hcounters⟩ := ReadyQueue32.dequeue_first h.counters hn hl
    have hwaiting : waiting s = t::(l++s.running) := by simp [waiting, hl]
    have hnonneg : 0 ≤ t :=
      h.windowed.alive_nonneg.trans (h.live t (by simp [hwaiting])).1
    have hneg : ¬t < 0 := by omega
    simp only [step, exec, hq, if_neg hneg] at he
    cases he
    have hperm : (waiting { s with queue := q', running := t::s.running }).Perm (waiting s) := by
      rw [hwaiting]
      simp only [waiting, hrest]
      exact List.perm_middle
    refine ⟨⟨h.windowed,hcap ▸ h.window,hcounters,hperm.nodup_iff.mpr h.nodup,?_,?_,?_,h.done⟩,
      .inr ⟨t,l,rfl,hnonneg,by rw [hq],hrest⟩⟩
    · exact fun u hu => h.live u (hperm.mem_iff.mp hu)
    · exact fun u hu => h.open_ u (hperm.mem_iff.mp hu)
    · exact fun u hu => h.put u (hperm.mem_iff.mp hu)

/-- A store in the slot of a waiting task must not complete it. -/
theorem Sound.setStatus (h : Sound s n) {v : Status} {running : List ℤ}
    (hsub : (s.queue.contents++running).Sublist (waiting s))
    (hopen : ∀ u ∈ s.queue.contents++running, s.ring.slot u = s.ring.slot t → v.isDone = false)
    (hdone : ∀ u, s.ring.Live u → s.ring.slot u = s.ring.slot t → v.isDone = true → u ∈ s.put) :
    Sound { s with ring := setStatus s.ring t v, running } n := by
  have hwaiting : ∀ u ∈ s.queue.contents++running, u ∈ waiting s := fun u hu => hsub.subset hu
  refine ⟨⟨h.windowed.window_pos,h.windowed.alive_nonneg,h.windowed.alive_le,
    h.windowed.current_le⟩,h.window,h.counters,h.nodup.sublist hsub,?_,?_,?_,?_⟩
  · exact fun u hu => h.live u (hwaiting u hu)
  · intro u hu
    rw [get_setStatus]
    by_cases hslot : s.ring.slot u = s.ring.slot t
    · simpa [hslot] using hopen u hu hslot
    · simpa [hslot] using h.open_ u (hwaiting u hu)
  · exact fun u hu => h.put u (hwaiting u hu)
  · intro u hu hd
    rw [get_setStatus] at hd
    by_cases hslot : s.ring.slot u = s.ring.slot t
    · exact hdone u hu hslot (by simpa [hslot] using hd)
    · exact h.done u hu (by simpa [hslot] using hd)

theorem Sound.advance (h : Sound s n) :
    Sound { s with ring := advance s.ring } n := by
  obtain ⟨h1,h2,h3⟩ := consumedUpTo_spec s.ring s.ring.activeCount.toNat s.ring.lastTaskAlive
    h.windowed.alive_le
  have hnonneg := h.windowed.alive_nonneg
  have hcurrent := h.windowed.current_le
  have hpos := h.windowed.window_pos
  refine ⟨⟨hpos,?_,h2,?_⟩,h.window,h.counters,h.nodup,?_,h.open_,h.put,?_⟩
  · exact hnonneg.trans h1
  · change s.ring.currentIndex ≤ consumedUpTo s.ring _ _+s.ring.windowSize
    omega
  · intro u hu
    have hlive := h.live u hu
    refine ⟨?_,hlive.2⟩
    by_contra hpassed
    have hconsumed := h3 u hlive.1 (not_le.mp hpassed)
    have hopen := h.open_ u hu
    rw [hconsumed] at hopen
    cases hopen
  · exact fun u hu hd => h.done u ⟨h1.trans hu.1,hu.2⟩ hd

theorem store_sound (h : Sound s n) {v : Status} (hv : v.isDone = false) :
    Sound { s with ring := setStatus s.ring t v } n := by
  apply h.setStatus (List.Sublist.refl _)
  · exact fun _ _ _ => hv
  · intro u _ _ hd
    rw [hv] at hd
    cases hd

/-- No other waiting task is in the slot of the one that ran. -/
theorem finish_sound (h : Sound s n) (hrun : t ∈ s.running) :
    Sound { s with ring := setStatus s.ring t .completed, running := s.running.erase t } n := by
  have hmem : t ∈ waiting s := List.mem_append_right _ hrun
  have hsame : ∀ u, s.ring.Live u → s.ring.slot u = s.ring.slot t → u = t :=
    fun u hu => LinquTaskRing.slot_injective h.windowed hu (h.live t hmem)
  have hsub : (s.queue.contents++s.running.erase t).Sublist (waiting s) :=
    List.Sublist.append_left List.erase_sublist _
  apply h.setStatus hsub
  · intro u hu hslot
    have heq := hsame u (h.live u (hsub.subset hu)) hslot
    subst heq
    have hparts := List.nodup_append.mp h.nodup
    rcases List.mem_append.mp hu with hu | hu
    · exact absurd rfl (hparts.2.2 u hu u hrun)
    · exact absurd hu hparts.2.1.not_mem_erase
  · intro u hu hslot _
    rw [hsame u hu hslot]
    exact h.put t hmem

theorem consume_sound (h : Sound s n) (hcompleted : (s.ring.get t).status = .completed) :
    Sound { s with ring := setStatus s.ring t .consumed } n := by
  have hstatus : ∀ u, s.ring.slot u = s.ring.slot t → (s.ring.get u).status = .completed := by
    intro u hslot
    rw [LinquTaskRing.get, hslot]
    exact hcompleted
  apply h.setStatus (List.Sublist.refl _)
  · intro u hu hslot
    have hopen := h.open_ u hu
    rw [hstatus u hslot] at hopen
    cases hopen
  · exact fun u hu hslot _ => h.done u hu (by rw [hstatus u hslot]; rfl)

def cost : Call → ℕ
  | .enqueueReady _ => 1
  | .dequeueReady => 1
  | _ => 0

/-- What a call does to the queued ids, and what it returns of them. -/
def Effect (s : State) : Call → State → Prop
  | .enqueueReady t, e => e.queue.contents = s.queue.contents++[t]
  | .dequeueReady, e =>
    s.queue.contents = [] ∧ s.queue.dequeueReady.1 = -1 ∧ e.queue.contents = [] ∨
      ∃ t l, s.queue.contents = t::l ∧ 0 ≤ t ∧ s.queue.dequeueReady.1 = t ∧
        e.queue.contents = l
  | _, e => e.queue.contents = s.queue.contents

theorem step_sound {c : Call} (h : Sound s n) (hn : n+cost c < 2^31) (hfresh : Fresh s c)
    (he : step s c e) : Sound e (n+cost c) ∧ Effect s c e := by
  cases c with
  | alloc =>
    obtain ⟨r,hr,rfl⟩ := Option.map_eq_some_iff.mp he
    exact ⟨h.alloc hr,rfl⟩
  | enqueueReady t =>
    cases he
    exact h.enqueue hn hfresh.1 hfresh.2
  | dequeueReady =>
    have hd := h.dequeue (by omega) he
    exact ⟨hd.1.mono (by omega),hd.2⟩
  | store t v =>
    simp only [step, exec] at he
    split at he
    · cases he
    · rename_i hv
      cases he
      exact ⟨store_sound h (by simpa using hv),rfl⟩
  | finish t =>
    simp only [step, exec] at he
    split at he
    · rename_i hrun
      cases he
      exact ⟨finish_sound h hrun,rfl⟩
    · cases he
  | consume t =>
    simp only [step, exec] at he
    split at he
    · rename_i hcompleted
      cases he
      exact ⟨consume_sound h hcompleted,rfl⟩
    · cases he
      exact ⟨h,rfl⟩
  | advance =>
    cases he
    exact ⟨h.advance,rfl⟩

theorem start_sound {cfg : LevelRuntimeConfig} (hcap : cfg.taskRingWindow ≤ cfg.readyQueueCapacity)
    (hcap32 : cfg.readyQueueCapacity < 2^31) (hs : start cfg = some s) :
    Sound s 0 ∧ s.queue.contents = [] := by
  obtain ⟨ring,hring,rfl⟩ := Option.map_eq_some_iff.mp hs
  obtain ⟨hpos,hwin,hcur,halive⟩ : 0 < cfg.taskRingWindow ∧ ring.windowSize = cfg.taskRingWindow ∧
      ring.currentIndex = 0 ∧ ring.lastTaskAlive = 0 := by
    unfold LinquTaskRing.init at hring
    split at hring
    · rename_i hws
      cases hring
      exact ⟨hws.1,rfl,rfl,rfl⟩
    · cases hring
  have hsize : (Int32.ofNat cfg.readyQueueCapacity).toInt = cfg.readyQueueCapacity :=
    Int32.toInt_ofNat_of_lt hcap32
  have hempty : (ReadyQueue32.init (Int32.ofNat cfg.readyQueueCapacity)).contents = [] := by
    simp [ReadyQueue32.contents, ReadyQueue32.toQueue, ReadyQueue32.init, Queue.contents]
  have hwait : waiting ⟨ring,.init (Int32.ofNat cfg.readyQueueCapacity),[],[]⟩ = [] := by
    simp [waiting, hempty]
  refine ⟨⟨?_,?_,?_,?_,?_,?_,?_,?_⟩,hempty⟩
  · constructor <;> simp only <;> omega
  · simp only [ReadyQueue32.init, hsize, hwin]
    exact_mod_cast hcap
  · refine ⟨?_,by simp [ReadyQueue32.init],by simp [ReadyQueue32.init],by simp [ReadyQueue32.init]⟩
    change 0 < (Int32.ofNat cfg.readyQueueCapacity).toInt
    rw [hsize]
    omega
  · rw [hwait]
    exact List.nodup_nil
  · simp [hwait]
  · simp [hwait]
  · simp [hwait]
  · intro t ht
    have h1 : ring.lastTaskAlive ≤ t := ht.1
    have h2 : t < ring.currentIndex := ht.2
    omega

theorem run_sound {calls : List Call} (h : Sound s n) (hn : n+queueCalls calls < 2^31)
    (hfresh : Guarded step Fresh calls s) (hr : Run step calls s e) :
    Sound e (n+queueCalls calls) ∧ answers calls s = fifoAnswers calls s.queue.contents ∧
      s.queue.contents++enqueued calls =
        (answers calls s).filter (fun t => decide (0 ≤ t))++e.queue.contents := by
  induction calls generalizing s n with
  | nil =>
    cases hr
    exact ⟨h,rfl,by simp [enqueued, answers]⟩
  | cons c calls ih =>
    obtain ⟨m,hm,hr⟩ := hr
    have hcost : queueCalls (c::calls) = cost c+queueCalls calls := by
      cases c <;> simp [queueCalls, cost, add_comm]
    rw [hcost, ← add_assoc] at hn ⊢
    have hexec : exec s c = some m := hm
    obtain ⟨hsound,heffect⟩ := step_sound h (by omega) hfresh.1 hm
    obtain ⟨h1,h2,h3⟩ := ih hsound hn (hfresh.2 m hm) hr
    refine ⟨h1,?_⟩
    cases c with
    | enqueueReady t =>
      simp only [Effect] at heffect
      rw [heffect] at h2 h3
      simp only [answers, fifoAnswers, enqueued, hexec, Option.map_some, Option.getD_some]
      exact ⟨h2,by simpa using h3⟩
    | dequeueReady =>
      simp only [answers, enqueued, hexec, Option.map_some, Option.getD_some]
      rcases heffect with ⟨hempty,hans,hleft⟩ | ⟨t,l,hl,hnonneg,hans,hleft⟩
      · rw [hleft] at h2 h3
        rw [hempty, hans]
        exact ⟨by simp [fifoAnswers, h2],by simpa using h3⟩
      · rw [hleft] at h2 h3
        rw [hl, hans]
        exact ⟨by simp [fifoAnswers, h2],by simp [hnonneg, h3]⟩
    | alloc | store _ _ | finish _ | consume _ | advance =>
      simp only [Effect] at heffect
      rw [heffect] at h2 h3
      simp only [answers, fifoAnswers, enqueued, hexec, Option.map_some, Option.getD_some]
      exact ⟨h2,h3⟩

theorem queueCalls_append (l l' : List Call) : queueCalls (l++l') = queueCalls l+queueCalls l' := by
  induction l with
  | nil => simp [queueCalls]
  | cons c l ih =>
    cases c <;> simp [queueCalls, ih] <;> omega

/-- `put` is the record of the ids put in. -/
theorem run_put {calls : List Call} (hr : Run step calls s e) : e.put = s.put++enqueued calls := by
  induction calls generalizing s with
  | nil =>
    cases hr
    simp [enqueued]
  | cons c calls ih =>
    obtain ⟨m,hm,hr⟩ := hr
    rw [ih hr]
    cases c with
    | alloc =>
      obtain ⟨r,-,rfl⟩ := Option.map_eq_some_iff.mp hm
      rfl
    | enqueueReady t =>
      cases hm
      simp [enqueued]
    | dequeueReady | advance =>
      cases hm
      rfl
    | store t v | finish t | consume t =>
      simp only [step, exec] at hm
      split at hm <;> cases hm <;> rfl

theorem run_put_nodup {calls : List Call} (hs : s.put.Nodup) (hfresh : Guarded step Fresh calls s)
    (hr : Run step calls s e) : e.put.Nodup := by
  refine run_invariant (P := fun s => s.put.Nodup) ?_ hs hfresh hr
  intro s c m hs hc hm
  cases c with
  | enqueueReady t =>
    cases hm
    exact List.nodup_append.mpr ⟨hs,by simp,fun u hu v hv he => hc.2 (by simp_all)⟩
  | alloc | dequeueReady | advance | store t v | finish t | consume t =>
    have hone : Run step [_] s m := ⟨m,hm,rfl⟩
    have hput := run_put hone
    simp only [enqueued, List.append_nil] at hput
    rwa [hput]

/-- Three tasks on a window and a queue of two: the third waits until the
first is finished, consumed and passed. -/
def threeTasks : List Call :=
  [.dequeueReady,.alloc,.enqueueReady 0,.alloc,.enqueueReady 1,.dequeueReady,.store 0 .running,
    .finish 0,.consume 0,.advance,.alloc,.enqueueReady 2,.dequeueReady,.dequeueReady]

instance (s : State) (c : Call) : Decidable (Fresh s c) := by
  cases c <;> simp only [Fresh] <;> infer_instance

end Linqu.ReadyFifo
