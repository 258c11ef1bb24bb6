import Linqu.LevelMoves
import Linqu.TensorMapNames

/-!
# Ids in the level runtime

Where the threads of the level runtime keep task ids, and how large these can
be. A producer is always submitted before its consumers, so no thread ever
releases, or marks as consumed, the task that was submitted last.
-/

set_option autoImplicit false

namespace Linqu.LevelLayout
open Linqu.TaskRing Linqu.DepPool Linqu.TensorMap Linqu.TensorMapNames Linqu.ReadyQueue
open Linqu.Level Linqu.Level.LevelRuntime Linqu.LevelMoves Linqu.Transition

/-- A descriptor that nothing has released. -/
structure Fresh (d : LinquTaskDescriptor) : Prop where
  notConsumed : d.status ≠ .consumed
  unreleased : d.atomicFanoutRefcount = 0
  token : 1 ≤ d.fanoutCount

def Newest (n tid : ℤ) : Prop := 0 ≤ tid ∧ tid+1 = n

def SubmitterIn (tm : LinquTensorMap) (n : ℤ) : SubmitPc → Prop
  | .idle => True
  | .waiting _ _ => True
  | .scanning tid _ _ _ ps => Newest n tid ∧ (∀ p ∈ ps, 0 ≤ p ∧ p < tid) ∧ Names tm tid
  | .registering tid _ _ ps => Newest n tid ∧ ∀ p ∈ ps, 0 ≤ p ∧ p < tid
  | .storingFanin tid _ ps => Newest n tid ∧ ∀ p ∈ ps, 0 ≤ p ∧ p < tid
  | .storingStatus tid _ ps => Newest n tid ∧ ∀ p ∈ ps, 0 ≤ p ∧ p < tid
  | .exposing tid _ ps => Newest n tid ∧ ∀ p ∈ ps, 0 ≤ p ∧ p < tid
  | .setting tid => Newest n tid
  | .enqueuing tid => Newest n tid

/-- Producers that are still to be released, which the last task is not. -/
def Earlier (n : ℤ) (ps : List ℤ) : Prop := ∀ p ∈ ps, 0 ≤ p ∧ p+1 < n

def WorkerIn (n : ℤ) : WorkerPc → Prop
  | .idle => True
  | .dequeued tid => 0 ≤ tid ∧ tid < n
  | .running tid => 0 ≤ tid ∧ tid < n
  | .returned tid => 0 ≤ tid ∧ tid < n
  | .completed tid => 0 ≤ tid ∧ tid < n
  | .releasing tid ps => (0 ≤ tid ∧ tid < n) ∧ Earlier n ps
  | .checking tid target more =>
    (0 ≤ tid ∧ tid < n) ∧ (0 ≤ target ∧ target < n) ∧ Earlier n (more.getD [])
  | .consuming tid target more =>
    (0 ≤ tid ∧ tid < n) ∧ (0 ≤ target ∧ target+1 < n) ∧ Earlier n (more.getD [])
  | .advancing tid _ more => (0 ≤ tid ∧ tid < n) ∧ Earlier n (more.getD [])

def SchedulerIn (n : ℤ) : SchedulePc → Prop
  | .waiting => True
  | .scanning i cur => 0 ≤ i ∧ cur ≤ n
  | .clearing i cur _ => 0 ≤ i ∧ i < cur ∧ cur ≤ n
  | .setting i cur _ => 0 ≤ i ∧ i < cur ∧ cur ≤ n
  | .enqueuing i cur => 0 ≤ i ∧ i < cur ∧ cur ≤ n

structure Laid (s : LevelRuntime) : Prop where
  windowed : s.taskRing.Windowed
  sorted : s.depPool.Sorted
  heads : ∀ t, s.depPool.Below (s.get t).depListHead ∧ s.depPool.Below (s.get t).fanoutListHead
  names : Names s.tensorMap s.taskRing.currentIndex
  fanin : ∀ t, Earlier s.taskRing.currentIndex (s.faninList t)
  fanout : ∀ t, ∀ c ∈ s.fanoutList t, 0 ≤ c ∧ c < s.taskRing.currentIndex
  last : 0 < s.taskRing.currentIndex → s.taskRing.lastTaskAlive < s.taskRing.currentIndex ∧
    Fresh (s.get (s.taskRing.currentIndex-1))
  queue : ∀ k, s.readyQueue.buf k < s.taskRing.currentIndex
  submitter : SubmitterIn s.tensorMap s.taskRing.currentIndex s.submitter
  workers : ∀ i, WorkerIn s.taskRing.currentIndex (s.workers i)
  schedulers : ∀ k, SchedulerIn s.taskRing.currentIndex (s.schedulers k)

/-- The task a worker is about to release, or to mark as consumed. -/
def written : WorkerPc → Option ℤ
  | .releasing _ (p::_) => some p
  | .consuming _ target _ => some target
  | _ => none

/-- Workers release, and mark as consumed, only ids that are still in the
window. -/
def WritesLive (s : LevelRuntime) : Act → Prop
  | .work i => ∀ p ∈ written (s.workers i), s.taskRing.lastTaskAlive ≤ p
  | _ => True

/-- The last task is not the one a worker is about to write to. -/
def WritesApart (s : LevelRuntime) : Act → Prop
  | .work i => ∀ p ∈ written (s.workers i), 0 ≤ p → p+1 < s.taskRing.currentIndex →
      s.taskRing.slot (s.taskRing.currentIndex-1) ≠ s.taskRing.slot p
  | _ => True

/-- An id that has been submitted. -/
def Known (s : LevelRuntime) (t : ℤ) : Prop := 0 ≤ t ∧ t < s.taskRing.currentIndex

theorem Earlier.mono {m n : ℤ} (hmn : m ≤ n) {ps : List ℤ} (h : Earlier m ps) : Earlier n ps := by
  intro p hp
  have := h p hp
  omega

theorem WorkerIn.mono {m n : ℤ} (hmn : m ≤ n) {pc : WorkerPc} (h : WorkerIn m pc) :
    WorkerIn n pc := by
  cases pc with
  | idle => trivial
  | dequeued tid => exact ⟨h.1,h.2.trans_le hmn⟩
  | running tid => exact ⟨h.1,h.2.trans_le hmn⟩
  | returned tid => exact ⟨h.1,h.2.trans_le hmn⟩
  | completed tid => exact ⟨h.1,h.2.trans_le hmn⟩
  | releasing tid ps => exact ⟨⟨h.1.1,h.1.2.trans_le hmn⟩,h.2.mono hmn⟩
  | checking tid target more =>
    exact ⟨⟨h.1.1,h.1.2.trans_le hmn⟩,⟨h.2.1.1,h.2.1.2.trans_le hmn⟩,h.2.2.mono hmn⟩
  | consuming tid target more =>
    exact ⟨⟨h.1.1,h.1.2.trans_le hmn⟩,⟨h.2.1.1,h.2.1.2.trans_le hmn⟩,h.2.2.mono hmn⟩
  | advancing tid target more => exact ⟨⟨h.1.1,h.1.2.trans_le hmn⟩,h.2.mono hmn⟩

theorem SchedulerIn.mono {m n : ℤ} (hmn : m ≤ n) {pc : SchedulePc} (h : SchedulerIn m pc) :
    SchedulerIn n pc := by
  cases pc with
  | waiting => trivial
  | scanning i cur => exact ⟨h.1,h.2.trans hmn⟩
  | clearing i cur count => exact ⟨h.1,h.2.1,h.2.2.trans hmn⟩
  | setting i cur count => exact ⟨h.1,h.2.1,h.2.2.trans hmn⟩
  | enqueuing i cur => exact ⟨h.1,h.2.1,h.2.2.trans hmn⟩

theorem get_modify (s : LevelRuntime) (t u : ℤ) (f : LinquTaskDescriptor → LinquTaskDescriptor) :
    (s.modify t f).get u =
      if s.taskRing.slot u = s.taskRing.slot t then f (s.get u) else s.get u :=
  s.taskRing.get_modify t u f

theorem resume_in {n tid : ℤ} {more : Option (List ℤ)} (ht : 0 ≤ tid ∧ tid < n)
    (h : Earlier n (more.getD [])) : WorkerIn n (resume tid more) := by
  cases more with
  | none => trivial
  | some ps => exact ⟨ht,h⟩

section Updates

variable {s s' : LevelRuntime} {t : ℤ}

theorem Laid.setSubmitter (h : Laid s) {pc : SubmitPc}
    (hpc : SubmitterIn s.tensorMap s.taskRing.currentIndex pc) : Laid (s.setSubmitter pc) :=
  { h with submitter := hpc }

theorem Laid.setWorker (h : Laid s) {i : ℕ} {pc : WorkerPc}
    (hpc : WorkerIn s.taskRing.currentIndex pc) : Laid (s.setWorker i pc) :=
  { h with
    workers := (Function.forall_update_iff s.workers (fun _ => WorkerIn _)).mpr
      ⟨hpc,fun j _ => h.workers j⟩ }

theorem Laid.setScheduler (h : Laid s) {k : ℕ} {pc : SchedulePc}
    (hpc : SchedulerIn s.taskRing.currentIndex pc) : Laid (s.setScheduler k pc) :=
  { h with
    schedulers := (Function.forall_update_iff s.schedulers (fun _ => SchedulerIn _)).mpr
      ⟨hpc,fun j _ => h.schedulers j⟩ }

/-- An update that leaves the chains alone, and leaves the last task fresh. -/
theorem Laid.modify (h : Laid s) {f : LinquTaskDescriptor → LinquTaskDescriptor}
    (hheads : ∀ d, (f d).depListHead = d.depListHead ∧ (f d).fanoutListHead = d.fanoutListHead)
    (hfresh : s.taskRing.slot (s.taskRing.currentIndex-1) = s.taskRing.slot t →
      ∀ d, Fresh d → Fresh (f d)) : Laid (s.modify t f) := by
  have hd : ∀ u, ((s.modify t f).get u).depListHead = (s.get u).depListHead ∧
      ((s.modify t f).get u).fanoutListHead = (s.get u).fanoutListHead := by
    intro u
    rw [get_modify]
    split
    · exact hheads _
    · exact ⟨rfl,rfl⟩
  have hw := h.windowed
  refine { h with
    windowed := ⟨hw.window_pos,hw.alive_nonneg,hw.alive_le,hw.current_le⟩
    heads := fun u => ?_, fanin := fun u => ?_, fanout := fun u => ?_, last := ?_ }
  · rw [(hd u).1, (hd u).2]
    exact h.heads u
  · rw [faninList, (hd u).1]
    exact h.fanin u
  · rw [fanoutList, (hd u).2]
    exact h.fanout u
  · intro h0
    obtain ⟨halive,hl⟩ := h.last h0
    refine ⟨halive,?_⟩
    change Fresh ((s.modify t f).get (s.taskRing.currentIndex-1))
    rw [get_modify]
    split
    · rename_i he
      exact hfresh he _ hl
    · exact hl

theorem Laid.setStatus (h : Laid s) (t : ℤ) {v : Status} (hv : v ≠ .consumed) :
    Laid (s.setStatus t v) :=
  h.modify (fun _ => ⟨rfl,rfl⟩) (fun _ _ hd => ⟨hv,hd.unreleased,hd.token⟩)

theorem Laid.raiseFanin (h : Laid s) (t : ℤ) (n : ℕ) : Laid (s.raiseFanin t n) :=
  h.modify (fun _ => ⟨rfl,rfl⟩) (fun _ _ hd => ⟨hd.notConsumed,hd.unreleased,hd.token⟩)

theorem Laid.storeFanin (h : Laid s) (t : ℤ) (n : ℕ) : Laid (s.storeFanin t n) :=
  h.modify (fun _ => ⟨rfl,rfl⟩) (fun _ _ hd => ⟨hd.notConsumed,hd.unreleased,hd.token⟩)

theorem Laid.raiseFanout (h : Laid s)
    (hne : s.taskRing.slot (s.taskRing.currentIndex-1) ≠ s.taskRing.slot t) :
    Laid (s.raiseFanout t) :=
  h.modify (fun _ => ⟨rfl,rfl⟩) (fun he => absurd he hne)

theorem Laid.consume (h : Laid s)
    (hne : s.taskRing.slot (s.taskRing.currentIndex-1) ≠ s.taskRing.slot t) :
    Laid (s.setStatus t .consumed) :=
  h.modify (fun _ => ⟨rfl,rfl⟩) (fun he => absurd he hne)

theorem Laid.enqueueReady (h : Laid s) (ht : t < s.taskRing.currentIndex) :
    Laid (s.enqueueReady t) := by
  refine { h with queue := fun k => ?_ }
  change Function.update s.readyQueue.buf _ t k < s.taskRing.currentIndex
  rw [Function.update_apply]
  split
  · exact ht
  · exact h.queue k

theorem Laid.wake (h : Laid s) (ht : t < s.taskRing.currentIndex) : Laid (s.wake t) := by
  unfold LevelRuntime.wake
  split
  · exact (h.setStatus t (by decide)).enqueueReady ht
  · exact h

theorem Laid.notifyConsumer (h : Laid s) (ht : t < s.taskRing.currentIndex) :
    Laid (s.notifyConsumer t) := by
  unfold LevelRuntime.notifyConsumer
  have hr := h.raiseFanin t 1
  dsimp only
  split
  · exact hr.wake ht
  · exact hr

theorem notifyConsumer_current (s : LevelRuntime) (c : ℤ) :
    (s.notifyConsumer c).taskRing.currentIndex = s.taskRing.currentIndex := by
  unfold LevelRuntime.notifyConsumer LevelRuntime.wake
  dsimp only
  split
  · split <;> rfl
  · rfl

theorem Laid.walkFanout (h : Laid s) (t : ℤ) : Laid (s.walkFanout t) ∧
    (s.walkFanout t).taskRing.currentIndex = s.taskRing.currentIndex := by
  have hwalk : Laid (s.recordWalk t) := { h with }
  -- the index does not move while the chain is walked
  have hfold := foldl_rule (f := LevelRuntime.notifyConsumer)
    (P := fun l u => (Laid u ∧ u.taskRing.currentIndex = s.taskRing.currentIndex) ∧
      ∀ c ∈ l, c < s.taskRing.currentIndex)
    (fun c l u ⟨⟨hu,hcur⟩,hl⟩ => by
      have hc := List.forall_mem_cons.mp hl
      exact ⟨⟨hu.notifyConsumer (hcur ▸ hc.1),(notifyConsumer_current u c).trans hcur⟩,hc.2⟩)
    (s.fanoutList t) (s := s.recordWalk t)
    ⟨⟨hwalk,rfl⟩,fun c hc => (h.fanout t c hc).2⟩
  exact hfold.1

/-- The walk changes descriptors and the queue, nothing else. -/
theorem walkFanout_frame (s : LevelRuntime) (t : ℤ) : ∃ ring queue enqueues,
    s.walkFanout t = { s with
      taskRing := ring, readyQueue := queue, enqueues := enqueues, walks := t::s.walks } ∧
    ring.windowSize = s.taskRing.windowSize ∧ ring.currentIndex = s.taskRing.currentIndex := by
  have hstep : ∀ (u : LevelRuntime) (c : ℤ), ∃ ring queue enqueues,
      u.notifyConsumer c = { u with
        taskRing := ring, readyQueue := queue, enqueues := enqueues } ∧
      ring.windowSize = u.taskRing.windowSize ∧ ring.currentIndex = u.taskRing.currentIndex := by
    intro u c
    unfold LevelRuntime.notifyConsumer LevelRuntime.wake
    dsimp only
    split
    · split
      · exact ⟨_,_,_,rfl,rfl,rfl⟩
      · exact ⟨_,_,_,rfl,rfl,rfl⟩
    · exact ⟨_,_,_,rfl,rfl,rfl⟩
  refine foldl_rule (f := LevelRuntime.notifyConsumer) (P := fun _ u => ∃ ring queue enqueues,
    u = { s with
      taskRing := ring, readyQueue := queue, enqueues := enqueues, walks := t::s.walks } ∧
    ring.windowSize = s.taskRing.windowSize ∧ ring.currentIndex = s.taskRing.currentIndex)
    (fun c l u hu => ?_) (s.fanoutList t) (s := s.recordWalk t) ⟨_,_,_,rfl,rfl,rfl⟩
  obtain ⟨ring,queue,enqueues,rfl,hw,hc⟩ := hu
  obtain ⟨ring',queue',enqueues',heq,hw',hc'⟩ := hstep { s with
    taskRing := ring, readyQueue := queue, enqueues := enqueues, walks := t::s.walks } c
  rw [heq]
  exact ⟨_,_,_,rfl,hw'.trans hw,hc'.trans hc⟩

theorem linkFanin_spec {p : ℤ} (h : s.linkFanin t p = some s') :
    ∃ idx pool, s.depPool.prepend (s.get t).depListHead p = some (idx,pool) ∧
      s' = { s with depPool := pool }.modify t (fun d => { d with depListHead := some idx }) := by
  obtain ⟨⟨idx,pool⟩,hp,h⟩ := Option.bind_eq_some_iff.mp h
  cases h
  exact ⟨idx,pool,hp,rfl⟩

theorem linkFanout_spec {c : ℤ} (h : s.linkFanout t c = some s') :
    ∃ idx pool, s.depPool.prepend (s.get t).fanoutListHead c = some (idx,pool) ∧
      s' = { s with depPool := pool }.modify t (fun d => { d with
        fanoutListHead := some idx, fanoutCount := d.fanoutCount+1 }) := by
  obtain ⟨⟨idx,pool⟩,hp,h⟩ := Option.bind_eq_some_iff.mp h
  cases h
  exact ⟨idx,pool,hp,rfl⟩

theorem get_eq_of_slot (s : LevelRuntime) {t u : ℤ}
    (h : s.taskRing.slot u = s.taskRing.slot t) : s.get u = s.get t := by
  rw [LevelRuntime.get, LevelRuntime.get, LinquTaskRing.get, h]
  rfl

theorem Laid.linkFanin_lists {p : ℤ} (h : Laid s) (hl : s.linkFanin t p = some s') (u : ℤ) :
    s'.faninList u = (if s.taskRing.slot u = s.taskRing.slot t then p::s.faninList u
      else s.faninList u) ∧ s'.fanoutList u = s.fanoutList u := by
  obtain ⟨idx,pool,hp,rfl⟩ := linkFanin_spec hl
  have hold := fun {o} (ho : s.depPool.Below o) =>
    LinquDepListPool.tasks_prepend_old h.sorted (h.heads t).1 ho hp
  simp only [faninList, fanoutList, get_modify]
  change pool.tasks _ = _ ∧ pool.tasks _ = _
  split
  · rename_i he
    refine ⟨?_,hold (h.heads u).2⟩
    rw [get_eq_of_slot s he]
    exact LinquDepListPool.tasks_prepend_new h.sorted (h.heads t).1 hp
  · exact ⟨hold (h.heads u).1,hold (h.heads u).2⟩

theorem Laid.linkFanout_lists {c : ℤ} (h : Laid s) (hl : s.linkFanout t c = some s') (u : ℤ) :
    s'.fanoutList u = (if s.taskRing.slot u = s.taskRing.slot t then c::s.fanoutList u
      else s.fanoutList u) ∧ s'.faninList u = s.faninList u := by
  obtain ⟨idx,pool,hp,rfl⟩ := linkFanout_spec hl
  have hold := fun {o} (ho : s.depPool.Below o) =>
    LinquDepListPool.tasks_prepend_old h.sorted (h.heads t).2 ho hp
  simp only [faninList, fanoutList, get_modify]
  change pool.tasks _ = _ ∧ pool.tasks _ = _
  split
  · rename_i he
    refine ⟨?_,hold (h.heads u).1⟩
    rw [get_eq_of_slot s he]
    exact LinquDepListPool.tasks_prepend_new h.sorted (h.heads t).2 hp
  · exact ⟨hold (h.heads u).2,hold (h.heads u).1⟩

theorem Laid.linkFanin {p : ℤ} (h : Laid s) (hp : 0 ≤ p ∧ p+1 < s.taskRing.currentIndex)
    (hl : s.linkFanin t p = some s') : Laid s' := by
  have hlists := h.linkFanin_lists hl
  obtain ⟨idx,pool,hpre,rfl⟩ := linkFanin_spec hl
  have hw := h.windowed
  have hb := fun {o} (ho : s.depPool.Below o) => LinquDepListPool.prepend_below ho hpre
  refine { h with
    windowed := ⟨hw.window_pos,hw.alive_nonneg,hw.alive_le,hw.current_le⟩
    sorted := LinquDepListPool.prepend_sorted h.sorted (h.heads t).1 hpre
    heads := fun u => ?_, fanin := fun u => ?_, fanout := fun u => ?_, last := fun h0 => ?_ }
  · rw [get_modify]
    split
    · exact ⟨(hb (h.heads t).1).2,(hb (h.heads u).2).1⟩
    · exact ⟨(hb (h.heads u).1).1,(hb (h.heads u).2).1⟩
  · rw [(hlists u).1]
    split
    · exact List.forall_mem_cons.mpr ⟨hp,h.fanin u⟩
    · exact h.fanin u
  · rw [(hlists u).2]
    exact h.fanout u
  · obtain ⟨halive,hl⟩ := h.last h0
    refine ⟨halive,?_⟩
    rw [get_modify]
    split
    · exact ⟨hl.notConsumed,hl.unreleased,hl.token⟩
    · exact hl

theorem Laid.linkFanout {c : ℤ} (h : Laid s) (hc : 0 ≤ c ∧ c < s.taskRing.currentIndex)
    (hl : s.linkFanout t c = some s') : Laid s' := by
  have hlists := h.linkFanout_lists hl
  obtain ⟨idx,pool,hpre,rfl⟩ := linkFanout_spec hl
  have hw := h.windowed
  have hb := fun {o} (ho : s.depPool.Below o) => LinquDepListPool.prepend_below ho hpre
  refine { h with
    windowed := ⟨hw.window_pos,hw.alive_nonneg,hw.alive_le,hw.current_le⟩
    sorted := LinquDepListPool.prepend_sorted h.sorted (h.heads t).2 hpre
    heads := fun u => ?_, fanin := fun u => ?_, fanout := fun u => ?_, last := fun h0 => ?_ }
  · rw [get_modify]
    split
    · exact ⟨(hb (h.heads u).1).1,(hb (h.heads t).2).2⟩
    · exact ⟨(hb (h.heads u).1).1,(hb (h.heads u).2).1⟩
  · rw [(hlists u).2]
    exact h.fanin u
  · rw [(hlists u).1]
    split
    · exact List.forall_mem_cons.mpr ⟨hc,h.fanout u⟩
    · exact h.fanout u
  · obtain ⟨halive,hl⟩ := h.last h0
    refine ⟨halive,?_⟩
    rw [get_modify]
    split
    · exact ⟨hl.notConsumed,hl.unreleased,Nat.le_add_left 1 _⟩
    · exact hl

theorem Laid.addConsumerToProducer {c : ℤ} (h : Laid s)
    (hc : 0 ≤ c ∧ c < s.taskRing.currentIndex)
    (hl : s.addConsumerToProducer t c = some s') : Laid s' := by
  obtain ⟨m,hm,hl⟩ := Option.bind_eq_some_iff.mp hl
  cases hl
  have hlink := h.linkFanout hc hm
  split
  · exact hlink.raiseFanin c 1
  · exact hlink

theorem addConsumer_frame {c : ℤ} (h : s.addConsumerToProducer t c = some s') :
    s'.tensorMap = s.tensorMap ∧ s'.taskRing.currentIndex = s.taskRing.currentIndex := by
  obtain ⟨m,hm,h⟩ := Option.bind_eq_some_iff.mp h
  obtain ⟨idx,pool,-,rfl⟩ := linkFanout_spec hm
  cases h
  split <;> exact ⟨rfl,rfl⟩

/-- What the allocation of a task does. -/
structure Allocates (s : LevelRuntime) (req : Request) (s' : LevelRuntime) : Prop where
  space : s.taskRing.hasSpace = true
  window : s'.taskRing.windowSize = s.taskRing.windowSize
  current : s'.taskRing.currentIndex = s.taskRing.currentIndex+1
  alive : s'.taskRing.lastTaskAlive = s.taskRing.lastTaskAlive
  get : ∀ u, s'.get u = if s.taskRing.slot u = s.taskRing.slot s.taskRing.currentIndex then
    { taskId := s.taskRing.currentIndex, kernelSo := req.name } else s.get u
  externalInputs : s'.externalInputs =
    Function.update s.externalInputs (s.taskRing.slot s.taskRing.currentIndex) []
  externalReady : s'.externalReady =
    Function.update s.externalReady (s.taskRing.slot s.taskRing.currentIndex) []
  depPool : s'.depPool = s.depPool
  tensorMap : s'.tensorMap = s.tensorMap
  readyQueue : s'.readyQueue = s.readyQueue
  schedCount : s'.schedCount = s.schedCount
  workerCount : s'.workerCount = s.workerCount
  workers : s'.workers = s.workers
  schedulers : s'.schedulers = s.schedulers
  walks : s'.walks = s.walks
  enqueues : s'.enqueues = s.enqueues
  submitter : s'.submitter = .scanning s.taskRing.currentIndex req.outputs req.inputs 0 []

theorem allocTask_spec {req : Request} (h : s.allocTask req = some s') : Allocates s req s' := by
  obtain ⟨⟨tid,r⟩,hr,h⟩ := Option.bind_eq_some_iff.mp h
  cases h
  obtain ⟨rfl,hspace,hws,hcur,halive,hget⟩ := LinquTaskRing.tryAlloc_spec hr
  have hslot : ∀ u, r.slot u = s.taskRing.slot u := fun u => by
    rw [LinquTaskRing.slot, LinquTaskRing.slot, hws]
  refine ⟨hspace,hws,hcur,halive,fun u => ?_,?_,?_,rfl,rfl,rfl,rfl,rfl,rfl,rfl,rfl,rfl,rfl⟩
  · change (r.modify s.taskRing.currentIndex (fun d =>
      { d with taskId := s.taskRing.currentIndex, kernelSo := req.name })).get u = _
    rw [LinquTaskRing.get_modify, hslot, hslot, hget]
    split <;> rfl
  · rw [← hslot]
    rfl
  · rw [← hslot]
    rfl

theorem allocBuffers_spec {outputs : List LinquTensor} (h : s.allocBuffers outputs = some s') :
    ∃ heap, s' = { s with heapRing := heap } := by
  unfold allocBuffers at h
  dsimp only at h
  split at h
  · obtain ⟨⟨ptr,heap⟩,-,h⟩ := Option.bind_eq_some_iff.mp h
    cases h
    exact ⟨heap,rfl⟩
  · cases h
    exact ⟨s.heapRing,rfl⟩

theorem registerTask_spec {outputs : List LinquTensor} (h : s.registerTask t outputs = some s') :
    ∃ tm scopes top, outputs.foldlM (fun tm out => LinquTensorMap.insert tm out.handle t true)
        s.tensorMap = some tm ∧
      s' = { s with tensorMap := tm, scopeStack := scopes }.modify t
        (fun d => { d with heapEnd := top }) := by
  obtain ⟨tm,htm,h⟩ := Option.bind_eq_some_iff.mp h
  obtain ⟨m,hm,h⟩ := Option.bind_eq_some_iff.mp h
  cases h
  unfold addToScope at hm
  split at hm
  · obtain ⟨scopes,-,hm⟩ := Option.bind_eq_some_iff.mp hm
    cases hm
    exact ⟨tm,scopes,s.heapRing.top,htm,rfl⟩
  · cases hm
    exact ⟨tm,s.scopeStack,s.heapRing.top,htm,rfl⟩

theorem consumedUpTo_ge (s : LevelRuntime) (n : ℕ) (cursor : ℤ) :
    cursor ≤ s.consumedUpTo n cursor := by
  induction n generalizing cursor with
  | zero => exact le_rfl
  | succ n ih =>
    rw [consumedUpTo]
    split
    · exact le_trans (by omega) (ih (cursor+1))
    · exact le_rfl

/-- The cursor stops at a task that is not consumed. -/
theorem consumedUpTo_le (s : LevelRuntime) (hstop : (s.get t).status ≠ .consumed) (n : ℕ)
    {cursor : ℤ} (hle : cursor ≤ t) : s.consumedUpTo n cursor ≤ t := by
  induction n generalizing cursor with
  | zero => exact hle
  | succ n ih =>
    rw [consumedUpTo]
    split
    · rename_i hc
      refine ih ?_
      rcases hle.lt_or_eq with hlt | rfl
      · exact hlt
      · exact absurd hc.2 hstop
    · exact hle

theorem tryAdvance_spec (s : LevelRuntime) : ∃ tm heap,
    tm.pool = s.tensorMap.pool ∧ s.tryAdvanceRingPointers = { s with
      taskRing := s.taskRing.setLastTaskAlive
        (s.consumedUpTo s.taskRing.activeCount.toNat s.taskRing.lastTaskAlive)
      tensorMap := tm
      heapRing := heap } := by
  have hge := consumedUpTo_ge s s.taskRing.activeCount.toNat s.taskRing.lastTaskAlive
  unfold tryAdvanceRingPointers
  dsimp only
  split
  · refine ⟨s.tensorMap.invalidateBelow (s.consumedUpTo s.taskRing.activeCount.toNat
      s.taskRing.lastTaskAlive),?_⟩
    split
    · exact ⟨_,rfl,rfl⟩
    · exact ⟨_,rfl,rfl⟩
  · rename_i hlt
    have heq : s.consumedUpTo s.taskRing.activeCount.toNat s.taskRing.lastTaskAlive =
        s.taskRing.lastTaskAlive := by omega
    refine ⟨s.tensorMap,s.heapRing,rfl,?_⟩
    rw [heq]
    rfl

theorem Laid.advance (h : Laid s) : Laid s.tryAdvanceRingPointers := by
  obtain ⟨tm,heap,htm,heq⟩ := tryAdvance_spec s
  have hw := h.windowed
  have hge := consumedUpTo_ge s s.taskRing.activeCount.toNat s.taskRing.lastTaskAlive
  have hle : s.consumedUpTo s.taskRing.activeCount.toNat s.taskRing.lastTaskAlive ≤
      s.taskRing.currentIndex := by
    by_cases h0 : 0 < s.taskRing.currentIndex
    · obtain ⟨halive,hl⟩ := h.last h0
      have := consumedUpTo_le s hl.notConsumed s.taskRing.activeCount.toNat
        (show s.taskRing.lastTaskAlive ≤ s.taskRing.currentIndex-1 by omega)
      omega
    · have := hw.alive_nonneg
      have := hw.alive_le
      have hz : s.taskRing.activeCount.toNat = 0 := by
        rw [LinquTaskRing.activeCount]
        omega
      rw [hz]
      exact hw.alive_le
  have hnames : ∀ n, Names s.tensorMap n → Names tm n := fun n hn i hi => by
    rw [htm] at hi ⊢
    exact hn i hi
  rw [heq]
  refine { h with
    windowed := ⟨hw.window_pos,hw.alive_nonneg.trans hge,hle,hw.current_le.trans (by
      change s.taskRing.lastTaskAlive+_ ≤ s.consumedUpTo _ _+_
      exact Int.add_le_add_right hge _)⟩
    names := hnames _ h.names
    last := fun h0 => ?_
    submitter := ?_ }
  · obtain ⟨halive,hl⟩ := h.last h0
    have := consumedUpTo_le s hl.notConsumed s.taskRing.activeCount.toNat
      (show s.taskRing.lastTaskAlive ≤ s.taskRing.currentIndex-1 by omega)
    exact ⟨show s.consumedUpTo _ _ < s.taskRing.currentIndex by omega,hl⟩
  · have hsub := h.submitter
    change SubmitterIn tm s.taskRing.currentIndex s.submitter
    revert hsub
    cases s.submitter with
    | scanning tid outputs inputs fanin ps => exact fun h => ⟨h.1,h.2.1,hnames _ h.2.2⟩
    | _ => exact id

theorem Laid.alloc {req : Request} (h : Laid s) (ha : Allocates s req s') : Laid s' := by
  have hw := h.windowed
  have hspace := (LinquTaskRing.hasSpace_iff _).mp ha.space
  have hcur := ha.current
  have hpos := hw.alive_nonneg.trans hw.alive_le
  have hlists : ∀ u, (∀ p ∈ s'.faninList u, p ∈ s.faninList u) ∧
      ∀ c ∈ s'.fanoutList u, c ∈ s.fanoutList u := by
    intro u
    simp only [faninList, fanoutList, ha.depPool, ha.get]
    split
    · simp
    · exact ⟨fun _ => id,fun _ => id⟩
  constructor
  case windowed =>
    have := hw.alive_le
    exact ⟨ha.window ▸ hw.window_pos,ha.alive ▸ hw.alive_nonneg,by rw [ha.alive]; omega,
      by rw [ha.alive, ha.window]; omega⟩
  case sorted => exact ha.depPool ▸ h.sorted
  case heads =>
    intro u
    rw [ha.depPool, ha.get]
    split
    · exact ⟨fun i hi => (by cases hi),fun i hi => (by cases hi)⟩
    · exact h.heads u
  case names =>
    intro i hi
    rw [ha.tensorMap] at hi ⊢
    have := h.names i hi
    omega
  case fanin =>
    intro u p hp
    have := h.fanin u p ((hlists u).1 p hp)
    omega
  case fanout =>
    intro u c hc
    have := h.fanout u c ((hlists u).2 c hc)
    omega
  case last =>
    intro _
    refine ⟨by have := hw.alive_le; rw [ha.alive]; omega,?_⟩
    rw [hcur, add_sub_cancel_right, ha.get, if_pos rfl]
    exact ⟨fun he => (by cases he),rfl,le_rfl⟩
  case queue =>
    intro k
    have := h.queue k
    rw [ha.readyQueue]
    omega
  case submitter =>
    rw [ha.submitter, ha.tensorMap]
    exact ⟨⟨hpos,hcur.symm⟩,by simp,h.names⟩
  case workers =>
    intro i
    rw [ha.workers]
    exact (h.workers i).mono (by omega)
  case schedulers =>
    intro k
    rw [ha.schedulers]
    exact (h.schedulers k).mono (by omega)

theorem inserts_names {n : ℤ} (ht : t < n) {outputs : List LinquTensor} {tm tm' : LinquTensorMap}
    (hn : Names tm n) (h : outputs.foldlM (fun tm out =>
      LinquTensorMap.insert tm out.handle t true) tm = some tm') : Names tm' n := by
  induction outputs generalizing tm with
  | nil => cases h; exact hn
  | cons out outputs ih =>
    rw [List.foldlM_cons] at h
    obtain ⟨m,hm,h⟩ := Option.bind_eq_some_iff.mp h
    exact ih (insert_names hn ht hm).1 h

theorem Laid.register {outputs : List LinquTensor} {fanin : ℕ} {ps : List ℤ} (h : Laid s)
    (hpc : s.submitter = .registering t outputs fanin ps)
    (hr : s.registerTask t outputs = some s') : Laid s' := by
  obtain ⟨tm,scopes,top,htm,rfl⟩ := registerTask_spec hr
  have hsub := h.submitter
  rw [hpc] at hsub
  have ht : t < s.taskRing.currentIndex := by
    have := hsub.1.2
    omega
  have hmap : Laid { s with tensorMap := tm, scopeStack := scopes } := { h with
    names := inserts_names ht h.names htm
    submitter := by
      change SubmitterIn tm s.taskRing.currentIndex s.submitter
      rw [hpc]
      exact hsub }
  exact hmap.modify (fun _ => ⟨rfl,rfl⟩) (fun _ _ hd => ⟨hd.notConsumed,hd.unreleased,hd.token⟩)

end Updates

variable {s s' : LevelRuntime} {a : Act}

theorem laid_submit (h : Laid s) (hm : Move s .submit s') : Laid s' := by
  have hsub := h.submitter
  cases hm with
  | alloc _ ha => exact h.alloc (allocTask_spec ha)
  | advance _ => exact h.advance
  | spin _ => exact h.advance.setSubmitter trivial
  | link hpc hlook hl =>
    rw [hpc] at hsub
    obtain ⟨hcur,hps,hnames⟩ := hsub
    have hp := lookup_bounds hnames hlook
    refine (h.linkFanin ⟨hp.1,by have := hcur.2; omega⟩ hl).setSubmitter ?_
    obtain ⟨idx,pool,-,rfl⟩ := linkFanin_spec hl
    refine ⟨hcur,?_,hnames⟩
    rw [List.forall_mem_append]
    exact ⟨hps,List.forall_mem_singleton.mpr ⟨hp.1,hp.2.2⟩⟩
  | push hpc _ _ _ =>
    rw [hpc] at hsub
    exact Laid.setSubmitter (s := s.pushExternal _ _) { h with } hsub
  | skip hpc =>
    rw [hpc] at hsub
    exact h.setSubmitter hsub
  | buffers hpc hb =>
    rw [hpc] at hsub
    obtain ⟨heap,rfl⟩ := allocBuffers_spec hb
    exact Laid.setSubmitter (s := { s with heapRing := heap }) { h with } ⟨hsub.1,hsub.2.1⟩
  | register hpc hr =>
    rw [hpc] at hsub
    refine (h.register hpc hr).setSubmitter ?_
    obtain ⟨tm,scopes,top,-,rfl⟩ := registerTask_spec hr
    exact hsub
  | storeFanin hpc =>
    rw [hpc] at hsub
    exact (h.storeFanin _ _).setSubmitter hsub
  | storeReady hpc =>
    rw [hpc] at hsub
    exact (h.setStatus _ (by decide)).setSubmitter hsub.1
  | storePending hpc _ =>
    rw [hpc] at hsub
    exact (h.setStatus _ (by decide)).setSubmitter hsub
  | expose hpc he =>
    rw [hpc] at hsub
    have hps := List.forall_mem_cons.mp hsub.2
    have hlt := hsub.1.2
    refine (h.addConsumerToProducer ⟨hsub.1.1,by omega⟩ he).setSubmitter ?_
    obtain ⟨htm,hcur⟩ := addConsumer_frame he
    rw [htm, hcur]
    exact ⟨hsub.1,hps.2⟩
  | satisfied hpc _ =>
    rw [hpc] at hsub
    exact h.setSubmitter hsub.1
  | unsatisfied _ _ => exact h.setSubmitter trivial
  | claim hpc _ =>
    rw [hpc] at hsub
    exact (h.setStatus _ (by decide)).setSubmitter hsub
  | lost _ _ => exact h.setSubmitter trivial
  | enqueue hpc =>
    rw [hpc] at hsub
    have hlt := hsub.2
    exact (h.enqueueReady (by omega)).setSubmitter trivial

theorem laid_work {w : ℕ} (h : Laid s) (hapart : WritesApart s (.work w))
    (hm : Move s (.work w) s') : Laid s' := by
  have hw := h.workers w
  cases hm with
  | dequeueNone hpc hq _ =>
    obtain ⟨-,rfl⟩ := dequeueReady_spec hq
    exact { h with }
  | dequeue hpc hq hpos _ =>
    obtain ⟨rfl,rfl⟩ := dequeueReady_spec hq
    have hlaid : Laid { s with readyQueue := { s.readyQueue with head := s.readyQueue.head+1 } } :=
      { h with }
    refine hlaid.setWorker ?_
    exact ⟨hpos,h.queue _⟩
  | start hpc =>
    rw [hpc] at hw
    exact (h.setStatus _ (by decide)).setWorker hw
  | ran hpc =>
    rw [hpc] at hw
    exact Laid.setWorker (s := s.markOutputs _) { h with } hw
  | complete hpc =>
    rw [hpc] at hw
    exact (h.setStatus _ (by decide)).setWorker hw
  | walk hpc =>
    rw [hpc] at hw
    obtain ⟨hl,hcur⟩ := h.walkFanout _
    exact hl.setWorker ⟨hcur.symm ▸ hw,hl.fanin _⟩
  | release hpc =>
    rw [hpc] at hw
    rw [WritesApart, hpc] at hapart
    obtain ⟨ht,hps⟩ := hw
    have hp := List.forall_mem_cons.mp hps
    exact (h.raiseFanout (hapart _ rfl hp.1.1 hp.1.2)).setWorker ⟨ht,⟨hp.1.1,by
      change _ < s.taskRing.currentIndex
      omega⟩,hp.2⟩
  | released hpc =>
    rw [hpc] at hw
    exact h.setWorker ⟨hw.1,hw.1,hw.2⟩
  | @consumable _ _ target _ hpc hdone hle =>
    rw [hpc] at hw
    obtain ⟨ht,htarget,hmore⟩ := hw
    refine h.setWorker ⟨ht,⟨htarget.1,?_⟩,hmore⟩
    -- the last task has a token and no release, so the check has failed for it
    have hl := (h.last (by omega)).2
    by_contra hlast
    rw [show s.taskRing.currentIndex-1 = target by omega] at hl
    have := hl.unreleased
    have := hl.token
    omega
  | kept hpc =>
    rw [hpc] at hw
    exact h.setWorker (resume_in hw.1 hw.2.2)
  | consume hpc =>
    rw [hpc] at hw
    rw [WritesApart, hpc] at hapart
    exact (h.consume (hapart _ rfl hw.2.1.1 hw.2.1.2)).setWorker ⟨hw.1,hw.2.2⟩
  | retire hpc =>
    rw [hpc] at hw
    refine h.advance.setWorker ?_
    obtain ⟨tm,heap,-,heq⟩ := tryAdvance_spec s
    rw [heq]
    exact resume_in hw.1 hw.2
  | retained hpc =>
    rw [hpc] at hw
    exact h.setWorker (resume_in hw.1 hw.2)

theorem laid_schedule {k : ℕ} (h : Laid s) (hm : Move s (.schedule k) s') : Laid s' := by
  have hk := h.schedulers k
  cases hm with
  | beginPass hpc => exact h.setScheduler ⟨h.windowed.alive_nonneg,le_rfl⟩
  | endPass hpc => exact h.setScheduler trivial
  | raise hpc hlt _ _ =>
    rw [hpc] at hk
    exact (h.raiseFanin _ _).setScheduler ⟨hk.1,hlt,hk.2⟩
  | pass hpc =>
    rw [hpc] at hk
    exact h.setScheduler ⟨by have := hk.1; omega,hk.2⟩
  | clear hpc _ =>
    rw [hpc] at hk
    exact Laid.setScheduler (s := s.clearReady _) { h with } hk
  | promote hpc _ _ =>
    rw [hpc] at hk
    exact (h.setStatus _ (by decide)).setScheduler hk
  | giveUp hpc _ =>
    rw [hpc] at hk
    exact h.setScheduler ⟨by have := hk.1; omega,hk.2.2⟩
  | promoted hpc =>
    rw [hpc] at hk
    exact (h.enqueueReady (by have := hk.2; omega)).setScheduler ⟨by have := hk.1; omega,hk.2.2⟩

theorem laid_move (h : Laid s) (hapart : WritesApart s a) (hm : Move s a s') : Laid s' := by
  cases a with
  | call req =>
    cases hm
    exact h.setSubmitter trivial
  | submit => exact laid_submit h hm
  | work w => exact laid_work h hapart hm
  | schedule k => exact laid_schedule h hm
  | markReady handle =>
    cases hm
    exact { h with }

/-- The window stays and ids only grow. -/
theorem move_current (hm : Move s a s') : s'.taskRing.windowSize = s.taskRing.windowSize ∧
    s.taskRing.currentIndex ≤ s'.taskRing.currentIndex := by
  have hadvance : s.tryAdvanceRingPointers.taskRing.windowSize = s.taskRing.windowSize ∧
      s.taskRing.currentIndex ≤ s.tryAdvanceRingPointers.taskRing.currentIndex := by
    obtain ⟨tm,heap,-,heq⟩ := tryAdvance_spec s
    rw [heq]
    exact ⟨rfl,le_rfl⟩
  cases hm with
  | alloc hpc ha =>
    have ha := allocTask_spec ha
    exact ⟨ha.window,by rw [ha.current]; omega⟩
  | advance hpc => exact hadvance
  | spin hpc => exact hadvance
  | link hpc hlook hl =>
    obtain ⟨idx,pool,-,rfl⟩ := linkFanin_spec hl
    exact ⟨rfl,le_rfl⟩
  | buffers hpc hb =>
    obtain ⟨heap,rfl⟩ := allocBuffers_spec hb
    exact ⟨rfl,le_rfl⟩
  | register hpc hr =>
    obtain ⟨tm,scopes,top,-,rfl⟩ := registerTask_spec hr
    exact ⟨rfl,le_rfl⟩
  | expose hpc ha =>
    obtain ⟨m,hm,ha⟩ := Option.bind_eq_some_iff.mp ha
    obtain ⟨idx,pool,-,rfl⟩ := linkFanout_spec hm
    cases ha
    split <;> exact ⟨rfl,le_rfl⟩
  | @walk w t hpc =>
    obtain ⟨ring,queue,enqueues,heq,hw,hc⟩ := walkFanout_frame s t
    rw [heq]
    exact ⟨hw,hc.ge⟩
  | retire hpc => exact hadvance
  | _ => exact ⟨rfl,le_rfl⟩

theorem Laid.apart_of_live (h : Laid s) (hlive : WritesLive s a) : WritesApart s a := by
  cases a with
  | work i =>
    intro p hp h0 hlt he
    have hge := hlive p hp
    have hl := (h.last (by omega)).1
    have := LinquTaskRing.slot_injective h.windowed ⟨by omega,by omega⟩ ⟨hge,by omega⟩ he
    omega
  | _ => trivial

/-- As long as no slot has been used twice, every submitted id has its own. -/
theorem Known.slot_eq_iff {t u : ℤ} (hle : s.taskRing.currentIndex ≤ s.taskRing.windowSize)
    (ht : Known s t) (hu : Known s u) :
    s.taskRing.slot u = s.taskRing.slot t ↔ u = t := by
  refine ⟨fun he => ?_,fun he => by rw [he]⟩
  have h1 := ht.1
  have h2 := ht.2
  have h3 := hu.1
  have h4 := hu.2
  exact LinquTaskRing.remainder_injective (a := 0) ⟨h3,by omega⟩ ⟨h1,by omega⟩ he

theorem apart_of_le (hle : s.taskRing.currentIndex ≤ s.taskRing.windowSize) (a : Act) :
    WritesApart s a := by
  cases a with
  | work i =>
    intro p hp h0 hlt he
    have := (Known.slot_eq_iff hle ⟨h0,by omega⟩ ⟨by omega,by omega⟩).mp he
    omega
  | _ => trivial

/-- The state a constructor leaves. -/
structure Initial (cfg : LevelRuntimeConfig) (s : LevelRuntime) : Prop where
  window_pos : 0 < s.taskRing.windowSize
  window : s.taskRing.windowSize = cfg.taskRingWindow
  current : s.taskRing.currentIndex = 0
  alive : s.taskRing.lastTaskAlive = 0
  get : ∀ u, s.get u = {}
  sorted : s.depPool.Sorted
  map : ∀ i, (s.tensorMap.pool i).valid = false
  queue : s.readyQueue = .init cfg.readyQueueCapacity
  ready : ∀ slot, s.externalReady slot = []
  submitter : s.submitter = .idle
  workers : s.workers = fun _ => .idle
  schedulers : s.schedulers = fun _ => .waiting
  walks : s.walks = []
  enqueues : s.enqueues = []

theorem init_spec {schedThreads workerThreads : ℤ} {cfg : LevelRuntimeConfig}
    (h : init schedThreads workerThreads cfg = some s) : Initial cfg s := by
  obtain ⟨ring,hring,h⟩ := Option.bind_eq_some_iff.mp h
  obtain ⟨pool,hpool,h⟩ := Option.bind_eq_some_iff.mp h
  obtain ⟨tm,htm,h⟩ := Option.bind_eq_some_iff.mp h
  cases h
  unfold LinquTaskRing.init at hring
  unfold LinquTensorMap.init at htm
  split at hring
  · rename_i hpos
    split at htm
    · cases hring
      cases htm
      exact ⟨Int.natCast_pos.mpr hpos.1,rfl,rfl,rfl,fun _ => rfl,
        LinquDepListPool.init_sorted hpool,fun _ => rfl,rfl,fun _ => rfl,rfl,rfl,rfl,rfl,rfl⟩
    · cases htm
  · cases hring

theorem Initial.laid {cfg : LevelRuntimeConfig} (h : Initial cfg s) : Laid s := by
  have hlists : ∀ u, s.faninList u = [] ∧ s.fanoutList u = [] := fun u => by
    simp [faninList, fanoutList, h.get]
  constructor
  case windowed =>
    have := h.window_pos
    exact ⟨this,h.alive.ge,by rw [h.alive, h.current],by rw [h.alive, h.current]; omega⟩
  case sorted => exact h.sorted
  case heads =>
    intro u
    rw [h.get]
    exact ⟨fun i hi => (by cases hi),fun i hi => (by cases hi)⟩
  case names =>
    intro i hi
    rw [h.map] at hi
    cases hi
  case fanin =>
    intro u
    rw [(hlists u).1]
    exact fun p hp => absurd hp List.not_mem_nil
  case fanout =>
    intro u
    rw [(hlists u).2]
    exact fun p hp => absurd hp List.not_mem_nil
  case last =>
    intro h0
    rw [h.current] at h0
    exact absurd h0 (lt_irrefl 0)
  case queue =>
    intro k
    rw [h.queue, h.current]
    exact (by decide : (-1:ℤ) < 0)
  case submitter =>
    rw [h.submitter]
    trivial
  case workers =>
    intro i
    rw [h.workers]
    trivial
  case schedulers =>
    intro k
    rw [h.schedulers]
    trivial

/-- The layout is kept in every run whose workers write through live ids. -/
theorem run_laid {cfg : LevelRuntimeConfig} {s₀ : LevelRuntime} {acts : List Act}
    (hinit : Initial cfg s₀) (hlive : Guarded Steps WritesLive acts s₀)
    (hrun : Run Steps acts s₀ s) : Laid s :=
  run_move (fun _ _ _ h hl hm => laid_move h (h.apart_of_live hl) hm) hinit.laid hlive hrun

end Linqu.LevelLayout
