import Linqu.LevelLayout
import Linqu.Ownership

/-!
# Edges, counts and owners in the level runtime

What a run keeps as long as no slot is used twice. Every edge is in the chains
of both its ends or still with the submitter; a fanin refcount counts at least
the producers whose fanout has been walked and the external inputs that were
ready; a task that is ready or running has one owner and is put into the queue
once. If the run is `exact`, without races between the threads, the refcount
counts nothing else, and the fanout refcount of a task stays below the number
of its edges, so that nothing is consumed.

What a step in progress still owes is `Debts`.
-/

set_option autoImplicit false

namespace Linqu.LevelWiring
open Linqu.TaskRing Linqu.DepPool Linqu.ReadyQueue Linqu.Ownership Linqu.Transition
open Linqu.Level Linqu.Level.LevelRuntime Linqu.LevelMoves Linqu.LevelLayout

/-- Fanin refcounts to be raised, tasks to be released, claimed tasks to be put
into the queue, and tasks whose refcount is still to be compared. -/
structure Debts where
  ntf : List ℤ := []
  crd : List ℤ := []
  clm : List ℤ := []
  wat : List ℤ := []

/-- The producers of a task whose fanout chains do not hold it yet. -/
def unexposed (pc : SubmitPc) (c : ℤ) : List ℤ :=
  match pc with
  | .scanning tid _ _ _ ps => if c = tid then ps else []
  | .registering tid _ _ ps => if c = tid then ps else []
  | .storingFanin tid _ ps => if c = tid then ps else []
  | .storingStatus tid _ ps => if c = tid then ps else []
  | .exposing tid _ ps => if c = tid then ps else []
  | _ => []

/-- The task whose fanin count and status are not stored yet. -/
def preparing : SubmitPc → Option ℤ
  | .scanning tid _ _ _ _ => some tid
  | .registering tid _ _ _ => some tid
  | .storingFanin tid _ _ => some tid
  | .storingStatus tid _ _ => some tid
  | _ => none

/-- The task whose external inputs a scheduler is about to count. -/
def counted (s : LevelRuntime) : SchedulePc → Option ℤ
  | .scanning i cur => if i < cur ∧ s.externalsReady i = true then some i else none
  | _ => none

/-- No scheduler counts the inputs of a task that is still being prepared. -/
def LateScan (s : LevelRuntime) : Act → Prop
  | .schedule k => ∀ i ∈ counted s (s.schedulers k), preparing s.submitter ≠ some i
  | _ => True

instance (s : LevelRuntime) : DecidablePred (LateScan s)
  | .call _ => .isTrue trivial
  | .submit => .isTrue trivial
  | .work _ => .isTrue trivial
  | .schedule k =>
    inferInstanceAs (Decidable (∀ i ∈ counted s (s.schedulers k), preparing s.submitter ≠ some i))
  | .markReady _ => .isTrue trivial

/-- The task whose refcount the submitter has still to look at. -/
def inspecting : SubmitPc → Option ℤ
  | .exposing tid _ _ => some tid
  | .setting tid => some tid
  | _ => none

def clearing : SchedulePc → Option ℤ
  | .clearing i _ _ => some i
  | _ => none

/-- The task a scheduler has counted the external inputs of. -/
def raised : SchedulePc → Option (ℤ × ℕ)
  | .clearing i _ count => some (i,count)
  | .setting i _ count => some (i,count)
  | _ => none

def Clears (s : LevelRuntime) (c : ℤ) : Prop :=
  ∃ j < s.schedCount, clearing (s.schedulers j) = some c

instance (s : LevelRuntime) (c : ℤ) : Decidable (Clears s c) :=
  inferInstanceAs (Decidable (∃ j < s.schedCount, clearing (s.schedulers j) = some c))

/-- External inputs of a task, and those that are not counted yet. -/
def externals (s : LevelRuntime) (c : ℤ) : ℕ := (s.externalInputs (s.taskRing.slot c)).length

def owed (s : LevelRuntime) (c : ℤ) : ℕ :=
  if Clears s c then 0 else (s.externalReady (s.taskRing.slot c)).length

def walked (s : LevelRuntime) (p : ℤ) : Bool := decide (p ∈ s.walks)

inductive Thread where
  | submitter
  | scheduler (k : ℕ)
  | worker (i : ℕ)
  deriving DecidableEq

def submitOwns : SubmitPc → Option ℤ
  | .enqueuing tid => some tid
  | _ => none

def scheduleOwns : SchedulePc → Option ℤ
  | .enqueuing i _ => some i
  | _ => none

def workOwns : WorkerPc → Option ℤ
  | .dequeued tid => some tid
  | .running tid => some tid
  | .returned tid => some tid
  | .completed tid => some tid
  | _ => none

def workStatus : WorkerPc → Status
  | .running _ => .running
  | .returned _ => .running
  | .completed _ => .completed
  | _ => .ready

/-- The task that a thread is the only one to act on, and its status. -/
def owns (s : LevelRuntime) : Thread → Option ℤ
  | .submitter => submitOwns s.submitter
  | .scheduler k => scheduleOwns (s.schedulers k)
  | .worker i => workOwns (s.workers i)

def phase (s : LevelRuntime) : Thread → Status
  | .worker i => workStatus (s.workers i)
  | _ => .ready

/-- The producers that a worker still has to release. -/
def rest : WorkerPc → List ℤ
  | .releasing _ ps => ps
  | .checking _ _ more => more.getD []
  | _ => []

/-- A worker that has found nothing to be consumed. -/
def Retains : WorkerPc → Prop
  | .consuming _ _ _ => False
  | .advancing _ _ _ => False
  | _ => True

structure Graph (s : LevelRuntime) : Prop where
  edges : ∀ p c, Known s p → Known s c →
    (s.fanoutList p).count c+(unexposed s.submitter c).count p = (s.faninList c).count p
  spare : ∀ p, Known s p → (s.get p).fanoutCount = (s.fanoutList p).length+1

/-- What the submitter knows of a task whose fields it is about to store. -/
def Prepared (s : LevelRuntime) (tid : ℤ) (fanin : ℕ) (ps : List ℤ) : Prop :=
  fanin = ps.length+externals s tid ∧ ∀ p, ps.count p = (s.faninList tid).count p

def Submitting (s : LevelRuntime) : SubmitPc → Prop
  | .scanning tid _ _ fanin ps => Prepared s tid fanin ps
  | .registering tid _ fanin ps => Prepared s tid fanin ps
  | .storingFanin tid fanin ps => Prepared s tid fanin ps
  | .storingStatus tid fanin ps => Prepared s tid fanin ps ∧ (s.get tid).faninCount = fanin
  | .exposing tid fanin _ => (s.get tid).faninCount = fanin
  | .setting tid => (s.get tid).faninCount ≤ (s.get tid).atomicFaninRefcount
  | _ => True

/-- Somebody has seen the refcount reach the fanin count, or will look. -/
def Watched (s : LevelRuntime) (c : ℤ) : Prop :=
  inspecting s.submitter = some c ∨
    ∃ k count, raised (s.schedulers k) = some (c,count) ∧ (s.get c).faninCount ≤ count

structure Counts (exact : Prop) (ntf wat : List ℤ) (s : LevelRuntime) : Prop where
  lower : ∀ c, Known s c → (s.faninList c).countP (walked s)+externals s c ≤
    (s.get c).atomicFaninRefcount+ntf.count c+(unexposed s.submitter c).countP (walked s)+owed s c
  upper : exact → ∀ c, Known s c →
    (s.get c).atomicFaninRefcount+ntf.count c+(unexposed s.submitter c).countP (walked s)+owed s c ≤
      (s.faninList c).countP (walked s)+externals s c
  required : ∀ c, Known s c → preparing s.submitter ≠ some c →
    (s.get c).faninCount = (s.faninList c).length+externals s c
  submitting : Submitting s s.submitter
  scheduling : ∀ k i count, raised (s.schedulers k) = some (i,count) →
    count ≤ (s.get i).atomicFaninRefcount+ntf.count i ∧ preparing s.submitter ≠ some i
  watched : ∀ c, Known s c → preparing s.submitter ≠ some c → (s.get c).status = .pending →
    Watched s c ∨ c ∈ wat ∨ (s.get c).atomicFaninRefcount < (s.get c).faninCount

/-- The tasks that have been put into the queue. -/
def entered (s : LevelRuntime) : List ℤ := s.enqueues.map (·.taskId)

/-- The thread is about to put its task into the queue. -/
def Thread.enters : Thread → Bool
  | .worker _ => false
  | _ => true

structure Owned (exact : Prop) (clm : List ℤ) (s : LevelRuntime) : Prop where
  walked : ∀ p ∈ s.walks, Known s p ∧ (s.get p).status.isDone = true
  started : ∀ c, Known s c → (s.get c).status ≠ .pending → preparing s.submitter ≠ some c ∧
    (exact → unexposed s.submitter c = [] ∧ ∀ p ∈ s.faninList c, p ∈ s.walks)
  kept : exact → ∀ c, Known s c → (s.get c).status ≠ .consumed
  exclusive : Exclusive (owns s) s.readyQueue.contents
  queued : ∀ t ∈ s.readyQueue.contents, Known s t ∧ (s.get t).status = .ready
  phases : ∀ th t, owns s th = some t → Known s t ∧
    ((s.get t).status = phase s th ∨ phase s th = .completed ∧ (s.get t).status = .consumed) ∧
    (phase s th = .completed → t ∉ s.walks)
  targets : ∀ i t target more, s.workers i = .consuming t target more →
    Known s target ∧ (s.get target).status.isDone = true
  once : (entered s).Nodup
  unentered : ∀ t ∈ entered s, Known s t ∧ (s.get t).status ≠ .pending
  entering : ∀ th t, th.enters = true → owns s th = some t → t ∉ entered s
  claimed : ∀ t ∈ clm, Known s t ∧ (s.get t).status = .ready ∧ t ∉ entered s ∧
    Free (owns s) s.readyQueue.contents t
  complete : ∀ c, Known s c → (s.get c).status ≠ .pending →
    c ∈ entered s ∨ c ∈ clm ∨ ∃ th, th.enters = true ∧ owns s th = some c
  head_le : s.readyQueue.head ≤ s.readyQueue.tail
  room : s.taskRing.windowSize ≤ s.readyQueue.capacity

/-- How often the workers will still release a task. -/
def releases (s : LevelRuntime) (p : ℤ) : ℕ :=
  ∑ i ∈ Finset.range s.workerCount, (rest (s.workers i)).count p

structure Ledger (exact : Prop) (crd : List ℤ) (s : LevelRuntime) : Prop where
  bound : exact → ∀ p, Known s p →
    (s.get p).atomicFanoutRefcount+releases s p+crd.count p ≤ (s.fanoutList p).countP (walked s)
  idle : ∀ i, s.workerCount ≤ i → s.workers i = .idle
  retains : exact → ∀ i, Retains (s.workers i)

/-- The producers of a task were done when it was put into the queue. -/
def AfterProducers (e : Enqueue) : Prop :=
  ∀ p ∈ e.depPool.tasks (e.ring.get e.taskId).depListHead, (e.ring.get p).status.isDone = true

structure Wired (exact : Prop) (d : Debts) (s : LevelRuntime) : Prop where
  laid : Laid s
  placed : s.taskRing.currentIndex ≤ s.taskRing.windowSize
  alive : exact → s.taskRing.lastTaskAlive = 0
  graph : Graph s
  counts : Counts exact d.ntf d.wat s
  owned : Owned exact d.clm s
  ledger : Ledger exact d.crd s
  history : exact → ∀ e ∈ s.enqueues, AfterProducers e

section Updates

variable {exact : Prop} {s s' : LevelRuntime} {t u : ℤ} {ntf wat crd clm : List ℤ} {d : Debts}

theorem proj_modify {α : Type*} (g : LinquTaskDescriptor → α)
    {f : LinquTaskDescriptor → LinquTaskDescriptor} (hg : ∀ d, g (f d) = g d)
    (s : LevelRuntime) (t u : ℤ) : g ((s.modify t f).get u) = g (s.get u) := by
  rw [get_modify]
  split
  · exact hg _
  · rfl

theorem faninList_modify {f : LinquTaskDescriptor → LinquTaskDescriptor}
    (hf : ∀ d, (f d).depListHead = d.depListHead) (s : LevelRuntime) (t u : ℤ) :
    (s.modify t f).faninList u = s.faninList u :=
  congrArg s.depPool.tasks (proj_modify (·.depListHead) hf s t u)

theorem fanoutList_modify {f : LinquTaskDescriptor → LinquTaskDescriptor}
    (hf : ∀ d, (f d).fanoutListHead = d.fanoutListHead) (s : LevelRuntime) (t u : ℤ) :
    (s.modify t f).fanoutList u = s.fanoutList u :=
  congrArg s.depPool.tasks (proj_modify (·.fanoutListHead) hf s t u)

@[simp] theorem faninList_setStatus (s : LevelRuntime) (t u : ℤ) (v : Status) :
    (s.setStatus t v).faninList u = s.faninList u :=
  faninList_modify (fun _ => by rfl) s t u

@[simp] theorem faninList_raiseFanin (s : LevelRuntime) (t u : ℤ) (n : ℕ) :
    (s.raiseFanin t n).faninList u = s.faninList u :=
  faninList_modify (fun _ => by rfl) s t u

@[simp] theorem faninCount_raiseFanin (s : LevelRuntime) (t u : ℤ) (n : ℕ) :
    ((s.raiseFanin t n).get u).faninCount = (s.get u).faninCount :=
  proj_modify (·.faninCount) (fun _ => by rfl) s t u

@[simp] theorem fanoutList_raiseFanout (s : LevelRuntime) (t u : ℤ) :
    (s.raiseFanout t).fanoutList u = s.fanoutList u :=
  fanoutList_modify (fun _ => by rfl) s t u

/-- Submitted tasks have descriptors of their own. -/
theorem Known.get_modify (hle : s.taskRing.currentIndex ≤ s.taskRing.windowSize)
    {f : LinquTaskDescriptor → LinquTaskDescriptor} (ht : Known s t) (hu : Known s u) :
    (s.modify t f).get u = if u = t then f (s.get u) else s.get u := by
  rw [LevelLayout.get_modify]
  simp only [Known.slot_eq_iff hle ht hu]

/-- An update that changes neither chains nor fanout counts. -/
theorem Graph.modify (h : Graph s) {f : LinquTaskDescriptor → LinquTaskDescriptor}
    (hf : ∀ d, (f d).depListHead = d.depListHead ∧ (f d).fanoutListHead = d.fanoutListHead ∧
      (f d).fanoutCount = d.fanoutCount) : Graph (s.modify t f) := by
  refine ⟨fun p c hp hc => ?_,fun p hp => ?_⟩
  · rw [faninList_modify (fun d => (hf d).1), fanoutList_modify (fun d => (hf d).2.1)]
    exact h.edges p c hp hc
  · rw [fanoutList_modify (fun d => (hf d).2.1), proj_modify (·.fanoutCount) (fun d => (hf d).2.2)]
    exact h.spare p hp

theorem Prepared.modify {tid : ℤ} {fanin : ℕ} {ps : List ℤ} (h : Prepared s tid fanin ps)
    {f : LinquTaskDescriptor → LinquTaskDescriptor} (hf : ∀ d, (f d).depListHead = d.depListHead) :
    Prepared (s.modify t f) tid fanin ps := by
  refine ⟨h.1,fun p => ?_⟩
  rw [faninList_modify hf]
  exact h.2 p

/-- An update that leaves the fanin chains alone, and keeps the fanin count and
the refcount or raises the latter. -/
theorem Submitting.modify {f : LinquTaskDescriptor → LinquTaskDescriptor}
    (hf : ∀ d, (f d).depListHead = d.depListHead ∧ (f d).faninCount = d.faninCount ∧
      d.atomicFaninRefcount ≤ (f d).atomicFaninRefcount) {pc : SubmitPc} (h : Submitting s pc) :
    Submitting (s.modify t f) pc := by
  have hhead := fun d => (hf d).1
  have hneed := fun tid => proj_modify (·.faninCount) (fun d => (hf d).2.1) s t tid
  cases pc with
  | scanning tid outputs inputs fanin ps => exact Prepared.modify h hhead
  | registering tid outputs fanin ps => exact Prepared.modify h hhead
  | storingFanin tid fanin ps => exact Prepared.modify h hhead
  | storingStatus tid fanin ps => exact ⟨Prepared.modify h.1 hhead,(hneed tid).trans h.2⟩
  | exposing tid fanin ps => exact (hneed tid).trans h
  | setting tid =>
    refine (hneed tid).trans_le (le_trans h ?_)
    rw [LevelLayout.get_modify]
    split
    · exact (hf _).2.2
    · exact le_rfl
  | _ => trivial

theorem Watched.modify {f : LinquTaskDescriptor → LinquTaskDescriptor}
    (hf : ∀ d, (f d).faninCount = d.faninCount) {c : ℤ} (h : Watched s c) :
    Watched (s.modify t f) c := by
  rcases h with h | ⟨k,count,hk,hle⟩
  · exact Or.inl h
  · refine Or.inr ⟨k,count,hk,?_⟩
    rw [proj_modify (·.faninCount) hf]
    exact hle

/-- An update that has nothing to do with fanin. -/
theorem Counts.modify (h : Counts exact ntf wat s)
    {f : LinquTaskDescriptor → LinquTaskDescriptor}
    (hf : ∀ d, (f d).depListHead = d.depListHead ∧ (f d).faninCount = d.faninCount ∧
      (f d).atomicFaninRefcount = d.atomicFaninRefcount)
    (hpend : ∀ d, (f d).status = .pending → d.status = .pending) :
    Counts exact ntf wat (s.modify t f) := by
  have hneed := fun c => proj_modify (·.faninCount) (fun d => (hf d).2.1) s t c
  have href := fun c => proj_modify (·.atomicFaninRefcount) (fun d => (hf d).2.2) s t c
  have hlist := faninList_modify (fun d => (hf d).1) s t
  constructor
  case lower =>
    intro c hc
    rw [href, hlist]
    exact h.lower c hc
  case upper =>
    intro he c hc
    rw [href, hlist]
    exact h.upper he c hc
  case required =>
    intro c hc hp
    rw [hneed, hlist]
    exact h.required c hc hp
  case submitting =>
    exact h.submitting.modify fun d => ⟨(hf d).1,(hf d).2.1,(hf d).2.2.ge⟩
  case scheduling =>
    intro k i count hk
    rw [href]
    exact h.scheduling k i count hk
  case watched =>
    intro c hc hp hst
    have hold : (s.get c).status = .pending := by
      rw [LevelLayout.get_modify] at hst
      split at hst
      · exact hpend _ hst
      · exact hst
    rw [href, hneed]
    exact (h.watched c hc hp hold).imp_left (Watched.modify fun d => (hf d).2.1)

theorem Owned.modify (h : Owned exact clm s) {f : LinquTaskDescriptor → LinquTaskDescriptor}
    (hf : ∀ d, (f d).depListHead = d.depListHead ∧ (f d).status = d.status) :
    Owned exact clm (s.modify t f) := by
  have hst := fun c => proj_modify (·.status) (fun d => (hf d).2) s t c
  constructor
  case walked =>
    intro p hp
    rw [hst]
    exact h.walked p hp
  case started =>
    intro c hc hp
    rw [hst] at hp
    rw [faninList_modify (fun d => (hf d).1)]
    exact h.started c hc hp
  case kept =>
    intro he c hc
    rw [hst]
    exact h.kept he c hc
  case exclusive => exact h.exclusive
  case queued =>
    intro c hc
    rw [hst]
    exact h.queued c hc
  case phases =>
    intro th c hc
    rw [hst]
    exact h.phases th c hc
  case targets =>
    intro i u target more hi
    rw [hst]
    exact h.targets i u target more hi
  case once => exact h.once
  case unentered =>
    intro c hc
    rw [hst]
    exact h.unentered c hc
  case entering => exact h.entering
  case claimed =>
    intro c hc
    rw [hst]
    exact h.claimed c hc
  case complete =>
    intro c hc hp
    rw [hst] at hp
    exact h.complete c hc hp
  case head_le => exact h.head_le
  case room => exact h.room

theorem Ledger.modify (h : Ledger exact crd s) {f : LinquTaskDescriptor → LinquTaskDescriptor}
    (hf : ∀ d, (f d).fanoutListHead = d.fanoutListHead ∧
      (f d).atomicFanoutRefcount = d.atomicFanoutRefcount) : Ledger exact crd (s.modify t f) := by
  refine ⟨fun he p hp => ?_,h.idle,h.retains⟩
  rw [fanoutList_modify (fun d => (hf d).1), proj_modify (·.atomicFanoutRefcount) (fun d => (hf d).2)]
  exact h.bound he p hp

theorem Laid.raised_known (h : Laid s) {k : ℕ} {i : ℤ} {count : ℕ}
    (hr : raised (s.schedulers k) = some (i,count)) : Known s i := by
  have hin := h.schedulers k
  revert hr hin
  cases s.schedulers k with
  | clearing j cur n =>
    rintro ⟨⟩ ⟨h0,h1,h2⟩
    exact ⟨h0,by omega⟩
  | setting j cur n =>
    rintro ⟨⟩ ⟨h0,h1,h2⟩
    exact ⟨h0,by omega⟩
  | _ => intro hr; cases hr

/-- Increments that were announced are made; the result is still to be compared. -/
theorem Counts.raiseFanin {n : ℕ} (h : Counts exact (List.replicate n t++ntf) wat s) (hl : Laid s)
    (hle : s.taskRing.currentIndex ≤ s.taskRing.windowSize) (ht : Known s t) :
    Counts exact ntf (t::wat) (s.raiseFanin t n) := by
  have hcount : ∀ c, (List.replicate n t++ntf).count c = (if c = t then n else 0)+ntf.count c := by
    intro c
    rw [List.count_append, List.count_replicate]
    simp only [beq_iff_eq, eq_comm (a := t)]
  have href : ∀ c, Known s c → ((s.raiseFanin t n).get c).atomicFaninRefcount =
      (s.get c).atomicFaninRefcount+if c = t then n else 0 := by
    intro c hc
    rw [LevelRuntime.raiseFanin, Known.get_modify hle ht hc]
    split <;> rfl
  constructor
  case lower =>
    intro c hc
    have ha := h.lower c hc
    rw [hcount] at ha
    rw [href c hc, faninList_raiseFanin]
    change (s.faninList c).countP (walked s)+externals s c ≤
      _+ntf.count c+(unexposed s.submitter c).countP (walked s)+owed s c
    omega
  case upper =>
    intro he c hc
    have ha := h.upper he c hc
    rw [hcount] at ha
    rw [href c hc, faninList_raiseFanin]
    change _+ntf.count c+(unexposed s.submitter c).countP (walked s)+owed s c ≤
      (s.faninList c).countP (walked s)+externals s c
    omega
  case required =>
    intro c hc hp
    rw [faninList_raiseFanin, faninCount_raiseFanin]
    exact h.required c hc hp
  case submitting =>
    exact h.submitting.modify fun _ => ⟨by rfl,by rfl,Nat.le_add_right _ _⟩
  case scheduling =>
    intro k i count hk
    obtain ⟨hc,hp⟩ := h.scheduling k i count hk
    rw [hcount] at hc
    rw [href i (Laid.raised_known hl hk)]
    exact ⟨by omega,hp⟩
  case watched =>
    intro c hc hp hst
    rw [LevelRuntime.raiseFanin, proj_modify (·.status) (fun _ => by rfl)] at hst
    by_cases hct : c = t
    · exact Or.inr (Or.inl (hct ▸ List.mem_cons_self))
    · rw [href c hc, if_neg hct, faninCount_raiseFanin]
      rcases h.watched c hc hp hst with hw | hw | hw
      · exact Or.inl (hw.modify fun _ => by rfl)
      · exact Or.inr (Or.inl (List.mem_cons_of_mem t hw))
      · exact Or.inr (Or.inr hw)

theorem Wired.raiseFanin {n : ℕ} (h : Wired exact d s) (hd : d.ntf = List.replicate n t++ntf)
    (ht : Known s t) :
    Wired exact { d with ntf := ntf, wat := t::d.wat } (s.raiseFanin t n) := by
  have hc := h.counts
  rw [hd] at hc
  exact ⟨h.laid.raiseFanin t n,h.placed,h.alive,h.graph.modify fun _ => ⟨rfl,rfl,rfl⟩,
    hc.raiseFanin h.laid h.placed ht,h.owned.modify fun _ => ⟨rfl,rfl⟩,
    h.ledger.modify fun _ => ⟨rfl,rfl⟩,h.history⟩

/-- The comparison has been made. -/
theorem Wired.compared (h : Wired exact d s) (hd : d.wat = t::wat)
    (hw : Known s t → preparing s.submitter ≠ some t → (s.get t).status = .pending →
      Watched s t ∨ (s.get t).atomicFaninRefcount < (s.get t).faninCount) :
    Wired exact { d with wat := wat } s := by
  refine ⟨h.laid,h.placed,h.alive,h.graph,{ h.counts with watched := fun c hc hp hst => ?_ },
    h.owned,h.ledger,h.history⟩
  rcases h.counts.watched c hc hp hst with hc' | hc' | hc'
  · exact Or.inl hc'
  · rw [hd] at hc'
    rcases List.mem_cons.mp hc' with rfl | hc'
    · exact (hw hc hp hst).imp_right Or.inr
    · exact Or.inr (Or.inl hc')
  · exact Or.inr (Or.inr hc')

/-- The status of a task moves on. -/
theorem Owned.setStatus {clm' : List ℤ} (h : Owned exact clm s)
    (hle : s.taskRing.currentIndex ≤ s.taskRing.windowSize) {v : Status} (ht : Known s t)
    (hv : v ≠ .pending) (hkeep : exact → v ≠ .consumed)
    (hstart : preparing s.submitter ≠ some t ∧
      (exact → unexposed s.submitter t = [] ∧ ∀ p ∈ s.faninList t, p ∈ s.walks))
    (hdone : (s.get t).status.isDone = true → v.isDone = true)
    (hqueue : t ∉ s.readyQueue.contents)
    (hphase : ∀ th, owns s th = some t → phase s th = .completed ∧ v = .consumed)
    (hclm : ∀ u ∈ clm', u ∈ clm ∧ u ≠ t ∨ u = t ∧ v = .ready ∧ t ∉ entered s ∧
      Free (owns s) s.readyQueue.contents t)
    (hcomp : t ∈ entered s ∨ t ∈ clm') (hsub : ∀ u ∈ clm, u ≠ t → u ∈ clm') :
    Owned exact clm' (s.setStatus t v) := by
  have hst : ∀ c, Known s c →
      ((s.setStatus t v).get c).status = if c = t then v else (s.get c).status := by
    intro c hc
    rw [LevelRuntime.setStatus, Known.get_modify hle ht hc]
    split <;> rfl
  have hdone' : ∀ c, Known s c → (s.get c).status.isDone = true →
      ((s.setStatus t v).get c).status.isDone = true := by
    intro c hc hd
    rw [hst c hc]
    split
    · rename_i he
      exact hdone (he ▸ hd)
    · exact hd
  constructor
  case walked =>
    intro p hp
    obtain ⟨hk,hd⟩ := h.walked p hp
    exact ⟨hk,hdone' p hk hd⟩
  case started =>
    intro c hc hp
    rw [hst c hc] at hp
    rw [faninList_setStatus]
    split at hp
    · rename_i he
      rw [he]
      exact hstart
    · exact h.started c hc hp
  case kept =>
    intro he c hc
    rw [hst c hc]
    split
    · exact hkeep he
    · exact h.kept he c hc
  case exclusive => exact h.exclusive
  case queued =>
    intro c hc
    obtain ⟨hk,hr⟩ := h.queued c hc
    refine ⟨hk,?_⟩
    rw [hst c hk, if_neg (fun (he : c = t) => hqueue (he ▸ hc))]
    exact hr
  case phases =>
    intro th c hc
    obtain ⟨hk,hr,hn⟩ := h.phases th c hc
    refine ⟨hk,?_,hn⟩
    rw [hst c hk]
    split
    · rename_i he
      exact Or.inr (hphase th (he ▸ hc))
    · exact hr
  case targets =>
    intro i u target more hi
    obtain ⟨hk,hd⟩ := h.targets i u target more hi
    exact ⟨hk,hdone' target hk hd⟩
  case once => exact h.once
  case unentered =>
    intro c hc
    obtain ⟨hk,hp⟩ := h.unentered c hc
    refine ⟨hk,?_⟩
    rw [hst c hk]
    split
    · exact hv
    · exact hp
  case entering => exact h.entering
  case claimed =>
    intro c hc
    rcases hclm c hc with ⟨hc,hne⟩ | ⟨rfl,hr,hn,hf⟩
    · obtain ⟨hk,hr,hn⟩ := h.claimed c hc
      refine ⟨hk,?_,hn⟩
      rw [hst c hk, if_neg hne]
      exact hr
    · refine ⟨ht,?_,hn,hf⟩
      rw [hst c ht, if_pos rfl]
      exact hr
  case complete =>
    intro c hc hp
    rw [hst c hc] at hp
    split at hp
    · rename_i he
      subst he
      exact hcomp.imp_right Or.inl
    · rename_i hne
      rcases h.complete c hc hp with hc | hc | hc
      · exact Or.inl hc
      · exact Or.inr (Or.inl (hsub c hc hne))
      · exact Or.inr (Or.inr hc)
  case head_le => exact h.head_le
  case room => exact h.room

theorem Wired.setStatus (h : Wired exact d s) {v : Status} (hv : v ≠ .pending)
    (hlaid : Laid (s.setStatus t v)) (ho : Owned exact clm (s.setStatus t v)) :
    Wired exact { d with clm := clm } (s.setStatus t v) :=
  ⟨hlaid,h.placed,h.alive,h.graph.modify fun _ => ⟨rfl,rfl,rfl⟩,
    h.counts.modify (fun _ => ⟨rfl,rfl,rfl⟩) (fun _ hp => absurd hp hv),ho,
    h.ledger.modify fun _ => ⟨rfl,rfl⟩,h.history⟩

/-- A task without an owner starts to run, or completes. -/
theorem Wired.progress (h : Wired exact d s) {v : Status} (hclm : d.clm = []) (ht : Known s t)
    (hv : v ≠ .pending) (hkeep : v ≠ .consumed) (hfree : Free (owns s) s.readyQueue.contents t)
    (hst : (s.get t).status ≠ .pending) (hnot : (s.get t).status.isDone = false)
    (hent : t ∈ entered s) : Wired exact d (s.setStatus t v) := by
  refine h.setStatus hv (h.laid.setStatus t hkeep) ?_
  have hstart := h.owned.started t ht hst
  refine h.owned.setStatus h.placed ht hv (fun _ => hkeep) hstart (fun hd => ?_) hfree.2
    (fun th hth => absurd hth (hfree.1 th)) (fun u hu => ?_) (Or.inl hent) (fun u hu _ => hu)
  · rw [hnot] at hd
    cases hd
  · rw [hclm] at hu
    cases hu

/-- A task that is done is marked as consumed. -/
theorem Wired.consume (h : Wired exact d s) (hex : ¬exact) (hclm : d.clm = []) (ht : Known s t)
    (hne : s.taskRing.slot (s.taskRing.currentIndex-1) ≠ s.taskRing.slot t)
    (hdone : (s.get t).status.isDone = true) : Wired exact d (s.setStatus t .consumed) := by
  have hst : (s.get t).status ≠ .pending := fun he => by rw [he] at hdone; cases hdone
  have hnot : ∀ v, (s.get t).status = v → v.isDone = true := fun v hv => hv ▸ hdone
  refine h.setStatus (by decide) (h.laid.consume hne) ?_
  refine h.owned.setStatus h.placed ht (by decide) (fun he => absurd he hex)
    (h.owned.started t ht hst) (fun _ => rfl) (fun hq => ?_) (fun th hth => ⟨?_,rfl⟩)
    (fun u hu => ?_) ?_ (fun u hu _ => hu)
  · exact absurd (hnot _ (h.owned.queued t hq).2) (by decide)
  · rcases (h.owned.phases th t hth).2.1 with hp | ⟨hp,-⟩
    · have := hnot _ hp
      revert this
      cases th with
      | worker i =>
        rw [phase]
        cases s.workers i <;> simp [workStatus, Status.isDone]
      | _ => simp [phase, Status.isDone]
    · exact hp
  · rw [hclm] at hu
    cases hu
  · rcases h.owned.complete t ht hst with hc | hc | ⟨th,hth,hc⟩
    · exact Or.inl hc
    · exact Or.inr hc
    · have hready : phase s th = .ready := by
        cases th with
        | worker i => cases hth
        | _ => rfl
      rcases (h.owned.phases th t hc).2.1 with hp | ⟨hp,-⟩
      · exact absurd (hnot _ (hp.trans hready)) (by decide)
      · rw [hready] at hp
        cases hp

/-- A release that was announced is made. -/
theorem Wired.raiseFanout (h : Wired exact d s) (hd : d.crd = t::crd) (ht : Known s t)
    (hlt : t+1 < s.taskRing.currentIndex) :
    Wired exact { d with crd := crd } (s.raiseFanout t) := by
  have hne : s.taskRing.slot (s.taskRing.currentIndex-1) ≠ s.taskRing.slot t := by
    have h0 := ht.1
    rw [Ne, Known.slot_eq_iff h.placed ht ⟨by omega,by omega⟩]
    omega
  refine ⟨h.laid.raiseFanout hne,h.placed,h.alive,h.graph.modify fun _ => ⟨rfl,rfl,rfl⟩,
    h.counts.modify (fun _ => ⟨rfl,rfl,rfl⟩) (fun _ => id),h.owned.modify fun _ => ⟨rfl,rfl⟩,
    ⟨fun he p hp => ?_,h.ledger.idle,h.ledger.retains⟩,h.history⟩
  have hb := h.ledger.bound he p hp
  rw [hd, List.count_cons] at hb
  rw [fanoutList_raiseFanout, LevelRuntime.raiseFanout, Known.get_modify h.placed ht hp]
  change _+releases s p+_ ≤ (s.fanoutList p).countP (walked s)
  split
  · rename_i he
    subst he
    simp only [beq_self_eq_true, if_true] at hb
    dsimp only
    omega
  · dsimp only
    omega

/-- Fewer tasks wait than the ring has slots. -/
theorem Wired.contents_lt (h : Wired exact d s) (ht : Known s t)
    (hq : t ∉ s.readyQueue.contents) :
    s.readyQueue.contents.length < s.readyQueue.capacity := by
  have hnodup : (t::s.readyQueue.contents).Nodup :=
    List.nodup_cons.mpr ⟨hq,h.owned.exclusive.nodup⟩
  have hsub : (t::s.readyQueue.contents).toFinset ⊆ Finset.Ico 0 s.taskRing.currentIndex := by
    intro u hu
    have hk : Known s u := by
      rcases List.mem_cons.mp (List.mem_toFinset.mp hu) with rfl | hu
      · exact ht
      · exact (h.owned.queued u hu).1
    exact Finset.mem_Ico.mpr ⟨hk.1,hk.2⟩
  have hcard := Finset.card_le_card hsub
  rw [List.toFinset_card_of_nodup hnodup, Int.card_Ico, List.length_cons] at hcard
  have hroom := h.owned.room
  have hcur := h.placed
  omega

/-- A claimed task is put into the queue. -/
theorem Wired.enqueueReady (h : Wired exact d s) (hd : d.clm = [t]) :
    Wired exact { d with clm := [] } (s.enqueueReady t) := by
  obtain ⟨ht,hready,hent,hfree⟩ := h.owned.claimed t (hd ▸ List.mem_singleton_self t)
  have hcont : (s.enqueueReady t).readyQueue.contents = s.readyQueue.contents++[t] :=
    contents_enqueue h.owned.head_le (h.contents_lt ht hfree.2) t
  have hst : (s.get t).status ≠ .pending := fun he => by rw [he] at hready; cases hready
  have hstart := h.owned.started t ht hst
  refine ⟨h.laid.enqueueReady ht.2,h.placed,h.alive,{ h.graph with },{ h.counts with },
    { h.owned with exclusive := ?_, queued := fun u hu => ?_, once := ?_, unentered := ?_,
                   entering := fun th u hth hu => ?_, claimed := fun u hu => ?_,
                   complete := fun c hc hp => ?_, head_le := ?_ },
    { h.ledger with },fun he => ?_⟩
  · rw [hcont]
    exact h.owned.exclusive.push hfree
  · rw [hcont] at hu
    rcases List.mem_append.mp hu with hu | hu
    · exact h.owned.queued u hu
    · rw [List.mem_singleton.mp hu]
      exact ⟨ht,hready⟩
  · exact List.nodup_cons.mpr ⟨hent,h.owned.once⟩
  · exact List.forall_mem_cons.mpr ⟨⟨ht,hst⟩,h.owned.unentered⟩
  · intro hm
    rcases List.mem_cons.mp hm with hut | hm
    · change u = t at hut
      exact hfree.1 th (hut ▸ hu)
    · exact h.owned.entering th u hth hu hm
  · cases hu
  · rcases h.owned.complete c hc hp with hm | hm | hm
    · exact Or.inl (List.mem_cons_of_mem t hm)
    · rw [hd, List.mem_singleton] at hm
      exact Or.inl (hm ▸ List.mem_cons_self)
    · exact Or.inr (Or.inr hm)
  · exact h.owned.head_le.trans (Nat.le_succ _)
  · refine List.forall_mem_cons.mpr ⟨fun p hp => ?_,h.history he⟩
    exact (h.owned.walked p ((hstart.2 he).2 p hp)).2

@[simp] theorem workers_setWorker (s : LevelRuntime) (i j : ℕ) (pc : WorkerPc) :
    (s.setWorker i pc).workers j = if j = i then pc else s.workers j :=
  Function.update_apply s.workers i pc j

@[simp] theorem schedulers_setScheduler (s : LevelRuntime) (k j : ℕ) (pc : SchedulePc) :
    (s.setScheduler k pc).schedulers j = if j = k then pc else s.schedulers j :=
  Function.update_apply s.schedulers k pc j

theorem releases_setWorker {i : ℕ} (hi : i < s.workerCount) (pc : WorkerPc) (p : ℤ) :
    releases (s.setWorker i pc) p+(rest (s.workers i)).count p =
      releases s p+(rest pc).count p := by
  have hmem := Finset.mem_range.mpr hi
  have hold := Finset.add_sum_erase _ (fun j => (rest (s.workers j)).count p) hmem
  have hnew := Finset.add_sum_erase _ (fun j => (rest ((s.setWorker i pc).workers j)).count p) hmem
  have hsame : ∑ j ∈ (Finset.range s.workerCount).erase i,
      (rest ((s.setWorker i pc).workers j)).count p =
      ∑ j ∈ (Finset.range s.workerCount).erase i, (rest (s.workers j)).count p := by
    refine Finset.sum_congr rfl fun j hj => ?_
    rw [workers_setWorker, if_neg (Finset.ne_of_mem_erase hj)]
  rw [hsame, workers_setWorker, if_pos rfl] at hnew
  change releases (s.setWorker i pc) p+_ = releases s p+_
  unfold releases
  change (∑ j ∈ Finset.range s.workerCount, (rest ((s.setWorker i pc).workers j)).count p)+_ = _
  omega

theorem owns_setWorker (s : LevelRuntime) (i : ℕ) (pc : WorkerPc) :
    owns (s.setWorker i pc) = Function.update (owns s) (.worker i) (workOwns pc) := by
  funext th
  cases th with
  | submitter => rfl
  | scheduler k => rfl
  | worker j =>
    simp only [owns, workers_setWorker, Function.update_apply, Thread.worker.injEq]
    split <;> rfl

theorem owns_setScheduler (s : LevelRuntime) (k : ℕ) (pc : SchedulePc) :
    owns (s.setScheduler k pc) = Function.update (owns s) (.scheduler k) (scheduleOwns pc) := by
  funext th
  cases th with
  | submitter => rfl
  | worker i => rfl
  | scheduler j =>
    simp only [owns, schedulers_setScheduler, Function.update_apply, Thread.scheduler.injEq]
    split <;> rfl

theorem owns_setSubmitter (s : LevelRuntime) (pc : SubmitPc) :
    owns (s.setSubmitter pc) = Function.update (owns s) .submitter (submitOwns pc) := by
  funext th
  cases th with
  | submitter => rfl
  | worker i => rfl
  | scheduler k => rfl

/-- A worker goes on. Releases move between its list and those announced. -/
theorem Wired.setWorker (h : Wired exact d s) (hclm : d.clm = []) {i : ℕ} {pc : WorkerPc}
    (hi : i < s.workerCount) (hin : WorkerIn s.taskRing.currentIndex pc)
    (hret : exact → Retains pc)
    (hex : Exclusive (Function.update (owns s) (.worker i) (workOwns pc)) s.readyQueue.contents)
    (hown : ∀ t, workOwns pc = some t → Known s t ∧
      ((s.get t).status = workStatus pc ∨
        workStatus pc = .completed ∧ (s.get t).status = .consumed) ∧
      (workStatus pc = .completed → t ∉ s.walks))
    (htarget : ∀ t target more, pc = .consuming t target more →
      Known s target ∧ (s.get target).status.isDone = true)
    (hrest : exact → ∀ p,
      (rest pc).count p+crd.count p ≤ (rest (s.workers i)).count p+d.crd.count p) :
    Wired exact { d with crd := crd } (s.setWorker i pc) := by
  refine ⟨h.laid.setWorker hin,h.placed,h.alive,{ h.graph with },{ h.counts with },
    { h.owned with exclusive := ?_, phases := ?_, targets := ?_, entering := ?_, claimed := ?_,
                   complete := ?_ },
    ⟨fun he p hp => ?_,fun j hj => ?_,fun he => ?_⟩,h.history⟩
  · rw [owns_setWorker]
    exact hex
  · intro th t ht
    by_cases hth : th = .worker i
    · subst hth
      rw [owns_setWorker, Function.update_self] at ht
      have hphase : phase (s.setWorker i pc) (.worker i) = workStatus pc := by
        rw [phase, workers_setWorker, if_pos rfl]
      rw [hphase]
      exact hown t ht
    · rw [owns_setWorker, Function.update_of_ne hth] at ht
      have hphase : phase (s.setWorker i pc) th = phase s th := by
        cases th with
        | worker j =>
          have hj : j ≠ i := fun he => hth (by rw [he])
          rw [phase, workers_setWorker, if_neg hj]
          rfl
        | _ => rfl
      rw [hphase]
      exact h.owned.phases th t ht
  · intro j t target more hj
    rw [workers_setWorker] at hj
    split at hj
    · exact htarget t target more hj
    · exact h.owned.targets j t target more hj
  · intro th t hth ht
    rw [owns_setWorker, Function.update_of_ne (by rintro rfl; cases hth)] at ht
    exact h.owned.entering th t hth ht
  · intro t ht
    change t ∈ d.clm at ht
    rw [hclm] at ht
    cases ht
  · intro c hc hp
    rcases h.owned.complete c hc hp with hm | hm | ⟨th,hth,hm⟩
    · exact Or.inl hm
    · exact Or.inr (Or.inl hm)
    · refine Or.inr (Or.inr ⟨th,hth,?_⟩)
      rw [owns_setWorker, Function.update_of_ne (by rintro rfl; cases hth)]
      exact hm
  · have hb := h.ledger.bound he p hp
    have hr := releases_setWorker hi pc p
    have hc := hrest he p
    change (s.get p).atomicFanoutRefcount+_+crd.count p ≤ (s.fanoutList p).countP (walked s)
    omega
  · change s.workerCount ≤ j at hj
    rw [workers_setWorker, if_neg (by omega)]
    exact h.ledger.idle j hj
  · exact (Function.forall_update_iff s.workers (fun _ => Retains)).mpr
      ⟨hret he,fun j _ => h.ledger.retains he j⟩

theorem owed_setScheduler {k : ℕ} {pc : SchedulePc} (hc : clearing pc = clearing (s.schedulers k))
    (c : ℤ) : owed (s.setScheduler k pc) c = owed s c := by
  have hsame : ∀ j, clearing ((s.setScheduler k pc).schedulers j) = clearing (s.schedulers j) := by
    intro j
    rw [schedulers_setScheduler]
    split
    · rename_i he
      rw [he, hc]
    · rfl
  have hiff : Clears (s.setScheduler k pc) c ↔ Clears s c := by
    simp only [Clears, hsame]
    rfl
  rw [owed, owed, if_congr hiff rfl rfl]
  rfl


/-- An owner that puts tasks into the queue takes one, or gives one up. -/
theorem Owned.setEnterer {clm' : List ℤ} (h : Owned exact clm s) {th : Thread} {o : Option ℤ}
    (howns : owns s' = Function.update (owns s) th o) (hphase : phase s' = phase s)
    (hth : th.enters = true)
    (hex : Exclusive (Function.update (owns s) th o) s.readyQueue.contents)
    (hown : ∀ t, o = some t → Known s t ∧ (s.get t).status = .ready ∧ t ∉ entered s)
    (hclm : ∀ t ∈ clm', Known s t ∧ (s.get t).status = .ready ∧ t ∉ entered s ∧
      Free (Function.update (owns s) th o) s.readyQueue.contents t)
    (hcomp : ∀ c, (c ∈ clm ∨ owns s th = some c) → c ∈ clm' ∨ o = some c)
    (hstart : ∀ c, Known s c → (s.get c).status ≠ .pending → preparing s'.submitter ≠ some c ∧
      (exact → unexposed s'.submitter c = [] ∧ ∀ p ∈ s.faninList c, p ∈ s.walks))
    (hstate : ∃ sub sch, s' = { s with submitter := sub, schedulers := sch }) :
    Owned exact clm' s' := by
  obtain ⟨sub,sch,rfl⟩ := hstate
  refine { h with
    started := hstart
    exclusive := howns ▸ hex
    phases := fun th' t ht => ?_
    entering := fun th' t hth' ht => ?_
    claimed := fun t ht => ?_
    complete := fun c hc hp => ?_ }
  · rw [hphase]
    rw [howns, Function.update_apply] at ht
    split at ht
    · rename_i he
      obtain ⟨hk,hr,-⟩ := hown t ht
      have hready : phase s th' = .ready := by
        subst he
        cases th' with
        | worker i => cases hth
        | _ => rfl
      rw [hready]
      exact ⟨hk,Or.inl hr,fun he => by cases he⟩
    · exact h.phases th' t ht
  · rw [howns, Function.update_apply] at ht
    split at ht
    · exact (hown t ht).2.2
    · exact h.entering th' t hth' ht
  · obtain ⟨hk,hr,hn,hf⟩ := hclm t ht
    exact ⟨hk,hr,hn,howns ▸ hf⟩
  · rw [howns]
    have hmove : c ∈ clm' ∨ o = some c → c ∈ entered s ∨ c ∈ clm' ∨
        ∃ th', th'.enters = true ∧ Function.update (owns s) th o th' = some c := by
      rintro (hm | hm)
      · exact Or.inr (Or.inl hm)
      · exact Or.inr (Or.inr ⟨th,hth,by rw [Function.update_self]; exact hm⟩)
    rcases h.complete c hc hp with hm | hm | ⟨th',hth',hm⟩
    · exact Or.inl hm
    · exact hmove (hcomp c (Or.inl hm))
    · by_cases he : th' = th
      · exact hmove (hcomp c (Or.inr (he ▸ hm)))
      · exact Or.inr (Or.inr ⟨th',hth',by rw [Function.update_of_ne he]; exact hm⟩)

/-- A scheduler goes on. External inputs move from those owed to those
announced. -/
theorem Wired.setScheduler (h : Wired exact d s) {k : ℕ} {pc : SchedulePc}
    (hin : SchedulerIn s.taskRing.currentIndex pc)
    (hex : Exclusive (Function.update (owns s) (.scheduler k) (scheduleOwns pc))
      s.readyQueue.contents)
    (hown : ∀ t, scheduleOwns pc = some t →
      Known s t ∧ (s.get t).status = .ready ∧ t ∉ entered s)
    (hclm : ∀ t ∈ clm, Known s t ∧ (s.get t).status = .ready ∧ t ∉ entered s ∧
      Free (Function.update (owns s) (.scheduler k) (scheduleOwns pc)) s.readyQueue.contents t)
    (hcomp : ∀ c, (c ∈ d.clm ∨ scheduleOwns (s.schedulers k) = some c) →
      c ∈ clm ∨ scheduleOwns pc = some c)
    (hle : ∀ c, d.ntf.count c ≤ ntf.count c)
    (howed : ∀ c, Known s c → d.ntf.count c+owed s c ≤ ntf.count c+owed (s.setScheduler k pc) c)
    (howed' : exact → ∀ c, Known s c →
      ntf.count c+owed (s.setScheduler k pc) c ≤ d.ntf.count c+owed s c)
    (hraised : ∀ i count, raised pc = some (i,count) →
      count ≤ (s.get i).atomicFaninRefcount+ntf.count i ∧ preparing s.submitter ≠ some i)
    (hwatch : ∀ c count, raised (s.schedulers k) = some (c,count) →
      (s.get c).faninCount ≤ count → (s.get c).status = .pending → raised pc = some (c,count)) :
    Wired exact { d with ntf := ntf, clm := clm } (s.setScheduler k pc) := by
  refine ⟨h.laid.setScheduler hin,h.placed,h.alive,{ h.graph with },
    ⟨fun c hc => ?_,fun he c hc => ?_,h.counts.required,h.counts.submitting,
      fun j i count hj => ?_,fun c hc hp hst => ?_⟩,
    h.owned.setEnterer (owns_setScheduler s k pc) ?_ rfl hex hown hclm hcomp h.owned.started
      ⟨_,_,rfl⟩,{ h.ledger with },h.history⟩
  · have ha := h.counts.lower c hc
    have ho := howed c hc
    change (s.faninList c).countP (walked s)+externals s c ≤
      (s.get c).atomicFaninRefcount+ntf.count c+(unexposed s.submitter c).countP (walked s)+_
    omega
  · have ha := h.counts.upper he c hc
    have ho := howed' he c hc
    change (s.get c).atomicFaninRefcount+ntf.count c+
      (unexposed s.submitter c).countP (walked s)+_ ≤
        (s.faninList c).countP (walked s)+externals s c
    omega
  · rw [schedulers_setScheduler] at hj
    split at hj
    · exact hraised i count hj
    · obtain ⟨hc,hp⟩ := h.counts.scheduling j i count hj
      exact ⟨hc.trans (Nat.add_le_add_left (hle i) _),hp⟩
  · refine (h.counts.watched c hc hp hst).imp_left ?_
    rintro (hw | ⟨j,count,hj,hcount⟩)
    · exact Or.inl hw
    · refine Or.inr ?_
      by_cases hjk : j = k
      · subst hjk
        refine ⟨j,count,?_,hcount⟩
        rw [schedulers_setScheduler, if_pos rfl]
        exact hwatch c count hj hcount hst
      · refine ⟨j,count,?_,hcount⟩
        rw [schedulers_setScheduler, if_neg hjk]
        exact hj
  · funext th
    cases th <;> rfl

/-- The ready flags of a task whose inputs are counted are forgotten. -/
theorem Wired.clearReady (h : Wired exact d s) (ht : Known s t) (hc : Clears s t) :
    Wired exact d (s.clearReady t) := by
  have howed : ∀ c, Known s c → owed (s.clearReady t) c = owed s c := by
    intro c hk
    have hiff : Clears (s.clearReady t) c ↔ Clears s c := Iff.rfl
    rw [owed, owed, if_congr hiff rfl rfl]
    split
    · rfl
    · rename_i hn
      have hne : s.taskRing.slot c ≠ s.taskRing.slot t := by
        rw [Ne, Known.slot_eq_iff h.placed ht hk]
        rintro rfl
        exact hn hc
      change (Function.update s.externalReady (s.taskRing.slot t) [] (s.taskRing.slot c)).length = _
      rw [Function.update_of_ne hne]
  refine ⟨{ h.laid with },h.placed,h.alive,{ h.graph with },
    { h.counts with lower := fun c hk => ?_, upper := fun he c hk => ?_ },{ h.owned with },
    { h.ledger with },h.history⟩
  · rw [howed c hk]
    exact h.counts.lower c hk
  · rw [howed c hk]
    exact h.counts.upper he c hk

/-- The chain of a completed task is about to be walked. -/
theorem Wired.recordWalk (h : Wired exact {} s) (ht : Known s t)
    (hdone : (s.get t).status.isDone = true) (hnew : t ∉ s.walks)
    (hidle : ∀ th, owns s th ≠ some t) :
    Wired exact { ntf := s.fanoutList t, crd := s.faninList t } (s.recordWalk t) := by
  have hst : (s.get t).status ≠ .pending := fun he => by rw [he] at hdone; cases hdone
  have hstart := h.owned.started t ht hst
  have hcount : ∀ l : List ℤ, l.countP (walked (s.recordWalk t)) =
      l.countP (walked s)+l.count t := by
    intro l
    refine countP_eq_add_count (fun c _ => ?_) ?_
    · simp only [walked, decide_eq_true_eq, LevelRuntime.recordWalk, List.mem_cons]
      exact or_comm
    · simpa [walked] using hnew
  refine ⟨{ h.laid with },h.placed,h.alive,{ h.graph with },{ h.counts with
    lower := fun c hc => ?_, upper := fun he c hc => ?_, scheduling := fun k i count hk => ?_ },
    { h.owned with walked := ?_, started := ?_, phases := ?_ },
    { h.ledger with bound := fun he p hp => ?_ },h.history⟩
  · have ha := h.counts.lower c hc
    have he := h.graph.edges t c ht hc
    rw [hcount, hcount]
    change (s.faninList c).countP (walked s)+(s.faninList c).count t+externals s c ≤
      (s.get c).atomicFaninRefcount+(s.fanoutList t).count c+
      ((unexposed s.submitter c).countP (walked s)+(unexposed s.submitter c).count t)+owed s c
    rw [List.count_nil] at ha
    omega
  · have ha := h.counts.upper he c hc
    have he := h.graph.edges t c ht hc
    rw [hcount, hcount]
    change (s.get c).atomicFaninRefcount+(s.fanoutList t).count c+
      ((unexposed s.submitter c).countP (walked s)+(unexposed s.submitter c).count t)+owed s c ≤
        (s.faninList c).countP (walked s)+(s.faninList c).count t+externals s c
    rw [List.count_nil] at ha
    omega
  · obtain ⟨hle,hp⟩ := h.counts.scheduling k i count hk
    rw [List.count_nil] at hle
    exact ⟨hle.trans (Nat.le_add_right _ _),hp⟩
  · exact List.forall_mem_cons.mpr ⟨⟨ht,hdone⟩,h.owned.walked⟩
  · intro c hc hp
    obtain ⟨h1,h2⟩ := h.owned.started c hc hp
    exact ⟨h1,fun he => ⟨(h2 he).1,fun p hp => List.mem_cons_of_mem t ((h2 he).2 p hp)⟩⟩
  · intro th u hu
    obtain ⟨h1,h2,h3⟩ := h.owned.phases th u hu
    refine ⟨h1,h2,fun hc hm => ?_⟩
    rcases List.mem_cons.mp hm with rfl | hm
    · exact hidle th hu
    · exact h3 hc hm
  · have hb := h.ledger.bound he p hp
    have hedge := h.graph.edges p t hp ht
    rw [(hstart.2 he).1, List.count_nil] at hedge
    rw [hcount]
    change (s.get p).atomicFanoutRefcount+releases s p+(s.faninList t).count p ≤
      (s.fanoutList p).countP (walked s)+(s.fanoutList p).count t
    rw [List.count_nil] at hb
    omega

theorem Laid.unexposed_known (h : Laid s) {p c : ℤ} (hp : p ∈ unexposed s.submitter c) :
    Known s p := by
  have hin := h.submitter
  have hbound : ∀ {tid : ℤ} {ps : List ℤ}, Newest s.taskRing.currentIndex tid →
      (∀ q ∈ ps, 0 ≤ q ∧ q < tid) → p ∈ (if c = tid then ps else []) → Known s p := by
    intro tid ps htid hps hm
    split at hm
    · have hq := hps p hm
      have := htid.2
      exact ⟨hq.1,by omega⟩
    · cases hm
  revert hin hp
  cases s.submitter with
  | scanning tid outputs inputs fanin ps => exact fun hp hin => hbound hin.1 hin.2.1 hp
  | registering tid outputs fanin ps => exact fun hp hin => hbound hin.1 hin.2 hp
  | storingFanin tid fanin ps => exact fun hp hin => hbound hin.1 hin.2 hp
  | storingStatus tid fanin ps => exact fun hp hin => hbound hin.1 hin.2 hp
  | exposing tid fanin ps => exact fun hp hin => hbound hin.1 hin.2 hp
  | _ => intro hp; cases hp

/-- A refcount that has reached the fanin count has counted every producer. -/
theorem Wired.satisfied (h : Wired exact d s) (he : exact) (ht : Known s t)
    (hprep : preparing s.submitter ≠ some t)
    (hle : (s.get t).faninCount ≤ (s.get t).atomicFaninRefcount) :
    unexposed s.submitter t = [] ∧ ∀ p ∈ s.faninList t, p ∈ s.walks := by
  have ha := h.counts.upper he t ht
  have hreq := h.counts.required t ht hprep
  have hlen : (s.faninList t).countP (walked s) ≤ (s.faninList t).length := List.countP_le_length
  have hall : ∀ p ∈ s.faninList t, p ∈ s.walks := by
    have hfull : (s.faninList t).countP (walked s) = (s.faninList t).length := by omega
    intro p hp
    exact of_decide_eq_true (List.countP_eq_length.mp hfull p hp)
  refine ⟨List.eq_nil_iff_forall_not_mem.mpr fun p hp => ?_,hall⟩
  -- an edge that is still with the submitter is in the fanin chain already
  have hedge := h.graph.edges p t (Laid.unexposed_known h.laid hp) ht
  have hpos := List.count_pos_iff.mpr hp
  have hmem : p ∈ s.faninList t := List.count_pos_iff.mp (by omega)
  have hzero : (unexposed s.submitter t).countP (walked s) = 0 := by omega
  exact List.countP_eq_zero.mp hzero p hp (decide_eq_true (hall p hmem))

theorem phase_ne_pending (s : LevelRuntime) (th : Thread) : phase s th ≠ .pending := by
  cases th with
  | worker i =>
    rw [phase]
    cases s.workers i <;> simp [workStatus]
  | _ => simp [phase]

theorem Owned.free_of_pending (h : Owned exact clm s) (hst : (s.get t).status = .pending) :
    Free (owns s) s.readyQueue.contents t := by
  refine ⟨fun th hth => ?_,fun hq => ?_⟩
  · rcases (h.phases th t hth).2.1 with hp | ⟨-,hp⟩
    · exact phase_ne_pending s th (hp.symm.trans hst)
    · rw [hst] at hp
      cases hp
  · have := (h.queued t hq).2
    rw [hst] at this
    cases this

/-- The transition from PENDING to READY. -/
theorem Wired.claim (h : Wired exact d s) (hclm : d.clm = []) (ht : Known s t)
    (hprep : preparing s.submitter ≠ some t)
    (hle : exact → unexposed s.submitter t = [] ∧ ∀ p ∈ s.faninList t, p ∈ s.walks)
    (hst : (s.get t).status = .pending) :
    Wired exact { d with clm := [t] } (s.setStatus t .ready) := by
  have hfree := h.owned.free_of_pending hst
  have hent : t ∉ entered s := fun hm => (h.owned.unentered t hm).2 hst
  refine h.setStatus (by decide) (h.laid.setStatus t (by decide)) ?_
  refine h.owned.setStatus h.placed ht (by decide) (fun _ => by decide) ⟨hprep,hle⟩
    (fun hd => ?_) hfree.2 (fun th hth => absurd hth (hfree.1 th)) (fun u hu => ?_)
    (Or.inr (List.mem_singleton_self t)) (fun u hu _ => ?_)
  · rw [hst] at hd
    cases hd
  · exact Or.inr ⟨List.mem_singleton.mp hu,rfl,hent,hfree⟩
  · rw [hclm] at hu
    cases hu

theorem status_setStatus (s : LevelRuntime) (t : ℤ) (v : Status) :
    ((s.setStatus t v).get t).status = v := by
  rw [LevelRuntime.setStatus, LevelLayout.get_modify, if_pos rfl]

theorem Wired.notify (h : Wired exact d s) (hd : d.ntf = t::ntf) (hwat : d.wat = [])
    (hclm : d.clm = []) (ht : Known s t) (hprep : preparing s.submitter ≠ some t) :
    Wired exact { d with ntf := ntf } (s.notifyConsumer t) := by
  have hr : Wired exact { d with ntf := ntf, wat := [t] } (s.raiseFanin t 1) := by
    have := h.raiseFanin (n := 1) hd ht
    rwa [hwat] at this
  have hdone : { d with ntf := ntf, wat := [] } = { d with ntf := ntf } := by rw [hwat]
  rw [← hdone]
  unfold LevelRuntime.notifyConsumer LevelRuntime.wake
  dsimp only
  split
  · rename_i hle
    have hsat := fun he => Wired.satisfied hr he ht hprep hle
    split
    · rename_i hst
      have hc := Wired.claim hr hclm ht hprep hsat hst
      have hq := Wired.enqueueReady hc rfl
      rw [hclm]
      refine Wired.compared hq rfl fun _ _ hp => ?_
      exact absurd (hp.symm.trans (status_setStatus (s.raiseFanin t 1) t .ready)) (by decide)
    · rename_i hst
      exact Wired.compared hr rfl fun _ _ hp => absurd hp hst
  · rename_i hlt
    exact Wired.compared hr rfl fun _ _ _ => Or.inr (by omega)

/-- What notifying a consumer leaves alone. -/
structure Notified (s s' : LevelRuntime) : Prop where
  current : s'.taskRing.currentIndex = s.taskRing.currentIndex
  submitter : s'.submitter = s.submitter
  workerCount : s'.workerCount = s.workerCount
  faninList : ∀ u, s'.faninList u = s.faninList u

theorem notifyConsumer_notified (s : LevelRuntime) (c : ℤ) : Notified s (s.notifyConsumer c) := by
  have hraise : Notified s (s.raiseFanin c 1) :=
    ⟨rfl,rfl,rfl,fun u => faninList_raiseFanin s c u 1⟩
  unfold LevelRuntime.notifyConsumer LevelRuntime.wake
  dsimp only
  split
  · split
    · refine ⟨rfl,rfl,rfl,fun u => ?_⟩
      exact (faninList_setStatus _ c u .ready).trans (hraise.faninList u)
    · exact hraise
  · exact hraise

/-- No chain holds a task that is still being prepared. -/
theorem Counts.unexposed_of_preparing (h : Counts exact ntf wat s) {c : ℤ}
    (hc : preparing s.submitter = some c) (p : ℤ) :
    (unexposed s.submitter c).count p = (s.faninList c).count p := by
  have hsub := h.submitting
  revert hsub hc
  cases s.submitter with
  | scanning tid outputs inputs fanin ps =>
    rintro ⟨⟩ hsub
    rw [unexposed, if_pos rfl]
    exact hsub.2 p
  | registering tid outputs fanin ps =>
    rintro ⟨⟩ hsub
    rw [unexposed, if_pos rfl]
    exact hsub.2 p
  | storingFanin tid fanin ps =>
    rintro ⟨⟩ hsub
    rw [unexposed, if_pos rfl]
    exact hsub.2 p
  | storingStatus tid fanin ps =>
    rintro ⟨⟩ hsub
    rw [unexposed, if_pos rfl]
    exact hsub.1.2 p
  | _ => intro hc; cases hc

theorem Wired.walkFanout (h : Wired exact {} s) (ht : Known s t)
    (hdone : (s.get t).status.isDone = true) (hnew : t ∉ s.walks)
    (hidle : ∀ th, owns s th ≠ some t) :
    Wired exact { crd := s.faninList t } (s.walkFanout t) ∧ Notified s (s.walkFanout t) := by
  have hall : ∀ c ∈ s.fanoutList t, Known s c ∧ preparing s.submitter ≠ some c := by
    intro c hc
    have hk : Known s c := h.laid.fanout t c hc
    refine ⟨hk,fun hp => ?_⟩
    have hedge := h.graph.edges t c ht hk
    have hsame := h.counts.unexposed_of_preparing hp t
    have hpos := List.count_pos_iff.mpr hc
    omega
  have hfold := foldl_rule (f := LevelRuntime.notifyConsumer)
    (P := fun l u => Wired exact { ntf := l, crd := s.faninList t } u ∧ Notified s u ∧
      ∀ c ∈ l, Known s c ∧ preparing s.submitter ≠ some c)
    (fun c l u ⟨hu,hn,hl⟩ => ?_) (s.fanoutList t) (s := s.recordWalk t)
    ⟨h.recordWalk ht hdone hnew hidle,⟨rfl,rfl,rfl,fun _ => rfl⟩,hall⟩
  · exact ⟨hfold.1,hfold.2.1⟩
  · obtain ⟨⟨hc,hp⟩,hl⟩ := List.forall_mem_cons.mp hl
    have hstep := notifyConsumer_notified u c
    refine ⟨hu.notify rfl rfl rfl ⟨hc.1,hn.current ▸ hc.2⟩ (hn.submitter ▸ hp),?_,hl⟩
    exact ⟨hstep.current.trans hn.current,hstep.submitter.trans hn.submitter,
      hstep.workerCount.trans hn.workerCount,fun u => (hstep.faninList u).trans (hn.faninList u)⟩

end Updates

end Linqu.LevelWiring
