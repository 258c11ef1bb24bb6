import Linqu.LevelHierarchy

/-!
# Starting and stopping a level

`start` makes the threads of a level, `stop` asks them to end and waits until
they have. The orchestrator thread works off the jobs that are still in its
queue, schedulers leave at once, and a worker leaves when it finds the ready
queue empty. A worker that leaves first does not see the tasks that the others
put into the queue afterwards. If some worker stays until the orchestrator and
the schedulers have left, nothing that was ready is left behind.
-/

set_option autoImplicit false

namespace Linqu.LevelService
open Linqu.TaskRing Linqu.ReadyQueue Linqu.Transition Linqu.Simulation
open Linqu.Level Linqu.Level.LevelRuntime Linqu.LevelMoves Linqu.LevelLayout Linqu.LevelWiring
open Linqu.LevelOrder Linqu.LevelWakeups Linqu.LevelProgress Linqu.LevelInputs

/-- Where the orchestrator thread is. A job is the number of its submission. -/
inductive OrchPc where
  | absent
  | waiting
  | busy (job : ℕ)
  deriving DecidableEq, Repr

def OrchPc.isBusy : OrchPc → Bool
  | .busy _ => true
  | _ => false

/-- A level with its threads. `looking` are the schedulers that have passed the
check of `should_stop` and are about to begin a pass. -/
structure Service where
  runtime : LevelRuntime
  running : Bool := false
  stopRequested : Bool := false
  orchestrator : OrchPc := .absent
  orchQueue : List ℕ := []
  submitted : ℕ := 0
  finished : List ℕ := []
  schedulersUp : ℕ → Bool := fun _ => false
  looking : ℕ → Bool := fun _ => false
  workersUp : ℕ → Bool := fun _ => false

inductive Act where
  | start
  | requestStop
  | joined
  | submitOrchestrator
  | takeJob
  | endJob
  | leaveOrchestrator
  | poll (k : ℕ)
  | leaveWorker (w : ℕ)
  | level (a : Level.Act)
  deriving DecidableEq, Repr

namespace Service

def start (s : Service) : Service :=
  if s.running then s
  else { s with
    running := true, stopRequested := false, orchestrator := .waiting
    schedulersUp := fun k => decide (k < s.runtime.schedCount)
    workersUp := fun w => decide (w < s.runtime.workerCount) }

/-- No thread is left to join. -/
def Alone (s : Service) : Prop :=
  s.orchestrator = .absent ∧ (∀ k < s.runtime.schedCount, s.schedulersUp k = false) ∧
    ∀ w < s.runtime.workerCount, s.workersUp w = false

instance (s : Service) : Decidable (Alone s) := by
  unfold Alone
  infer_instance

/-- The end of `stop`. -/
def joined (s : Service) : Option Service :=
  if s.running ∧ s.stopRequested ∧ Alone s then some { s with running := false } else none

def submitOrchestrator (s : Service) : Service :=
  { s with orchQueue := s.orchQueue++[s.submitted], submitted := s.submitted+1 }

def takeJob (s : Service) : Option Service :=
  match s.orchestrator, s.orchQueue with
  | .waiting, job::rest => some { s with orchestrator := .busy job, orchQueue := rest }
  | _, _ => none

def endJob (s : Service) : Option Service :=
  match s.orchestrator with
  | .busy job =>
    if s.runtime.submitter = .idle then
      some { s with orchestrator := .waiting, finished := s.finished++[job] }
    else none
  | _ => none

def leaveOrchestrator (s : Service) : Option Service :=
  if s.orchestrator = .waiting ∧ s.stopRequested ∧ s.orchQueue = [] then
    some { s with orchestrator := .absent }
  else none

/-- A scheduler looks at `should_stop`. -/
def poll (s : Service) (k : ℕ) : Option Service :=
  if k < s.runtime.schedCount ∧ s.schedulersUp k ∧ s.runtime.schedulers k = .waiting ∧
      s.looking k = false then
    if s.stopRequested then some { s with schedulersUp := Function.update s.schedulersUp k false }
    else some { s with looking := Function.update s.looking k true }
  else none

/-- `rq_head_` is read before `rq_tail_`. -/
def leaveWorker (s : Service) (w : ℕ) : Option Service :=
  if w < s.runtime.workerCount ∧ s.workersUp w ∧ s.runtime.workers w = .idle ∧
      s.stopRequested ∧ s.runtime.readyQueue.tail ≤ s.runtime.readyQueue.head then
    some { s with workersUp := Function.update s.workersUp w false }
  else none

/-- The thread that takes the step is there. Only a job submits tasks. -/
def Present (s : Service) : Level.Act → Prop
  | .call _ => s.orchestrator.isBusy
  | .submit => s.orchestrator.isBusy
  | .work w => s.workersUp w
  | .schedule k => s.schedulersUp k ∧ (s.runtime.schedulers k = .waiting → s.looking k)
  | .markReady _ => True

instance (s : Service) : DecidablePred (Present s)
  | .call _ => inferInstanceAs (Decidable (s.orchestrator.isBusy = true))
  | .submit => inferInstanceAs (Decidable (s.orchestrator.isBusy = true))
  | .work w => inferInstanceAs (Decidable (s.workersUp w = true))
  | .schedule k =>
    inferInstanceAs (Decidable (s.schedulersUp k = true ∧ (_ = _ → s.looking k = true)))
  | .markReady _ => .isTrue trivial

/-- A scheduler that begins a pass is about to look at `should_stop` again. -/
def begun (looking : ℕ → Bool) : Level.Act → ℕ → Bool
  | .schedule k => Function.update looking k false
  | _ => looking

/-- A step of the level itself. -/
def atLevel (s : Service) (a : Level.Act) : Option Service :=
  if Present s a then
    (Level.step s.runtime a).map fun runtime => { s with runtime, looking := begun s.looking a }
  else none

end Service
open Service

def init (schedThreads workerThreads : ℤ) (cfg : LevelRuntimeConfig) : Option Service :=
  (Level.LevelRuntime.init schedThreads workerThreads cfg).map fun runtime => { runtime }

def step (s : Service) : Act → Option Service
  | .start => some s.start
  | .requestStop => some (if s.running then { s with stopRequested := true } else s)
  | .joined => s.joined
  | .submitOrchestrator => some s.submitOrchestrator
  | .takeJob => s.takeJob
  | .endJob => s.endJob
  | .leaveOrchestrator => s.leaveOrchestrator
  | .poll k => s.poll k
  | .leaveWorker w => s.leaveWorker w
  | .level a => s.atLevel a

def Steps (s : Service) (a : Act) (s' : Service) : Prop := step s a = some s'

variable {s s' s₀ : Service} {a : Act}

/-- The job that the orchestrator is at. -/
def current : OrchPc → List ℕ
  | .busy job => [job]
  | _ => []

/-- Only the workers move their program counters. -/
theorem move_workers {r r' : LevelRuntime} {b : Level.Act} (hm : Move r b r') :
    r'.workerCount = r.workerCount ∧ ∀ w, b ≠ .work w → r'.workers w = r.workers w := by
  have hset : ∀ (u : LevelRuntime) (v w : ℕ) (pc : WorkerPc), Level.Act.work v ≠ .work w →
      (u.setWorker v pc).workers w = u.workers w := by
    intro u v w pc hne
    rw [workers_setWorker, if_neg]
    rintro rfl
    exact hne rfl
  cases hm with
  | alloc hpc ha =>
    have ha := allocTask_spec ha
    rw [ha.workers]
    exact ⟨ha.workerCount,fun _ _ => rfl⟩
  | advance hpc =>
    obtain ⟨tm,heap,-,heq⟩ := tryAdvance_spec r
    rw [heq]
    exact ⟨rfl,fun _ _ => rfl⟩
  | spin hpc =>
    obtain ⟨tm,heap,-,heq⟩ := tryAdvance_spec r
    rw [heq]
    exact ⟨rfl,fun _ _ => rfl⟩
  | link hpc hlook hl =>
    obtain ⟨idx,pool,-,rfl⟩ := linkFanin_spec hl
    exact ⟨rfl,fun _ _ => rfl⟩
  | buffers hpc hb =>
    obtain ⟨heap,rfl⟩ := allocBuffers_spec hb
    exact ⟨rfl,fun _ _ => rfl⟩
  | register hpc hr =>
    obtain ⟨tm,scopes,top,-,rfl⟩ := registerTask_spec hr
    exact ⟨rfl,fun _ _ => rfl⟩
  | expose hpc he =>
    obtain ⟨m,hm,he⟩ := Option.bind_eq_some_iff.mp he
    obtain ⟨idx,pool,-,rfl⟩ := linkFanout_spec hm
    cases he
    split
    · exact ⟨rfl,fun _ _ => rfl⟩
    · exact ⟨rfl,fun _ _ => rfl⟩
  | @walk v t hpc =>
    obtain ⟨ring,queue,enqueues,heq,-⟩ := walkFanout_frame r t
    refine ⟨by rw [heq]; rfl,fun w hw => (hset _ _ _ _ hw).trans ?_⟩
    rw [heq]
  | retire hpc =>
    obtain ⟨tm,heap,-,heq⟩ := tryAdvance_spec r
    rw [heq]
    exact ⟨rfl,fun w hw => hset _ _ _ _ hw⟩
  | dequeue hpc | start hpc | ran hpc | complete hpc | release hpc | released hpc
  | consumable hpc | kept hpc | consume hpc | retained hpc =>
    exact ⟨rfl,fun w hw => hset _ _ _ _ hw⟩
  | _ => exact ⟨rfl,fun _ _ => rfl⟩

/-- What a step of a thread leaves to the others. -/
structure Frame (r r' : LevelRuntime) (b : Level.Act) : Prop where
  workerCount : r'.workerCount = r.workerCount
  schedCount : r'.schedCount = r.schedCount
  submitter : b ≠ .submit → (∀ req, b ≠ .call req) → r'.submitter = r.submitter
  workers : ∀ w, b ≠ .work w → r'.workers w = r.workers w
  schedulers : ∀ k, b ≠ .schedule k → r'.schedulers k = r.schedulers k

theorem level_frame {r r' : LevelRuntime} {b : Level.Act} (hs : Level.Steps r b r') :
    Frame r r' b := by
  have hm := step_move hs
  obtain ⟨hcount,hworkers⟩ := move_workers hm
  have hsched : r'.schedCount = r.schedCount ∧
      ∀ k, b ≠ .schedule k → r'.schedulers k = r.schedulers k := by
    by_cases hk : ∃ k, b = .schedule k
    · obtain ⟨k,rfl⟩ := hk
      rw [Level.Steps, Level.step] at hs
      split at hs
      · cases hs
        refine ⟨(scheduleStep_others r (Nat.succ_ne_self k)).2,fun j hj => ?_⟩
        exact (scheduleStep_others r (fun he => hj (by rw [he]))).1
      · cases hs
    · obtain ⟨hs1,hs2⟩ := move_schedulers hm (fun k he => hk ⟨k,he⟩)
      exact ⟨hs2,fun k _ => by rw [hs1]⟩
  exact ⟨hcount,hsched.1,fun h1 h2 => (keeps_others hm h1 h2).2.1,hworkers,hsched.2⟩

/-- What a step can do. -/
inductive Event (s : Service) : Act → Service → Prop
  | started (h : s.running = false) : Event s .start { s with
      running := true, stopRequested := false, orchestrator := .waiting
      schedulersUp := fun k => decide (k < s.runtime.schedCount)
      workersUp := fun w => decide (w < s.runtime.workerCount) }
  | already : Event s .start s
  | asked (h : s.running = true) : Event s .requestStop { s with stopRequested := true }
  | ignored : Event s .requestStop s
  | joined (h : Alone s) : Event s .joined { s with running := false }
  | submitted : Event s .submitOrchestrator s.submitOrchestrator
  | took {job : ℕ} {rest : List ℕ} (ho : s.orchestrator = .waiting)
      (hq : s.orchQueue = job::rest) :
      Event s .takeJob { s with orchestrator := .busy job, orchQueue := rest }
  | ended {job : ℕ} (ho : s.orchestrator = .busy job) (hidle : s.runtime.submitter = .idle) :
      Event s .endJob { s with orchestrator := .waiting, finished := s.finished++[job] }
  | left (ho : s.orchestrator = .waiting) (hstop : s.stopRequested = true)
      (hq : s.orchQueue = []) : Event s .leaveOrchestrator { s with orchestrator := .absent }
  | gone {k : ℕ} (hup : s.schedulersUp k = true) (hw : s.runtime.schedulers k = .waiting) :
      Event s (.poll k) { s with schedulersUp := Function.update s.schedulersUp k false }
  | looked {k : ℕ} (hup : s.schedulersUp k = true) :
      Event s (.poll k) { s with looking := Function.update s.looking k true }
  | leftWorker {w : ℕ} (hup : s.workersUp w = true) (hidle : s.runtime.workers w = .idle)
      (hempty : s.runtime.readyQueue.tail ≤ s.runtime.readyQueue.head) :
      Event s (.leaveWorker w) { s with workersUp := Function.update s.workersUp w false }
  | level {b : Level.Act} {runtime : LevelRuntime} {looking : ℕ → Bool} (hp : Present s b)
      (hs : Level.Steps s.runtime b runtime) :
      Event s (.level b) { s with runtime := runtime, looking := looking }

theorem step_event (h : Steps s a s') : Event s a s' := by
  cases a with
  | start =>
    cases h
    by_cases hr : s.running = true
    · rw [Service.start, if_pos hr]
      exact .already
    · rw [Service.start, if_neg hr]
      exact .started (Bool.eq_false_of_not_eq_true hr)
  | requestStop =>
    cases h
    split
    · rename_i hr
      exact .asked hr
    · exact .ignored
  | joined =>
    rw [Steps, step, Service.joined] at h
    split at h
    · rename_i hc
      cases h
      exact .joined hc.2.2
    · cases h
  | submitOrchestrator =>
    cases h
    exact .submitted
  | takeJob =>
    rw [Steps, step, Service.takeJob] at h
    split at h
    · rename_i ho hq
      cases h
      exact .took ho hq
    · cases h
  | endJob =>
    rw [Steps, step, Service.endJob] at h
    split at h
    · rename_i ho
      split at h
      · rename_i hidle
        cases h
        exact .ended ho hidle
      · cases h
    · cases h
  | leaveOrchestrator =>
    rw [Steps, step, Service.leaveOrchestrator] at h
    split at h
    · rename_i hc
      cases h
      exact .left hc.1 hc.2.1 hc.2.2
    · cases h
  | poll k =>
    rw [Steps, step, Service.poll] at h
    split at h
    · rename_i hc
      split at h
      · cases h
        exact .gone hc.2.1 hc.2.2.1
      · cases h
        exact .looked hc.2.1
    · cases h
  | leaveWorker w =>
    rw [Steps, step, Service.leaveWorker] at h
    split at h
    · rename_i hc
      cases h
      exact .leftWorker hc.2.1 hc.2.2.1 hc.2.2.2.2
    · cases h
  | level b =>
    rw [Steps, step, Service.atLevel] at h
    by_cases hp : Present s b
    · rw [if_pos hp] at h
      obtain ⟨runtime,hs,rfl⟩ := Option.map_eq_some_iff.mp h
      exact .level hp hs
    · rw [if_neg hp] at h
      cases h

/-- Threads that are not there do nothing, and no job is lost. -/
structure Orderly (s : Service) : Prop where
  resting : s.running = false → Alone s
  submitter : s.orchestrator.isBusy = false → s.runtime.submitter = .idle
  workers : ∀ w, s.workersUp w = false → s.runtime.workers w = .idle
  schedulers : ∀ k, s.schedulersUp k = false → s.runtime.schedulers k = .waiting
  workersBelow : ∀ w, s.workersUp w = true → w < s.runtime.workerCount
  schedulersBelow : ∀ k, s.schedulersUp k = true → k < s.runtime.schedCount
  jobs : s.finished++current s.orchestrator++s.orchQueue = List.range s.submitted

theorem Orderly.workersDown (h : Orderly s) (ha : Alone s) (w : ℕ) : s.workersUp w = false := by
  by_contra hup
  have hup := Bool.eq_true_of_not_eq_false hup
  rw [ha.2.2 w (h.workersBelow w hup)] at hup
  cases hup

theorem Orderly.schedulersDown (h : Orderly s) (ha : Alone s) (k : ℕ) :
    s.schedulersUp k = false := by
  by_contra hup
  have hup := Bool.eq_true_of_not_eq_false hup
  rw [ha.2.1 k (h.schedulersBelow k hup)] at hup
  cases hup

theorem down_of_update {f : ℕ → Bool} {i j : ℕ} (h : Function.update f i false j = true) :
    f j = true := by
  by_cases hj : j = i
  · rw [hj, Function.update_self] at h
    cases h
  · rwa [Function.update_of_ne hj] at h

theorem orderly_event (h : Orderly s) (he : Event s a s') : Orderly s' := by
  cases he with
  | started hrun =>
    have halone := h.resting hrun
    have hjobs := h.jobs
    rw [halone.1] at hjobs
    exact ⟨fun hf => (by cases hf),fun _ => h.submitter (by rw [halone.1]; rfl),
      fun w _ => h.workers w (h.workersDown halone w),
      fun k _ => h.schedulers k (h.schedulersDown halone k),
      fun w hw => of_decide_eq_true hw,fun k hk => of_decide_eq_true hk,hjobs⟩
  | already => exact h
  | asked hrun => exact { h with resting := fun hf => h.resting hf }
  | ignored => exact h
  | joined halone => exact { h with resting := fun _ => halone }
  | submitted =>
    refine { h with resting := fun hf => h.resting hf, jobs := ?_ }
    change s.finished++current s.orchestrator++(s.orchQueue++[s.submitted]) =
      List.range (s.submitted+1)
    rw [← List.append_assoc, h.jobs, List.range_succ]
  | @took job rest ho hq =>
    refine { h with resting := fun hf => ?_, submitter := fun hb => (by cases hb), jobs := ?_ }
    · have halone := h.resting hf
      rw [halone.1] at ho
      cases ho
    · rw [← h.jobs, ho, hq]
      simp [current]
  | @ended job ho hidle =>
    refine { h with resting := fun hf => ?_, submitter := fun _ => hidle, jobs := ?_ }
    · have halone := h.resting hf
      rw [halone.1] at ho
      cases ho
    · rw [← h.jobs, ho]
      simp [current]
  | left ho hstop hq =>
    refine { h with resting := fun hf => ?_, submitter := fun _ => ?_, jobs := ?_ }
    · exact ⟨rfl,(h.resting hf).2⟩
    · exact h.submitter (by rw [ho]; rfl)
    · rw [← h.jobs, ho]
      rfl
  | @gone k hup hw =>
    refine { h with
      resting := fun hf => ?_
      schedulers := fun j hj => ?_
      schedulersBelow := fun j hj => h.schedulersBelow j (down_of_update hj) }
    · rw [h.schedulersDown (h.resting hf) k] at hup
      cases hup
    · by_cases hjk : j = k
      · rw [hjk]
        exact hw
      · exact h.schedulers j ((Function.update_of_ne hjk _ _).symm.trans hj)
  | looked hup => exact { h with resting := fun hf => h.resting hf }
  | @leftWorker w hup hidle hempty =>
    refine { h with
      resting := fun hf => ?_
      workers := fun v hv => ?_
      workersBelow := fun v hv => h.workersBelow v (down_of_update hv) }
    · rw [h.workersDown (h.resting hf) w] at hup
      cases hup
    · by_cases hvw : v = w
      · rw [hvw]
        exact hidle
      · exact h.workers v ((Function.update_of_ne hvw _ _).symm.trans hv)
  | @level b runtime looking hp hs =>
    have hframe := level_frame hs
    constructor
    case resting =>
      intro hf
      have halone := h.resting hf
      unfold Alone at halone ⊢
      rw [hframe.schedCount, hframe.workerCount]
      exact halone
    case submitter =>
      intro hb
      rw [← h.submitter hb]
      refine hframe.submitter (fun he => ?_) (fun req he => ?_)
      · subst he
        rw [Present, hb] at hp
        cases hp
      · subst he
        rw [Present, hb] at hp
        cases hp
    case workers =>
      intro w hw
      rw [← h.workers w hw]
      refine hframe.workers w fun he => ?_
      subst he
      rw [Present, hw] at hp
      cases hp
    case schedulers =>
      intro k hk
      rw [← h.schedulers k hk]
      refine hframe.schedulers k fun he => ?_
      subst he
      rw [Present, hk] at hp
      cases hp.1
    case workersBelow =>
      intro w hw
      rw [hframe.workerCount]
      exact h.workersBelow w hw
    case schedulersBelow =>
      intro k hk
      rw [hframe.schedCount]
      exact h.schedulersBelow k hk
    case jobs => exact h.jobs

theorem init_orderly {schedThreads workerThreads : ℤ} {cfg : LevelRuntimeConfig}
    (hinit : init schedThreads workerThreads cfg = some s) : Orderly s := by
  obtain ⟨r,hr,rfl⟩ := Option.map_eq_some_iff.mp hinit
  have hspec := init_spec hr
  exact ⟨fun _ => ⟨rfl,fun _ _ => rfl,fun _ _ => rfl⟩,fun _ => hspec.submitter,
    fun w _ => congrFun hspec.workers w,fun k _ => congrFun hspec.schedulers k,
    fun w hw => (by cases hw),fun k hk => (by cases hk),rfl⟩

theorem orderly_run {schedThreads workerThreads : ℤ} {cfg : LevelRuntimeConfig}
    {acts : List Act} (hinit : init schedThreads workerThreads cfg = some s₀)
    (hrun : Run Steps acts s₀ s) : Orderly s :=
  run_preserves (P := Orderly) (fun _ _ _ hu ht => orderly_event hu (step_event ht))
    (init_orderly hinit) hrun

/-- Whatever the threads do and however often the level is stopped and started
again: the jobs are finished in the order in which they were submitted, none is
lost and none runs twice, and the orchestrator thread leaves no job behind that
was submitted before it left. -/
theorem jobs_in_order {schedThreads workerThreads : ℤ} {cfg : LevelRuntimeConfig}
    {acts : List Act} (hinit : init schedThreads workerThreads cfg = some s₀)
    (hrun : Run Steps acts s₀ s) :
    s.finished++current s.orchestrator++s.orchQueue = List.range s.submitted ∧
      ∀ s', Steps s .leaveOrchestrator s' → s'.finished = List.range s'.submitted := by
  have hjobs := (orderly_run hinit hrun).jobs
  refine ⟨hjobs,fun s' hs => ?_⟩
  cases step_event hs with
  | left ho hstop hq =>
    rw [ho, hq] at hjobs
    simpa [current] using hjobs

section Draining

/-- Some worker stays until the orchestrator and the schedulers have left. -/
def Outlasting (s : Service) : Act → Prop
  | .leaveWorker w => (∃ v < s.runtime.workerCount, v ≠ w ∧ s.workersUp v = true) ∨
      s.orchestrator = .absent ∧ ∀ k < s.runtime.schedCount, s.schedulersUp k = false
  | .level a => LateScan s.runtime a
  | _ => True

instance (s : Service) : DecidablePred (Outlasting s)
  | .leaveWorker w => inferInstanceAs (Decidable ((∃ v < _, v ≠ w ∧ _ = true) ∨ _ = _ ∧ ∀ k < _, _))
  | .level a => inferInstanceAs (Decidable (LateScan s.runtime a))
  | .start | .requestStop | .joined | .submitOrchestrator | .takeJob | .endJob
  | .leaveOrchestrator | .poll _ => .isTrue trivial

/-- There is a worker, or nothing is left that could need one. -/
def Attended (s : Service) : Prop :=
  (∃ w, s.workersUp w = true) ∨ s.orchestrator = .absent ∧ (∀ k, s.schedulersUp k = false) ∧
    s.runtime.readyQueue.tail ≤ s.runtime.readyQueue.head

theorem attended_event (ho : Orderly s) (hpos : 0 < s.runtime.workerCount) (h : Attended s)
    (hc : Outlasting s a) (he : Event s a s') : Attended s' := by
  cases he with
  | started hrun => exact Or.inl ⟨0,decide_eq_true hpos⟩
  | already | asked hrun | ignored | joined halone | submitted => exact h
  | took hw hq =>
    rcases h with hup | ⟨habs,-⟩
    · exact Or.inl hup
    · rw [hw] at habs
      cases habs
  | ended hb hidle =>
    rcases h with hup | ⟨habs,-⟩
    · exact Or.inl hup
    · rw [hb] at habs
      cases habs
  | left hw hstop hq =>
    rcases h with hup | ⟨habs,hrest⟩
    · exact Or.inl hup
    · exact Or.inr ⟨rfl,hrest⟩
  | @gone k hup hw =>
    rcases h with hworker | ⟨-,hsched,-⟩
    · exact Or.inl hworker
    · rw [hsched k] at hup
      cases hup
  | looked hup => exact h
  | @leftWorker w hup hidle hempty =>
    rcases hc with ⟨v,-,hne,hv⟩ | ⟨habs,hsched⟩
    · exact Or.inl ⟨v,(Function.update_of_ne hne _ _).trans hv⟩
    · refine Or.inr ⟨habs,fun k => ?_,hempty⟩
      by_cases hk : k < s.runtime.schedCount
      · exact hsched k hk
      · by_contra hnot
        exact hk (ho.schedulersBelow k (Bool.eq_true_of_not_eq_false hnot))
  | @level b runtime looking hp hs =>
    by_cases hup : ∃ w, s.workersUp w = true
    · exact Or.inl hup
    · obtain ⟨habs,hsched,hempty⟩ := h.resolve_left hup
      refine Or.inr ⟨habs,hsched,?_⟩
      -- only another level can take a step
      cases b with
      | call req | submit =>
        rw [Present, habs] at hp
        cases hp
      | work w => exact absurd ⟨w,hp⟩ hup
      | schedule k =>
        rw [Present, hsched k] at hp
        cases hp.1
      | markReady x =>
        cases hs
        exact hempty

/-- The calls of `submit_worker` in a step. -/
def callsOf : Act → List Request
  | .level b => requestOf b
  | _ => []

/-- What the level does in a step of the service. -/
theorem event_view {cond : LevelRuntime → Level.Act → Prop} (he : Event s a s')
    (hc : ∀ b, a = .level b → cond s.runtime b) :
    Leads Level.Steps cond requestOf s.runtime s'.runtime (callsOf a) := by
  cases he with
  | level hp hs => exact Leads.single hs (hc _ rfl)
  | _ => exact Leads.refl _

/-- What is kept by a run in which some worker outlasts the others. -/
structure Kept (r₀ : LevelRuntime) (pre : List Act) (s : Service) : Prop where
  orderly : Orderly s
  attended : Attended s
  path : Leads Level.Steps LateScan requestOf r₀ s.runtime (pre.flatMap callsOf)

theorem kept_run {schedThreads workerThreads : ℤ} {cfg : LevelRuntimeConfig} {r₀ : LevelRuntime}
    {acts : List Act} (hinit : Level.LevelRuntime.init schedThreads workerThreads cfg = some r₀)
    (hrun : Run Steps acts { runtime := r₀ } s)
    (hlast : Guarded Steps Outlasting acts { runtime := r₀ }) :
    Kept r₀ acts s := by
  have hpos : 0 < r₀.workerCount := by
    obtain ⟨ring,-,h⟩ := Option.bind_eq_some_iff.mp hinit
    obtain ⟨pool,-,h⟩ := Option.bind_eq_some_iff.mp h
    obtain ⟨tm,-,h⟩ := Option.bind_eq_some_iff.mp h
    cases h
    change 0 < if 0 < workerThreads then workerThreads.toNat else 1
    split
    · omega
    · omega
  have hstart : init schedThreads workerThreads cfg = some { runtime := r₀ } := by
    rw [init, hinit]
    rfl
  have hempty : r₀.readyQueue.tail ≤ r₀.readyQueue.head := by
    rw [(init_spec hinit).queue]
    exact le_rfl
  refine (run_history (P := fun pre u => Kept r₀ pre u ∧ 0 < u.runtime.workerCount)
    (fun pre u a u' ⟨hu,hw⟩ hc ht => ?_)
    ⟨⟨init_orderly hstart,Or.inr ⟨rfl,fun _ => rfl,hempty⟩,Leads.refl _⟩,hpos⟩ hlast hrun).1
  have he := step_event ht
  refine ⟨⟨orderly_event hu.orderly he,attended_event hu.orderly hw hu.attended hc he,?_⟩,?_⟩
  · rw [List.flatMap_append, List.flatMap_singleton]
    refine hu.path.trans LevelHierarchy.steps_functional (event_view he fun b hb => ?_)
    rw [hb] at hc
    exact hc
  · cases he with
    | level hp hs =>
      rw [(level_frame hs).workerCount]
      exact hw
    | _ => exact hw

/-- Calls of a job, each with the steps of the submission. -/
def job (calls : List (Request × ℕ)) : List Act :=
  [.takeJob]++calls.flatMap (fun call =>
    .level (.call call.1)::List.replicate call.2 (.level .submit))++[.endJob]

/-- A job with a task that waits for a tensor of another level, one that waits
for that task, and one that is run. -/
def drained : List Act := List.flatten [
  [.start,.submitOrchestrator],
  job [(⟨"first",[⟨7,4⟩],[⟨1,4⟩]⟩,7),(⟨"second",[⟨1,4⟩],[]⟩,8),(⟨"third",[],[]⟩,6)],
  [.requestStop,.leaveOrchestrator,.poll 0],List.replicate 7 (.level (.work 0)),
  [.leaveWorker 0,.joined]]

theorem jobs_in_order_drained : ∃ s₀ s, init 1 1 {} = some s₀ ∧ Run Steps drained s₀ s ∧
    s.finished++current s.orchestrator++s.orchQueue = List.range s.submitted := by
  obtain ⟨s₀,s,h₀,hr,-⟩ := exists_run (f := step) (o := init 1 1 {}) (l := drained)
    (g := fun _ _ => true) (c := fun _ => true) (by decide +kernel)
  exact ⟨s₀,s,h₀,hr,(jobs_in_order h₀ hr).1⟩

/-- The worker finds the queue empty before the job has put its task there. -/
def abandoned : List Act := List.flatten [
  [.start,.submitOrchestrator,.requestStop,.leaveWorker 0],job [(⟨"late",[],[]⟩,6)],
  [.leaveOrchestrator,.poll 0,.joined]]

/-- Where the last worker leaves first, `stop` returns with a task that is ready
and was not run. -/
theorem ready_task_abandoned : ∃ s₀ s, init 1 1 {} = some s₀ ∧ Run Steps abandoned s₀ s ∧
    s.running = false ∧ s.finished = [0] ∧ (s.runtime.get 0).status = .ready ∧
    s.runtime.walks = [] := by
  obtain ⟨s₀,s,h₀,hr,-,ht⟩ := exists_run (f := step) (o := init 1 1 {}) (l := abandoned)
    (g := fun _ _ => true)
    (c := fun s => decide (s.running = false ∧ s.finished = [0] ∧
      (s.runtime.get 0).status = .ready ∧ s.runtime.walks = [])) (by decide +kernel)
  exact ⟨s₀,s,h₀,hr,of_decide_eq_true ht⟩

end Draining

end Linqu.LevelService
