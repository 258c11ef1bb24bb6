import Linqu.LevelWorkers

/-!
# Producers before consumers

`on_task_complete` stores COMPLETED before it takes the lock of the walk, and
`add_consumer_to_producer` looks at the status under that lock. A consumer that
is exposed in between is counted by both. In a run in which that does not
happen, and no scheduler counts an external input twice, the refcount of a task
is the number of its producers that have been walked, and no task is put into
the ready queue before its producers are done.
-/

set_option autoImplicit false

namespace Linqu.LevelOrder
open Linqu.TaskRing Linqu.DepPool Linqu.ReadyQueue Linqu.Ownership Linqu.Transition
open Linqu.Level Linqu.Level.LevelRuntime Linqu.LevelMoves Linqu.LevelLayout Linqu.LevelWiring
open Linqu.LevelSubmission Linqu.LevelWorkers

/-- The submitter does not see a producer between its COMPLETED and its walk,
and no scheduler counts a task that is being prepared or counted. -/
def NoRace (s : LevelRuntime) : Act → Prop
  | .submit => ∀ p ∈ exposed s.submitter, (s.get p).status.isDone = true → p ∈ s.walks
  | .schedule k => ∀ i ∈ counted s (s.schedulers k), preparing s.submitter ≠ some i ∧ ¬Clears s i
  | _ => True

instance (s : LevelRuntime) : DecidablePred (NoRace s)
  | .call _ => .isTrue trivial
  | .submit => inferInstanceAs (Decidable (∀ p ∈ exposed s.submitter, _ = true → p ∈ s.walks))
  | .work _ => .isTrue trivial
  | .schedule k =>
    inferInstanceAs (Decidable (∀ i ∈ counted s (s.schedulers k), _ ≠ some i ∧ ¬Clears s i))
  | .markReady _ => .isTrue trivial

variable {exact : Prop} {s s' : LevelRuntime} {a : Act}

theorem wired_move (h : Wired exact {} s) (hlate : LateScan s a) (hrace : exact → NoRace s a)
    (hle : ¬exact → s'.taskRing.currentIndex ≤ s'.taskRing.windowSize) (hm : Move s a s') :
    Wired exact {} s' := by
  cases a with
  | call req =>
    cases hm with
    | call hpc =>
      refine Wired.proceed h rfl trivial (by rw [hpc]; rfl) (by rw [hpc]; rfl) trivial
        (fun c hc => ?_) (by rw [hpc]; rfl) rfl
      rw [hpc] at hc
      cases hc
  | submit => exact wired_submit h hm hrace hle
  | work w => exact wired_work h hm
  | schedule k => exact wired_schedule h hm hlate (fun he i hi => (hrace he i hi).2)
  | markReady handle =>
    cases hm
    exact ⟨{ h.laid with },h.placed,h.alive,{ h.graph with },{ h.counts with },{ h.owned with },
      { h.ledger with },h.history⟩

theorem Initial.wired {cfg : LevelRuntimeConfig} (h : Initial cfg s)
    (hcap : cfg.taskRingWindow ≤ cfg.readyQueueCapacity) : Wired exact {} s := by
  have hnone : ∀ c, ¬Known s c := fun c hc => by
    have h0 := hc.1
    have h1 := hc.2
    rw [h.current] at h1
    omega
  have howns : ∀ th, owns s th = none := by
    intro th
    cases th with
    | submitter => rw [owns, h.submitter]; rfl
    | scheduler k => rw [owns, h.schedulers]; rfl
    | worker i => rw [owns, h.workers]; rfl
  have hentered : entered s = [] := by
    rw [entered, h.enqueues]
    rfl
  have hcont : s.readyQueue.contents = [] := by
    rw [h.queue]
    rfl
  refine ⟨h.laid,?_,fun _ => h.alive,⟨fun p c hp => absurd hp (hnone p),
    fun p hp => absurd hp (hnone p)⟩,?_,?_,⟨fun _ p hp => absurd hp (hnone p),fun i _ => ?_,
    fun _ i => ?_⟩,fun _ => ?_⟩
  · rw [h.current]
    exact h.window_pos.le
  · refine ⟨fun c hc => absurd hc (hnone c),fun _ c hc => absurd hc (hnone c),
      fun c hc => absurd hc (hnone c),?_,fun k i count hk => ?_,fun c hc => absurd hc (hnone c)⟩
    · rw [h.submitter]
      trivial
    · rw [h.schedulers] at hk
      cases hk
  · constructor
    case walked =>
      rw [h.walks]
      exact fun p hp => by cases hp
    case started => exact fun c hc => absurd hc (hnone c)
    case kept => exact fun _ c hc => absurd hc (hnone c)
    case exclusive =>
      rw [hcont]
      refine ⟨fun a b t ha => ?_,List.nodup_nil,fun a t _ => List.not_mem_nil⟩
      rw [howns] at ha
      cases ha
    case queued =>
      rw [hcont]
      exact fun t ht => by cases ht
    case phases =>
      intro th t ht
      rw [howns] at ht
      cases ht
    case targets =>
      intro i t target more hi
      rw [h.workers] at hi
      cases hi
    case once =>
      rw [hentered]
      exact List.nodup_nil
    case unentered =>
      rw [hentered]
      exact fun t ht => by cases ht
    case entering =>
      intro th t _ ht
      rw [howns] at ht
      cases ht
    case claimed => exact fun t ht => by cases ht
    case complete => exact fun c hc => absurd hc (hnone c)
    case head_le =>
      rw [h.queue]
      exact le_rfl
    case room =>
      rw [h.window, h.queue]
      exact Int.ofNat_le.mpr hcap
  · rw [h.workers]
  · rw [h.workers]
    trivial
  · rw [h.enqueues]
    exact fun e he => by cases he

/-- In every run without such a race, over a ready queue with room for the task
ring, every task was put into the queue with its producers done, and every
refcount is the number of edges whose producer has been walked, together with
the external inputs that were counted. -/
theorem enqueued_after_producers {schedThreads workerThreads : ℤ} {cfg : LevelRuntimeConfig}
    {s₀ s : LevelRuntime} {acts : List Act}
    (hinit : init schedThreads workerThreads cfg = some s₀)
    (hcap : cfg.taskRingWindow ≤ cfg.readyQueueCapacity) (hrun : Run Steps acts s₀ s)
    (hrace : Guarded Steps NoRace acts s₀) :
    (∀ e ∈ s.enqueues, AfterProducers e) ∧ ∀ c, Known s c →
      (s.get c).atomicFaninRefcount+(unexposed s.submitter c).countP (walked s)+owed s c =
        (s.faninList c).countP (walked s)+externals s c := by
  have h : Wired True {} s := by
    refine run_move (fun u a u' hu hc hm => ?_) (Initial.wired (init_spec hinit) hcap) hrace hrun
    refine wired_move hu ?_ (fun _ => hc) (fun hn => absurd trivial hn) hm
    cases a with
    | schedule k => exact fun i hi => (hc i hi).1
    | _ => trivial
  refine ⟨h.history trivial,fun c hc => ?_⟩
  have hlow := h.counts.lower c hc
  have hup := h.counts.upper trivial c hc
  rw [List.count_nil] at hlow hup
  omega

/-- A producer and its consumer, submitted before the producer runs. -/
def pipeline : List Act := List.flatten [
  [.call ⟨"producer",[],[⟨1,4⟩]⟩],List.replicate 6 .submit,
  [.call ⟨"consumer",[⟨1,4⟩],[]⟩],List.replicate 8 .submit,List.replicate 5 (.work 0)]

theorem enqueued_after_producers_pipeline : ∃ s₀ s, init 1 1 {} = some s₀ ∧
    Run Steps pipeline s₀ s ∧ entered s = [1,0] ∧ s.faninList 1 = [0] ∧
    (∀ e ∈ s.enqueues, AfterProducers e) ∧ ∀ c, Known s c →
      (s.get c).atomicFaninRefcount+(unexposed s.submitter c).countP (walked s)+owed s c =
        (s.faninList c).countP (walked s)+externals s c := by
  obtain ⟨s₀,s,h₀,hr,hg,ht⟩ := exists_run (f := step) (o := init 1 1 {}) (l := pipeline)
    (g := fun s a => decide (NoRace s a))
    (c := fun s => decide (entered s = [1,0] ∧ s.faninList 1 = [0])) (by decide +kernel)
  have hrace := guarded_mono (fun _ _ => of_decide_eq_true) hg
  obtain ⟨hent,hfi⟩ := of_decide_eq_true ht
  exact ⟨s₀,s,h₀,hr,hent,hfi,enqueued_after_producers h₀ (by decide) hr hrace⟩

/-- A consumer of two tasks is exposed to the first one after its COMPLETED and
before its walk. -/
def countedTwice : List Act := List.flatten [
  [.call ⟨"first",[],[⟨1,4⟩]⟩],List.replicate 6 .submit,
  [.call ⟨"second",[],[⟨2,4⟩]⟩],List.replicate 6 .submit,
  [.call ⟨"consumer",[⟨1,4⟩,⟨2,4⟩],[]⟩],List.replicate 7 .submit,
  List.replicate 4 (.work 0),[.submit,.work 0]]

/-- Both count the edge, and the consumer is put into the queue although the
second producer has not even been started. -/
theorem consumer_enqueued_early : ∃ s₀ s, init 1 1 {} = some s₀ ∧ Run Steps countedTwice s₀ s ∧
    ∃ e ∈ s.enqueues, e.taskId = 2 ∧ (e.ring.get 1).status = .ready ∧
      e.depPool.tasks (e.ring.get 2).depListHead = [1,0] ∧ ¬AfterProducers e := by
  obtain ⟨s₀,s,h₀,hr,-,ht⟩ := exists_run (f := step) (o := init 1 1 {}) (l := countedTwice)
    (g := fun _ _ => true)
    (c := fun s => s.enqueues.head?.any fun e : Enqueue => decide (e.taskId = 2 ∧
      (e.ring.get 1).status = .ready ∧ e.depPool.tasks (e.ring.get 2).depListHead = [1,0]))
    (by decide +kernel)
  obtain ⟨e,he,ht⟩ := (Option.any_eq_true _ _).mp ht
  obtain ⟨hid,hst,hps⟩ := of_decide_eq_true ht
  refine ⟨s₀,s,h₀,hr,e,List.mem_of_mem_head? he,hid,hst,hps,fun hafter => ?_⟩
  rw [AfterProducers, hid, hps] at hafter
  have := hafter 1 (by decide)
  rw [hst] at this
  cases this

end Linqu.LevelOrder
