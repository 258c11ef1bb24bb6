import Linqu.LevelWorkers

/-!
# Every task is put into the queue once

A slot can be seen by a scheduler as soon as it is allocated, as PENDING with a
fanin count of zero, while the submitter is still at the external inputs and
will store the status without looking. As long as no scheduler counts a task
before that, a task leaves PENDING once, after it has been prepared, and one
thread puts it into the queue. The capacity of the queue does not matter here.
-/

set_option autoImplicit false

namespace Linqu.LevelOnce
open Linqu.TaskRing Linqu.DepPool Linqu.ReadyQueue Linqu.TensorMapNames Linqu.Transition
open Linqu.Level Linqu.Level.LevelRuntime Linqu.LevelMoves Linqu.LevelLayout Linqu.LevelWiring
open Linqu.LevelSubmission Linqu.LevelWorkers

/-- A submitted task that has left PENDING. -/
def Settled (s : LevelRuntime) (t : ℤ) : Prop := Known s t ∧ (s.get t).status ≠ .pending

/-- `clm` are the tasks that a step has claimed and not put into the queue yet. -/
structure Once (clm : List ℤ) (s : LevelRuntime) : Prop where
  laid : Laid s
  placed : s.taskRing.currentIndex ≤ s.taskRing.windowSize
  fresh : ∀ c, preparing s.submitter = some c → (s.get c).status = .pending
  late : ∀ k i count, raised (s.schedulers k) = some (i,count) → preparing s.submitter ≠ some i
  exposed : ∀ p, ∀ c ∈ s.fanoutList p, preparing s.submitter ≠ some c
  once : (entered s).Nodup
  settled : ∀ t ∈ entered s, Settled s t
  single : ∀ th th' t, th.enters = true → th'.enters = true → owns s th = some t →
    owns s th' = some t → th = th'
  entering : ∀ th t, th.enters = true → owns s th = some t → Settled s t ∧ t ∉ entered s
  claimed : ∀ t ∈ clm, Settled s t ∧ t ∉ entered s ∧
    ∀ th, th.enters = true → owns s th ≠ some t
  queued : ∀ k, s.readyQueue.buf k < 0 ∨ s.readyQueue.buf k ∈ entered s
  working : ∀ i t, workOwns (s.workers i) = some t → t ∈ entered s
  targets : ∀ i t target more, s.workers i = .consuming t target more → Settled s target

variable {s s' : LevelRuntime} {t : ℤ} {clm : List ℤ} {a : Act}

theorem preparing_known (h : Laid s) {c : ℤ} (hc : preparing s.submitter = some c) : Known s c := by
  have hin := h.submitter
  revert hc hin
  cases s.submitter with
  | scanning tid outputs inputs fanin ps =>
    rintro ⟨⟩ hin
    exact Newest.known hin.1
  | registering tid outputs fanin ps =>
    rintro ⟨⟩ hin
    exact Newest.known hin.1
  | storingFanin tid fanin ps =>
    rintro ⟨⟩ hin
    exact Newest.known hin.1
  | storingStatus tid fanin ps =>
    rintro ⟨⟩ hin
    exact Newest.known hin.1
  | _ => intro hc; cases hc

section Updates

/-- An update that leaves the statuses and the fanout chains alone. -/
theorem Once.modify (h : Once clm s) {f : LinquTaskDescriptor → LinquTaskDescriptor}
    (hlaid : Laid (s.modify t f))
    (hf : ∀ d, (f d).status = d.status ∧ (f d).fanoutListHead = d.fanoutListHead) :
    Once clm (s.modify t f) := by
  have hst := fun u => proj_modify (·.status) (fun d => (hf d).1) s t u
  have hfo := fun u => fanoutList_modify (fun d => (hf d).2) s t u
  have hsettled : ∀ u, Settled s u → Settled (s.modify t f) u := fun u hu =>
    ⟨hu.1,(hst u).trans_ne hu.2⟩
  exact { h with
    laid := hlaid
    fresh := fun c hc => (hst c).trans (h.fresh c hc)
    exposed := fun p c hc => h.exposed p c (hfo p ▸ hc)
    settled := fun u hu => hsettled u (h.settled u hu)
    entering := fun th u hth hu => (h.entering th u hth hu).imp_left (hsettled u)
    claimed := fun u hu => (h.claimed u hu).imp_left (hsettled u)
    targets := fun i u target more hi => hsettled target (h.targets i u target more hi) }

/-- The status of a task that is not being prepared moves on. -/
theorem Once.setStatus (h : Once clm s) {v : Status} (hlaid : Laid (s.setStatus t v))
    (ht : Known s t) (hv : v ≠ .pending) (hprep : preparing s.submitter ≠ some t) :
    Once clm (s.setStatus t v) ∧ Settled (s.setStatus t v) t := by
  have hset : ((s.setStatus t v).get t).status ≠ .pending := (status_setStatus s t v).trans_ne hv
  have hkeep : ∀ u, Known s u → u ≠ t → (s.setStatus t v).get u = s.get u := fun u hu hne => by
    rw [LevelRuntime.setStatus, Known.get_modify h.placed ht hu, if_neg hne]
  have hfo : ∀ u, (s.setStatus t v).fanoutList u = s.fanoutList u :=
    fanoutList_modify (fun _ => by rfl) s t
  have hsettled : ∀ u, Settled s u → Settled (s.setStatus t v) u := by
    intro u hu
    by_cases hut : u = t
    · rw [hut]
      exact ⟨ht,hset⟩
    · exact ⟨hu.1,by rw [hkeep u hu.1 hut]; exact hu.2⟩
  refine ⟨{ h with
    laid := hlaid
    fresh := fun c hc => ?_
    exposed := fun p c hc => h.exposed p c (hfo p ▸ hc)
    settled := fun u hu => hsettled u (h.settled u hu)
    entering := fun th u hth hu => (h.entering th u hth hu).imp_left (hsettled u)
    claimed := fun u hu => (h.claimed u hu).imp_left (hsettled u)
    targets := fun i u target more hi => hsettled target (h.targets i u target more hi) },ht,hset⟩
  have hne : c ≠ t := by
    rintro rfl
    exact hprep hc
  have hknown := preparing_known h.laid hc
  rw [hkeep c hknown hne]
  exact h.fresh c hc

/-- The transition from PENDING to READY. -/
theorem Once.claim (h : Once [] s) (ht : Known s t) (hprep : preparing s.submitter ≠ some t)
    (hst : (s.get t).status = .pending) : Once [t] (s.setStatus t .ready) := by
  obtain ⟨hset,hsettled⟩ :=
    h.setStatus (h.laid.setStatus t (by decide)) ht (v := .ready) (by decide) hprep
  refine { hset with claimed := fun u hu => ?_ }
  rw [List.mem_singleton.mp hu]
  exact ⟨hsettled,fun hm => (h.settled t hm).2 hst,
    fun th hth ho => (h.entering th t hth ho).1.2 hst⟩

/-- A claimed task is put into the queue. -/
theorem Once.enqueueReady (h : Once [t] s) : Once [] (s.enqueueReady t) := by
  obtain ⟨hset,hent,hfree⟩ := h.claimed t (List.mem_singleton_self t)
  refine { h with
    laid := h.laid.enqueueReady hset.1.2
    once := List.nodup_cons.mpr ⟨hent,h.once⟩
    settled := List.forall_mem_cons.mpr ⟨hset,h.settled⟩
    entering := fun th u hth hu => ?_
    claimed := fun u hu => by cases hu
    queued := fun k => ?_
    working := fun i u hu => List.mem_cons_of_mem t (h.working i u hu) }
  · obtain ⟨hs,hn⟩ := h.entering th u hth hu
    refine ⟨hs,fun hm => ?_⟩
    rcases List.mem_cons.mp hm with hut | hm
    · change u = t at hut
      exact hfree th hth (hut ▸ hu)
    · exact hn hm
  · change Function.update s.readyQueue.buf _ t k < 0 ∨ Function.update s.readyQueue.buf _ t k ∈ _
    rw [Function.update_apply]
    split
    · exact Or.inr List.mem_cons_self
    · exact (h.queued k).imp_right (List.mem_cons_of_mem t)

/-- A worker goes on with a task that has been in the queue. -/
theorem Once.setWorker (h : Once clm s) {w : ℕ} {pc : WorkerPc}
    (hin : WorkerIn s.taskRing.currentIndex pc)
    (hown : ∀ t, workOwns pc = some t → t ∈ entered s)
    (htarget : ∀ t target more, pc = .consuming t target more → Settled s target) :
    Once clm (s.setWorker w pc) := by
  have howns : ∀ th : Thread, th.enters = true → owns (s.setWorker w pc) th = owns s th := by
    intro th hth
    cases th with
    | worker i => cases hth
    | _ => rfl
  refine { h with
    laid := h.laid.setWorker hin
    single := fun th th' u hth hth' hu hu' => ?_
    entering := fun th u hth hu => h.entering th u hth (howns th hth ▸ hu)
    claimed := fun u hu => ?_
    working := fun i u hu => ?_
    targets := fun i u target more hi => ?_ }
  · rw [howns th hth] at hu
    rw [howns th' hth'] at hu'
    exact h.single th th' u hth hth' hu hu'
  · obtain ⟨hs,hn,hf⟩ := h.claimed u hu
    exact ⟨hs,hn,fun th hth => (howns th hth).trans_ne (hf th hth)⟩
  · rw [workers_setWorker] at hu
    split at hu
    · exact hown u hu
    · exact h.working i u hu
  · rw [workers_setWorker] at hi
    split at hi
    · exact htarget u target more hi
    · exact h.targets i u target more hi

/-- A thread that puts tasks into the queue takes a task, or gives it up. -/
theorem Once.setEnterer {clm' : List ℤ} (h : Once clm s) {th : Thread} {o : Option ℤ}
    (hstate : ∃ sub sch, s' = { s with submitter := sub, schedulers := sch })
    (hlaid : Laid s') (howns : owns s' = Function.update (owns s) th o) (hth : th.enters = true)
    (hfresh : ∀ c, preparing s'.submitter = some c → preparing s.submitter = some c)
    (hlate : ∀ k i count, raised (s'.schedulers k) = some (i,count) →
      preparing s'.submitter ≠ some i)
    (hown : ∀ t, o = some t → Settled s t ∧ t ∉ entered s ∧
      ∀ th', th'.enters = true → th' ≠ th → owns s th' ≠ some t)
    (hclm : ∀ t ∈ clm', Settled s t ∧ t ∉ entered s ∧ o ≠ some t ∧
      ∀ th', th'.enters = true → th' ≠ th → owns s th' ≠ some t) : Once clm' s' := by
  obtain ⟨sub,sch,rfl⟩ := hstate
  have hold : ∀ th' u, owns { s with submitter := sub, schedulers := sch } th' = some u →
      th' = th ∧ o = some u ∨ th' ≠ th ∧ owns s th' = some u := by
    intro th' u hu
    rw [howns, Function.update_apply] at hu
    split at hu
    · rename_i he
      exact Or.inl ⟨he,hu⟩
    · rename_i hne
      exact Or.inr ⟨hne,hu⟩
  refine { h with
    laid := hlaid
    fresh := fun c hc => h.fresh c (hfresh c hc)
    late := hlate
    exposed := fun p c hc he => h.exposed p c hc (hfresh c he)
    single := fun th₁ th₂ u h₁ h₂ hu₁ hu₂ => ?_
    entering := fun th' u hth' hu => ?_
    claimed := fun u hu => ?_ }
  · rcases hold th₁ u hu₁ with ⟨rfl,ho⟩ | ⟨hne₁,ho₁⟩ <;>
      rcases hold th₂ u hu₂ with ⟨rfl,ho'⟩ | ⟨hne₂,ho₂⟩
    · rfl
    · exact absurd ho₂ ((hown u ho).2.2 th₂ h₂ hne₂)
    · exact absurd ho₁ ((hown u ho').2.2 th₁ h₁ hne₁)
    · exact h.single th₁ th₂ u h₁ h₂ ho₁ ho₂
  · rcases hold th' u hu with ⟨-,ho⟩ | ⟨-,ho⟩
    · exact ⟨(hown u ho).1,(hown u ho).2.1⟩
    · exact h.entering th' u hth' ho
  · obtain ⟨hs,hn,hne,hf⟩ := hclm u hu
    refine ⟨hs,hn,fun th' hth' ho => ?_⟩
    rcases hold th' u ho with ⟨-,ho⟩ | ⟨hne',ho⟩
    · exact hne ho
    · exact hf th' hth' hne' ho

/-- A task that has been in the queue is not being prepared. -/
theorem Once.not_preparing (h : Once clm s) (ht : Settled s t) : preparing s.submitter ≠ some t :=
  fun he => ht.2 (h.fresh t he)

/-- The submitter goes on without owning a task. -/
theorem Once.proceed (h : Once [] s) {pc : SubmitPc}
    (hin : SubmitterIn s.tensorMap s.taskRing.currentIndex pc)
    (hprep : ∀ c, preparing pc = some c → preparing s.submitter = some c)
    (hown : submitOwns pc = none) : Once [] (s.setSubmitter pc) := by
  refine h.setEnterer ⟨_,_,rfl⟩ (h.laid.setSubmitter hin) (owns_setSubmitter s pc) rfl hprep
    (fun k i count hk he => h.late k i count hk (hprep i he)) (fun t ht => ?_)
    (fun t ht => by cases ht)
  rw [hown] at ht
  cases ht

theorem Once.take (h : Once [t] s) (hin : Newest s.taskRing.currentIndex t) :
    Once [] (s.setSubmitter (.enqueuing t)) := by
  obtain ⟨hset,hent,hfree⟩ := h.claimed t (List.mem_singleton_self t)
  refine h.setEnterer ⟨_,_,rfl⟩ (h.laid.setSubmitter hin) (owns_setSubmitter s _) rfl
    (fun c hc => by cases hc) (fun k i count hk he => by cases he) (fun u hu => ?_)
    (fun u hu => by cases hu)
  cases hu
  exact ⟨hset,hent,fun th' hth' _ => hfree th' hth'⟩

theorem Once.leave (h : Once [] s) (hpc : s.submitter = .enqueuing t) :
    Once [t] (s.setSubmitter .idle) := by
  have hown : owns s .submitter = some t := by rw [owns, hpc]; rfl
  obtain ⟨hset,hent⟩ := h.entering .submitter t rfl hown
  refine h.setEnterer ⟨_,_,rfl⟩ (h.laid.setSubmitter trivial) (owns_setSubmitter s _) rfl
    (fun c hc => by cases hc) (fun k i count hk he => by cases he) (fun u hu => by cases hu)
    (fun u hu => ?_)
  rw [List.mem_singleton.mp hu]
  exact ⟨hset,hent,fun he => (by cases he),fun th' hth' hne ho =>
    hne (h.single th' .submitter t hth' rfl ho hown)⟩

theorem Once.setScheduler {clm' : List ℤ} (h : Once clm s) {k : ℕ} {pc : SchedulePc}
    (hin : SchedulerIn s.taskRing.currentIndex pc)
    (hraised : ∀ i count, raised pc = some (i,count) → preparing s.submitter ≠ some i)
    (hown : ∀ t, scheduleOwns pc = some t → Settled s t ∧ t ∉ entered s ∧
      ∀ th', th'.enters = true → th' ≠ .scheduler k → owns s th' ≠ some t)
    (hclm : ∀ t ∈ clm', Settled s t ∧ t ∉ entered s ∧ scheduleOwns pc ≠ some t ∧
      ∀ th', th'.enters = true → th' ≠ .scheduler k → owns s th' ≠ some t) :
    Once clm' (s.setScheduler k pc) := by
  refine h.setEnterer ⟨_,_,rfl⟩ (h.laid.setScheduler hin) (owns_setScheduler s k pc) rfl
    (fun _ hc => hc) (fun j i count hj => ?_) hown hclm
  rw [schedulers_setScheduler] at hj
  split at hj
  · exact hraised i count hj
  · exact h.late j i count hj

/-- A scheduler goes on without owning a task. -/
theorem Once.scan (h : Once [] s) {k : ℕ} {pc : SchedulePc}
    (hin : SchedulerIn s.taskRing.currentIndex pc)
    (hraised : ∀ i count, raised pc = some (i,count) → preparing s.submitter ≠ some i)
    (hown : scheduleOwns pc = none) : Once [] (s.setScheduler k pc) := by
  refine h.setScheduler hin hraised (fun t ht => ?_) (fun t ht => by cases ht)
  rw [hown] at ht
  cases ht

/-- Only the chains differ. -/
theorem Once.relink (h : Once clm s) (hr : Relinked s s') (hlaid : Laid s')
    (hfo : ∀ p, ∀ c ∈ s'.fanoutList p, preparing s.submitter ≠ some c) : Once clm s' := by
  have hst := hr.status
  have hplaced : s'.taskRing.currentIndex ≤ s'.taskRing.windowSize := by
    rw [hr.current, hr.window]
    exact h.placed
  have hsettled : ∀ u, Settled s u → Settled s' u := fun u hu =>
    ⟨(hr.known u).mpr hu.1,(hst u).trans_ne hu.2⟩
  obtain ⟨ring,pool,rfl⟩ := hr.state
  exact { h with
    laid := hlaid
    placed := hplaced
    fresh := fun c hc => (hst c).trans (h.fresh c hc)
    exposed := hfo
    settled := fun u hu => hsettled u (h.settled u hu)
    entering := fun th u hth hu => (h.entering th u hth hu).imp_left (hsettled u)
    claimed := fun u hu => (h.claimed u hu).imp_left (hsettled u)
    targets := fun i u target more hi => hsettled target (h.targets i u target more hi) }

theorem Once.advance (h : Once clm s) : Once clm s.tryAdvanceRingPointers := by
  have hlaid := h.laid.advance
  obtain ⟨tm,heap,-,heq⟩ := tryAdvance_spec s
  rw [heq] at hlaid ⊢
  exact { h with laid := hlaid }

/-- A new task is known to nobody. -/
theorem Once.alloc (h : Once [] s) {req : Request} (ha : Allocates s req s')
    (hown : submitOwns s.submitter = none)
    (hle : s'.taskRing.currentIndex ≤ s'.taskRing.windowSize) : Once [] s' := by
  have hg := Allocates.grown ha h.laid hle
  have howns := hg.owns hown
  have hentered : entered s' = entered s := by rw [entered, entered, ha.enqueues]
  have hsettled : ∀ u, Settled s u → Settled s' u := fun u hu =>
    ⟨(hg.known u).mpr (Or.inl hu.1),by rw [hg.get u hu.1]; exact hu.2⟩
  have hprep : ∀ c, preparing s'.submitter = some c → c = s.taskRing.currentIndex := by
    rw [ha.submitter]
    exact fun c hc => (Option.some.inj hc).symm
  have hlaid := h.laid.alloc ha
  refine ⟨hlaid,hle,fun c hc => ?_,fun k i count hk he => ?_,fun p c hc he => ?_,?_,fun u hu => ?_,
    ?_,fun th u hth hu => ?_,fun u hu => (by cases hu),fun k => ?_,fun i u hu => ?_,
    fun i u target more hi => ?_⟩
  · rw [hprep c hc]
    exact hg.status
  · rw [ha.schedulers] at hk
    have hlt := (Laid.raised_known h.laid hk).2
    rw [hprep i he] at hlt
    exact absurd hlt (lt_irrefl _)
  · have hold : c ∈ s.fanoutList p := by
      rw [fanoutList, ha.depPool, ha.get] at hc
      split at hc
      · rw [LinquDepListPool.tasks_none] at hc
        cases hc
      · exact hc
    have hlt := (h.laid.fanout p c hold).2
    rw [hprep c he] at hlt
    exact absurd hlt (lt_irrefl _)
  · rw [hentered]
    exact h.once
  · rw [hentered] at hu
    exact hsettled u (h.settled u hu)
  · rw [howns]
    exact h.single
  · rw [howns] at hu
    rw [hentered]
    exact (h.entering th u hth hu).imp_left (hsettled u)
  · rw [ha.readyQueue, hentered]
    exact h.queued k
  · rw [ha.workers] at hu
    rw [hentered]
    exact h.working i u hu
  · rw [ha.workers] at hi
    exact hsettled target (h.targets i u target more hi)

theorem Once.notify (h : Once [] s) {c : ℤ} (hc : Known s c)
    (hprep : preparing s.submitter ≠ some c) : Once [] (s.notifyConsumer c) := by
  have hr : Once [] (s.raiseFanin c 1) := h.modify (h.laid.raiseFanin c 1) fun _ => ⟨rfl,rfl⟩
  unfold notifyConsumer wake
  dsimp only
  split
  · split
    · rename_i hst
      exact (hr.claim hc hprep hst).enqueueReady
    · exact hr
  · exact hr

theorem Once.walkFanout (h : Once [] s) (t : ℤ) : Once [] (s.walkFanout t) := by
  have hall : ∀ c ∈ s.fanoutList t, Known s c ∧ preparing s.submitter ≠ some c := fun c hc =>
    ⟨h.laid.fanout t c hc,h.exposed t c hc⟩
  have hfold := foldl_rule (f := notifyConsumer)
    (P := fun l u => Once [] u ∧ Notified s u ∧
      ∀ c ∈ l, Known s c ∧ preparing s.submitter ≠ some c)
    (fun c l u ⟨hu,hn,hl⟩ => ?_) (s.fanoutList t) (s := s.recordWalk t)
    ⟨{ h with laid := { h.laid with } },⟨rfl,rfl,rfl,fun _ => rfl⟩,hall⟩
  · exact hfold.1
  · obtain ⟨⟨hc,hp⟩,hl⟩ := List.forall_mem_cons.mp hl
    have hstep := notifyConsumer_notified u c
    refine ⟨hu.notify ⟨hc.1,hn.current ▸ hc.2⟩ (hn.submitter ▸ hp),?_,hl⟩
    exact ⟨hstep.current.trans hn.current,hstep.submitter.trans hn.submitter,
      hstep.workerCount.trans hn.workerCount,fun u => (hstep.faninList u).trans (hn.faninList u)⟩

end Updates

section Moves

theorem once_submit (h : Once [] s) (hm : Move s .submit s')
    (hle : s'.taskRing.currentIndex ≤ s'.taskRing.windowSize) : Once [] s' := by
  have hlaid := laid_submit h.laid hm
  have hin := hlaid.submitter
  have hsub := h.laid.submitter
  cases hm with
  | alloc hpc ha => exact h.alloc (allocTask_spec ha) (by rw [hpc]; rfl) hle
  | advance hpc => exact h.advance
  | spin hpc => exact h.advance.proceed hin (fun c hc => by cases hc) rfl
  | @link tid p fanin outputs rest input ps m hpc hlook hl =>
    have hr := linkFanin_relinked hl
    have hlists := h.laid.linkFanin_lists hl
    have hsame : m.submitter = s.submitter := by
      obtain ⟨ring,pool,rfl⟩ := hr.state
      rfl
    rw [hpc] at hsub
    have hp := lookup_bounds hsub.2.2 hlook
    have hbound : 0 ≤ p ∧ p+1 < s.taskRing.currentIndex := ⟨hp.1,by have := hsub.1.2; omega⟩
    have hrel := h.relink hr (h.laid.linkFanin hbound hl) fun q c hc =>
      h.exposed q c ((hlists q).2 ▸ hc)
    refine hrel.proceed hin (fun c hc => ?_) rfl
    rw [hsame, hpc]
    exact hc
  | @push tid fanin outputs rest input ps hpc _ _ _ =>
    have hpush : Once [] (s.pushExternal tid input.handle) := { h with laid := { h.laid with } }
    refine hpush.proceed hin (fun c hc => ?_) rfl
    change preparing s.submitter = _
    rw [hpc]
    exact hc
  | skip hpc => exact h.proceed hin (fun c hc => by rw [hpc]; exact hc) rfl
  | buffers hpc hb =>
    obtain ⟨heap,rfl⟩ := allocBuffers_spec hb
    have hheap : Once [] { s with heapRing := heap } := { h with laid := { h.laid with } }
    refine hheap.proceed hin (fun c hc => ?_) rfl
    change preparing s.submitter = _
    rw [hpc]
    exact hc
  | register hpc hr =>
    have hreg := h.laid.register hpc hr
    obtain ⟨tm,scopes,top,-,rfl⟩ := registerTask_spec hr
    rename_i tid fanin outputs ps
    have hend : Once [] (s.modify tid (fun d => { d with heapEnd := top })) :=
      h.modify (h.laid.modify (fun _ => ⟨rfl,rfl⟩)
        (fun _ _ hd => ⟨hd.notConsumed,hd.unreleased,hd.token⟩)) fun _ => ⟨rfl,rfl⟩
    have hall : Once [] ({ s with tensorMap := tm, scopeStack := scopes }.modify tid
        (fun d => { d with heapEnd := top })) := { hend with laid := hreg }
    refine hall.proceed hin (fun c hc => ?_) rfl
    change preparing s.submitter = _
    rw [hpc]
    exact hc
  | @storeFanin tid fanin ps hpc =>
    have hstore : Once [] (s.storeFanin tid fanin) :=
      h.modify (h.laid.storeFanin tid fanin) fun _ => ⟨rfl,rfl⟩
    refine hstore.proceed hin (fun c hc => ?_) rfl
    change preparing s.submitter = _
    rw [hpc]
    exact hc
  | @storeReady tid ps hpc =>
    have hst : (s.get tid).status = .pending := h.fresh tid (by rw [hpc]; rfl)
    rw [hpc] at hsub
    have hprep : Once [] (s.setSubmitter (.exposing tid 0 ps)) :=
      h.proceed hsub (fun c hc => by cases hc) rfl
    exact (hprep.claim (Newest.known hsub.1) (fun he => by cases he) hst).take hsub.1
  | @storePending tid fanin ps hpc _ =>
    have hst : (s.get tid).status = .pending := h.fresh tid (by rw [hpc]; rfl)
    rw [setStatus_self hst]
    rw [hpc] at hsub
    exact h.proceed hsub (fun c hc => by cases hc) rfl
  | @expose tid p fanin ps m hpc ha =>
    rw [hpc] at hsub
    have htid : Known s tid := Newest.known hsub.1
    obtain ⟨m,hm,ha⟩ := Option.bind_eq_some_iff.mp ha
    cases ha
    have hlists := h.laid.linkFanout_lists hm
    have hrel : Once [] m := by
      refine h.relink (linkFanout_relinked hm) (h.laid.linkFanout htid hm) fun q c hc => ?_
      rw [hpc]
      exact fun he => by cases he
    refine Once.proceed ?_ hin (fun c hc => by cases hc) rfl
    split
    · exact hrel.modify (hrel.laid.raiseFanin tid 1) fun _ => ⟨rfl,rfl⟩
    · exact hrel
  | satisfied hpc _ => exact h.proceed hin (fun c hc => by cases hc) rfl
  | unsatisfied hpc _ => exact h.proceed trivial (fun c hc => by cases hc) rfl
  | claim hpc hst =>
    rw [hpc] at hsub
    have hc := h.claim (Newest.known hsub) (by rw [hpc]; exact fun he => by cases he) hst
    exact hc.take hsub
  | lost hpc _ => exact h.proceed trivial (fun c hc => by cases hc) rfl
  | enqueue hpc => exact (h.leave hpc).enqueueReady

/-- A worker acts on its own task. -/
theorem Once.nextStatus (h : Once [] s) {w : ℕ} {v : Status} {pc : WorkerPc}
    (hlaid : Laid (s.setStatus t v)) (hv : v ≠ .pending)
    (hown : workOwns (s.workers w) = some t)
    (hin : WorkerIn s.taskRing.currentIndex pc) (hown' : workOwns pc = some t) :
    Once [] ((s.setStatus t v).setWorker w pc) := by
  have hent := h.working w t hown
  have hset := h.settled t hent
  refine (h.setStatus hlaid hset.1 hv (h.not_preparing hset)).1.setWorker hin (fun u hu => ?_)
    (fun u target more he => ?_)
  · rw [Option.some.inj (hu.symm.trans hown')]
    exact hent
  · rw [he] at hown'
    cases hown'

theorem Once.onward (h : Once [] s) {w : ℕ} {pc : WorkerPc}
    (hin : WorkerIn s.taskRing.currentIndex pc) (hown : workOwns pc = none)
    (htarget : ∀ t target more, pc = .consuming t target more → Settled s target) :
    Once [] (s.setWorker w pc) := by
  refine h.setWorker hin (fun u hu => ?_) htarget
  rw [hown] at hu
  cases hu

theorem resume_ne_consuming (tid t target : ℤ) (more more' : Option (List ℤ)) :
    resume tid more ≠ .consuming t target more' := by
  cases more with
  | none => exact fun he => by cases he
  | some ps => exact fun he => by cases he

theorem once_work (h : Once [] s) {w : ℕ} (hm : Move s (.work w) s') : Once [] s' := by
  have hlaid := laid_work h.laid (apart_of_le h.placed _) hm
  have hin := hlaid.workers w
  cases hm with
  | dequeueNone hpc hq _ =>
    obtain ⟨-,rfl⟩ := dequeueReady_spec hq
    exact { h with laid := hlaid }
  | @dequeue _ t queue hpc hq hpos _ =>
    rw [workers_self] at hin
    have hhead := dequeueReady_spec hq
    have hent : t ∈ entered s := by
      rw [← hhead.1]
      refine (h.queued _).resolve_left ?_
      rw [hhead.1]
      exact not_lt.mpr hpos
    have hpop : Once [] { s with readyQueue := queue } := by
      rw [hhead.2]
      exact { h with laid := { h.laid with } }
    refine hpop.setWorker hin (fun u hu => ?_) (fun _ _ _ he => by cases he)
    cases hu
    exact hent
  | start hpc =>
    rw [workers_self] at hin
    exact h.nextStatus (h.laid.setStatus _ (by decide)) (by decide) (by rw [hpc]; rfl) hin rfl
  | @ran _ t hpc =>
    rw [workers_self] at hin
    have hmark : Once [] (s.markOutputs (s.taskOutputs (s.taskRing.slot t))) :=
      { h with laid := { h.laid with } }
    refine hmark.setWorker hin (fun u hu => ?_) (fun _ _ _ he => by cases he)
    cases hu
    exact h.working w t (by rw [hpc]; rfl)
  | complete hpc =>
    rw [workers_self] at hin
    exact h.nextStatus (h.laid.setStatus _ (by decide)) (by decide) (by rw [hpc]; rfl) hin rfl
  | walk hpc =>
    rw [workers_self] at hin
    exact (h.walkFanout _).onward hin rfl (fun _ _ _ he => by cases he)
  | @release _ t p ps hpc =>
    rw [workers_self] at hin
    have hw := h.laid.workers w
    have hapart := apart_of_le h.placed (.work w)
    rw [hpc] at hw
    rw [WritesApart, hpc] at hapart
    have hp := List.forall_mem_cons.mp hw.2
    have hraise : Once [] (s.raiseFanout p) :=
      h.modify (h.laid.raiseFanout (hapart p rfl hp.1.1 hp.1.2)) fun _ => ⟨rfl,rfl⟩
    exact hraise.onward hin rfl (fun _ _ _ he => by cases he)
  | released hpc =>
    rw [workers_self] at hin
    exact h.onward hin rfl (fun _ _ _ he => by cases he)
  | consumable hpc hdone _ =>
    rw [workers_self] at hin
    have hw := h.laid.workers w
    rw [hpc] at hw
    refine h.onward hin rfl (fun u target more he => ?_)
    cases he
    exact ⟨hw.2.1,by rw [hdone]; decide⟩
  | kept hpc =>
    rw [workers_self] at hin
    exact h.onward hin (workOwns_resume _ _) (fun _ _ _ he => (resume_ne_consuming _ _ _ _ _ he).elim)
  | @consume _ t target more hpc =>
    rw [workers_self] at hin
    have hw := h.laid.workers w
    have hapart := apart_of_le h.placed (.work w)
    rw [hpc] at hw
    rw [WritesApart, hpc] at hapart
    have hset := h.targets w t target more hpc
    have hconsume := (h.setStatus (h.laid.consume (hapart target rfl hw.2.1.1 hw.2.1.2)) hset.1
      (by decide) (h.not_preparing hset)).1
    exact hconsume.onward hin rfl (fun _ _ _ he => by cases he)
  | retire hpc =>
    rw [workers_self] at hin
    exact h.advance.onward hin (workOwns_resume _ _)
      (fun _ _ _ he => (resume_ne_consuming _ _ _ _ _ he).elim)
  | retained hpc =>
    rw [workers_self] at hin
    exact h.onward hin (workOwns_resume _ _) (fun _ _ _ he => (resume_ne_consuming _ _ _ _ _ he).elim)

theorem once_schedule (h : Once [] s) {k : ℕ} (hm : Move s (.schedule k) s')
    (hlate : LateScan s (.schedule k)) : Once [] s' := by
  have hin := (laid_schedule h.laid hm).schedulers k
  cases hm with
  | beginPass hpc =>
    rw [schedulers_setScheduler, if_pos rfl] at hin
    exact h.scan hin (fun i n hi => by cases hi) rfl
  | endPass hpc => exact h.scan trivial (fun i n hi => by cases hi) rfl
  | @raise _ i cur hpc hlt hext _ =>
    have hc := hlate i (by rw [hpc, counted, if_pos ⟨hlt,hext⟩]; rfl)
    have hraise : Once [] (s.raiseFanin i (s.externalReady (s.taskRing.slot i)).length) :=
      h.modify (h.laid.raiseFanin i _) fun _ => ⟨rfl,rfl⟩
    have hk := h.laid.schedulers k
    rw [hpc] at hk
    refine hraise.scan ⟨hk.1,hlt,hk.2⟩ (fun j n hj => ?_) rfl
    cases hj
    exact hc
  | pass hpc =>
    rw [schedulers_setScheduler, if_pos rfl] at hin
    exact h.scan hin (fun i n hi => by cases hi) rfl
  | @clear _ i cur count hpc _ =>
    have hk := h.laid.schedulers k
    rw [hpc] at hk
    have hclear : Once [] (s.clearReady i) := { h with laid := { h.laid with } }
    refine hclear.scan hk (fun j n hj => ?_) rfl
    cases hj
    exact h.late k i count (by rw [hpc]; rfl)
  | @promote _ i cur count hpc _ hst =>
    have hk := h.laid.schedulers k
    rw [hpc] at hk
    have hclaim := h.claim ⟨hk.1,hk.2.1.trans_le hk.2.2⟩
      (h.late k i count (by rw [hpc]; rfl)) hst
    obtain ⟨hset,hent,hfree⟩ := hclaim.claimed i (List.mem_singleton_self i)
    refine hclaim.setScheduler hk (fun j n hj => by cases hj) (fun u hu => ?_)
      (fun u hu => by cases hu)
    cases hu
    exact ⟨hset,hent,fun th' hth' _ => hfree th' hth'⟩
  | giveUp hpc _ =>
    rw [schedulers_setScheduler, if_pos rfl] at hin
    exact h.scan hin (fun i n hi => by cases hi) rfl
  | @promoted _ i cur hpc =>
    have hk := h.laid.schedulers k
    rw [hpc] at hk
    have hown : owns s (.scheduler k) = some i := by rw [owns, hpc]; rfl
    obtain ⟨hset,hent⟩ := h.entering (.scheduler k) i rfl hown
    have hleave : Once [i] (s.setScheduler k (.scanning (i+1) cur)) := by
      refine h.setScheduler ⟨by have := hk.1; omega,hk.2.2⟩ (fun j n hj => by cases hj)
        (fun u hu => by cases hu) (fun u hu => ?_)
      rw [List.mem_singleton.mp hu]
      exact ⟨hset,hent,fun he => (by cases he),fun th' hth' hne ho =>
        hne (h.single th' (.scheduler k) i hth' rfl ho hown)⟩
    exact hleave.enqueueReady

theorem once_move (h : Once [] s) (hlate : LateScan s a)
    (hle : s'.taskRing.currentIndex ≤ s'.taskRing.windowSize) (hm : Move s a s') :
    Once [] s' := by
  cases a with
  | call req =>
    cases hm
    exact h.proceed trivial (fun c hc => by cases hc) rfl
  | submit => exact once_submit h hm hle
  | work w => exact once_work h hm
  | schedule k => exact once_schedule h hm hlate
  | markReady handle =>
    cases hm
    exact { h with laid := { h.laid with } }

theorem Initial.once {cfg : LevelRuntimeConfig} (h : Initial cfg s) : Once [] s := by
  have hentered : entered s = [] := by rw [entered, h.enqueues]; rfl
  have hprep : ∀ c, preparing s.submitter ≠ some c := by
    rw [h.submitter]
    exact fun c he => by cases he
  have howns : ∀ th t, owns s th ≠ some t := by
    intro th t he
    cases th with
    | submitter => rw [owns, h.submitter] at he; cases he
    | scheduler k => rw [owns, h.schedulers] at he; cases he
    | worker i => rw [owns, h.workers] at he; cases he
  refine ⟨h.laid,?_,fun c hc => absurd hc (hprep c),fun k i count _ => hprep i,
    fun p c _ => hprep c,?_,fun t ht => ?_,fun th th' t _ _ ht => absurd ht (howns th t),
    fun th t _ ht => absurd ht (howns th t),fun t ht => (by cases ht),fun k => ?_,fun i t ht => ?_,
    fun i t target more hi => ?_⟩
  · rw [h.current]
    exact h.window_pos.le
  · rw [hentered]
    exact List.nodup_nil
  · rw [hentered] at ht
    cases ht
  · rw [h.queue]
    exact Or.inl (by decide : (-1:ℤ) < 0)
  · rw [h.workers] at ht
    cases ht
  · rw [h.workers] at hi
    cases hi

end Moves

/-- In every run in which no scheduler counts a task that is still being
prepared, and that has submitted at most as many tasks as the ring has slots,
every id has been put into the queue at most once, and after the submitter had
stored its fanin count and its status. -/
theorem enqueued_once {schedThreads workerThreads : ℤ} {cfg : LevelRuntimeConfig}
    {s₀ s : LevelRuntime} {acts : List Act}
    (hinit : init schedThreads workerThreads cfg = some s₀) (hrun : Run Steps acts s₀ s)
    (hlate : Guarded Steps LateScan acts s₀)
    (hfit : s.taskRing.currentIndex ≤ s.taskRing.windowSize) :
    (entered s).Nodup ∧ ∀ t ∈ entered s, preparing s.submitter ≠ some t := by
  have hinv : s.taskRing.currentIndex ≤ s.taskRing.windowSize → Once [] s := by
    refine run_move (P := fun u => u.taskRing.currentIndex ≤ u.taskRing.windowSize → Once [] u)
      (fun u a u' hu hl hm hle => ?_) (fun _ => Initial.once (init_spec hinit)) hlate hrun
    obtain ⟨hwindow,hcur⟩ := move_current hm
    exact once_move (hu (by omega)) hl hle hm
  have h := hinv hfit
  exact ⟨h.once,fun t ht => h.not_preparing (h.settled t ht)⟩

/-- A task with an external input that becomes ready after its submission. -/
def externalTask : List Act := List.flatten [
  [.call ⟨"task",[⟨7,4⟩],[]⟩],List.replicate 7 .submit,[.markReady 7],
  List.replicate 5 (.schedule 0)]

theorem enqueued_once_externalTask : ∃ s₀ s, init 1 1 {} = some s₀ ∧ Run Steps externalTask s₀ s ∧
    entered s = [0] ∧ (entered s).Nodup ∧ ∀ t ∈ entered s, preparing s.submitter ≠ some t := by
  obtain ⟨s₀,s,h₀,hr,hg,ht⟩ := exists_run (f := step) (o := init 1 1 {}) (l := externalTask)
    (g := fun s a => decide (LateScan s a))
    (c := fun s => decide (s.taskRing.currentIndex = 1 ∧ s.taskRing.windowSize = 4096 ∧
      entered s = [0])) (by decide +kernel)
  have hlate := guarded_mono (fun _ _ => of_decide_eq_true) hg
  obtain ⟨hcur,hwindow,hent⟩ := of_decide_eq_true ht
  exact ⟨s₀,s,h₀,hr,hent,enqueued_once h₀ hr hlate (by omega)⟩

/-- The first of two external inputs is ready, and a scheduler looks at the task
before the submitter has come to the second one. -/
def earlyScan : List Act := List.flatten [
  [.call ⟨"task",[⟨7,4⟩,⟨8,4⟩],[⟨9,4⟩]⟩],List.replicate 2 .submit,[.markReady 7],
  List.replicate 5 (.schedule 0)]

/-- The submission goes on, and the second input becomes ready. -/
def restOfSubmission : List Act := List.flatten [
  List.replicate 6 .submit,[.markReady 8],List.replicate 6 (.schedule 0)]

/-- The task is put into the queue before it has a fanin count and buffers, and
once more when it is PENDING again. -/
theorem enqueued_early_and_twice : ∃ s₀ s₁ s₂, init 1 1 {} = some s₀ ∧
    Run Steps earlyScan s₀ s₁ ∧ 0 ∈ entered s₁ ∧ preparing s₁.submitter = some 0 ∧
    Run Steps (earlyScan++restOfSubmission) s₀ s₂ ∧ entered s₂ = [0,0] := by
  obtain ⟨s₀,s₁,h₀,hr₁,-,ht₁⟩ := exists_run (f := step) (o := init 1 1 {}) (l := earlyScan)
    (g := fun _ _ => true)
    (c := fun s => decide (0 ∈ entered s ∧ preparing s.submitter = some 0)) (by decide +kernel)
  obtain ⟨m₀,s₂,hm₀,hr₂,-,ht₂⟩ := exists_run (f := step) (o := init 1 1 {})
    (l := earlyScan++restOfSubmission) (g := fun _ _ => true)
    (c := fun s => decide (entered s = [0,0])) (by decide +kernel)
  cases h₀.symm.trans hm₀
  obtain ⟨hent,hprep⟩ := of_decide_eq_true ht₁
  exact ⟨s₀,s₁,s₂,h₀,hr₁,hent,hprep,hr₂,of_decide_eq_true ht₂⟩

end Linqu.LevelOnce
