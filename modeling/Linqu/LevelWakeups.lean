import Linqu.LevelOrder

/-!
# No wake-up is lost

A run without external inputs. Whoever makes the refcount of a task reach its
fanin count looks at it afterwards, so that a task whose producers have all
been walked is put into the queue. Double counting does no harm here, as long
as no slot of the ring is used twice: a worker that still holds the id of a
retired task writes into the slot of another one.
-/

set_option autoImplicit false

namespace Linqu.LevelWakeups
open Linqu.TaskRing Linqu.DepPool Linqu.ReadyQueue Linqu.Transition
open Linqu.Level Linqu.Level.LevelRuntime Linqu.LevelMoves Linqu.LevelLayout Linqu.LevelWiring
open Linqu.LevelSubmission Linqu.LevelWorkers Linqu.LevelOrder

/-- The input that comes next is neither produced at this level nor ready. -/
def awaitsInput (s : LevelRuntime) : Bool :=
  match s.submitter with
  | .scanning _ _ (input::_) _ _ => input.isValid &&
      s.tensorMap.lookup input.handle == some none && !s.tensorReady input.handle
  | _ => false

/-- No input is external. -/
def Internal (s : LevelRuntime) : Act → Prop
  | .submit => awaitsInput s = false
  | _ => True

instance (s : LevelRuntime) : DecidablePred (Internal s)
  | .submit => inferInstanceAs (Decidable (awaitsInput s = false))
  | .call _ => .isTrue trivial
  | .work _ => .isTrue trivial
  | .schedule _ => .isTrue trivial
  | .markReady _ => .isTrue trivial

/-- The schedulers find nothing to do. -/
structure Quiet (s : LevelRuntime) : Prop where
  ready : ∀ slot, s.externalReady slot = []
  schedulers : ∀ k, raised (s.schedulers k) = none ∧ scheduleOwns (s.schedulers k) = none

variable {s s' : LevelRuntime} {a : Act}

theorem Quiet.setScheduler (h : Quiet s) {k : ℕ} {pc : SchedulePc} (hr : raised pc = none)
    (ho : scheduleOwns pc = none) : Quiet (s.setScheduler k pc) := by
  refine ⟨h.ready,fun j => ?_⟩
  rw [schedulers_setScheduler]
  split
  · exact ⟨hr,ho⟩
  · exact h.schedulers j

theorem Quiet.not_ready (h : Quiet s) (i : ℤ) : s.externalsReady i = false := by
  have hnil := h.ready (s.taskRing.slot i)
  simp [externalsReady, hnil]

theorem Quiet.late (h : Quiet s) (a : Act) : LateScan s a := by
  cases a with
  | schedule k =>
    intro i hi
    have hnot := h.not_ready
    cases hpc : s.schedulers k with
    | scanning j cur =>
      rw [hpc, counted, if_neg (by rw [hnot]; simp)] at hi
      cases hi
    | _ =>
      rw [hpc] at hi
      cases hi
  | _ => trivial

/-- Nothing is pushed for the schedulers, so they never count or claim. -/
theorem quiet_move (h : Quiet s) (hint : Internal s a) (hm : Move s a s') : Quiet s' := by
  have hbusy := h.schedulers
  cases hm with
  | alloc hpc ha =>
    have ha := allocTask_spec ha
    refine ⟨fun slot => ?_,fun k => ?_⟩
    · rw [ha.externalReady, Function.update_apply]
      split
      · rfl
      · exact h.ready slot
    · rw [ha.schedulers]
      exact h.schedulers k
  | advance hpc =>
    obtain ⟨tm,heap,-,heq⟩ := tryAdvance_spec s
    rw [heq]
    exact ⟨h.ready,h.schedulers⟩
  | spin hpc =>
    obtain ⟨tm,heap,-,heq⟩ := tryAdvance_spec s
    rw [heq]
    exact ⟨h.ready,h.schedulers⟩
  | link hpc hlook hl =>
    obtain ⟨idx,pool,-,rfl⟩ := linkFanin_spec hl
    exact ⟨h.ready,h.schedulers⟩
  | push hpc hvalid hlook hready =>
    rw [Internal, awaitsInput, hpc] at hint
    simp [hvalid, hlook, hready] at hint
  | buffers hpc hb =>
    obtain ⟨heap,rfl⟩ := allocBuffers_spec hb
    exact ⟨h.ready,h.schedulers⟩
  | register hpc hr =>
    obtain ⟨tm,scopes,top,-,rfl⟩ := registerTask_spec hr
    exact ⟨h.ready,h.schedulers⟩
  | expose hpc ha =>
    obtain ⟨m,hm,ha⟩ := Option.bind_eq_some_iff.mp ha
    obtain ⟨idx,pool,-,rfl⟩ := linkFanout_spec hm
    cases ha
    split
    · exact ⟨h.ready,h.schedulers⟩
    · exact ⟨h.ready,h.schedulers⟩
  | @walk w t hpc =>
    obtain ⟨ring,queue,enqueues,heq,-⟩ := walkFanout_frame s t
    rw [heq]
    exact ⟨h.ready,h.schedulers⟩
  | retire hpc =>
    obtain ⟨tm,heap,-,heq⟩ := tryAdvance_spec s
    rw [heq]
    exact ⟨h.ready,h.schedulers⟩
  | beginPass hpc => exact h.setScheduler rfl rfl
  | endPass hpc => exact h.setScheduler rfl rfl
  | pass hpc => exact h.setScheduler rfl rfl
  | raise hpc _ hext _ =>
    rw [h.not_ready] at hext
    cases hext
  | @clear k _ _ _ hpc _ =>
    have := (hbusy k).1
    rw [hpc] at this
    cases this
  | @promote k _ _ _ hpc _ _ =>
    have := (hbusy k).1
    rw [hpc] at this
    cases this
  | @giveUp k _ _ _ hpc _ =>
    have := (hbusy k).1
    rw [hpc] at this
    cases this
  | @promoted k _ _ hpc =>
    have := (hbusy k).2
    rw [hpc] at this
    cases this
  | _ => exact ⟨h.ready,h.schedulers⟩

/-- The task whose submission has not returned yet. -/
def handling : SubmitPc → Option ℤ
  | .scanning tid _ _ _ _ => some tid
  | .registering tid _ _ _ => some tid
  | .storingFanin tid _ _ => some tid
  | .storingStatus tid _ _ => some tid
  | .exposing tid _ _ => some tid
  | .setting tid => some tid
  | .enqueuing tid => some tid
  | _ => none

/-- A task that is not being submitted has nothing left to be exposed, inspected
or put into the queue by the submitter. -/
theorem handling_done {pc : SubmitPc} {c : ℤ} (h : handling pc ≠ some c) :
    unexposed pc c = [] ∧ preparing pc ≠ some c ∧ inspecting pc ≠ some c ∧
      submitOwns pc ≠ some c := by
  cases pc with
  | idle => exact ⟨rfl,h,h,h⟩
  | waiting req spins => exact ⟨rfl,h,h,h⟩
  | scanning tid outputs inputs fanin ps =>
    exact ⟨if_neg fun he => h (by rw [he]; rfl),h,fun he => (by cases he),fun he => by cases he⟩
  | registering tid outputs fanin ps =>
    exact ⟨if_neg fun he => h (by rw [he]; rfl),h,fun he => (by cases he),fun he => by cases he⟩
  | storingFanin tid fanin ps =>
    exact ⟨if_neg fun he => h (by rw [he]; rfl),h,fun he => (by cases he),fun he => by cases he⟩
  | storingStatus tid fanin ps =>
    exact ⟨if_neg fun he => h (by rw [he]; rfl),h,fun he => (by cases he),fun he => by cases he⟩
  | exposing tid fanin ps =>
    exact ⟨if_neg fun he => h (by rw [he]; rfl),fun he => (by cases he),h,fun he => by cases he⟩
  | setting tid => exact ⟨rfl,fun he => (by cases he),h,fun he => by cases he⟩
  | enqueuing tid => exact ⟨rfl,fun he => (by cases he),fun he => (by cases he),h⟩

/-- A run without external inputs, with room in the ready queue for the ring,
that has submitted at most as many tasks as the ring has slots: whatever the
interleaving, a task whose submission has returned and whose producers have all
been walked is not PENDING, and has been put into the queue once. -/
theorem woken_once {schedThreads workerThreads : ℤ} {cfg : LevelRuntimeConfig}
    {s₀ s : LevelRuntime} {acts : List Act} {c : ℤ}
    (hinit : init schedThreads workerThreads cfg = some s₀)
    (hcap : cfg.taskRingWindow ≤ cfg.readyQueueCapacity) (hrun : Run Steps acts s₀ s)
    (hint : Guarded Steps Internal acts s₀)
    (hfit : s.taskRing.currentIndex ≤ s.taskRing.windowSize) (hc : Known s c)
    (hreturned : handling s.submitter ≠ some c)
    (hwalked : ∀ p ∈ s.faninList c, p ∈ s.walks) :
    (s.get c).status ≠ .pending ∧ (entered s).count c = 1 := by
  have hspec := init_spec hinit
  obtain ⟨hquiet,hwired⟩ : Quiet s ∧
      (s.taskRing.currentIndex ≤ s.taskRing.windowSize → Wired False {} s) := by
    refine run_move (P := fun u => Quiet u ∧
        (u.taskRing.currentIndex ≤ u.taskRing.windowSize → Wired False {} u))
      (fun u a u' ⟨hq,hu⟩ hi hm => ⟨quiet_move hq hi hm,fun hle => ?_⟩)
      ⟨⟨hspec.ready,fun k => ?_⟩,fun _ => Initial.wired hspec hcap⟩ hint hrun
    · obtain ⟨hwindow,hcur⟩ := move_current hm
      exact wired_move (hu (by omega)) (hq.late a) (fun he => he.elim) (fun _ => hle) hm
    · rw [hspec.schedulers]
      exact ⟨rfl,rfl⟩
  have h := hwired hfit
  obtain ⟨hun,hprep,hinsp,hsub⟩ := handling_done hreturned
  have howed : owed s c = 0 := by
    rw [owed, hquiet.ready]
    exact ite_self 0
  have hst : (s.get c).status ≠ .pending := by
    intro hst
    have hlow := h.counts.lower c hc
    have hreq := h.counts.required c hc hprep
    have hall : (s.faninList c).countP (walked s) = (s.faninList c).length :=
      List.countP_eq_length.mpr fun p hp => decide_eq_true (hwalked p hp)
    rw [hun, howed, hall, List.count_nil, List.countP_nil] at hlow
    rcases h.counts.watched c hc hprep hst with (hw | ⟨k,count,hk,-⟩) | hw | hw
    · exact hinsp hw
    · rw [(hquiet.schedulers k).1] at hk
      cases hk
    · cases hw
    · omega
  refine ⟨hst,List.count_eq_one_of_mem h.owned.once ?_⟩
  rcases h.owned.complete c hc hst with hm | hm | ⟨th,hth,hm⟩
  · exact hm
  · cases hm
  · cases th with
    | submitter => exact absurd hm hsub
    | scheduler k =>
      have := (hquiet.schedulers k).2
      rw [owns, this] at hm
      cases hm
    | worker i => cases hth

theorem woken_once_pipeline : ∃ s₀ s, init 1 1 {} = some s₀ ∧ Run Steps pipeline s₀ s ∧
    s.faninList 1 = [0] ∧ (s.get 1).status ≠ .pending ∧ (entered s).count 1 = 1 := by
  obtain ⟨s₀,s,h₀,hr,hg,ht⟩ := exists_run (f := step) (o := init 1 1 {}) (l := pipeline)
    (g := fun s a => decide (Internal s a))
    (c := fun s => decide (s.taskRing.currentIndex = 2 ∧ s.taskRing.windowSize = 4096 ∧
      s.submitter = .idle ∧ s.faninList 1 = [0] ∧ 0 ∈ s.walks)) (by decide +kernel)
  have hint := guarded_mono (fun _ _ => of_decide_eq_true) hg
  obtain ⟨hcur,hwindow,hsub,hfi,hwalk⟩ := of_decide_eq_true ht
  refine ⟨s₀,s,h₀,hr,hfi,woken_once h₀ (by decide) hr hint (by omega) ⟨by decide,by omega⟩ ?_ ?_⟩
  · rw [hsub]
    exact fun he => by cases he
  · rw [hfi]
    exact List.forall_mem_singleton.mpr hwalk

/-- `task 2` is counted twice at `task 1` and runs before it is exposed to `task
0`, which it consumes while the worker of `task 0` is about to do the same. By
then the slot belongs to `task 4`. -/
def slotReused : List Act := List.flatten [
  [.call ⟨"task 0",[],[⟨1,4⟩]⟩],List.replicate 6 .submit,
  [.call ⟨"task 1",[],[⟨2,4⟩]⟩],List.replicate 6 .submit,
  List.replicate 6 (.work 0),List.replicate 4 (.work 1),
  [.call ⟨"task 2",[⟨2,4⟩,⟨1,4⟩],[]⟩],List.replicate 8 .submit,
  [.work 1],List.replicate 7 (.work 2),[.work 0],List.replicate 2 (.work 2),
  List.replicate 3 .submit,
  [.call ⟨"task 3",[],[⟨3,4⟩]⟩],List.replicate 6 .submit,
  [.call ⟨"task 4",[⟨3,4⟩],[]⟩],List.replicate 8 .submit,
  [.work 0],List.replicate 5 (.work 3)]

/-- The submission of the last task has returned and its producer has been
walked, but it was marked as consumed and never put into the queue. -/
theorem wakeup_lost : ∃ s₀ s,
    init 1 4 { taskRingWindow := 4, readyQueueCapacity := 4 } = some s₀ ∧
    Run Steps slotReused s₀ s ∧ Guarded Steps Internal slotReused s₀ ∧ Known s 4 ∧
    s.submitter = .idle ∧ s.faninList 4 = [3] ∧ 3 ∈ s.walks ∧ (s.get 4).status = .consumed ∧
    (entered s).count 4 = 0 := by
  obtain ⟨s₀,s,h₀,hr,hg,ht⟩ := exists_run (f := step)
    (o := init 1 4 { taskRingWindow := 4, readyQueueCapacity := 4 }) (l := slotReused)
    (g := fun s a => decide (Internal s a))
    (c := fun s => decide ((0 ≤ (4:ℤ) ∧ 4 < s.taskRing.currentIndex) ∧ s.submitter = .idle ∧
      s.faninList 4 = [3] ∧ 3 ∈ s.walks ∧ (s.get 4).status = .consumed ∧ (entered s).count 4 = 0))
    (by decide +kernel)
  have hint := guarded_mono (fun _ _ => of_decide_eq_true) hg
  obtain ⟨hknown,hrest⟩ := of_decide_eq_true ht
  exact ⟨s₀,s,h₀,hr,hint,hknown,hrest⟩

end Linqu.LevelWakeups
