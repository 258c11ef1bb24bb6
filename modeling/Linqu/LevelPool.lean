import Linqu.LevelLayout

/-!
# The dependency pool of the level runtime

The entries that a run takes from the pool are counted: one for each producer
that the scan of the inputs finds, and one when the task is exposed to it. No
step gives an entry back.
-/

set_option autoImplicit false

namespace Linqu.LevelPool
open Linqu.TaskRing Linqu.DepPool Linqu.Level Linqu.Level.LevelRuntime Linqu.LevelMoves
open Linqu.LevelLayout Linqu.Transition Linqu.DepPool.LinquDepListPool

/-- The next step of the submitting thread is a `prepend`. -/
def prepends (s : LevelRuntime) : Bool :=
  match s.submitter with
  | .scanning _ _ (input::_) _ _ =>
    input.isValid && (s.tensorMap.lookup input.handle).join.isSome
  | .exposing _ _ (_::_) => true
  | _ => false

def draws (s : LevelRuntime) (a : Act) : ℕ := if a = .submit ∧ prepends s = true then 1 else 0

/-- The entries that the steps of a run have taken. -/
def drawn : List Act → LevelRuntime → ℕ
  | [], _ => 0
  | a::acts, s => draws s a+(step s a).elim 0 (drawn acts)

variable {s s' : LevelRuntime} {a : Act}

theorem taken_linkFanin {t p : ℤ} (h : s.linkFanin t p = some s') :
    Taken 1 s.depPool s'.depPool := by
  obtain ⟨idx,pool,hp,rfl⟩ := linkFanin_spec h
  exact taken_prepend hp

theorem taken_addConsumer {p c : ℤ} (h : s.addConsumerToProducer p c = some s') :
    Taken 1 s.depPool s'.depPool := by
  obtain ⟨m,hm,h⟩ := Option.bind_eq_some_iff.mp h
  obtain ⟨idx,pool,hp,rfl⟩ := linkFanout_spec hm
  cases h
  split
  · exact taken_prepend hp
  · exact taken_prepend hp

theorem depPool_advance (s : LevelRuntime) : s.tryAdvanceRingPointers.depPool = s.depPool := by
  obtain ⟨tm,heap,-,heq⟩ := tryAdvance_spec s
  rw [heq]

theorem depPool_walkFanout (s : LevelRuntime) (t : ℤ) : (s.walkFanout t).depPool = s.depPool := by
  unfold walkFanout
  apply foldl_rule (P := fun _ (u : LevelRuntime) => u.depPool = s.depPool)
  · intro c _ u hu
    unfold LevelRuntime.notifyConsumer
    dsimp only
    split
    · unfold wake
      split
      · exact hu
      · exact hu
    · exact hu
  · rfl

/-- A round of the scan. -/
theorem scanInput_taken {tid : ℤ} {outputs rest : List LinquTensor} {fanin : ℕ}
    {producers : List ℤ} {input : LinquTensor}
    (hpc : s.submitter = .scanning tid outputs (input::rest) fanin producers)
    (h : s.scanInput tid outputs rest fanin producers input = some s') :
    Taken (if prepends s = true then 1 else 0) s.depPool s'.depPool := by
  have hpre : prepends s =
      (input.isValid && (s.tensorMap.lookup input.handle).join.isSome) := by
    rw [prepends, hpc]
  unfold scanInput at h
  by_cases hv : input.isValid = true
  · rw [if_pos hv] at h
    obtain ⟨found,hf,h⟩ := Option.bind_eq_some_iff.mp h
    rw [hv, hf] at hpre
    cases found with
    | some producer =>
      obtain ⟨m,hm,h⟩ := Option.bind_eq_some_iff.mp h
      cases h
      have htaken : Taken 1 s.depPool m.depPool := taken_linkFanin hm
      rw [hpre]
      exact htaken
    | none =>
      rw [hpre]
      dsimp only at h
      split at h
      · cases h
        exact taken_refl _
      · cases h
        exact taken_refl _
  · rw [if_neg hv] at h
    cases h
    rw [hpre, Bool.eq_false_of_not_eq_true hv]
    exact taken_refl _

theorem taken_kept (hp : prepends s = false) (hd : s'.depPool = s.depPool) :
    Taken (if prepends s = true then 1 else 0) s.depPool s'.depPool := by
  rw [hp, hd]
  exact taken_refl _

theorem submitStep_taken (h : s.submitStep = some s') :
    Taken (if prepends s = true then 1 else 0) s.depPool s'.depPool := by
  -- the scan is looked at itself: a move does not say why an input was skipped
  have hscan : ∀ {tid : ℤ} {outputs rest : List LinquTensor} {fanin : ℕ} {ps : List ℤ}
      {input : LinquTensor}, s.submitter = .scanning tid outputs (input::rest) fanin ps →
      Taken (if prepends s = true then 1 else 0) s.depPool s'.depPool := by
    intro tid outputs rest fanin ps input hpc
    apply scanInput_taken hpc
    rw [submitStep, hpc] at h
    exact h
  cases submitStep_move h with
  | link hpc _ _ => exact hscan hpc
  | push hpc _ _ _ => exact hscan hpc
  | skip hpc => exact hscan hpc
  | @expose tid producer fanin ps m hpc hl =>
    have hpre : prepends s = true := by rw [prepends, hpc]
    have htaken : Taken 1 s.depPool m.depPool := taken_addConsumer hl
    rw [hpre]
    exact htaken
  | alloc hpc ha => exact taken_kept (by rw [prepends, hpc]) (allocTask_spec ha).depPool
  | advance hpc => exact taken_kept (by rw [prepends, hpc]) (depPool_advance s)
  | spin hpc => exact taken_kept (by rw [prepends, hpc]) (depPool_advance s)
  | buffers hpc hb =>
    obtain ⟨heap,rfl⟩ := allocBuffers_spec hb
    exact taken_kept (by rw [prepends, hpc]) rfl
  | register hpc hr =>
    obtain ⟨tm,scopes,top,-,rfl⟩ := registerTask_spec hr
    exact taken_kept (by rw [prepends, hpc]) rfl
  | storeFanin hpc => exact taken_kept (by rw [prepends, hpc]) rfl
  | storeReady hpc => exact taken_kept (by rw [prepends, hpc]) rfl
  | storePending hpc _ => exact taken_kept (by rw [prepends, hpc]) rfl
  | satisfied hpc _ => exact taken_kept (by rw [prepends, hpc]) rfl
  | unsatisfied hpc _ => exact taken_kept (by rw [prepends, hpc]) rfl
  | claim hpc _ => exact taken_kept (by rw [prepends, hpc]) rfl
  | lost hpc _ => exact taken_kept (by rw [prepends, hpc]) rfl
  | enqueue hpc => exact taken_kept (by rw [prepends, hpc]) rfl

theorem depPool_work {i : ℕ} (h : Move s (.work i) s') : s'.depPool = s.depPool := by
  cases h with
  | walk _ => exact depPool_walkFanout s _
  | retire _ => exact depPool_advance s
  | _ => rfl

theorem depPool_schedule {k : ℕ} (h : Move s (.schedule k) s') : s'.depPool = s.depPool := by
  cases h with
  | _ => rfl

theorem step_taken (h : Steps s a s') : Taken (draws s a) s.depPool s'.depPool := by
  have hm := step_move h
  cases a with
  | submit =>
    have hsub := submitStep_taken h
    simpa [draws] using hsub
  | call req =>
    cases hm
    exact taken_refl _
  | work i =>
    rw [depPool_work hm]
    exact taken_refl _
  | schedule k =>
    rw [depPool_schedule hm]
    exact taken_refl _
  | markReady handle =>
    cases hm
    exact taken_refl _

theorem run_taken {acts : List Act} (hr : Run Steps acts s s') :
    Taken (drawn acts s) s.depPool s'.depPool := by
  induction acts generalizing s with
  | nil =>
    cases hr
    exact taken_refl _
  | cons a acts ih =>
    obtain ⟨m,hm,hr⟩ := hr
    have hnext : step s a = some m := hm
    rw [drawn, hnext]
    exact (step_taken hm).trans (ih hr)

theorem linkFanin_isSome (t p : ℤ) :
    (s.linkFanin t p).isSome = decide (s.depPool.top ≤ s.depPool.capacity) := by
  rw [← LinquDepListPool.prepend_isSome s.depPool (s.get t).depListHead p, linkFanin]
  cases s.depPool.prepend (s.get t).depListHead p with
  | none => rfl
  | some r => rfl

theorem addConsumer_isSome (p c : ℤ) : (s.addConsumerToProducer p c).isSome =
    decide (s.depPool.top ≤ s.depPool.capacity) := by
  rw [← LinquDepListPool.prepend_isSome s.depPool (s.get p).fanoutListHead c,
    addConsumerToProducer, linkFanout]
  cases s.depPool.prepend (s.get p).fanoutListHead c with
  | none => rfl
  | some r => rfl

/-- The step is possible exactly when the bump pointer is within the pool. -/
theorem submitStep_isSome (hp : prepends s = true) :
    s.submitStep.isSome = decide (s.depPool.top ≤ s.depPool.capacity) := by
  cases hpc : s.submitter with
  | scanning tid outputs inputs fanin ps =>
    rw [prepends, hpc] at hp
    cases inputs with
    | nil => cases hp
    | cons input rest =>
      obtain ⟨hv,hfound⟩ := Bool.and_eq_true_iff.mp hp
      obtain ⟨producer,hlook⟩ := Option.isSome_iff_exists.mp hfound
      have hlook' := Option.join_eq_some_iff.mp hlook
      rw [submitStep, hpc, ← linkFanin_isSome tid producer]
      dsimp only
      rw [scanInput, if_pos hv, hlook']
      show Option.isSome (s.linkFanin tid producer >>= _) = _
      cases s.linkFanin tid producer with
      | none => rfl
      | some m => rfl
  | exposing tid fanin producers =>
    rw [prepends, hpc] at hp
    cases producers with
    | nil => cases hp
    | cons producer rest =>
      rw [submitStep, hpc, ← addConsumer_isSome producer tid]
      show Option.isSome (s.addConsumerToProducer producer tid >>= _) = _
      cases s.addConsumerToProducer producer tid with
      | none => rfl
      | some m => rfl
  | _ => rw [prepends, hpc] at hp; cases hp

theorem init_pool {schedThreads workerThreads : ℤ} {cfg : LevelRuntimeConfig}
    (h : init schedThreads workerThreads cfg = some s) :
    s.depPool.top = 1 ∧ s.depPool.capacity = cfg.depPoolCapacity := by
  obtain ⟨ring,-,h⟩ := Option.bind_eq_some_iff.mp h
  obtain ⟨pool,hpool,h⟩ := Option.bind_eq_some_iff.mp h
  obtain ⟨tm,-,h⟩ := Option.bind_eq_some_iff.mp h
  cases h
  obtain ⟨htop,hcap,-⟩ := LinquDepListPool.init_spec hpool
  exact ⟨htop,hcap⟩

/-- Whatever the interleaving, a `prepend` of a run succeeds exactly while
fewer entries were taken than the pool has. -/
theorem prepends_iff {schedThreads workerThreads : ℤ} {cfg : LevelRuntimeConfig}
    {s₀ : LevelRuntime} {acts : List Act}
    (hinit : init schedThreads workerThreads cfg = some s₀) (hr : Run Steps acts s₀ s)
    (hp : prepends s = true) :
    (∃ s', Steps s .submit s') ↔ drawn acts s₀ < cfg.depPoolCapacity := by
  obtain ⟨htop,hcap⟩ := init_pool hinit
  obtain ⟨hgrown,hkept⟩ := run_taken hr
  have hsome := submitStep_isSome hp
  have hroom : s.depPool.top ≤ s.depPool.capacity ↔ drawn acts s₀ < cfg.depPoolCapacity := by
    rw [hgrown, hkept, htop, hcap]
    omega
  constructor
  · rintro ⟨s',hs⟩
    have hs' : s.submitStep = some s' := hs
    rw [hs', Option.isSome_some] at hsome
    exact hroom.mp (of_decide_eq_true hsome.symm)
  · intro hlt
    rw [decide_eq_true (hroom.mpr hlt)] at hsome
    exact Option.isSome_iff_exists.mp hsome

end Linqu.LevelPool
