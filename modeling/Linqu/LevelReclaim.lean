import Linqu.LevelLayout

/-!
# Reclaiming finished tasks

Every descriptor starts with a fanout count of one, the token of a scope. The
scope stack of the level runtime is never entered, so no thread supplies the
token, and the ring pointers stay behind the task submitted last.
-/

set_option autoImplicit false

namespace Linqu.LevelReclaim
open Linqu.TaskRing Linqu.Transition Linqu.Level Linqu.Level.LevelRuntime Linqu.LevelLayout

/-- No thread is busy with a submitted task, and all of them have completed. -/
def Returned (s : LevelRuntime) : Prop :=
  s.submitter = .idle ∧ (∀ i < s.workerCount, s.workers i = .idle) ∧
    ∀ t, s.taskRing.Live t → (s.get t).status.isDone = true

/-- The pointers that the loop over consumed tasks leaves. -/
theorem advance_alive {s : LevelRuntime} (h : Laid s) (h0 : 0 < s.taskRing.currentIndex) :
    s.tryAdvanceRingPointers.taskRing.lastTaskAlive < s.taskRing.currentIndex := by
  obtain ⟨tm,heap,-,heq⟩ := tryAdvance_spec s
  obtain ⟨halive,hl⟩ := h.last h0
  rw [heq]
  have := consumedUpTo_le s hl.notConsumed s.taskRing.activeCount.toNat
    (show s.taskRing.lastTaskAlive ≤ s.taskRing.currentIndex-1 by omega)
  change s.consumedUpTo _ _ < _
  omega

/-- In every run whose workers release and consume ids of the window only, for
every configuration and whatever the interleaving, advancing the ring pointers
reaches the current index exactly while no task has been submitted. -/
theorem reclaims_iff_no_task {schedThreads workerThreads : ℤ} {cfg : LevelRuntimeConfig}
    {s₀ s : LevelRuntime} {acts : List Act}
    (hinit : init schedThreads workerThreads cfg = some s₀) (hrun : Run Steps acts s₀ s)
    (hlive : Guarded Steps WritesLive acts s₀) :
    s.tryAdvanceRingPointers.taskRing.lastTaskAlive = s.taskRing.currentIndex ↔
      s.taskRing.currentIndex = 0 := by
  have h := run_laid (init_spec hinit) hlive hrun
  have hnonneg := h.windowed.alive_nonneg.trans h.windowed.alive_le
  constructor
  · intro he
    by_contra hne
    have := advance_alive h (by omega)
    omega
  · intro hz
    have hadv := h.advance.windowed
    obtain ⟨tm,heap,-,heq⟩ := tryAdvance_spec s
    have hcur : s.tryAdvanceRingPointers.taskRing.currentIndex = s.taskRing.currentIndex := by
      rw [heq]
      rfl
    have := hadv.alive_nonneg
    have := hadv.alive_le
    omega

instance (s : LevelRuntime) : DecidablePred (WritesLive s)
  | .call _ => .isTrue trivial
  | .submit => .isTrue trivial
  | .work i => inferInstanceAs (Decidable (∀ p ∈ written (s.workers i), _ ≤ p))
  | .schedule _ => .isTrue trivial
  | .markReady _ => .isTrue trivial

/-- One task without inputs, submitted and run to its end. -/
def oneTask : List Act :=
  [.call ⟨"task",[],[]⟩]++List.replicate 6 .submit++List.replicate 7 (.work 0)

theorem reclaims_iff_no_task_oneTask : ∃ s₀ s, init 1 1 {} = some s₀ ∧ Run Steps oneTask s₀ s ∧
    s.taskRing.currentIndex = 1 ∧
    (s.tryAdvanceRingPointers.taskRing.lastTaskAlive = s.taskRing.currentIndex ↔
      s.taskRing.currentIndex = 0) := by
  obtain ⟨s₀,s,h₀,hr,hg,ht⟩ := exists_run (f := step) (o := init 1 1 {}) (l := oneTask)
    (g := fun s a => decide (WritesLive s a))
    (c := fun s => decide (s.taskRing.currentIndex = 1)) (by decide +kernel)
  have hlive := guarded_mono (fun _ _ => of_decide_eq_true) hg
  exact ⟨s₀,s,h₀,hr,of_decide_eq_true ht,reclaims_iff_no_task h₀ hr hlive⟩

/-- The task has returned, and the ring keeps it. -/
theorem finished_task_kept : ∃ s₀ s, init 1 1 {} = some s₀ ∧ Run Steps oneTask s₀ s ∧
    Returned s ∧ s.taskRing.currentIndex = 1 ∧
    s.tryAdvanceRingPointers.taskRing.lastTaskAlive = 0 := by
  obtain ⟨s₀,s,h₀,hr,-,ht⟩ := exists_run (f := step) (o := init 1 1 {}) (l := oneTask)
    (g := fun _ _ => true)
    (c := fun s => decide ((s.submitter = .idle ∧ (∀ i < s.workerCount, s.workers i = .idle) ∧
      (s.get 0).status.isDone = true) ∧ s.taskRing.lastTaskAlive = 0 ∧
      s.taskRing.currentIndex = 1 ∧ s.tryAdvanceRingPointers.taskRing.lastTaskAlive = 0))
    (by decide +kernel)
  obtain ⟨⟨hsub,hwork,hdone⟩,halive,hcur,hadv⟩ := of_decide_eq_true ht
  refine ⟨s₀,s,h₀,hr,⟨hsub,hwork,fun t hlive => ?_⟩,hcur,hadv⟩
  have ht0 : t = 0 := by
    have h1 := hlive.1
    have h2 := hlive.2
    omega
  rw [ht0]
  exact hdone

end Linqu.LevelReclaim
