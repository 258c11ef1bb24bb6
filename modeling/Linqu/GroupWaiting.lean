import Linqu.OrchestratorDone

/-!
# Pending groups

A group is left pending with one notification missing for each entry of its
fanin list. `Waiting` says that the notifications received, with those under
way, cover the producers that are finished, and that a task whose counter is
full is about to be checked; a pending task then has a producer that is still
open. A producer that had finished before the group was submitted never
notifies it: `submit_task_group` counts it and does not look at its status.
-/

set_option autoImplicit false

namespace Linqu.GroupWaiting
open Linqu.TaskRing Linqu.DepPool Linqu.TensorMap Linqu.Orchestrator
open Linqu.Orchestrator.LinquOrchestratorState Linqu.OrchestrationApi Linqu.Transition
open Linqu.OrchestratorRule Linqu.OrchestratorShape Linqu.OrchestratorCalls Linqu.OrchestratorDone

/-- The notifications still to be made are `ntf`, the checks `chk`. -/
structure Waiting (ntf chk : List ℤ) (s : State) : Prop where
  shape : Shape s
  notified : ∀ c, s.taskRing.Live c → (s.get c).status = .pending →
    (s.faninList c).countP (finished s) ≤ (s.get c).faninRefcount+ntf.count c
  unmet : ∀ c, s.taskRing.Live c → (s.get c).status = .pending →
    (s.get c).faninRefcount < (s.get c).faninCount ∨
      ∃ b ∈ chk, s.taskRing.slot b = s.taskRing.slot c

section Updates

variable {ntf chk : List ℤ} {s s' : State}

/-- Updates that keep the finished tasks and the fanin counters and make no
task pending. -/
theorem Waiting.of_frame (h : Waiting ntf chk s) (f : Frame s s') (hd : finished s' = finished s)
    (hp : ∀ t, (s'.get t).status = .pending → (s.get t).status = .pending)
    (hrc : ∀ t, (s'.get t).faninRefcount = (s.get t).faninRefcount) : Waiting ntf chk s' where
  shape := h.shape.of_frame f
  notified c hc hpend := by
    rw [f.faninList, hd, hrc]
    exact h.notified c (f.live.mp hc) (hp c hpend)
  unmet c hc hpend := by
    rw [hrc, f.faninCount]
    simp only [f.slot]
    exact h.unmet c (f.live.mp hc) (hp c hpend)

theorem Waiting.of_eq (h : Waiting ntf chk s) (hr : s'.taskRing = s.taskRing)
    (hp : s'.depPool = s.depPool) (hm : s'.tensorMap = s.tensorMap) : Waiting ntf chk s' := by
  have hget : ∀ t, s'.get t = s.get t := fun t => by
    rw [LinquOrchestratorState.get, LinquOrchestratorState.get, hr]
  have hd : finished s' = finished s := finished_congr (by rw [hr]) (fun t => by rw [hget])
  refine ⟨h.shape.of_eq hr hm hp,fun c hc hpend => ?_,fun c hc hpend => ?_⟩
  · have hlist : s'.faninList c = s.faninList c := by
      rw [LinquOrchestratorState.faninList, hget, hp]; rfl
    rw [hlist, hd, hget]
    rw [hr] at hc
    rw [hget] at hpend
    exact h.notified c hc hpend
  · rw [hget] at hpend ⊢
    rw [hr] at hc ⊢
    exact h.unmet c hc hpend

theorem Waiting.raise (h : Waiting ntf chk s) (p : ℤ) : Waiting ntf chk (s.raiseFanout p) := by
  refine h.of_frame (frame_raiseFanout s p) (finished_raiseFanout s p) (fun t ht => ?_) (fun t => ?_)
  · rwa [get_raiseFanout] at ht
  · rw [get_raiseFanout]

theorem Waiting.check (h : Waiting ntf chk s) (t : ℤ) : Waiting ntf chk (s.checkTaskConsumed t) := by
  refine h.of_frame (frame_checkTaskConsumed s t) (finished_checkTaskConsumed s t) (fun u hu => ?_)
    (checkTaskConsumed_field LinquTaskDescriptor.faninRefcount (fun _ _ => rfl) s t)
  rw [get_checkTaskConsumed] at hu
  split at hu
  · cases hu
  · exact hu

/-- A notified consumer is on the list of those to be checked. -/
theorem Waiting.notify {c : ℤ} (h : Waiting (c::ntf) chk s) (hc : c ∈ chk) :
    Waiting ntf chk (s.notifyConsumer c) := by
  have f := frame_notifyConsumer s c
  have hst : ∀ t, ((s.notifyConsumer c).get t).status = (s.get t).status := fun t =>
    get_modify_field LinquTaskDescriptor.status t fun _ => rfl
  refine ⟨h.shape.of_frame f,fun t ht hp => ?_,fun t ht hp => ?_⟩
  · have hn := h.notified t ht (hst t ▸ hp)
    rw [f.faninList, finished_notifyConsumer, notifyConsumer, get_modify]
    rw [List.count_cons] at hn
    by_cases hct : c = t
    · subst hct
      simp only [beq_self_eq_true, if_true] at hn ⊢
      omega
    · simp only [beq_iff_eq, hct, if_false] at hn
      split
      · exact hn.trans (Nat.add_le_add_right (Nat.le_succ _) _)
      · exact hn
  · by_cases hslot : s.taskRing.slot t = s.taskRing.slot c
    · exact Or.inr ⟨c,hc,hslot.symm⟩
    · rw [f.faninCount, notifyConsumer, get_modify, if_neg hslot]
      exact h.unmet t ht (hst t ▸ hp)

/-- A check of a task that does not start it finds a notification missing. -/
theorem Waiting.skip {c : ℤ} (h : Waiting ntf (c::chk) s) (hc : ¬ Satisfied s c) :
    Waiting ntf chk s := by
  refine ⟨h.shape,h.notified,fun t ht hp => ?_⟩
  rcases h.unmet t ht hp with hlt | ⟨b,hb,hslot⟩
  · exact Or.inl hlt
  · rcases List.mem_cons.mp hb with rfl | hb
    · rw [Satisfied, get_eq_of_slot hslot, not_and_or, not_le] at hc
      exact Or.inl (hc.resolve_right (not_not.mpr hp))
    · exact Or.inr ⟨b,hb,hslot⟩

theorem Waiting.wake {c : ℤ} {v : Status} (h : Waiting ntf chk s)
    (hc : (s.get c).status = .pending) (hv : v = .ready ∨ v = .running) :
    Waiting ntf chk (s.setStatus c v) := by
  have hdone : v.isDone = false ∧ v ≠ .pending := by
    rcases hv with rfl | rfl <;> simp [Status.isDone]
  refine h.of_frame (frame_setStatus s c v)
    (finished_setStatus (by rw [hc]; rfl) hdone.1) (fun t ht => ?_)
    (fun t => setStatus_field LinquTaskDescriptor.faninRefcount (fun _ _ => rfl) s c t v)
  rw [get_setStatus] at ht
  split at ht
  · exact absurd ht hdone.2
  · exact ht

/-- A completion owes one notification for every edge it finishes. -/
theorem Waiting.complete (h : Waiting [] chk s) (g : ℤ) :
    Waiting (s.fanoutList g) (s.fanoutList g++chk) (s.setStatus g .completed) := by
  have f := frame_setStatus s g .completed
  have hpend : ∀ t, ((s.setStatus g .completed).get t).status = .pending →
      (s.get t).status = .pending := by
    intro t ht
    rw [get_setStatus] at ht
    split at ht
    · cases ht
    · exact ht
  have hrc := fun t => setStatus_field LinquTaskDescriptor.faninRefcount (fun _ _ => rfl) s g t
    .completed
  refine ⟨h.shape.of_frame f,fun c hc hp => ?_,fun c hc hp => ?_⟩
  · have hn := h.notified c hc (hpend c hp)
    have hle := countP_fanin_le h.shape g (c := c) hc
    rw [f.faninList, hrc]
    simp only [List.count_nil] at hn
    omega
  · rw [hrc, f.faninCount]
    refine (h.unmet c hc (hpend c hp)).imp_right fun ⟨b,hb,hslot⟩ => ?_
    exact ⟨b,List.mem_append_right _ hb,hslot⟩

end Updates

theorem waiting_rule : TaskRule (fun _ ntf _ chk s => Waiting ntf chk s) where
  shape _ _ _ _ _ h := h.shape
  quiet _ _ _ _ q h := h.of_eq q.taskRing q.depPool q.tensorMap
  release p _ _ _ _ _ h := (h.raise p).check p
  notify _ _ _ _ _ h hc := h.notify hc
  skip _ _ _ _ h hc := h.skip hc
  wake _ _ _ _ _ h hc hv := h.wake hc hv
  count g _ _ s h := by
    have hst : ∀ t, ((s.countSubTask g).get t).status = (s.get t).status := fun t =>
      get_modify_field LinquTaskDescriptor.status t fun _ => rfl
    exact h.of_frame (frame_countSubTask s g) (finished_countSubTask s g)
      (fun t ht => (hst t).symm.trans ht)
      (fun t => get_modify_field LinquTaskDescriptor.faninRefcount t fun _ => rfl)
  complete g _ _ _ h := h.complete g
  finish t _ _ _ h := h.check t

/-- A group with sub-tasks is submitted before any producer it finds has
completed. -/
def OpenReads (s : State) (group : Option ℕ) (params : List LinquParam) : Prop :=
  ∀ n, group = some n → n ≠ 0 → ∀ found,
    producersOf s.taskRing.currentIndex s.tensorMap params = some found →
    ∀ p ∈ found, p < s.taskRing.currentIndex → (s.get p).status.isDone = false

theorem Waiting.entered {s s₁ : State} {tid : ℤ} {group : Option ℕ} {params : List LinquParam}
    {found : List ℤ} {v : Status} (h : Waiting [] [] s) (hc : OpenReads s group params)
    (hf : producersOf s.taskRing.currentIndex s.tensorMap params = some found)
    (e : Entered s s₁ tid group found.reverse) (hv : Launched group found v) :
    Waiting [] [] (s₁.setStatus tid v) := by
  have f := frame_setStatus s₁ tid v
  have hdone := launched_isDone hv
  have hrc := fun t => setStatus_field LinquTaskDescriptor.faninRefcount (fun _ _ => rfl) s₁ tid t v
  -- the new task, if it is pending
  have hnew : v = .pending → found ≠ [] ∧
      found.reverse.countP (finished (s₁.setStatus tid v)) = 0 := by
    intro hpend
    rcases hv with rfl | ⟨-,hne,n,hn,hn0⟩
    · cases hpend
    · refine ⟨hne,List.countP_eq_zero.mpr fun p hp => ?_⟩
      rcases e.prods_live p hp with hl | rfl
      · have hlt : p < s.taskRing.currentIndex := hl.2
        rw [entered_finished_old e (e.tid_eq ▸ hlt), finished_live hl,
          hc n hn hn0 found hf p (List.mem_reverse.mp hp) hlt]
        simp
      · simp [entered_finished_new e h.shape hdone]
  refine ⟨e.shape.of_frame f,fun c hc hp => ?_,fun c hc hp => ?_⟩ <;>
    rcases (e.live h.shape).mp hc with hl | rfl
  · rw [entered_field e LinquTaskDescriptor.status (fun _ _ _ _ => rfl) hl] at hp
    rw [f.faninList, e.fanin_old c hl,
      entered_field e LinquTaskDescriptor.faninRefcount (fun _ _ _ _ => rfl) hl]
    have hlt : ∀ p ∈ s.faninList c, p < tid := fun p hp => by
      have := (h.shape.fanin c hl p hp).2
      have := hl.2
      have := e.tid_eq
      omega
    have hcount := entered_countP e h.shape hdone 0 hlt
    rw [List.replicate_zero, List.nil_append] at hcount
    rw [hcount]
    exact h.notified c hl hp
  · rw [get_setStatus, if_pos rfl] at hp
    rw [f.faninList, e.fanin_new, (hnew hp).2]
    exact Nat.zero_le _
  · rw [entered_field e LinquTaskDescriptor.status (fun _ _ _ _ => rfl) hl] at hp
    rw [entered_field e LinquTaskDescriptor.faninRefcount (fun _ _ _ _ => rfl) hl,
      entered_field e LinquTaskDescriptor.faninCount (fun _ _ _ _ => rfl) hl]
    refine (h.unmet c hl hp).imp_right fun ⟨b,hb,_⟩ => ?_
    cases hb
  · rw [get_setStatus, if_pos rfl] at hp
    obtain ⟨_,_,_,hn⟩ := e.new
    rw [hrc, f.faninCount, hn]
    exact Or.inl (List.length_pos_iff.mpr (by simpa using (hnew hp).1))

theorem waiting_calls : TaskCalls (fun _ ntf _ chk s => Waiting ntf chk s) OpenReads where
  toTaskRule := waiting_rule
  advance s s' cursor r h := by
    refine ⟨r.shape h.shape,fun c hc hp => ?_,fun c hc hp => ?_⟩
    · rw [r.get] at hp ⊢
      rw [r.faninList, finished_retired r]
      exact h.notified c (r.live_of hc) hp
    · rw [r.get] at hp ⊢
      simp only [r.slot]
      exact h.unmet c (r.live_of hc) hp
  enter _ _ _ _ _ _ _ h hc hf e hv := h.entered hc hf e hv
  scopeBegin s s' h hs := by
    obtain ⟨st,-,hs⟩ := bind_ok.mp hs
    cases hs
    exact h.of_eq rfl rfl rfl
  closeScope _ _ h hs := closeScope_rule (P := Waiting [] []) (fun _ _ => h.of_eq rfl rfl rfl)
    (fun _ t hu => hu.raise t) (fun _ t hu => hu.check t) hs
  scopeRelease _ t h := h.check t

theorem init_waiting {backend : Backend} {cfg : LinquOrchConfigInternal} {s : State}
    (h : init backend cfg = .ok s) : Waiting [] [] s :=
  ⟨init_shape h,fun c hc => absurd hc (init_not_live h c),
    fun c hc => absurd hc (init_not_live h c)⟩

theorem Waiting.open_producer {s : State} (h : Waiting [] [] s) {g : ℤ} (hg : s.taskRing.Live g)
    (hp : (s.get g).status = .pending) : ∃ p ∈ s.faninList g, finished s p = false := by
  have hn := h.notified g hg hp
  have hlen := h.shape.faninCount g hg
  rcases h.unmet g hg hp with hlt | ⟨b,hb,-⟩
  · by_contra hall
    have hall : (s.faninList g).countP (finished s) = (s.faninList g).length :=
      List.countP_eq_length.mpr fun p hm => by
        by_contra hf
        exact hall ⟨p,hm,by simpa using hf⟩
    simp only [List.count_nil] at hn
    omega
  · cases hb

/-- In every run in which no group with sub-tasks is submitted after one of its
producers has completed, with any backend and any completions, a task that is
pending between two calls has a producer that has not completed. -/
theorem pending_group_waits {backend : Backend} {cfg : LinquOrchConfigInternal} {s₀ s : State}
    {ops : List Op} (hinit : init backend cfg = .ok s₀) (hrun : Run Steps ops s₀ s)
    (hopen : Guarded Steps (Admits OpenReads) ops s₀) :
    ∀ g, s.taskRing.Live g → (s.get g).status = .pending →
      ∃ p ∈ s.faninList g, finished s p = false := by
  intro g hg hp
  have h := run_rule waiting_calls.callRule (init_waiting hinit) hopen hrun
  exact Waiting.open_producer h hg hp

instance (s : State) (group : Option ℕ) (params : List LinquParam) :
    Decidable (OpenReads s group params) :=
  match group, h : producersOf s.taskRing.currentIndex s.tensorMap params with
  | none, _ => .isTrue (by simp [OpenReads])
  | some _, none => .isTrue (by simp [OpenReads, h])
  | some n, some found => decidable_of_iff (n ≠ 0 → ∀ p ∈ found,
      p < s.taskRing.currentIndex → (s.get p).status.isDone = false) (by simp [OpenReads, h])

/-- A group submitted while the task it reads from is running. -/
def readsRunning : List Op :=
  [.submitTask {} none [linquMakeOutput 1] [],
    .submitTaskGroup none [linquMakeInput 1] [⟨{},none,[]⟩] [] []]

theorem pending_group_waits_running : ∃ s₀ s, init .dispatcher {} = .ok s₀ ∧
    Run Steps readsRunning s₀ s ∧ (s.get 1).status = .pending ∧
    ∃ p ∈ s.faninList 1, finished s p = false := by
  obtain ⟨s₀,s,h₀,hr,hs,ht⟩ := run_of_check (b := .dispatcher) (c := {})
    (l := readsRunning)
    (g := checkGuarded (fun s group params => decide (OpenReads s group params)) readsRunning)
    (t := fun s => decide (s.taskRing.Live 1 ∧ (s.get 1).status = .pending)) (by decide +kernel)
  obtain ⟨hlive,hpend⟩ := of_decide_eq_true ht
  have hg : Guarded Steps (Admits OpenReads) readsRunning s₀ :=
    guarded_of_check (fun _ _ _ h => of_decide_eq_true h) readsRunning s₀ hs
  exact ⟨s₀,s,h₀,hr,hpend,pending_group_waits h₀ hr hg 1 hlive hpend⟩

/-- Without a dispatcher the task has completed when the group reads it; the
group stays pending with no producer left. -/
theorem late_group_never_wakes : ∃ s₀ s, init .none {} = .ok s₀ ∧ Run Steps readsRunning s₀ s ∧
    s.taskRing.Live 1 ∧ (s.get 1).isGroup = true ∧ (s.get 1).status = .pending ∧
    ∀ p ∈ s.faninList 1, finished s p = true := by
  obtain ⟨s₀,s,h₀,hr,-,ht⟩ := run_of_check (b := .none) (c := {}) (l := readsRunning)
    (g := fun _ => true) (t := fun s => decide (s.taskRing.Live 1 ∧
      (s.get 1).isGroup = true ∧ (s.get 1).status = .pending ∧
      ∀ p ∈ s.faninList 1, finished s p = true)) (by decide +kernel)
  exact ⟨s₀,s,h₀,hr,of_decide_eq_true ht⟩

end Linqu.GroupWaiting
