import Linqu.OrchestratorDone

/-!
# Retirement

A task is consumed once its own work is finished and its fanout counter has
reached `fanoutCount`: one for the scope token and one for each edge to a
consumer. `Repaid` is the lower half of the account. A task submitted in a
scope has been credited with the token, unless an open scope still holds it,
and with every edge to a consumer that is finished; and a completed task whose
counter is full does not wait for a check. It holds in every reachable state.
-/

set_option autoImplicit false

namespace Linqu.Retirement
open Linqu.TaskRing Linqu.DepPool Linqu.TensorMap Linqu.ScopeStack Linqu.Orchestrator
open Linqu.Orchestrator.LinquOrchestratorState Linqu.OrchestrationApi Linqu.Transition
open Linqu.OrchestratorRule Linqu.OrchestratorShape Linqu.OrchestratorCalls Linqu.OrchestratorDone

structure Repaid (rel ntf busy chk : List ℤ) (s : State) : Prop where
  shape : Shape s
  unfreed : ∀ t, (s.get t).taskFreed = false
  fresh : ∀ t b, .submit t b ∈ s.trace → t < s.taskRing.currentIndex
  credit : ∀ p, s.taskRing.Live p → .submit p true ∈ s.trace →
    1+(s.fanoutList p).countP (finished s) ≤
      (s.get p).fanoutRefcount+rel.count p+s.scopeStack.scopeTasks.count p
  settled : ∀ t, s.taskRing.Live t → (s.get t).status = .completed →
    (s.get t).fanoutRefcount < (s.get t).fanoutCount ∨
      ∃ b ∈ busy, s.taskRing.slot b = s.taskRing.slot t

section Updates

variable {rel ntf busy chk : List ℤ} {s s' : State}

/-- Updates inside a frame that keep the status, the fanout counter and
`taskFreed` of every slot. -/
theorem Repaid.of_frame {ntf' chk' : List ℤ} (h : Repaid rel ntf busy chk s) (f : Frame s s')
    (hfreed : ∀ t, (s'.get t).taskFreed = (s.get t).taskFreed)
    (hst : ∀ t, (s'.get t).status.isDone = (s.get t).status.isDone)
    (hcomp : ∀ t, (s'.get t).status = .completed → (s.get t).status = .completed)
    (hrc : ∀ t, (s'.get t).fanoutRefcount = (s.get t).fanoutRefcount) :
    Repaid rel ntf' busy chk' s' where
  shape := h.shape.of_frame f
  unfreed t := (hfreed t).trans (h.unfreed t)
  fresh t b hm := by
    rw [f.current]
    exact h.fresh t b ((f.submits t b).mp hm)
  credit p hp hm := by
    rw [f.fanoutList, finished_congr f.alive hst, hrc, f.scopeStack]
    exact h.credit p (f.live.mp hp) ((f.submits p true).mp hm)
  settled t ht hc := by
    rw [hrc, f.fanoutCount]
    simp only [f.slot]
    exact h.settled t (f.live.mp ht) (hcomp t hc)

theorem Repaid.of_quiet (h : Repaid rel ntf busy chk s) (q : Quiet s s') :
    Repaid rel ntf busy chk s' := by
  have hget : ∀ t, s'.get t = s.get t := fun t => by
    rw [LinquOrchestratorState.get, LinquOrchestratorState.get, q.taskRing]
  refine ⟨q.shape h.shape,fun t => ?_,fun t b hm => ?_,fun p hp hm => ?_,fun t ht => ?_⟩
  · rw [hget]
    exact h.unfreed t
  · rw [q.taskRing]
    exact h.fresh t b ((q.submits t b).mp hm)
  · have hlist : s'.fanoutList p = s.fanoutList p := by
      rw [LinquOrchestratorState.fanoutList, hget, q.depPool]; rfl
    rw [hlist, finished_quiet q, hget, q.scopeStack]
    rw [q.taskRing] at hp
    exact h.credit p hp ((q.submits p true).mp hm)
  · rw [hget]
    simp only [q.taskRing]
    rw [q.taskRing] at ht
    exact h.settled t ht

/-- A check settles its own task. -/
theorem Repaid.check {t : ℤ} (h : Repaid rel ntf (t::busy) chk s) :
    Repaid rel ntf busy chk (s.checkTaskConsumed t) := by
  have f := frame_checkTaskConsumed s t
  have hrc := checkTaskConsumed_field LinquTaskDescriptor.fanoutRefcount (fun _ _ => rfl) s t
  refine ⟨h.shape.of_frame f,fun u => ?_,fun u b hm => ?_,fun p hp hm => ?_,fun u hu hc => ?_⟩
  · rw [checkTaskConsumed_field LinquTaskDescriptor.taskFreed (fun _ _ => rfl)]
    exact h.unfreed u
  · rw [f.current]
    exact h.fresh u b ((f.submits u b).mp hm)
  · rw [f.fanoutList, finished_checkTaskConsumed, hrc, f.scopeStack]
    exact h.credit p (f.live.mp hp) ((f.submits p true).mp hm)
  · rw [hrc, f.fanoutCount]
    rw [get_checkTaskConsumed] at hc
    split at hc
    · cases hc
    · rename_i hn
      rcases h.settled u (f.live.mp hu) hc with hlt | ⟨b,hb,hslot⟩
      · exact Or.inl hlt
      · rcases List.mem_cons.mp hb with rfl | hb
        · by_contra hor
          exact hn ⟨hslot.symm,hc,not_lt.mp (not_or.mp hor).1⟩
        · exact Or.inr ⟨b,hb,by rw [f.slot, f.slot]; exact hslot⟩

/-- One more on the fanout counter of a slot, with the slot left to check. -/
theorem Repaid.raise {p : ℤ} (h : Repaid (p::rel) ntf busy chk s) (hp : p ∈ busy) :
    Repaid rel ntf busy chk (s.raiseFanout p) := by
  have f := frame_raiseFanout s p
  refine ⟨h.shape.of_frame f,fun t => ?_,h.fresh,fun q hq hm => ?_,fun t ht hc => ?_⟩
  · rw [get_raiseFanout]
    exact h.unfreed t
  · have hcr := h.credit q hq hm
    rw [f.fanoutList, finished_raiseFanout, get_raiseFanout, f.scopeStack]
    rw [List.count_cons] at hcr
    dsimp only
    by_cases he : p = q
    · subst he
      simp only [beq_self_eq_true, if_true] at hcr ⊢
      omega
    · simp only [beq_iff_eq, he, if_false] at hcr
      omega
  · rw [get_raiseFanout] at hc ⊢
    by_cases hslot : s.taskRing.slot t = s.taskRing.slot p
    · exact Or.inr ⟨p,hp,hslot.symm⟩
    · rw [if_neg hslot]
      exact h.settled t ht hc

theorem Repaid.busy_cons {b : ℤ} (h : Repaid rel ntf busy chk s) :
    Repaid rel ntf (b::busy) chk s :=
  ⟨h.shape,h.unfreed,h.fresh,h.credit,fun t ht hc => (h.settled t ht hc).imp_right
    fun ⟨c,hc,hslot⟩ => ⟨c,List.mem_cons_of_mem b hc,hslot⟩⟩

theorem Repaid.complete {g : ℤ} (h : Repaid [] ntf busy chk s) {ntf' chk' : List ℤ} :
    Repaid (s.faninList g) ntf' (g::busy) chk' (s.setStatus g .completed) := by
  have f := frame_setStatus s g .completed
  refine ⟨h.shape.of_frame f,fun t => ?_,h.fresh,fun p hp hm => ?_,fun t ht hc => ?_⟩
  · rw [get_setStatus]
    split <;> exact h.unfreed t
  · have hle := countP_fanout_le h.shape g (p := p) hp
    have hcr := h.credit p hp hm
    rw [f.fanoutList, f.scopeStack,
      setStatus_field LinquTaskDescriptor.fanoutRefcount (fun _ _ => rfl)]
    simp only [List.count_nil] at hcr
    omega
  · rw [get_setStatus] at hc
    by_cases hslot : s.taskRing.slot t = s.taskRing.slot g
    · exact Or.inr ⟨g,List.mem_cons_self,hslot.symm⟩
    · rw [get_setStatus, if_neg hslot]
      rw [if_neg hslot] at hc
      rcases h.settled t ht hc with hlt | ⟨b,hb,hbs⟩
      · exact Or.inl hlt
      · exact Or.inr ⟨b,List.mem_cons_of_mem g hb,hbs⟩

end Updates

theorem repaid_rule : TaskRule Repaid where
  shape _ _ _ _ _ h := h.shape
  quiet _ _ _ _ q h := h.of_quiet q
  release _ _ _ _ _ _ h := (h.busy_cons.raise List.mem_cons_self).check
  notify c _ _ _ s h _ := by
    refine h.of_frame (frame_notifyConsumer s c) ?_ ?_ ?_ ?_ <;> intro t <;>
      rw [notifyConsumer, get_modify] <;> split <;> first | rfl | exact id
  skip _ _ _ _ h _ := ⟨h.shape,h.unfreed,h.fresh,h.credit,h.settled⟩
  wake c v _ _ s h hp hv := by
    have hdone : v.isDone = false ∧ v ≠ .completed := by
      rcases hv with rfl | rfl <;> simp [Status.isDone]
    refine h.of_frame (frame_setStatus s c v)
      (fun t => setStatus_field LinquTaskDescriptor.taskFreed (fun _ _ => rfl) s c t v)
      (fun t => ?_) (fun t ht => ?_)
      (fun t => setStatus_field LinquTaskDescriptor.fanoutRefcount (fun _ _ => rfl) s c t v)
    · rw [get_setStatus]
      split
      · rename_i hslot
        rw [get_eq_of_slot hslot, hp]
        exact hdone.1
      · rfl
    · rw [get_setStatus] at ht
      split at ht
      · exact absurd ht hdone.2
      · exact ht
  count g _ _ s h := by
    refine h.of_frame (frame_countSubTask s g) ?_ ?_ ?_ ?_ <;> intro t <;>
      rw [countSubTask, get_modify] <;> split <;> first | rfl | exact id
  complete _ _ _ _ h := h.complete
  finish _ _ _ _ h := h.check

theorem Repaid.scopeBegin {s s' : State} (h : Repaid [] [] [] [] s)
    (hs : s.scopeBegin = .ok s') : Repaid [] [] [] [] s' := by
  obtain ⟨st,hst,hs⟩ := bind_ok.mp hs
  have hst := required_ok.mp hst
  cases hs
  have htasks : st.scopeTasks = s.scopeStack.scopeTasks := by
    unfold LinquScopeStack.scopeBegin at hst
    split at hst
    · cases hst; rfl
    · cases hst
  refine ⟨h.shape.of_eq rfl rfl rfl,h.unfreed,h.fresh,fun p hp hm => ?_,h.settled⟩
  change _ ≤ _+_+st.scopeTasks.count p
  rw [htasks]
  exact h.credit p hp hm

/-- What the innermost scope held is split off the held ids. -/
theorem popScope_spec {s u : State} {ids : List ℤ} (h : s.popScope = .ok (ids,u)) :
    ∃ start rest, s.scopeStack.scopeBegins = start::rest ∧
      ids = s.scopeStack.scopeTasks.drop start ∧
      u = { s with
        scopeStack := { s.scopeStack with
          scopeTasks := s.scopeStack.scopeTasks.take start, scopeBegins := rest }
        scopeEndCount := s.scopeEndCount+1 } := by
  obtain ⟨⟨ids',st⟩,hst,h⟩ := bind_ok.mp h
  have hst := required_ok.mp hst
  cases h
  unfold LinquScopeStack.scopeEnd at hst
  split at hst
  · cases hst
  · rename_i start rest hbegins
    cases hst
    exact ⟨start,rest,hbegins,rfl,rfl⟩

theorem Repaid.popScope {s u : State} {ids busy : List ℤ} (h : Repaid [] [] busy [] s)
    (hs : s.popScope = .ok (ids,u)) : Repaid ids [] busy [] u := by
  obtain ⟨start,rest,-,rfl,rfl⟩ := popScope_spec hs
  refine ⟨?_,h.unfreed,h.fresh,fun p hp hm => ?_,h.settled⟩
  · exact h.shape.of_eq rfl rfl rfl
  · have hcr := h.credit p hp hm
    have hsplit := congrArg (List.count p) (List.take_append_drop start s.scopeStack.scopeTasks)
    rw [List.count_append] at hsplit
    change _ ≤ _+_+(s.scopeStack.scopeTasks.take start).count p
    simp only [List.count_nil] at hcr
    change 1+(s.fanoutList p).countP (finished s) ≤ (s.get p).fanoutRefcount+_+_
    omega

/-- The tokens of a scope, while every live task is still to be checked. -/
theorem Repaid.tokens {ids busy : List ℤ} {s : State} (h : Repaid ids [] busy [] s)
    (hbusy : ∀ t, s.taskRing.Live t → t ∈ busy) :
    Repaid [] [] busy [] (ids.foldl releaseScopeToken s) := by
  have hfold := foldl_rule (P := fun ids u => Repaid ids [] busy [] u ∧ Frame s u)
    (f := releaseScopeToken) (fun t ids u hu => ?_) ids ⟨h,Frame.refl s⟩
  · exact hfold.1
  · have hfr : u.releaseScopeToken t = u.raiseFanout t := by
      rw [releaseScopeToken, hu.1.unfreed]
      rfl
    rw [hfr]
    refine ⟨?_,hu.2.trans (frame_raiseFanout u t)⟩
    have hr := (hu.1.busy_cons (b := t)).raise List.mem_cons_self
    refine ⟨hr.shape,hr.unfreed,hr.fresh,hr.credit,fun c hc _ => Or.inr ⟨c,?_,rfl⟩⟩
    exact hbusy c ((hu.2.trans (frame_raiseFanout u t)).live.mp hc)

theorem Repaid.closeScope {s s' : State} (h : Repaid [] [] [] [] s)
    (hs : s.closeScope = .ok s') : Repaid [] [] [] [] s' := by
  obtain ⟨⟨ids,u⟩,hu,hs⟩ := bind_ok.mp hs
  cases hs
  have hpop := h.popScope hu
  have hbusy : Repaid ids [] u.liveIds [] u :=
    ⟨hpop.shape,hpop.unfreed,hpop.fresh,hpop.credit,
      fun t ht _ => Or.inr ⟨t,(mem_liveIds hpop.shape).mpr ht,rfl⟩⟩
  have htok := hbusy.tokens fun t ht => (mem_liveIds hpop.shape).mpr ht
  have hids : (ids.foldl releaseScopeToken u).liveIds = u.liveIds := by
    have hf := foldl_rule (P := fun _ v => Frame u v) (f := releaseScopeToken)
      (fun t _ v hv => hv.trans (by
        rw [releaseScopeToken]
        split
        · exact Frame.refl v
        · exact frame_raiseFanout v t)) ids (Frame.refl u)
    rw [liveIds, liveIds, LinquTaskRing.activeCount, LinquTaskRing.activeCount, hf.current, hf.alive]
  rw [hids]
  exact foldl_rule (P := fun busy v => Repaid [] [] busy [] v) (f := checkTaskConsumed)
    (fun t busy v hv => hv.check) u.liveIds htok

theorem Repaid.retired {s s' : State} {cursor : ℤ} (h : Repaid [] [] [] [] s)
    (r : Retired s s' cursor) : Repaid [] [] [] [] s' where
  shape := r.shape h.shape
  unfreed t := by rw [r.get]; exact h.unfreed t
  fresh t b hm := by
    rw [r.ring]
    rw [r.rest.trace] at hm
    exact h.fresh t b hm
  credit p hp hm := by
    rw [r.rest.trace] at hm
    rw [r.fanoutList, finished_retired r, r.get, r.rest.scopeStack]
    exact h.credit p (r.live_of hp) hm
  settled t ht hc := by
    rw [r.get] at hc ⊢
    simp only [r.slot]
    exact h.settled t (r.live_of ht) hc

theorem Repaid.entered {s s₁ : State} {tid : ℤ} {group : Option ℕ} {prods : List ℤ} {v : Status}
    (h : Repaid [] [] [] [] s) (e : Entered s s₁ tid group prods) (hv : v.isDone = false) :
    Repaid [] [] [] [] (s₁.setStatus tid v) := by
  have hlv : ∀ t, (s₁.setStatus tid v).taskRing.Live t ↔ s.taskRing.Live t ∨ t = tid :=
    fun t => e.live h.shape
  have hnew : (s₁.get tid).taskFreed = false ∧ (s₁.get tid).fanoutRefcount = 0 := by
    obtain ⟨_,_,_,hn⟩ := e.new
    rw [hn]
    exact ⟨rfl,rfl⟩
  have f := frame_setStatus s₁ tid v
  refine ⟨e.shape.of_frame f,fun t => ?_,fun t b hm => ?_,fun p hp hm => ?_,fun t ht hc => ?_⟩
  · rw [setStatus_field LinquTaskDescriptor.taskFreed (fun _ _ => rfl)]
    by_cases hslot : s.taskRing.slot t = s.taskRing.slot tid
    · rw [get_eq_of_slot (s := s₁) (u := tid) (by
        rw [LinquTaskRing.slot, LinquTaskRing.slot, e.window]; exact hslot)]
      exact hnew.1
    · rw [e.old t hslot]
      exact h.unfreed t
  · have hm := (f.submits t b).mp hm
    rw [e.trace, List.mem_cons] at hm
    have htid := e.tid_eq
    change t < s₁.taskRing.currentIndex
    rw [e.current]
    rcases hm with hm | hm
    · cases hm
      omega
    · have := h.fresh t b hm
      omega
  · have hm := (f.submits p true).mp hm
    rw [e.trace, List.mem_cons] at hm
    rw [f.fanoutList, f.scopeStack, e.scopeTasks,
      setStatus_field LinquTaskDescriptor.fanoutRefcount (fun _ _ => rfl)]
    rcases (hlv p).mp hp with hp | rfl
    · have hne : p ≠ tid := fun he => e.slot_ne p hp (he ▸ rfl)
      have hm : .submit p true ∈ s.trace := by
        rcases hm with hm | hm
        · exact absurd (Event.submit.inj hm).1 hne
        · exact hm
      have hcr := h.credit p hp hm
      have hlt : ∀ c ∈ s.fanoutList p, c < tid := fun c hc => by
        have := (h.shape.fanout p hp c hc).2
        have := e.tid_eq
        omega
      rw [e.fanout_old p hp, entered_countP e h.shape hv _ hlt,
        e.field LinquTaskDescriptor.fanoutRefcount (fun _ _ _ _ => rfl) hp]
      refine hcr.trans (Nat.add_le_add_left ?_ _)
      split
      · rw [List.count_append]
        exact Nat.le_add_right _ _
      · exact le_rfl
    · have hd : 0 ≤ s.scopeStack.depth := by
        rcases hm with hm | hm
        · have := (Event.submit.inj hm).2
          exact of_decide_eq_true this.symm
        · have := h.fresh p true hm
          rw [← e.tid_eq] at this
          exact absurd this (lt_irrefl p)
      have hcount := entered_countP e h.shape hv (prods.count p) (l := []) (by simp)
      rw [List.append_nil, List.countP_nil] at hcount
      rw [e.fanout_new, hcount, hnew.2, if_pos hd, List.count_append, List.count_singleton_self]
      omega
  · rcases (hlv t).mp ht with ht | rfl
    · rw [entered_get_old e ht] at hc ⊢
      rw [e.field LinquTaskDescriptor.status (fun _ _ _ _ => rfl) ht] at hc
      rcases h.settled t ht hc with hlt | ⟨b,hb,-⟩
      · left
        rw [e.field LinquTaskDescriptor.fanoutRefcount (fun _ _ _ _ => rfl) ht,
          e.shape.fanoutCount t ((e.live h.shape).mpr (Or.inl ht)), e.fanout_old t ht,
          List.length_append]
        rw [h.shape.fanoutCount t ht] at hlt
        omega
      · cases hb
    · rw [get_setStatus, if_pos rfl] at hc
      rw [show v = .completed from hc] at hv
      cases hv

theorem repaid_calls : TaskCalls Repaid (fun _ _ _ => True) where
  toTaskRule := repaid_rule
  advance _ _ _ r h := h.retired r
  enter _ _ _ _ _ _ _ h _ _ e hv := h.entered e (launched_isDone hv)
  scopeBegin _ _ h hs := h.scopeBegin hs
  closeScope _ _ h hs := h.closeScope hs
  scopeRelease _ _ h := h.busy_cons.check

theorem init_repaid {backend : Backend} {cfg : LinquOrchConfigInternal} {s : State}
    (h : init backend cfg = .ok s) : Repaid [] [] [] [] s := by
  obtain ⟨-,htr,-,-,-,-,-⟩ := init_rest h
  obtain ⟨-,-,-,hget⟩ := init_ring h
  exact ⟨init_shape h,fun t => (by rw [hget]),fun t b hm => (by rw [htr] at hm; cases hm),
    fun t ht => absurd ht (init_not_live h t),fun t ht => absurd ht (init_not_live h t)⟩

/-- The account holds in every reachable state, whatever is reported. -/
theorem repaid_reachable {backend : Backend} {cfg : LinquOrchConfigInternal} {s₀ s : State}
    {ops : List Op} (h : init backend cfg = .ok s₀) (hr : Run Steps ops s₀ s) :
    Repaid [] [] [] [] s :=
  run_rule repaid_calls.callRule (init_repaid h) (guarded_true ops s₀) hr

/-- A task that is finished with all its consumers, and whose token has been
given back, is consumed. -/
theorem Repaid.consumed {s : State} (h : Repaid [] [] [] [] s) {t : ℤ}
    (ht : s.taskRing.Live t) (hd : finished s t = true) (hsub : .submit t true ∈ s.trace)
    (hheld : t ∉ s.scopeStack.scopeTasks) (hc : ∀ c ∈ s.fanoutList t, finished s c = true) :
    (s.get t).status = .consumed := by
  have hcr := h.credit t ht hsub
  rw [List.countP_eq_length.mpr hc, List.count_eq_zero.mpr hheld, List.count_nil] at hcr
  rw [finished_live ht] at hd
  cases hst : (s.get t).status with
  | consumed => rfl
  | completed =>
    rcases h.settled t ht hst with hlt | ⟨b,hb,-⟩
    · rw [h.shape.fanoutCount t ht] at hlt
      omega
    · cases hb
  | pending => rw [hst] at hd; cases hd
  | ready => rw [hst] at hd; cases hd
  | running => rw [hst] at hd; cases hd

/-- The wait loop of the submit functions ends once all work is finished and the
oldest task is out of its scope: the call of `try_advance_ring_pointers` in it
makes room, and the loop leaves without an assertion. -/
theorem wait_ends {backend : Backend} {cfg : LinquOrchConfigInternal} {s₀ s : State}
    {ops : List Op} (hinit : init backend cfg = .ok s₀) (hrun : Run Steps ops s₀ s)
    (hfull : s.taskRing.hasSpace = false) (hdone : ∀ t, s.taskRing.Live t → finished s t = true)
    (hscoped : .submit s.taskRing.lastTaskAlive true ∈ s.trace)
    (hclosed : s.taskRing.lastTaskAlive ∉ s.scopeStack.scopeTasks) :
    s.tryAdvanceRingPointers.taskRing.hasSpace = true ∧
      ∀ arrivals, ∃ s', s.waitForSpace arrivals = .ok s' ∧ s'.taskRing.hasSpace = true := by
  have h := repaid_reachable hinit hrun
  obtain ⟨h1,h2,h3,h4⟩ := h.shape.ring
  have hnot : ¬ s.taskRing.currentIndex < s.taskRing.lastTaskAlive+s.taskRing.windowSize :=
    fun hlt => by rw [s.taskRing.hasSpace_iff.mpr hlt] at hfull; cases hfull
  have hlive : s.taskRing.Live s.taskRing.lastTaskAlive := ⟨le_rfl,by omega⟩
  have hcons := h.consumed hlive (hdone _ hlive) hscoped hclosed
    fun c hc => hdone c (h.shape.consumer_live hlive hc)
  have hroom : ∀ u : State, Metrics s u → u.tryAdvanceRingPointers.taskRing.hasSpace = true := by
    intro u m
    obtain ⟨cursor,r⟩ := tryAdvance_retired (m.quiet.shape h.shape)
    have hget : ∀ t, u.get t = s.get t := fun t => by
      rw [LinquOrchestratorState.get, LinquOrchestratorState.get, m.taskRing]
    have hle := r.le
    have hstop := r.stop
    rw [m.taskRing] at hle hstop
    have hlt : s.taskRing.lastTaskAlive < cursor := by
      refine lt_of_le_of_ne hle fun he => ?_
      subst he
      exact hstop hlive.2 (by rw [hget]; exact hcons)
    rw [r.ring, m.taskRing, LinquTaskRing.hasSpace_iff]
    change s.taskRing.currentIndex < cursor+s.taskRing.windowSize
    omega
  refine ⟨hroom s ⟨⟨rfl,rfl,rfl,rfl,rfl,rfl,rfl⟩,rfl,rfl⟩,fun arrivals => ?_⟩
  have hr := hroom { s with taskBlockCount := s.taskBlockCount+1 }
    ⟨⟨rfl,rfl,rfl,rfl,rfl,rfl,rfl⟩,rfl,rfl⟩
  refine ⟨_,?_,hr⟩
  rw [waitForSpace, hfull, if_neg (by simp), awaitSpace]
  have hf' : LinquTaskRing.hasSpace
      { s with taskBlockCount := s.taskBlockCount+1 }.taskRing = false := hfull
  rw [hf', if_neg (by simp)]
  dsimp only
  rw [hr, if_pos rfl]

theorem all_finished {s : State} (h : Shape s) (hall : s.liveIds.all (finished s) = true) :
    ∀ t, s.taskRing.Live t → finished s t = true :=
  fun t ht => List.all_eq_true.mp hall t ((mem_liveIds h).mpr ht)

def twoSlots : LinquOrchConfigInternal := { taskRingWindow := 2 }

/-- Two tasks fill the ring and are reported after their scope has ended. -/
def lateReports : List Op :=
  [.scopeBegin,.submitTask {} none [] [],.submitTask {} none [] [],.scopeEnd,
    .onTaskComplete 0,.onTaskComplete 1]

def isScopedSubmit (t : ℤ) : Event → Bool
  | .submit u b => u == t && b
  | _ => false

theorem mem_of_isScopedSubmit {l : List Event} {t : ℤ} (h : l.any (isScopedSubmit t) = true) :
    .submit t true ∈ l := by
  obtain ⟨e,he,ht⟩ := List.any_eq_true.mp h
  cases e with
  | submit u b =>
    simp only [isScopedSubmit, Bool.and_eq_true, beq_iff_eq] at ht
    rw [ht.1, ht.2] at he
    exact he
  | dispatch call => cases ht
  | dispatchFn call => cases ht
  | report u => cases ht

theorem wait_ends_two_slots : ∃ s₀ s, init .dispatcher twoSlots = .ok s₀ ∧
    Run Steps lateReports s₀ s ∧ s.taskRing.hasSpace = false ∧
    s.tryAdvanceRingPointers.taskRing.hasSpace = true := by
  obtain ⟨s₀,s,h₀,hr,-,ht⟩ := run_of_check (b := .dispatcher) (c := twoSlots)
    (l := lateReports) (g := fun _ => true) (t := fun s => !s.taskRing.hasSpace && s.liveIds.all (finished s) &&
      s.trace.any (isScopedSubmit s.taskRing.lastTaskAlive) &&
      decide (s.taskRing.lastTaskAlive ∉ s.scopeStack.scopeTasks)) (by decide +kernel)
  simp only [Bool.and_eq_true, Bool.not_eq_true', decide_eq_true_eq] at ht
  have hs := (repaid_reachable h₀ hr).shape
  exact ⟨s₀,s,h₀,hr,ht.1.1.1,(wait_ends h₀ hr ht.1.1.1 (all_finished hs ht.1.1.2)
    (mem_of_isScopedSubmit ht.1.2) ht.2).1⟩

def fourSlots : LinquOrchConfigInternal := { taskRingWindow := 4 }

/-- Four tasks that complete at once, all in one scope that stays open. -/
def openScope : List Op :=
  [.scopeBegin,.submitTask {} none [] [],.submitTask {} none [] [],.submitTask {} none [] [],
    .submitTask {} none [] []]

def isDeadlock : Except Fault State → Bool
  | .error .taskRingDeadlock => true
  | _ => false

/-- Every task has completed, and yet the open scope keeps the ring full and
the next submission trips the assertion of the wait loop. -/
theorem open_scope_deadlocks : ∃ s₀ s, init .none fourSlots = .ok s₀ ∧ Run Steps openScope s₀ s ∧
    s.taskRing.hasSpace = false ∧ (∀ t, s.taskRing.Live t → finished s t = true) ∧
    s.tryAdvanceRingPointers.taskRing.hasSpace = false ∧
    s.submitTask {} none [] [] = .error .taskRingDeadlock := by
  obtain ⟨s₀,s,h₀,hr,-,ht⟩ := run_of_check (b := .none) (c := fourSlots)
    (l := openScope) (g := fun _ => true) (t := fun s => !s.taskRing.hasSpace && s.liveIds.all (finished s) &&
      !s.tryAdvanceRingPointers.taskRing.hasSpace && isDeadlock (s.submitTask {} none [] []))
    (by decide +kernel)
  simp only [Bool.and_eq_true, Bool.not_eq_true'] at ht
  have hs := (repaid_reachable h₀ hr).shape
  refine ⟨s₀,s,h₀,hr,ht.1.1.1,all_finished hs ht.1.1.2,ht.1.2,?_⟩
  have hd := ht.2
  cases hsub : s.submitTask {} none [] [] with
  | ok u => rw [hsub] at hd; cases hd
  | error f => rw [hsub] at hd; cases f <;> first | rfl | cases hd

end Linqu.Retirement
