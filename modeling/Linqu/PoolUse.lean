import Linqu.RingsInStep
import Linqu.LastWriters
import Linqu.LevelPool
import Linqu.Outcomes

/-!
# The dependency pool over whole runs

A submission takes two entries for each producer that it finds. Nothing else
touches the pool, and only a reset gives entries back: the bump pointer counts
all that were ever taken, also those of tasks that have been retired. Whether
a call fails at the pool can be read off this count.
-/

set_option autoImplicit false

namespace Linqu.PoolUse
open Linqu.TaskRing Linqu.HeapRing Linqu.DepPool Linqu.TensorMap Linqu.Orchestrator
open Linqu.Orchestrator.LinquOrchestratorState Linqu.OrchestrationApi Linqu.Transition
open Linqu.OrchestratorRule Linqu.OrchestratorShape Linqu.OrchestratorCalls
open Linqu.RingsInStep Linqu.LastWriters Linqu.Outcomes Linqu.DepPool.LinquDepListPool

/-! Everything but the parameter loop spares the pool. -/

/-- The pool is left alone, and is not what a failure is due to. -/
def Spares (p : LinquDepListPool) (x : Except Fault State) : Prop :=
  Ends (fun e => e ≠ .depPoolFull) (fun u => u.depPool = p) x

variable {p : LinquDepListPool}

theorem depPool_check {s : State} (h : s.depPool = p) (t : ℤ) :
    (s.checkTaskConsumed t).depPool = p := by
  unfold checkTaskConsumed
  split
  · exact h
  · exact h

theorem depPool_advance {s : State} (h : s.depPool = p) : s.tryAdvanceRingPointers.depPool = p := by
  unfold tryAdvanceRingPointers
  dsimp only
  split
  · split
    · exact h
    · exact h
  · exact h

section Propagate

variable {propagate : State → ℤ → Except Fault State}
  (hp : ∀ (u : State) t, u.depPool = p → Spares p (propagate u t))
include hp

theorem spares_dispatchSubTask {s : State} (h : s.depPool = p) (g : ℤ) (k : Option String)
    (gp : List LinquParam) (n i : ℕ) (sub : LinquSubTaskSpec) :
    Spares p (s.dispatchSubTask propagate g k gp n i sub) := by
  unfold dispatchSubTask
  dsimp only
  split
  · exact .ok h
  · split
    · exact hp _ g h
    · exact .ok h

theorem spares_dispatchFrom {between : ℕ → State → Except Fault State}
    (hb : ∀ i (u : State), u.depPool = p → Spares p (between i u)) (g : ℤ) (k : Option String)
    (gp : List LinquParam) (n : ℕ) (subs : List LinquSubTaskSpec) : ∀ (i : ℕ) (s : State),
      s.depPool = p → Spares p (dispatchFrom propagate between g k gp n i subs s) := by
  induction subs with
  | nil => exact fun i s h => .ok h
  | cons sub rest ih =>
    intro i s h
    apply (spares_dispatchSubTask hp h g k gp n i sub).bind
    intro m hm
    apply (hb i m hm).bind
    intro u hu
    exact ih (i+1) u hu

theorem spares_checkConsumer {s : State} (h : s.depPool = p) (c : ℤ) :
    Spares p (s.checkConsumer propagate c) := by
  unfold checkConsumer
  split
  · split
    · dsimp only
      split
      · rename_i spec _
        apply Ends.bind (spares_dispatchFrom hp (fun _ _ hu => .ok hu) c _ _ _ spec.subTasks 0
          (s.setStatus c .running) h)
        intro u hu
        exact .ok hu
      · exact .ok h
    · exact .ok h
  · exact .ok h

end Propagate

theorem spares_propagate (fuel : ℕ) : ∀ (s : State) (t : ℤ), s.depPool = p →
    Spares p (propagateCompletion fuel s t) := by
  induction fuel with
  | zero =>
    intro s t _
    exact .error (by decide)
  | succ fuel ih =>
    intro s t h
    have hrel : ((s.faninList t).foldl releaseProducer s).depPool = p := by
      apply foldl_rule (P := fun _ (u : State) => u.depPool = p) _ _ h
      intro q _ u hu
      exact depPool_check (s := u.raiseFanout q) hu q
    have hnote : ∀ l : List ℤ, ∀ u : State, u.depPool = p → (l.foldl notifyConsumer u).depPool = p := by
      intro l u hu
      apply foldl_rule (P := fun _ (v : State) => v.depPool = p) _ l hu
      intro _ _ _ hv
      exact hv
    rw [propagateCompletion]
    apply Ends.bind (Ends.foldlM (fun u c hu => spares_checkConsumer ih hu c) _ (hnote _ _ hrel))
    intro u hu
    exact .ok (depPool_check hu t)

theorem spares_complete {s : State} (h : s.depPool = p) (t : ℤ) : Spares p (s.complete t) :=
  spares_propagate _ _ t h

theorem spares_onTaskComplete {s : State} (h : s.depPool = p) (t : ℤ) :
    Spares p (s.onTaskComplete t) := by
  unfold onTaskComplete
  dsimp only
  split
  · split
    · apply spares_complete
      exact h
    · exact .ok h
  · split
    · apply spares_complete
      exact h
    · exact .ok h

theorem spares_deliver {s : State} (h : s.depPool = p) (ids : List ℤ) : Spares p (s.deliver ids) :=
  Ends.foldlM (fun _ t hu => spares_onTaskComplete hu t) ids h

/-- A wait that returns has found a slot. -/
def Waits (p : LinquDepListPool) (x : Except Fault State) : Prop :=
  Ends (fun e => e ≠ .depPoolFull) (fun u => u.depPool = p ∧ u.taskRing.hasSpace = true) x

theorem waits_waitForSpace {s : State} (h : s.depPool = p) (arrivals : List (List ℤ)) :
    Waits p (s.waitForSpace arrivals) :=
  waitForSpace_ends (J := fun u => u.depPool = p) (fun _ hu => depPool_advance hu)
    (fun _ t hu => spares_onTaskComplete hu t) (by decide) (fun _ _ hu => hu) h arrivals

theorem spares_waitForHeap {s : State} (h : s.depPool = p) (size : ℕ) (arrivals : List (List ℤ)) :
    Spares p (s.waitForHeap size arrivals) := by
  apply Ends.mono (waitForHeap_ends (J := fun u => u.depPool = p) (fun _ hu => depPool_advance hu)
    (fun _ t hu => spares_onTaskComplete hu t) (by decide) (fun _ _ hu => hu) h size arrivals)
  rintro _ ⟨u,pos,r,hu,-,rfl⟩
  exact hu

theorem spares_allocTensor {s : State} (h : s.depPool = p) (size : ℕ) (arrivals : List (List ℤ)) :
    Spares p ((s.allocTensor size arrivals).map Prod.snd) := by
  unfold allocTensor
  dsimp only
  split
  · exact .ok h
  · have h0 : { s with nextTensorHandle := s.nextTensorHandle+1 }.depPool = p := h
    apply Ends.map (P := fun r => r.2.depPool = p) _ fun _ hr => hr
    apply (spares_waitForHeap h0 size arrivals).bind
    intro u hu
    exact .ok hu

theorem spares_launchTask {s : State} (h : s.depPool = p) (tid : ℤ) (target : LinquCoordinate)
    (k : Option String) (params : List LinquParam) :
    Spares p (s.launchTask tid target k params) := by
  unfold launchTask
  dsimp only
  split
  · exact .ok h
  · apply spares_complete
    exact h
  · apply spares_complete
    exact h

theorem spares_launchGroup {s : State} (h : s.depPool = p) (tid : ℤ) (k : Option String)
    (gp : List LinquParam) (subs : List LinquSubTaskSpec) (arrivals : List (List ℤ)) :
    Spares p (s.launchGroup tid k gp subs arrivals) := by
  unfold launchGroup
  split
  · exact spares_complete h tid
  · split
    · exact spares_dispatchFrom (fun u t hu => spares_propagate _ u t hu)
        (fun i u hu => spares_deliver hu _) tid k gp _ subs 0 _ h
    · exact .ok h

theorem spares_closeScope {s : State} (h : s.depPool = p) : Spares p s.closeScope := by
  unfold closeScope popScope
  cases s.scopeStack.scopeEnd with
  | none => exact .error (by decide)
  | some r =>
    refine .ok ?_
    apply foldl_rule (P := fun _ (u : State) => u.depPool = p) (fun t _ u hu => depPool_check hu t)
    apply foldl_rule (P := fun _ (u : State) => u.depPool = p)
    · intro t _ u hu
      unfold releaseScopeToken
      split
      · exact hu
      · exact hu
    · exact h

/-! The parameter loop. -/

section Draws

variable {α : Type} {pool : α → LinquDepListPool} {x : Except Fault α} {n : ℕ}

/-- `n` entries are taken, and a failure is due to the pool exactly when that
is more than it has left. -/
def Draws (n : ℕ) (p : LinquDepListPool) (pool : α → LinquDepListPool) (x : Except Fault α) :
    Prop :=
  Ends (fun e => e = .depPoolFull ↔ p.capacity+1 < p.top+n)
    (fun a => Taken n p (pool a) ∧ p.top+n ≤ p.capacity+1) x

theorem Draws.after {k : ℕ} {q : LinquDepListPool} (h : Draws n q pool x) (hk : Taken k p q) :
    Draws (k+n) p pool x := by
  obtain ⟨htop,hcap⟩ := hk
  cases h with
  | ok h =>
    refine .ok ⟨Taken.trans ⟨htop,hcap⟩ h.1,?_⟩
    have hroom := h.2
    omega
  | error h =>
    apply Ends.error
    rw [h, htop, hcap, Nat.add_assoc]

theorem Draws.full (h : Draws n p pool x) :
    x = .error .depPoolFull ↔ p.capacity+1 < p.top+n := by
  cases h with
  | ok h =>
    constructor
    · intro he
      cases he
    · intro hlt
      have hroom := h.2
      omega
  | error h =>
    rw [← h]
    exact ⟨Except.error.inj,fun he => by rw [he]⟩

end Draws

theorem bind_error {ε α β : Type} {x : Except ε α} {f : α → Except ε β} {e : ε}
    (h : (x >>= f) = .error e) : x = .error e ∨ ∃ a, x = .ok a ∧ f a = .error e := by
  cases x with
  | error e' =>
    cases h
    exact Or.inl rfl
  | ok a => exact Or.inr ⟨a,rfl,h⟩

theorem required_error {α : Type} {o : Option α} {f e : Fault} (h : required o f = .error e) :
    o = none ∧ e = f := by
  cases o with
  | none => exact ⟨rfl,(Except.error.inj h).symm⟩
  | some a => cases h

/-- An edge takes two entries; when the second one is missing the first one
has been taken all the same. -/
theorem addEdge_cases (s : State) (q tid : ℤ) :
    (s.depPool.capacity+1 < s.depPool.top+2 ∧ s.addEdge q tid = .error .depPoolFull) ∨
      (s.depPool.top+2 ≤ s.depPool.capacity+1 ∧ ∃ s', s.addEdge q tid = .ok s' ∧
        Taken 2 s.depPool s'.depPool ∧ s'.tensorMap = s.tensorMap) := by
  cases ha : s.addEdge q tid with
  | ok s' =>
    obtain ⟨i₁,pool₁,i₂,h₁,h₂,hrest,-,-⟩ := addEdge_spec ha
    have hsome := prepend_isSome pool₁ (s.get q).fanoutListHead tid
    rw [h₂, Option.isSome_some, eq_comm, decide_eq_true_eq] at hsome
    obtain ⟨htop,hcap⟩ := taken_prepend h₁
    refine Or.inr ⟨by omega,s',rfl,(taken_prepend h₁).trans (taken_prepend h₂),?_⟩
    rw [hrest]
  | error e =>
    apply Or.inl
    rcases bind_error ha with hfirst | ⟨⟨i₁,pool₁⟩,h₁,ha⟩
    · obtain ⟨hnone,rfl⟩ := required_error hfirst
      have hsome := prepend_isSome s.depPool (s.get tid).depListHead q
      rw [hnone, Option.isSome_none, eq_comm, decide_eq_false_iff_not] at hsome
      exact ⟨by omega,rfl⟩
    · obtain ⟨htop,hcap⟩ := taken_prepend (required_ok.mp h₁)
      rcases bind_error ha with hsecond | ⟨⟨i₂,pool₂⟩,-,ha⟩
      · obtain ⟨hnone,rfl⟩ := required_error hsecond
        have hsome := prepend_isSome pool₁ _ tid ▸ congrArg Option.isSome hnone
        rw [Option.isSome_none, decide_eq_false_iff_not] at hsome
        exact ⟨by omega,rfl⟩
      · cases ha

/-- The entries that the parameter loop asks for: it stops at a chain of the
tensor map that does not end. -/
def requested (tid : ℤ) : LinquTensorMap → List LinquParam → ℕ
  | _, [] => 0
  | tm, q::rest =>
    (if q.type.reads then tm.lookup q.handle else some none).elim 0 fun found =>
      2*found.toList.length+
        (if q.type.writes then LinquTensorMap.insert tm q.handle tid true else some tm).elim 0
          fun tm => requested tid tm rest

theorem linkRead_eq (tid : ℤ) (u : State) (n : ℕ) (q : LinquParam) : linkRead tid (u,n) q =
    match (if q.type.reads then u.tensorMap.lookup q.handle else some none) with
    | none => .error .endlessChain
    | some none => .ok (u,n)
    | some (some r) => (u.addEdge r tid).map (·,n+1) := by
  unfold linkRead
  by_cases hr : q.type.reads = true
  · rw [if_pos hr, if_pos hr]
    cases u.tensorMap.lookup q.handle with
    | none => rfl
    | some found =>
      cases found with
      | none => rfl
      | some r => rfl
  · rw [if_neg hr, if_neg hr]

theorem linkWrite_eq (tid : ℤ) (u : State) (n : ℕ) (q : LinquParam) : linkWrite tid (u,n) q =
    match (if q.type.writes then LinquTensorMap.insert u.tensorMap q.handle tid true
      else some u.tensorMap) with
    | none => .error .endlessChain
    | some tensorMap => .ok ({ u with tensorMap },n) := by
  unfold linkWrite
  by_cases hw : q.type.writes = true
  · rw [if_pos hw, if_pos hw]
    cases LinquTensorMap.insert u.tensorMap q.handle tid true with
    | none => rfl
    | some tm => rfl
  · rw [if_neg hw, if_neg hw]

/-- The second half of a round, and the rounds after it. -/
theorem linkRest_draws {tid : ℤ} {q : LinquParam} {rest : List LinquParam} {u : State} {n : ℕ}
    (ih : ∀ (v : State) (n : ℕ), v.depPool.top ≤ v.depPool.capacity+1 →
      Draws (requested tid v.tensorMap rest) v.depPool (fun r => r.1.depPool)
        (rest.foldlM (linkParam tid) (v,n)))
    (hu : u.depPool.top ≤ u.depPool.capacity+1) :
    Draws ((if q.type.writes then LinquTensorMap.insert u.tensorMap q.handle tid true
        else some u.tensorMap).elim 0 fun tm => requested tid tm rest) u.depPool
      (fun r => r.1.depPool) (linkWrite tid (u,n) q >>= rest.foldlM (linkParam tid)) := by
  rw [linkWrite_eq]
  cases (if q.type.writes then LinquTensorMap.insert u.tensorMap q.handle tid true
    else some u.tensorMap) with
  | none =>
    apply Ends.error
    simp only [reduceCtorEq, Option.elim, false_iff]
    omega
  | some tm => exact ih { u with tensorMap := tm } n hu

theorem linkParams_draws (tid : ℤ) (params : List LinquParam) : ∀ (u : State) (n : ℕ),
    u.depPool.top ≤ u.depPool.capacity+1 →
      Draws (requested tid u.tensorMap params) u.depPool (fun r => r.1.depPool)
        (params.foldlM (linkParam tid) (u,n)) := by
  induction params with
  | nil =>
    intro u n hu
    exact .ok ⟨taken_refl _,hu⟩
  | cons q rest ih =>
    intro u n hu
    rw [List.foldlM_cons, linkParam, bind_assoc, linkRead_eq, requested]
    cases (if q.type.reads then u.tensorMap.lookup q.handle else some none) with
    | none =>
      apply Ends.error
      simp only [reduceCtorEq, Option.elim, false_iff]
      omega
    | some found =>
      cases found with
      | none =>
        dsimp only [Option.elim, Option.toList_none, List.length_nil]
        rw [Nat.mul_zero, Nat.zero_add]
        exact linkRest_draws ih hu
      | some r =>
        dsimp only [Option.elim, Option.toList_some, List.length_singleton]
        rcases addEdge_cases u r tid with ⟨hfull,he⟩ | ⟨hroom,v,he,htaken,hmap⟩
        · rw [he]
          apply Ends.error
          simp only [true_iff]
          omega
        · rw [he, ← hmap]
          obtain ⟨htop,hcap⟩ := htaken
          exact (linkRest_draws ih (u := v) (n := n+1) (by omega)).after ⟨htop,hcap⟩

/-! Calls and runs. -/

theorem Draws.spare {α β : Type} {pool : α → LinquDepListPool} {pool' : β → LinquDepListPool}
    {x : Except Fault α} {f : α → Except Fault β} {n : ℕ} (h : Draws n p pool x)
    (hf : ∀ a, Ends (fun e => e ≠ .depPoolFull) (fun b => pool' b = pool a) (f a)) :
    Draws n p pool' (x >>= f) := by
  apply Ends.bind h
  rintro a ⟨htaken,hroom⟩
  have hend := hf a
  cases hfa : f a with
  | ok b =>
    rw [hfa] at hend
    exact .ok ⟨hend.of_ok rfl ▸ htaken,hroom⟩
  | error e =>
    rw [hfa] at hend
    exact .error ⟨fun hfull => absurd hfull (hend.of_error rfl),fun hlt => by omega⟩

theorem spares_joinScope {s : State} (h : s.depPool = p) (tid : ℤ) :
    Spares p (s.joinScope tid) := by
  unfold joinScope
  split
  · cases s.scopeStack.addTask tid with
    | none => exact .error (by decide)
    | some scopes => exact .ok h
  · exact .ok h

theorem enterTask_draws {s : State} (hs : s.taskRing.hasSpace = true)
    (h : s.depPool.top ≤ s.depPool.capacity+1) (k : String) (group : Option ℕ)
    (params : List LinquParam) :
    Draws (requested s.taskRing.currentIndex s.tensorMap params) s.depPool
      (fun r => r.2.depPool) (s.enterTask k group params) := by
  obtain ⟨a,ha,hpool,hmap⟩ : ∃ a, s.allocTask = .ok (s.taskRing.currentIndex,a) ∧
      a.depPool = s.depPool ∧ a.tensorMap = s.tensorMap := by
    unfold allocTask LinquTaskRing.tryAlloc
    rw [if_pos hs]
    exact ⟨_,rfl,rfl,rfl⟩
  rw [← hpool] at h
  have hloop : ∀ f, Draws (requested s.taskRing.currentIndex a.tensorMap params) a.depPool
      (fun r : State × ℕ => r.1.depPool)
      (params.foldlM (linkParam s.taskRing.currentIndex)
        (a.modify s.taskRing.currentIndex f,0)) :=
    fun f => linkParams_draws _ params (a.modify _ f) 0 h
  unfold enterTask
  rw [ha, ← hpool, ← hmap]
  apply Draws.spare (hloop _)
  rintro ⟨u,n⟩
  dsimp only
  apply Ends.bind (P := fun v : State => v.depPool = u.depPool)
  · apply spares_joinScope
    rfl
  · intro v hv
    exact .ok hv

/-- The entries that a call asks for. -/
def opEntries (s : State) (o : Op) : ℕ :=
  (submission o).elim 0 fun c => (s.waitForSpace c.2).toOption.elim 0 fun m =>
    requested m.taskRing.currentIndex m.tensorMap c.1

theorem draws_zero {α : Type} {pool : α → LinquDepListPool} {x : Except Fault α}
    (hp : p.top ≤ p.capacity+1) (h : Ends (fun e => e ≠ .depPoolFull) (fun a => pool a = p) x) :
    Draws 0 p pool x := by
  cases h with
  | ok h => exact .ok ⟨by rw [h]; exact taken_refl p,hp⟩
  | error he => exact .error ⟨fun hfull => absurd hfull he,fun hlt => by omega⟩

/-- A submission: the wait, the parameter loop, and the launch. -/
theorem submit_draws {s : State} (h : s.depPool.top ≤ s.depPool.capacity+1)
    (arrivals : List (List ℤ)) (k : String) (group : Option ℕ) (params : List LinquParam)
    (launch : ℤ → State → Except Fault State)
    (hl : ∀ tid (e : State), Spares e.depPool (launch tid e)) :
    Draws ((s.waitForSpace arrivals).toOption.elim 0 fun m =>
        requested m.taskRing.currentIndex m.tensorMap params) s.depPool (fun u => u.depPool)
      (s.waitForSpace arrivals >>= fun m => m.enterTask k group params >>= fun r =>
        launch r.1 r.2) := by
  have hwait := waits_waitForSpace (s := s) rfl arrivals
  cases hm : s.waitForSpace arrivals with
  | error e =>
    rw [hm] at hwait
    exact draws_zero h (.error (hwait.of_error rfl))
  | ok m =>
    rw [hm] at hwait
    obtain ⟨hpool,hspace⟩ := hwait.of_ok rfl
    rw [← hpool]
    apply Draws.spare (enterTask_draws hspace (by rw [hpool]; exact h) k group params)
    intro r
    exact hl r.1 r.2

theorem exec_draws {s : State} (h : s.depPool.top ≤ s.depPool.capacity+1) (o : Op) :
    Draws (opEntries s o) s.depPool (fun u => u.depPool) (exec s o) := by
  cases o with
  | submitTask target k params arrivals =>
    exact submit_draws h arrivals (k.getD "") none params
      (fun tid e => e.launchTask tid target k params)
      fun tid e => spares_launchTask rfl tid target k params
  | submitTaskGroup k params subs arrivals dispatchArrivals =>
    exact submit_draws h arrivals (k.getD "group") (some subs.length) params
      (fun tid e => e.launchGroup tid k params subs dispatchArrivals)
      fun tid e => spares_launchGroup rfl tid k params subs dispatchArrivals
  | scopeBegin =>
    apply draws_zero h
    show Ends _ _ s.scopeBegin
    unfold scopeBegin
    cases s.scopeStack.scopeBegin with
    | none => exact .error (by decide)
    | some scopes => exact .ok rfl
  | scopeEnd =>
    apply draws_zero h
    apply (spares_closeScope rfl).bind
    intro u hu
    exact .ok (depPool_advance hu)
  | allocTensor size arrivals => exact draws_zero h (spares_allocTensor rfl size arrivals)
  | freeTensor handle => exact draws_zero h (.ok rfl)
  | orchestrationDone => exact draws_zero h (.ok rfl)
  | onTaskComplete t => exact draws_zero h (spares_onTaskComplete rfl t)
  | onScopeRelease t => exact draws_zero h (.ok (depPool_check rfl t))
  | tryAdvanceRingPointers => exact draws_zero h (.ok (depPool_advance rfl))

def drawnBy (n : ℕ) (s : State) : ApiCall → ℕ
  | .op o => n+opEntries s o
  | .reset => 0
  | .setBackend _ => n

/-- The entries taken in a run since its last reset. -/
def drawn : List ApiCall → State → ℕ → ℕ
  | [], _, n => n
  | c::calls, s, n => (execApi s c).toOption.elim n (fun s' => drawn calls s' (drawnBy n s c))

/-- The bump pointer is past the entries taken. -/
structure Filled (k n : ℕ) (s : State) : Prop where
  top : s.depPool.top = n+1
  capacity : s.depPool.capacity = k
  le : n ≤ k

theorem Filled.room {k n : ℕ} {s : State} (h : Filled k n s) :
    s.depPool.top ≤ s.depPool.capacity+1 := by
  rw [h.top, h.capacity]
  exact Nat.succ_le_succ h.le

theorem step_filled {k n : ℕ} {s s' : State} {c : ApiCall} (h : Filled k n s)
    (hs : ApiSteps s c s') : Filled k (drawnBy n s c) s' := by
  have hs := toOption_some.mp hs
  cases c with
  | op o =>
    obtain ⟨⟨htop,hcap⟩,hroom⟩ := (exec_draws h.room o).of_ok hs
    rw [h.top, h.capacity] at hroom
    refine ⟨?_,hcap.trans h.capacity,?_⟩
    · rw [htop, h.top, drawnBy]
      omega
    · rw [drawnBy]
      omega
  | reset =>
    cases hs
    exact ⟨rfl,h.capacity,Nat.zero_le k⟩
  | setBackend b =>
    cases hs
    exact ⟨h.top,h.capacity,h.le⟩

theorem run_filled {calls : List ApiCall} {k n : ℕ} {s s' : State} (h : Filled k n s)
    (hr : Run ApiSteps calls s s') : Filled k (drawn calls s n) s' := by
  induction calls generalizing s n with
  | nil =>
    cases hr
    exact h
  | cons c calls ih =>
    obtain ⟨m,hm,hr⟩ := hr
    have hnext : (execApi s c).toOption = some m := hm
    rw [drawn, hnext]
    exact ih (step_filled h hm) hr

theorem init_filled {backend : Backend} {cfg : LinquOrchConfigInternal} {s : State}
    (h : init backend cfg = .ok s) : Filled cfg.depPoolCapacity 0 s := by
  obtain ⟨ring,pool,tm,-,hpool,-,rfl⟩ := OrchestratorCalls.init_spec h
  obtain ⟨htop,hcap,-⟩ := LinquDepListPool.init_spec hpool
  exact ⟨htop,hcap,Nat.zero_le _⟩

/-- In every run, of every length: a call of the orchestrator fails at the
dependency pool exactly when the entries taken since the last reset, together
with those it asks for, are more than the capacity; and a `prepend` of the
level runtime succeeds exactly while fewer entries than the capacity were
taken. Retired tasks make no difference. -/
theorem prepend_fails_iff (backend : Backend) (cfg : LinquOrchConfigInternal) (s₀ s : State)
    (calls : List ApiCall) (schedThreads workerThreads : ℤ) (lcfg : Level.LevelRuntimeConfig)
    (l₀ l : Level.LevelRuntime) (acts : List Level.Act) :
    (init backend cfg = .ok s₀ → Run ApiSteps calls s₀ s → ∀ o, exec s o = .error .depPoolFull ↔
      cfg.depPoolCapacity < drawn calls s₀ 0+opEntries s o) ∧
      (Level.LevelRuntime.init schedThreads workerThreads lcfg = some l₀ →
        Run Level.Steps acts l₀ l → LevelPool.prepends l = true →
        ((∃ l', Level.Steps l .submit l') ↔ LevelPool.drawn acts l₀ < lcfg.depPoolCapacity)) := by
  constructor
  · intro hinit hr o
    have h := run_filled (init_filled hinit) hr
    rw [(exec_draws h.room o).full, h.top, h.capacity]
    omega
  · intro hinit hr hp
    exact LevelPool.prepends_iff hinit hr hp

/-! Runs with a small pool. -/

/-- The entries in the lists of the tasks that are not retired. -/
def reachable (s : State) : ℕ :=
  (s.liveIds.map fun t => (s.faninList t).length+(s.fanoutList t).length).sum

/-- What is reachable leaves room for what the call asks for. -/
def Affordable (s : State) : ApiCall → Prop
  | .op o => reachable s+opEntries s o ≤ s.depPool.capacity
  | _ => True

instance (s : State) : DecidablePred (Affordable s)
  | .op o => inferInstanceAs (Decidable (reachable s+opEntries s o ≤ _))
  | .reset => .isTrue trivial
  | .setBackend _ => .isTrue trivial

/-- A pair of tasks with one dependency is submitted, run and retired, and the
first task of another pair is submitted. -/
def pairs : List ApiCall :=
  [.op .scopeBegin,.op (.submitTask {} none [linquMakeOutput 1] []),
    .op (.submitTask {} none [linquMakeInput 1] []),.op .scopeEnd,
    .op (.submitTask {} none [linquMakeOutput 2] [])]

def secondPair : Op := .submitTask {} none [linquMakeInput 2] []

theorem exists_pairs : ∃ s₀ s, init .none { depPoolCapacity := 2 } = .ok s₀ ∧
    Run ApiSteps pairs s₀ s ∧ Guarded ApiSteps Affordable pairs s₀ ∧
    Affordable s (.op secondPair) ∧ reachable s = 0 ∧ drawn pairs s₀ 0 = 2 ∧
    opEntries s secondPair = 2 := by
  obtain ⟨s₀,s,h₀,hr,hg,ht⟩ := exists_run (f := fun s c => (execApi s c).toOption)
    (o := (init .none { depPoolCapacity := 2 }).toOption) (l := pairs)
    (g := fun s c => decide (Affordable s c))
    (c := fun s => decide (Affordable s (.op secondPair)) && decide (reachable s = 0) &&
      decide (s.depPool.top = 3) && decide (opEntries s secondPair = 2)) (by decide +kernel)
  simp only [Bool.and_eq_true, decide_eq_true_eq] at ht
  obtain ⟨⟨⟨haff,hreach⟩,htop⟩,hask⟩ := ht
  have hinit := toOption_some.mp h₀
  have h := (run_filled (init_filled hinit) hr).top
  refine ⟨s₀,s,hinit,hr,guarded_mono (fun _ _ => of_decide_eq_true) hg,haff,hreach,?_,hask⟩
  omega

/-- Each submission finds a pool whose reachable entries leave it room, and
the last one fails. -/
theorem pairs_exhaust_pool : ∃ s₀ s, init .none { depPoolCapacity := 2 } = .ok s₀ ∧
    Run ApiSteps pairs s₀ s ∧ Guarded ApiSteps Affordable pairs s₀ ∧
    Affordable s (.op secondPair) ∧ exec s secondPair = .error .depPoolFull := by
  obtain ⟨s₀,s,hinit,hr,hg,haff,-,hdrawn,hask⟩ := exists_pairs
  have h := run_filled (init_filled hinit) hr
  refine ⟨s₀,s,hinit,hr,hg,haff,(exec_draws h.room secondPair).full.mpr ?_⟩
  rw [h.top, h.capacity, hask, hdrawn]
  decide

/-- A task with an output, and one that reads it, up to where it is exposed. -/
def exposure : List Level.Act :=
  .call ⟨"a",[],[{ handle := 1 }]⟩::List.replicate 6 .submit++
    .call ⟨"b",[{ handle := 1 }],[]⟩::List.replicate 6 .submit

theorem prepend_fails_iff_small : (∃ s₀ s, init .none { depPoolCapacity := 2 } = .ok s₀ ∧
    Run ApiSteps pairs s₀ s ∧ exec s secondPair = .error .depPoolFull) ∧
    ∃ s₀ s, Level.LevelRuntime.init 1 1 { depPoolCapacity := 1 } = some s₀ ∧
      Run Level.Steps exposure s₀ s ∧ LevelPool.prepends s = true ∧
      ¬ ∃ s', Level.Steps s .submit s' := by
  obtain ⟨s₀,s,hinit,hr,-,-,-,hdrawn,hask⟩ := exists_pairs
  obtain ⟨l₀,l,hl₀,hl,-,ht⟩ := exists_run (f := Level.step)
    (o := Level.LevelRuntime.init 1 1 { depPoolCapacity := 1 }) (l := exposure)
    (g := fun _ _ => true)
    (c := fun s => LevelPool.prepends s && decide (s.depPool.top = 2)) (by decide +kernel)
  obtain ⟨hp,htop⟩ := Bool.and_eq_true_iff.mp ht
  have h := prepend_fails_iff .none { depPoolCapacity := 2 } s₀ s pairs 1 1
    { depPoolCapacity := 1 } l₀ l exposure
  constructor
  · refine ⟨s₀,s,hinit,hr,(h.1 hinit hr secondPair).mpr ?_⟩
    rw [hdrawn, hask]
    decide
  · refine ⟨l₀,l,hl₀,hl,hp,?_⟩
    rw [h.2 hl₀ hl hp]
    have htaken := (LevelPool.run_taken hl).1
    rw [of_decide_eq_true htop, (LevelPool.init_pool hl₀).1] at htaken
    show ¬ _ < 1
    omega

end Linqu.PoolUse
