import Linqu.Dispatchers
import Linqu.Reports
import Linqu.DispatchOrder

/-!
# The orchestrator as a step machine

A call is cut where other threads may get in: at the sleeps of the two
back-pressure loops and between the dispatches of an immediate group. The
program counter says where the orchestrator thread is; a result that the
dispatcher passes to the completion callback is a step of its own and may come
at any of these points. Every run of whole calls is a run of the machine.
-/

set_option autoImplicit false

namespace Linqu.OrchestratorSteps
open Linqu.TaskRing Linqu.HeapRing Linqu.Orchestrator Linqu.Dispatchers
open Linqu.Orchestrator.LinquOrchestratorState Linqu.OrchestrationApi Linqu.Transition
open Linqu.OrchestratorRule Linqu.OrchestratorShape Linqu.OrchestratorCalls
open Linqu.OrchestratorDone Linqu.Reports Linqu.DispatchOrder

inductive Request where
  | task (target : LinquCoordinate) (kernelSo : Option String) (params : List LinquParam)
  | group (kernelSo : Option String) (groupParams : List LinquParam)
      (subTasks : List LinquSubTaskSpec)
  deriving DecidableEq, Repr

inductive Call where
  | submit (r : Request)
  | scopeBegin
  | scopeEnd
  | allocTensor (size : ℕ)
  | freeTensor (handle : UInt64)
  | orchestrationDone
  | onScopeRelease (taskId : ℤ)
  | tryAdvanceRingPointers
  deriving DecidableEq, Repr

inductive Pc where
  | idle
  | slot (r : Request) (spins : ℕ)
  | heap (size spins : ℕ)
  | loop (groupTid : ℤ) (kernelSo : Option String) (groupParams : List LinquParam)
      (numSubTasks i : ℕ) (rest : List LinquSubTaskSpec)
  deriving DecidableEq, Repr

inductive Act where
  | call (c : Call)
  | turn
  | result (r : DispatchResult)
  deriving DecidableEq, Repr

structure System where
  state : LinquOrchestratorState
  pc : Pc

/-- The submit functions from where there is a slot. -/
def launch (s : State) : Request → Except Fault System
  | .task target kernelSo params => do
    let (tid,s) ← s.enterTask (kernelSo.getD "") none params
    let s ← s.launchTask tid target kernelSo params
    return ⟨s,.idle⟩
  | .group kernelSo groupParams subTasks => do
    let (tid,s) ← s.enterTask (kernelSo.getD "group") (some subTasks.length) groupParams
    if subTasks.length ≠ 0 ∧ (s.get tid).faninCount = 0 then
      return ⟨s.setStatus tid .running,
        .loop tid kernelSo groupParams subTasks.length 0 subTasks⟩
    else
      let s ← s.launchGroup tid kernelSo groupParams subTasks []
      return ⟨s,.idle⟩

/-- A round of the wait for a slot, up to its sleep. -/
def awaitSlot (s : State) (r : Request) (spins : ℕ) : Except Fault System :=
  if s.taskRing.hasSpace then launch s r
  else
    let s := s.tryAdvanceRingPointers
    if s.taskRing.hasSpace then launch s r
    else if 100000 < spins+1 then .error .taskRingDeadlock
    else .ok ⟨s,.slot r (spins+1)⟩

def notePeak (s : State) : System :=
  ⟨{ s with peakHeapUsed := max s.peakHeapUsed s.heapRing.used },.idle⟩

/-- A round of the wait of `alloc_tensor`, up to its sleep. -/
def awaitBlock (s : State) (size spins : ℕ) : Except Fault System :=
  match s.heapRing.tryAlloc size with
  | some (_,heapRing) => .ok (notePeak { s with heapRing })
  | none =>
    let s := s.tryAdvanceRingPointers
    match s.heapRing.tryAlloc size with
    | some (_,heapRing) => .ok (notePeak { s with heapRing })
    | none =>
      if 100000 < spins+1 then .error .heapRingDeadlock else .ok ⟨s,.heap size (spins+1)⟩

def beginAlloc (s : State) (size : ℕ) : Except Fault System :=
  let s := { s with nextTensorHandle := s.nextTensorHandle+1 }
  if size = 0 then .ok ⟨s,.idle⟩
  else match s.heapRing.tryAlloc size with
    | some (_,heapRing) => .ok (notePeak { s with heapRing })
    | none => .ok ⟨{ s with heapBlockCount := s.heapBlockCount+1 },.heap size 0⟩

def beginSubmit (s : State) (r : Request) : Except Fault System :=
  if s.taskRing.hasSpace then launch s r
  else .ok ⟨{ s with taskBlockCount := s.taskBlockCount+1 },.slot r 0⟩

def beginCall (s : State) : Call → Except Fault System
  | .submit r => beginSubmit s r
  | .scopeBegin => s.scopeBegin.map (⟨·,.idle⟩)
  | .scopeEnd => s.scopeEnd.map (⟨·,.idle⟩)
  | .allocTensor size => beginAlloc s size
  | .freeTensor handle => .ok ⟨s.freeTensor handle,.idle⟩
  | .orchestrationDone => .ok ⟨s.orchestrationDone,.idle⟩
  | .onScopeRelease taskId => .ok ⟨s.onScopeRelease taskId,.idle⟩
  | .tryAdvanceRingPointers => .ok ⟨s.tryAdvanceRingPointers,.idle⟩

/-- The orchestrator thread goes on to the next point where it can be
interrupted. -/
def turn (s : State) : Pc → Except Fault System
  | .idle => .ok ⟨s,.idle⟩
  | .slot r spins => awaitSlot s r spins
  | .heap size spins => awaitBlock s size spins
  | .loop _ _ _ _ _ [] => .ok ⟨s,.idle⟩
  | .loop tid kernelSo groupParams n i (sub::rest) => do
    let s ← s.dispatchSubTask (propagateCompletion s.fuel) tid kernelSo groupParams n i sub
    return ⟨s,.loop tid kernelSo groupParams n (i+1) rest⟩

def act (σ : System) : Act → Option System
  | .call c => if σ.pc = .idle then (beginCall σ.state c).toOption else none
  | .turn => (turn σ.state σ.pc).toOption
  | .result r => (onCompletion σ.state r).toOption.map (⟨·,σ.pc⟩)

def Moves (σ : System) (a : Act) (σ' : System) : Prop := act σ a = some σ'

/-- The task that a report completes: it is the one
`propagate_completion` is called for. -/
def completesAt (s : State) (t : ℤ) : Option ℤ :=
  match s.subDispatchToGroup.lookup t with
  | some g => if (s.get g).groupSize ≤ (s.get g).subCompleteCount+1 then some g else none
  | none => if (s.get t).status = .running then some t else none

def launchPropagates (s : State) : Request → List ℤ
  | .group _ _ subTasks => if subTasks.length = 0 then [s.taskRing.currentIndex] else []
  | .task _ _ _ => []

/-- The tasks that a step calls `propagate_completion` for when there is a
dispatcher: the task that a report completes, or an empty group. -/
def propagates (σ : System) : Act → List ℤ
  | .result r => if r.status = .completed then (completesAt σ.state r.taskId).toList else []
  | .call (.submit r) => if σ.state.taskRing.hasSpace then launchPropagates σ.state r else []
  | .turn => match σ.pc with
    | .slot r _ =>
      if σ.state.taskRing.hasSpace then launchPropagates σ.state r
      else
        let s := σ.state.tryAdvanceRingPointers
        if s.taskRing.hasSpace then launchPropagates s r else []
    | _ => []
  | _ => []

/-- The calls of `propagate_completion` in a run, in order. -/
def propagations : List Act → System → List ℤ
  | [], _ => []
  | a::acts, σ => propagates σ a++(act σ a).elim [] (propagations acts)

/-! What a step of the orchestrator thread can do. -/

/-- Counters, scopes and retirement: no task enters and none completes. -/
inductive Eases : State → State → Prop
  | settle {s m : State} (h : Settles s m)
      (hc : ∀ t, (m.get t).faninRefcount = (s.get t).faninRefcount) : Eases s m
  | retire {s m : State} {cursor : ℤ} (h : Retired s m cursor) : Eases s m
  | trans {s m u : State} (h : Eases s m) (h' : Eases m u) : Eases s u

/-- No sub-task is about to be dispatched. -/
def Resting : Pc → Prop
  | .loop _ _ _ _ _ (_::_) => False
  | _ => True

/-- The steps of the orchestrator thread when there is a dispatcher. -/
inductive Stage : System → List ℤ → System → Prop
  | ease {s s' : State} {pc pc' : Pc} (hp : Resting pc) (hp' : ∀ a b c d e f, pc' ≠ .loop a b c d e f)
      (h : Eases s s') : Stage ⟨s,pc⟩ [] ⟨s',pc'⟩
  | task {s m e s' : State} {pc : Pc} {tid : ℤ} {prods : List ℤ} {target : LinquCoordinate}
      {k : Option String} {params : List LinquParam} (hp : Resting pc) (hw : Eases s m)
      (he : Entered m e tid none prods) (hs : e.launchTask tid target k params = .ok s') :
      Stage ⟨s,pc⟩ [] ⟨s',.idle⟩
  | park {s m e s' : State} {pc : Pc} {tid : ℤ} {prods : List ℤ} {k : Option String}
      {params : List LinquParam} {subs : List LinquSubTaskSpec} (hp : Resting pc) (hw : Eases s m)
      (he : Entered m e tid (some subs.length) prods)
      (hn : ¬ (subs.length ≠ 0 ∧ (e.get tid).faninCount = 0))
      (hs : e.launchGroup tid k params subs [] = .ok s') :
      Stage ⟨s,pc⟩ (if subs.length = 0 then [tid] else []) ⟨s',.idle⟩
  | start {s m e : State} {pc : Pc} {tid : ℤ} {prods : List ℤ} {k : Option String}
      {params : List LinquParam} {subs : List LinquSubTaskSpec} (hp : Resting pc) (hw : Eases s m)
      (he : Entered m e tid (some subs.length) prods)
      (hn : subs.length ≠ 0 ∧ (e.get tid).faninCount = 0) :
      Stage ⟨s,pc⟩ [] ⟨e.setStatus tid .running,.loop tid k params subs.length 0 subs⟩
  | dispatch {s : State} {tid : ℤ} {k : Option String} {params : List LinquParam} {n i : ℕ}
      {sub : LinquSubTaskSpec} {rest : List LinquSubTaskSpec} :
      Stage ⟨s,.loop tid k params n i (sub::rest)⟩ []
        ⟨(s.assignSubId tid).record (.dispatch (s.subCall s.nextSubDispatchId tid k params i sub)),
          .loop tid k params n (i+1) rest⟩

theorem Eases.shape {s s' : State} (e : Eases s s') (h : Shape s) : Shape s' := by
  induction e with
  | settle hs _ => exact hs.shape h
  | retire hr => exact hr.shape h
  | trans _ _ ih ih' => exact ih' (ih h)

theorem Eases.refl (s : State) : Eases s s := .settle (Settles.refl s) fun _ => rfl

theorem eases_metrics {s s' : State} (m : Metrics s s') : Eases s s' := by
  apply Eases.settle (settles_metrics m)
  intro t
  rw [LinquOrchestratorState.get, LinquOrchestratorState.get, m.taskRing]

theorem eases_advance {s : State} (h : Shape s) : Eases s s.tryAdvanceRingPointers := by
  obtain ⟨cursor,hr⟩ := tryAdvance_retired h
  exact .retire hr

theorem eases_closeScope {s s' : State} (h : s.closeScope = .ok s') : Eases s s' := by
  apply Eases.settle (settles_closeScope h)
  apply closeScope_rule (P := fun u => ∀ t, (u.get t).faninRefcount = (s.get t).faninRefcount) _ _ _ h
  · intro _ _ _
    rfl
  · intro u t hu c
    rw [get_raiseFanout]
    exact hu c
  · intro u t hu c
    rw [checkTaskConsumed_field LinquTaskDescriptor.faninRefcount (fun _ _ => rfl)]
    exact hu c

/-- The three ways a submission goes on from its slot. -/
theorem launch_stage {s m : State} {r : Request} {pc : Pc} {σ' : System} (hp : Resting pc)
    (h : Shape m) (hw : Eases s m) (hl : launch m r = .ok σ') :
    Stage ⟨s,pc⟩ (launchPropagates m r) σ' := by
  cases r with
  | task target k params =>
    obtain ⟨⟨tid,e⟩,he,hl⟩ := bind_ok.mp hl
    obtain ⟨s',hs,hl⟩ := bind_ok.mp hl
    cases hl
    obtain ⟨found,-,hent⟩ := enterTask_entered h he
    exact .task hp hw hent hs
  | group k gp subs =>
    obtain ⟨⟨tid,e⟩,he,hl⟩ := bind_ok.mp hl
    obtain ⟨found,-,hent⟩ := enterTask_entered h he
    dsimp only at hl
    split at hl
    · rename_i hn
      cases hl
      rw [launchPropagates, if_neg hn.1]
      exact .start hp hw hent hn
    · rename_i hn
      obtain ⟨s',hs,hl⟩ := bind_ok.mp hl
      cases hl
      rw [launchPropagates, ← hent.tid_eq]
      exact .park hp hw hent hn hs

theorem awaitSlot_stage {s : State} {r : Request} {n spins : ℕ} {σ' : System} (h : Shape s)
    (hl : awaitSlot s r spins = .ok σ') :
    Stage ⟨s,.slot r n⟩ (propagates ⟨s,.slot r n⟩ .turn) σ' := by
  have hadv := eases_advance h
  unfold awaitSlot at hl
  unfold propagates
  dsimp only at hl ⊢
  split at hl
  · rename_i hsp
    rw [if_pos hsp]
    exact launch_stage trivial h (Eases.refl s) hl
  · rename_i hsp
    rw [if_neg hsp]
    split at hl
    · rename_i hsp'
      rw [if_pos hsp']
      exact launch_stage trivial (hadv.shape h) hadv hl
    · rename_i hsp'
      rw [if_neg hsp']
      split at hl
      · cases hl
      · cases hl
        exact .ease trivial (by simp) hadv

theorem eases_block (s : State) (heapRing : LinquHeapRing) :
    Eases s (notePeak { s with heapRing }).state :=
  eases_metrics ⟨⟨rfl,rfl,rfl,rfl,rfl,rfl,rfl⟩,rfl,rfl⟩

theorem awaitBlock_stage {s : State} {size n spins : ℕ} {σ' : System} (h : Shape s)
    (hl : awaitBlock s size spins = .ok σ') : Stage ⟨s,.heap size n⟩ [] σ' := by
  have hadv := eases_advance h
  unfold awaitBlock at hl
  dsimp only at hl
  split at hl
  · cases hl
    exact .ease trivial (by simp) (eases_block s _)
  · split at hl
    · cases hl
      exact .ease trivial (by simp) (hadv.trans (eases_block _ _))
    · split at hl
      · cases hl
      · cases hl
        exact .ease trivial (by simp) hadv

theorem beginCall_stage {s : State} {c : Call} {σ' : System} (h : Shape s)
    (hl : beginCall s c = .ok σ') :
    Stage ⟨s,.idle⟩ (propagates ⟨s,.idle⟩ (.call c)) σ' := by
  cases c with
  | submit r =>
    simp only [beginCall, beginSubmit] at hl
    unfold propagates
    dsimp only
    split at hl
    · rename_i hsp
      rw [if_pos hsp]
      exact launch_stage trivial h (Eases.refl s) hl
    · rename_i hsp
      rw [if_neg hsp]
      cases hl
      exact .ease trivial (by simp) (eases_metrics ⟨⟨rfl,rfl,rfl,rfl,rfl,rfl,rfl⟩,rfl,rfl⟩)
  | scopeBegin =>
    obtain ⟨s',hs,hl⟩ := map_ok.mp hl
    cases hl
    obtain ⟨st,-,hs⟩ := bind_ok.mp hs
    cases hs
    exact .ease trivial (by simp)
      (.settle (.of_eq rfl rfl rfl rfl rfl rfl rfl rfl) fun _ => rfl)
  | scopeEnd =>
    obtain ⟨s',hs,hl⟩ := map_ok.mp hl
    cases hl
    obtain ⟨m,hm,hs⟩ := bind_ok.mp hs
    cases hs
    have hclose := eases_closeScope hm
    exact .ease trivial (by simp) (hclose.trans (eases_advance (hclose.shape h)))
  | allocTensor size =>
    simp only [beginCall, beginAlloc] at hl
    split at hl
    · cases hl
      exact .ease trivial (by simp) (eases_metrics ⟨⟨rfl,rfl,rfl,rfl,rfl,rfl,rfl⟩,rfl,rfl⟩)
    · split at hl
      · cases hl
        exact .ease trivial (by simp) (eases_metrics ⟨⟨rfl,rfl,rfl,rfl,rfl,rfl,rfl⟩,rfl,rfl⟩)
      · cases hl
        exact .ease trivial (by simp) (eases_metrics ⟨⟨rfl,rfl,rfl,rfl,rfl,rfl,rfl⟩,rfl,rfl⟩)
  | freeTensor handle =>
    cases hl
    exact .ease trivial (by simp) (eases_metrics ⟨⟨rfl,rfl,rfl,rfl,rfl,rfl,rfl⟩,rfl,rfl⟩)
  | orchestrationDone =>
    cases hl
    exact .ease trivial (by simp) (eases_metrics ⟨⟨rfl,rfl,rfl,rfl,rfl,rfl,rfl⟩,rfl,rfl⟩)
  | onScopeRelease t =>
    cases hl
    exact .ease trivial (by simp) (.settle (settles_check s t)
      (checkTaskConsumed_field LinquTaskDescriptor.faninRefcount (fun _ _ => rfl) s t))
  | tryAdvanceRingPointers =>
    cases hl
    exact .ease trivial (by simp) (eases_advance h)

theorem turn_stage {s : State} {pc : Pc} {σ' : System} (h : Shape s)
    (hb : s.backend = .dispatcher) (hl : turn s pc = .ok σ') :
    Stage ⟨s,pc⟩ (propagates ⟨s,pc⟩ .turn) σ' := by
  cases pc with
  | idle =>
    cases hl
    exact .ease trivial (by simp) (Eases.refl s)
  | slot r spins => exact awaitSlot_stage h hl
  | heap size spins => exact awaitBlock_stage h hl
  | loop tid k gp n i rest =>
    cases rest with
    | nil =>
      cases hl
      exact .ease trivial (by simp) (Eases.refl s)
    | cons sub rest =>
      rw [turn, dispatchSubTask_dispatcher tid k gp n _ i sub hb] at hl
      cases hl
      exact .dispatch

/-- A step is a result passed to the callback or a stage of a call. -/
theorem moves_cases {σ σ' : System} {a : Act} (h : Shape σ.state)
    (hb : σ.state.backend = .dispatcher) (hm : Moves σ a σ') :
    (∃ r, a = .result r ∧ onCompletion σ.state r = .ok σ'.state ∧ σ'.pc = σ.pc) ∨
      (∀ r, a ≠ .result r) ∧ Stage σ (propagates σ a) σ' := by
  cases a with
  | call c =>
    refine Or.inr ⟨by simp,?_⟩
    simp only [Moves, act] at hm
    split at hm
    · rename_i hpc
      obtain ⟨s,pc⟩ := σ
      cases hpc
      exact beginCall_stage h (toOption_some.mp hm)
    · cases hm
  | turn => exact Or.inr ⟨by simp,turn_stage h hb (toOption_some.mp hm)⟩
  | result r =>
    obtain ⟨s',hs,he⟩ := Option.map_eq_some_iff.mp hm
    cases he
    exact Or.inl ⟨r,rfl,toOption_some.mp hs,rfl⟩

/-! Whole calls as runs of the machine. -/

def completed (t : ℤ) : Act := .result { taskId := t, status := .completed }

theorem deliver_moves {ids : List ℤ} {s s' : State} (pc : Pc) (h : s.deliver ids = .ok s') :
    Run Moves (ids.map completed) ⟨s,pc⟩ ⟨s',pc⟩ := by
  induction ids generalizing s with
  | nil =>
    cases h
    rfl
  | cons t ids ih =>
    rw [deliver, List.foldlM_cons] at h
    obtain ⟨m,hm,h⟩ := bind_ok.mp h
    refine ⟨⟨m,pc⟩,?_,ih h⟩
    show Option.map _ (onCompletion s _).toOption = _
    rw [onCompletion, if_pos rfl, hm]
    rfl

/-- A run all of whose results say COMPLETED. -/
def Path (σ σ' : System) : Prop :=
  ∃ acts, Run Moves acts σ σ' ∧ ∀ r, Act.result r ∈ acts → r.status = .completed

theorem Path.refl (σ : System) : Path σ σ := ⟨[],rfl,by simp⟩

theorem Path.trans {σ τ ρ : System} (h : Path σ τ) (h' : Path τ ρ) : Path σ ρ := by
  obtain ⟨l,hl,hc⟩ := h
  obtain ⟨l',hl',hc'⟩ := h'
  refine ⟨l++l',run_append.mpr ⟨τ,hl,hl'⟩,fun r hr => ?_⟩
  rcases List.mem_append.mp hr with hr | hr
  · exact hc r hr
  · exact hc' r hr

theorem Path.one {σ σ' : System} {a : Act} (h : Moves σ a σ') (ha : ∀ r, a ≠ .result r) :
    Path σ σ' :=
  ⟨[a],⟨σ',h,rfl⟩,fun r hr => absurd (List.mem_singleton.mp hr).symm (ha r)⟩

theorem deliver_path {ids : List ℤ} {s s' : State} (pc : Pc) (h : s.deliver ids = .ok s') :
    Path ⟨s,pc⟩ ⟨s',pc⟩ := by
  refine ⟨_,deliver_moves pc h,fun r hr => ?_⟩
  obtain ⟨t,-,ht⟩ := List.mem_map.mp hr
  cases ht
  rfl

theorem turn_path {s : State} {pc : Pc} {σ : System} (h : turn s pc = .ok σ) : Path ⟨s,pc⟩ σ :=
  Path.one (a := .turn) (toOption_some.mpr h) (by simp)

theorem call_path {s : State} {c : Call} {σ : System} (h : beginCall s c = .ok σ) :
    Path ⟨s,.idle⟩ σ := by
  apply Path.one (a := .call c) _ (by simp)
  show (if Pc.idle = .idle then (beginCall s c).toOption else none) = some σ
  rw [if_pos rfl]
  exact toOption_some.mpr h

/-- The loop of the source, seen at its first round. -/
theorem awaitSpace_round {r : Request} {σ : System} {arrivals : List (List ℤ)} {spins : ℕ}
    {s m : State} (h : awaitSpace arrivals spins s = .ok m) (hl : launch m r = .ok σ) :
    turn s (.slot r spins) = .ok σ ∨ ∃ ids rest u, arrivals = ids::rest ∧
      turn s (.slot r spins) = .ok ⟨s.tryAdvanceRingPointers,.slot r (spins+1)⟩ ∧
      s.tryAdvanceRingPointers.deliver ids = .ok u ∧ awaitSpace rest (spins+1) u = .ok m := by
  show awaitSlot s r spins = _ ∨ ∃ ids rest u, _ ∧ awaitSlot s r spins = _ ∧ _
  rw [awaitSpace.eq_def] at h
  unfold awaitSlot
  dsimp only at h ⊢
  split at h
  · rename_i hsp
    cases h
    rw [if_pos hsp]
    exact Or.inl hl
  · rename_i hsp
    rw [if_neg hsp]
    split at h
    · rename_i hadv
      cases h
      rw [if_pos hadv]
      exact Or.inl hl
    · rename_i hadv
      rw [if_neg hadv]
      cases arrivals with
      | nil => cases h
      | cons ids rest =>
        obtain ⟨u,hu,h⟩ := bind_ok.mp h
        split at h
        · cases h
        · rename_i hspins
          rw [if_neg hspins]
          exact Or.inr ⟨ids,rest,u,rfl,rfl,hu,h⟩

theorem awaitSpace_path {r : Request} {σ : System} (arrivals : List (List ℤ)) :
    ∀ (spins : ℕ) (s m : State), awaitSpace arrivals spins s = .ok m → launch m r = .ok σ →
      Path ⟨s,.slot r spins⟩ σ := by
  induction arrivals with
  | nil =>
    intro spins s m h hl
    rcases awaitSpace_round h hl with ht | ⟨_,_,_,he,-⟩
    · exact turn_path ht
    · cases he
  | cons ids rest ih =>
    intro spins s m h hl
    rcases awaitSpace_round h hl with ht | ⟨_,_,u,he,ht,hu,hr⟩
    · exact turn_path ht
    · cases he
      exact (turn_path ht).trans
        ((deliver_path (.slot r (spins+1)) hu).trans (ih (spins+1) u m hr hl))

theorem waitForSpace_path {r : Request} {σ : System} {arrivals : List (List ℤ)} {s m : State}
    (h : s.waitForSpace arrivals = .ok m) (hl : launch m r = .ok σ) : Path ⟨s,.idle⟩ σ := by
  unfold waitForSpace at h
  split at h
  · rename_i hsp
    cases h
    apply call_path (c := .submit r)
    show beginSubmit s r = _
    rw [beginSubmit, if_pos hsp]
    exact hl
  · rename_i hsp
    have hbegin : beginCall s (.submit r) =
        .ok ⟨{ s with taskBlockCount := s.taskBlockCount+1 },.slot r 0⟩ := by
      show beginSubmit s r = _
      rw [beginSubmit, if_neg hsp]
    exact (call_path hbegin).trans (awaitSpace_path arrivals 0 _ m h hl)

theorem awaitHeap_round {size spins : ℕ} {arrivals : List (List ℤ)} {s m : State}
    (h : awaitHeap size arrivals spins s = .ok m) :
    turn s (.heap size spins) = .ok (notePeak m) ∨ ∃ ids rest u, arrivals = ids::rest ∧
      turn s (.heap size spins) = .ok ⟨s.tryAdvanceRingPointers,.heap size (spins+1)⟩ ∧
      s.tryAdvanceRingPointers.deliver ids = .ok u ∧
      awaitHeap size rest (spins+1) u = .ok m := by
  show awaitBlock s size spins = _ ∨ ∃ ids rest u, _ ∧ awaitBlock s size spins = _ ∧ _
  rw [awaitHeap.eq_def] at h
  unfold awaitBlock
  dsimp only at h ⊢
  cases hone : s.heapRing.tryAlloc size with
  | some b =>
    rw [hone] at h
    cases h
    exact Or.inl rfl
  | none =>
    rw [hone] at h
    dsimp only at h ⊢
    cases htwo : s.tryAdvanceRingPointers.heapRing.tryAlloc size with
    | some b =>
      rw [htwo] at h
      cases h
      exact Or.inl rfl
    | none =>
      rw [htwo] at h
      dsimp only at h ⊢
      cases arrivals with
      | nil => cases h
      | cons ids rest =>
        obtain ⟨u,hu,h⟩ := bind_ok.mp h
        split at h
        · cases h
        · rename_i hspins
          rw [if_neg hspins]
          exact Or.inr ⟨ids,rest,u,rfl,rfl,hu,h⟩

theorem awaitHeap_path {size : ℕ} (arrivals : List (List ℤ)) :
    ∀ (spins : ℕ) (s m : State), awaitHeap size arrivals spins s = .ok m →
      Path ⟨s,.heap size spins⟩ (notePeak m) := by
  induction arrivals with
  | nil =>
    intro spins s m h
    rcases awaitHeap_round h with ht | ⟨_,_,_,he,-⟩
    · exact turn_path ht
    · cases he
  | cons ids rest ih =>
    intro spins s m h
    rcases awaitHeap_round h with ht | ⟨_,_,u,he,ht,hu,hr⟩
    · exact turn_path ht
    · cases he
      exact (turn_path ht).trans
        ((deliver_path (.heap size (spins+1)) hu).trans (ih (spins+1) u m hr))

theorem allocTensor_path {size : ℕ} {arrivals : List (List ℤ)} {s s' : State} {handle : UInt64}
    (h : s.allocTensor size arrivals = .ok (handle,s')) : Path ⟨s,.idle⟩ ⟨s',.idle⟩ := by
  unfold allocTensor at h
  dsimp only at h
  split at h
  · rename_i hz
    cases h
    apply call_path (c := .allocTensor size)
    show beginAlloc s size = _
    rw [beginAlloc, if_pos hz]
  · rename_i hz
    obtain ⟨m,hm,h⟩ := bind_ok.mp h
    cases h
    show Path _ (notePeak m)
    unfold waitForHeap at hm
    cases hone : s.heapRing.tryAlloc size with
    | some b =>
      simp only [hone] at hm
      cases hm
      apply call_path (c := .allocTensor size)
      show beginAlloc s size = _
      simp only [beginAlloc, if_neg hz, hone]
    | none =>
      simp only [hone] at hm
      have hbegin : beginCall s (.allocTensor size) = .ok ⟨{ s with
          nextTensorHandle := s.nextTensorHandle+1
          heapBlockCount := s.heapBlockCount+1 },.heap size 0⟩ := by
        show beginAlloc s size = _
        simp only [beginAlloc, if_neg hz, hone]
      exact (call_path hbegin).trans (awaitHeap_path arrivals 0 _ m hm)

/-- The dispatches of an immediate group, with what is reported in between. -/
theorem dispatchFrom_path {fuel : ℕ} {tid : ℤ} {k : Option String} {gp : List LinquParam} {n : ℕ}
    {arrivals : ℕ → List ℤ} (subs : List LinquSubTaskSpec) : ∀ (i : ℕ) (s s' : State),
      s.backend = .dispatcher → LinquOrchestratorState.dispatchFrom (propagateCompletion fuel)
        (fun i s => s.deliver (arrivals i)) tid k gp n i subs s = .ok s' →
      Path ⟨s,.loop tid k gp n i subs⟩ ⟨s',.idle⟩ := by
  induction subs with
  | nil =>
    intro i s s' _ h
    cases h
    exact turn_path rfl
  | cons sub rest ih =>
    intro i s s' hb h
    rw [LinquOrchestratorState.dispatchFrom, dispatchSubTask_dispatcher tid k gp n _ i sub hb] at h
    obtain ⟨_,hd,h⟩ := bind_ok.mp h
    cases hd
    obtain ⟨w,hw,h⟩ := bind_ok.mp h
    have hturn : turn s (.loop tid k gp n i (sub::rest)) = .ok ⟨(s.assignSubId tid).record
        (.dispatch (s.subCall s.nextSubDispatchId tid k gp i sub)),.loop tid k gp n (i+1) rest⟩ := by
      rw [turn, dispatchSubTask_dispatcher tid k gp n _ i sub hb]
      rfl
    have hwb : w.backend = .dispatcher := by
      apply foldlM_rule (P := fun _ v => v.backend = .dispatcher) _ (arrivals i) hb hw
      intro t _ v v' hv hv'
      exact (frame_onTaskComplete hv').backend.trans hv
    exact (turn_path hturn).trans
      ((deliver_path (.loop tid k gp n (i+1) rest) hw).trans (ih (i+1) w s' hwb h))

theorem launchGroup_path {s s' e : State} {tid : ℤ} {k : Option String} {gp : List LinquParam}
    {subs : List LinquSubTaskSpec} {arrivals : List (List ℤ)} (hb : e.backend = .dispatcher)
    (he : s.enterTask (k.getD "group") (some subs.length) gp = .ok (tid,e))
    (h : e.launchGroup tid k gp subs arrivals = .ok s') :
    ∃ σ, launch s (.group k gp subs) = .ok σ ∧ Path σ ⟨s',.idle⟩ := by
  have hlaunch : launch s (.group k gp subs) =
      if subs.length ≠ 0 ∧ (e.get tid).faninCount = 0 then
        .ok ⟨e.setStatus tid .running,.loop tid k gp subs.length 0 subs⟩
      else (e.launchGroup tid k gp subs []).map (⟨·,.idle⟩) := by
    rw [launch, he]
    rfl
  rw [hlaunch]
  by_cases hloop : subs.length ≠ 0 ∧ (e.get tid).faninCount = 0
  · rw [LinquOrchestratorState.launchGroup, if_neg hloop.1, if_pos hloop.2] at h
    rw [if_pos hloop]
    exact ⟨_,rfl,dispatchFrom_path subs 0 _ s' hb h⟩
  · have hsame : e.launchGroup tid k gp subs [] = .ok s' := by
      rw [← h]
      unfold LinquOrchestratorState.launchGroup
      by_cases hz : subs.length = 0
      · rw [if_pos hz, if_pos hz]
      · have hf : ¬ (e.get tid).faninCount = 0 := fun hf => hloop ⟨hz,hf⟩
        rw [if_neg hz, if_neg hz, if_neg hf, if_neg hf]
    rw [if_neg hloop, hsame]
    exact ⟨_,rfl,Path.refl _⟩

theorem submit_path {r : Request} {σ σ' : System} {arrivals : List (List ℤ)} {s m : State}
    (hm : s.waitForSpace arrivals = .ok m) (hl : launch m r = .ok σ) (hp : Path σ σ') :
    Path ⟨s,.idle⟩ σ' :=
  (waitForSpace_path hm hl).trans hp

/-- A call that returns is a run of the machine from idle to idle. -/
theorem exec_path {s s' : State} {op : Op} (h : Shape s) (hb : s.backend = .dispatcher)
    (hs : Steps s op s') : Path ⟨s,.idle⟩ ⟨s',.idle⟩ := by
  cases op with
  | submitTask target k params arrivals =>
    obtain ⟨m,hm,hs⟩ := bind_ok.mp hs
    obtain ⟨⟨tid,e⟩,he,hs⟩ := bind_ok.mp hs
    apply submit_path (r := .task target k params) hm _ (Path.refl _)
    rw [launch, he]
    show (e.launchTask tid target k params >>= fun s => _) = _
    rw [show e.launchTask tid target k params = .ok s' from hs]
    rfl
  | submitTaskGroup k gp subs arrivals dispatchArrivals =>
    obtain ⟨m,hm,hs⟩ := bind_ok.mp hs
    obtain ⟨⟨tid,e⟩,he,hs⟩ := bind_ok.mp hs
    obtain ⟨hshape,hf⟩ := waitForSpace_rule (follows_calls s) ⟨h,Follows.refl s⟩ hm
    obtain ⟨found,-,hent⟩ := enterTask_entered hshape he
    have hbe : e.backend = .dispatcher := hent.backend.trans (hf.backend.trans hb)
    obtain ⟨σ,hl,hp⟩ := launchGroup_path hbe he hs
    exact submit_path hm hl hp
  | scopeBegin =>
    apply call_path (c := .scopeBegin)
    show s.scopeBegin.map _ = _
    rw [show s.scopeBegin = .ok s' from hs]
    rfl
  | scopeEnd =>
    apply call_path (c := .scopeEnd)
    show s.scopeEnd.map _ = _
    rw [show s.scopeEnd = .ok s' from hs]
    rfl
  | allocTensor size arrivals =>
    obtain ⟨b,hb,rfl⟩ := map_ok.mp hs
    exact allocTensor_path hb
  | freeTensor handle =>
    cases hs
    exact call_path (c := .freeTensor handle) rfl
  | orchestrationDone =>
    cases hs
    exact call_path (c := .orchestrationDone) rfl
  | onTaskComplete t =>
    have hd : s.deliver [t] = .ok s' := by
      rw [deliver, List.foldlM_cons, show s.onTaskComplete t = .ok s' from hs]
      rfl
    exact deliver_path _ hd
  | onScopeRelease t =>
    cases hs
    exact call_path (c := .onScopeRelease t) rfl
  | tryAdvanceRingPointers =>
    cases hs
    exact call_path (c := .tryAdvanceRingPointers) rfl

/-- Runs of whole calls are runs of the machine. -/
theorem run_path {ops : List Op} {s s' : State} (h : Shape s) (hb : s.backend = .dispatcher)
    (hr : Run Steps ops s s') : Path ⟨s,.idle⟩ ⟨s',.idle⟩ := by
  induction ops generalizing s with
  | nil =>
    cases hr
    exact Path.refl _
  | cons op ops ih =>
    obtain ⟨m,hm,hr⟩ := hr
    obtain ⟨hshape,hback,-⟩ := step_ordered h hb hm
    exact (exec_path h hb hm).trans (ih hshape hback hr)

end Linqu.OrchestratorSteps
