import Linqu.CodeStore
import Linqu.DispatchIds
import Linqu.RemoteExecution
import Linqu.Simulation

/-!
# An orchestrator and its nodes

The orchestrator with the remote dispatcher, the network and the daemons as one
machine. A step of the orchestrator thread or of the completion callback issues
calls; the thread goes on when it has handed its calls to `dispatch`, and the
receiving thread updates its tables when the callback has. What the orchestrator
takes for done has run at its node, and what could not be sent stays RUNNING.
-/

set_option autoImplicit false

namespace Linqu.RemoteOrchestration
open Linqu.Orchestrator Linqu.Orchestrator.LinquOrchestratorState Linqu.OrchestrationApi
open Linqu.Dispatchers Linqu.MsgTypes Linqu.NodeDaemon Linqu.Transition Linqu.Reports
open Linqu.OrchestratorRule Linqu.OrchestratorDone Linqu.Mailboxes Linqu.Simulation
open Linqu.OrchestratorSteps (Moves act Pc moves_cases)
open Linqu.FailedResults Linqu.DispatchIds
open Linqu.RemoteExecution (Setup ownRun failure completion)

def typeByte : LinquParamType → UInt8
  | .input => paramInput
  | .output => paramOutput
  | .inout => paramInout
  | .scalar => paramScalar

def entryOf (p : LinquParam) : ParamEntry := ⟨typeByte p.type,p.handle,p.scalarValue⟩

/-- The arguments that `dispatch` is called with, where they are in range: an id
of 32 bits, a name made of bytes, and no more than a message can hold. -/
def remoteCall (call : DispatchCall) : Option RemoteExecution.Call :=
  let kernelSo := call.kernelSo.toList.map fun c => UInt8.ofNat c.toNat
  let params := call.params.map entryOf
  if h : kernelSo.length+14+17*params.length < 2^32 ∧
      (Int32.ofInt call.taskId).toInt = call.taskId ∧ CodeStore.nameOf kernelSo = call.kernelSo then
    some ⟨.ofInt call.taskId,call.target,kernelSo,params,h.1⟩
  else none

def issued : Event → Option DispatchCall
  | .dispatch call => some call
  | _ => none

/-- The calls that a step has issued, oldest first, if all are in range. -/
def issue (l l' : List Event) : Option (List RemoteExecution.Call) :=
  let calls := (l'.take (l'.length-l.length)).reverse.filterMap issued
  if ∀ call ∈ calls, (remoteCall call).isSome then some (calls.filterMap remoteCall) else none

/-- `due` are the calls that the orchestrator thread still has to hand to
`dispatch`, `dueBack` those of the completion callback. -/
structure System where
  orch : OrchestratorSteps.System
  net : RemoteExecution.System := {}
  due : List RemoteExecution.Call := []
  dueBack : List RemoteExecution.Call := []

inductive Act where
  | call (c : OrchestratorSteps.Call)
  | turn
  | net (a : RemoteExecution.Act)

/-- The result that a step of the dispatcher has passed on. -/
def passedOn (s s' : RemoteExecution.System) : Option DispatchResult :=
  (s'.results.drop s.results.length).head?

namespace System

/-- The orchestrator thread. -/
def thread (c : System) (a : OrchestratorSteps.Act) : Option System :=
  if c.due = [] then do
    let orch ← act c.orch a
    let due ← issue c.orch.state.trace orch.state.trace
    return { c with orch, due }
  else none

/-- One of the threads enters `dispatch`. -/
def enter (c : System) (call : RemoteExecution.Call) (net : RemoteExecution.System) :
    Option System :=
  if call ∈ c.due then some { c with net, due := c.due.erase call }
  else if call ∈ c.dueBack then some { c with net, dueBack := c.dueBack.erase call }
  else none

/-- The callback. -/
def pass (c : System) (net : RemoteExecution.System) : Option System :=
  match passedOn c.net net with
  | none => some { c with net }
  | some r => do
    let orch ← act c.orch (.result r)
    let calls ← issue c.orch.state.trace orch.state.trace
    return { c with orch, net, dueBack := c.dueBack++calls }

end System

variable (cfg : Setup)

def step (c : System) : Act → Option System
  | .call k => c.thread (.call k)
  | .turn => c.thread .turn
  | .net a => do
    let net ← RemoteExecution.step cfg c.net a
    match a with
    | .enter call => c.enter call net
    | .settle => if c.dueBack = [] then some { c with net } else none
    | _ => c.pass net

def Steps (c : System) (a : Act) (c' : System) : Prop := step cfg c a = some c'

def Honest (c : System) : Act → Prop
  | .net a => RemoteExecution.Honest cfg c.net a
  | _ => True

instance (c : System) : DecidablePred (Honest cfg c)
  | .net a => inferInstanceAs (Decidable (RemoteExecution.Honest cfg c.net a))
  | .call _ | .turn => .isTrue trivial

/-! What a step issues. -/

theorem remoteCall_taskId {call : DispatchCall} {m : RemoteExecution.Call}
    (h : remoteCall call = some m) : m.taskId.toInt = call.taskId := by
  unfold remoteCall at h
  dsimp only at h
  split at h
  · rename_i hc
    cases h
    exact hc.2.1
  · cases h

theorem remoteIds {l : List DispatchCall} (h : ∀ call ∈ l, (remoteCall call).isSome) :
    (l.filterMap remoteCall).map (fun m => m.taskId.toInt) = l.map DispatchCall.taskId := by
  induction l with
  | nil => rfl
  | cons call l ih =>
    obtain ⟨m,hm⟩ := Option.isSome_iff_exists.mp (h call List.mem_cons_self)
    rw [List.filterMap_cons_some hm, List.map_cons, List.map_cons, remoteCall_taskId hm,
      ih fun d hd => h d (List.mem_cons_of_mem _ hd)]

theorem issue_spec {l new : List Event} {calls : List RemoteExecution.Call}
    (h : issue l (new++l) = some calls) :
    calls.Perm ((new.filterMap issued).filterMap remoteCall) ∧
      ∀ call ∈ new.filterMap issued, (remoteCall call).isSome := by
  have hnew : (new++l).take ((new++l).length-l.length) = new := by
    rw [List.length_append, Nat.add_sub_cancel, List.take_left]
  have hperm : (new.reverse.filterMap issued).Perm (new.filterMap issued) :=
    (List.reverse_perm new).filterMap issued
  rw [issue, hnew] at h
  split at h
  · rename_i hall
    cases h
    exact ⟨hperm.filterMap remoteCall,fun call hc => hall call (hperm.mem_iff.mpr hc)⟩
  · cases h

theorem issue_same {l : List Event} {calls : List RemoteExecution.Call}
    (h : issue l l = some calls) : calls = [] := by
  have hnil : issue l ([]++l) = some calls := h
  exact List.perm_nil.mp (issue_spec hnil).1

theorem mem_issued {l : List Event} {call : DispatchCall} :
    call ∈ l.filterMap issued ↔ .dispatch call ∈ l := by
  rw [List.mem_filterMap]
  constructor
  · rintro ⟨e,he,hc⟩
    cases e with
    | dispatch c =>
      cases hc
      exact he
    | submit t b => cases hc
    | dispatchFn c => cases hc
    | report t => cases hc
  · intro h
    exact ⟨_,h,rfl⟩

theorem dispatchedIds_eq (l : List Event) :
    dispatchedIds l = (l.filterMap issued).map DispatchCall.taskId := by
  rw [List.map_filterMap]
  apply List.filterMap_congr
  intro e _
  cases e <;> rfl

/-- The trace only grows. -/
theorem moves_trace {σ σ' : OrchestratorSteps.System} {a : OrchestratorSteps.Act}
    (hp : GroupCompletion.Paced σ) (hm : Moves σ a σ') : σ.state.trace <:+ σ'.state.trace := by
  rcases moves_cases hp.shape hp.backend hm with ⟨r,rfl,hs,-⟩ | ⟨-,st⟩
  · unfold onCompletion at hs
    by_cases hok : r.status = .completed
    · rw [if_pos hok] at hs
      obtain ⟨new,hnew,-⟩ := (frame_onTaskComplete hs).events
      rw [hnew]
      exact (List.suffix_cons _ _).trans (List.suffix_append _ _)
    · rw [if_neg hok] at hs
      have hstate : σ'.state = σ.state := (Except.ok.inj hs).symm
      rw [hstate]
  · exact (GroupCompletion.stage_advances hp.shape hp.backend st).steady.trace

/-! What a step of the network can do. -/

/-- The call that a step takes into `dispatch`. -/
def entered : RemoteExecution.Act → List RemoteExecution.Call
  | .enter call => [call]
  | _ => []

structure Grows (a : RemoteExecution.Act) (s s' : RemoteExecution.System) : Prop where
  results : s'.results = s.results++(passedOn s s').toList
  dispatched : s'.dispatched = s.dispatched++entered a
  notified : a ≠ .settle → s'.notified = none →
    s.notified = none ∧ ∀ r, passedOn s s' = some r → r.status = .failed

theorem passedOn_none {s s' : RemoteExecution.System} (h : s'.results = s.results) :
    passedOn s s' = none := by
  rw [passedOn, h, List.drop_length]
  rfl

theorem passedOn_some {s s' : RemoteExecution.System} {r : DispatchResult}
    (h : s'.results = s.results++[r]) : passedOn s s' = some r := by
  rw [passedOn, h, List.drop_left]
  rfl

/-- A step that passes nothing on. -/
theorem grows_silent {a : RemoteExecution.Act} {s s' : RemoteExecution.System}
    (hr : s'.results = s.results) (hd : s'.dispatched = s.dispatched++entered a)
    (hn : a ≠ .settle → s'.notified = s.notified) : Grows a s s' := by
  have hnone := passedOn_none hr
  constructor
  · rw [hnone, hr]
    exact (List.append_nil _).symm
  · exact hd
  · intro ha hnot
    constructor
    · rw [← hn ha]
      exact hnot
    · intro r he
      rw [hnone] at he
      cases he

/-- A step that passes a result on. -/
theorem grows_passing {a : RemoteExecution.Act} {s s' : RemoteExecution.System}
    {r : DispatchResult} (hr : s'.results = s.results++[r])
    (hd : s'.dispatched = s.dispatched++entered a)
    (hn : s'.notified = none → s.notified = none ∧ r.status = .failed) : Grows a s s' := by
  have hpass := passedOn_some hr
  constructor
  · rw [hpass, hr]
    rfl
  · exact hd
  · intro _ hnot
    constructor
    · exact (hn hnot).1
    · intro r' he
      rw [hpass] at he
      cases he
      exact (hn hnot).2

theorem grows_step {a : RemoteExecution.Act} {s s' : RemoteExecution.System}
    (h : RemoteExecution.step cfg s a = some s') : Grows a s s' := by
  have hnil : s.dispatched = s.dispatched++[] := (List.append_nil _).symm
  cases a with
  | listen p =>
    rw [RemoteExecution.step, RemoteExecution.System.listen] at h
    split at h
    · cases h
    · cases h
      exact grows_silent rfl hnil fun _ => rfl
  | close p =>
    cases h
    exact grows_silent rfl hnil fun _ => rfl
  | outside p bytes =>
    rw [RemoteExecution.step] at h
    split at h
    · cases h
      exact grows_silent rfl hnil fun _ => rfl
    · cases h
  | enter call =>
    cases h
    exact grows_silent rfl rfl fun _ => rfl
  | send call reached writes =>
    rw [RemoteExecution.step, RemoteExecution.System.send] at h
    split at h
    · obtain ⟨buf,-,h⟩ := Option.bind_eq_some_iff.mp h
      dsimp only at h
      split at h
      · split at h
        · cases h
          exact grows_silent rfl hnil fun _ => rfl
        · cases h
          exact grows_silent rfl hnil fun _ => rfl
      · cases h
        exact grows_silent rfl hnil fun _ => rfl
    · cases h
  | leave call =>
    rw [RemoteExecution.step, RemoteExecution.System.leave] at h
    split at h
    · cases h
      exact grows_passing rfl hnil fun hnot => ⟨hnot,rfl⟩
    · cases h
  | handle p reads loaded =>
    rw [RemoteExecution.step, RemoteExecution.System.handle] at h
    split at h
    · obtain ⟨conn,-,h⟩ := Option.bind_eq_some_iff.mp h
      dsimp only at h
      split at h
      · cases h
        exact grows_silent rfl hnil fun _ => rfl
      · split at h
        · obtain ⟨task,-,h⟩ := Option.bind_eq_some_iff.mp h
          obtain ⟨out,-,h⟩ := Option.bind_eq_some_iff.mp h
          cases h
          exact grows_silent rfl hnil fun _ => rfl
        · split at h
          · cases h
            exact grows_silent rfl hnil fun _ => rfl
          · cases h
            exact grows_silent rfl hnil fun _ => rfl
    · cases h
  | answer job pieces =>
    rw [RemoteExecution.step, RemoteExecution.System.answer] at h
    split at h
    · obtain ⟨buf,-,h⟩ := Option.bind_eq_some_iff.mp h
      cases pieces with
      | none =>
        cases h
        exact grows_silent rfl hnil fun _ => rfl
      | some ab =>
        dsimp only at h
        split at h
        · cases h
          exact grows_silent rfl hnil fun _ => rfl
        · cases h
          exact grows_silent rfl hnil fun _ => rfl
    · cases h
  | recv reads =>
    rw [RemoteExecution.step, RemoteExecution.System.recv] at h
    split at h
    · obtain ⟨conn,-,h⟩ := Option.bind_eq_some_iff.mp h
      dsimp only at h
      split at h
      · cases h
        exact grows_silent rfl hnil fun _ => rfl
      · split at h
        · cases h
          exact grows_passing rfl hnil fun hnot => by cases hnot
        · cases h
          exact grows_silent rfl hnil fun _ => rfl
    · cases h
  | settle =>
    obtain ⟨payload,-,rfl⟩ := Option.map_eq_some_iff.mp h
    exact grows_silent rfl hnil fun hne => absurd rfl hne

/-! The orchestrator and the network kept together. -/

section Numbers

variable {cfg}

/-- The numbers of the results are numbers of calls, each used once at most. -/
theorem numbers {s : RemoteExecution.System} (h : RemoteExecution.Sound cfg s) :
    (s.results.map DispatchResult.taskId).Subperm
      (s.dispatched.map fun call => call.taskId.toInt) := by
  have hnumber : (fun t => (completion t).taskId) ∘ cfg.task =
      fun call : RemoteExecution.Call => call.taskId.toInt :=
    funext RemoteExecution.taskId_completion
  have hran : (s.failed.map (fun call => call.taskId.toInt)++
      (s.executed.filterMap (ownRun cfg)).map fun t => (completion t).taskId).Subperm
        (s.dispatched.map fun call => call.taskId.toInt) := by
    have hmap := subperm_map (fun t => (completion t).taskId) h.ran
    rw [List.map_append, List.map_map, List.map_map, hnumber] at hmap
    exact hmap
  have hout := subperm_map DispatchResult.taskId h.outcomes
  rw [List.map_append, List.map_map, List.map_map] at hout
  exact hout.trans hran

end Numbers

/-- `past` is what the orchestrator has done. -/
structure Joined (s₀ : State) (past : List OrchestratorSteps.Act) (c : System) : Prop where
  run : Run Moves past ⟨s₀,.idle⟩ c.orch
  answers : AnswersOnce past ⟨s₀,.idle⟩
  told : results past = c.net.results
  sound : RemoteExecution.Sound cfg c.net
  calls : (c.net.dispatched++c.due++c.dueBack).Perm
    ((c.orch.state.trace.filterMap issued).filterMap remoteCall)
  inRange : ∀ call, .dispatch call ∈ c.orch.state.trace → (remoteCall call).isSome
  quiet : c.net.notified = none → c.dueBack = []

section Joined

variable {cfg} {lcfg : LinquOrchConfigInternal} {s₀ : State} {c c' : System}
  {past : List OrchestratorSteps.Act}

theorem functional : Functional Moves := by
  intro s a u v hu hv
  exact Option.some.inj (hu.symm.trans hv)

theorem answersOnce_concat (hrun : Run Moves past ⟨s₀,.idle⟩ c.orch)
    (h : AnswersOnce past ⟨s₀,.idle⟩) {a : OrchestratorSteps.Act} (hk : Known c.orch a)
    (hd : ((results (past++[a])).map DispatchResult.taskId).Nodup) :
    AnswersOnce (past++[a]) ⟨s₀,.idle⟩ := by
  constructor
  · apply guarded_concat h.known
    intro v hv
    rw [run_functional functional hv hrun]
    exact ⟨hk,fun _ _ => trivial⟩
  · exact hd

theorem Joined.distinct (hinit : init .dispatcher lcfg = .ok s₀) (h : Joined cfg s₀ past c) :
    (dispatchedIds c.orch.state.trace).Nodup := run_distinct hinit h.run h.answers

/-- The ids of the calls that were taken into `dispatch`. -/
theorem Joined.ids (h : Joined cfg s₀ past c) :
    ((c.net.dispatched++c.due++c.dueBack).map fun call => call.taskId.toInt).Perm
      (dispatchedIds c.orch.state.trace) := by
  refine (h.calls.map _).trans (List.Perm.of_eq ?_)
  rw [dispatchedIds_eq]
  exact remoteIds fun call hc => h.inRange call (mem_issued.mp hc)

/-- What a step issues is what its trace has more. -/
theorem issue_moves {σ σ' : OrchestratorSteps.System} {a : OrchestratorSteps.Act}
    {calls : List RemoteExecution.Call} (hp : GroupCompletion.Paced σ) (hm : Moves σ a σ')
    (hi : issue σ.state.trace σ'.state.trace = some calls)
    (hold : ∀ call, .dispatch call ∈ σ.state.trace → (remoteCall call).isSome) :
    ((σ'.state.trace.filterMap issued).filterMap remoteCall).Perm
        (calls++(σ.state.trace.filterMap issued).filterMap remoteCall) ∧
      ∀ call, .dispatch call ∈ σ'.state.trace → (remoteCall call).isSome := by
  obtain ⟨new,hnew⟩ := moves_trace hp hm
  rw [← hnew] at hi ⊢
  obtain ⟨hperm,hall⟩ := issue_spec hi
  constructor
  · rw [List.filterMap_append, List.filterMap_append]
    exact hperm.symm.append_right _
  · intro call hc
    rcases List.mem_append.mp hc with hc | hc
    · exact hall call (mem_issued.mpr hc)
    · exact hold call hc

theorem Joined.paced (hinit : init .dispatcher lcfg = .ok s₀) (h : Joined cfg s₀ past c) :
    GroupCompletion.Paced c.orch := (run_answered hinit h.run h.answers).paced

theorem joined_thread (hinit : init .dispatcher lcfg = .ok s₀) (h : Joined cfg s₀ past c)
    {a : OrchestratorSteps.Act} (ha : ∀ r, a ≠ .result r) (hs : c.thread a = some c') :
    Joined cfg s₀ (past++[a]) c' := by
  unfold System.thread at hs
  split at hs
  · rename_i hdue
    obtain ⟨orch,hm,hs⟩ := Option.bind_eq_some_iff.mp hs
    obtain ⟨due,hi,hs⟩ := Option.bind_eq_some_iff.mp hs
    cases hs
    have hsame : results (past++[a]) = results past := by
      rw [results_append]
      cases a with
      | result r => exact absurd rfl (ha r)
      | call k => exact List.append_nil _
      | turn => exact List.append_nil _
    obtain ⟨hcalls,hrange⟩ := issue_moves (h.paced hinit) hm hi h.inRange
    constructor
    case run => exact run_append.mpr ⟨c.orch,h.run,orch,hm,rfl⟩
    case answers =>
      apply answersOnce_concat h.run h.answers
      · intro r hr
        exact absurd hr (ha r)
      · rw [hsame]
        exact h.answers.distinct
    case told => exact hsame.trans h.told
    case sound => exact h.sound
    case calls =>
      have hold := h.calls
      rw [hdue, List.append_nil] at hold
      refine List.Perm.trans ?_ (hcalls.trans (hold.symm.append_left _)).symm
      exact (List.perm_append_comm.append_right _).trans (List.Perm.of_eq (List.append_assoc _ _ _))
    case inRange => exact hrange
    case quiet => exact h.quiet
  · cases hs

theorem joined_enter (h : Joined cfg s₀ past c) {call : RemoteExecution.Call}
    (hs : c.enter call (c.net.enter call) = some c') : Joined cfg s₀ past c' := by
  have hsound := RemoteExecution.sound_enter h.sound call
  unfold System.enter at hs
  split at hs
  · rename_i hmem
    cases hs
    refine ⟨h.run,h.answers,h.told,hsound,?_,h.inRange,h.quiet⟩
    refine List.Perm.trans ?_ h.calls
    apply List.Perm.append_right
    change (c.net.dispatched++[call]++c.due.erase call).Perm _
    rw [List.append_assoc]
    exact (List.perm_cons_erase hmem).symm.append_left _
  · split at hs
    · rename_i hmem
      cases hs
      refine ⟨h.run,h.answers,h.told,hsound,?_,h.inRange,?_⟩
      · refine List.Perm.trans ?_ h.calls
        change (c.net.dispatched++[call]++c.due++c.dueBack.erase call).Perm _
        have hmove : (c.net.dispatched++[call]++c.due).Perm (c.net.dispatched++c.due++[call]) := by
          rw [List.append_assoc, List.append_assoc]
          exact List.perm_append_comm.append_left _
        refine (hmove.append_right _).trans ?_
        rw [List.append_assoc]
        exact (List.perm_cons_erase hmem).symm.append_left _
      · intro hnot
        rw [h.quiet hnot] at hmem
        cases hmem
    · cases hs

/-- A failed call changes nothing for the orchestrator. -/
theorem act_failed {σ σ' : OrchestratorSteps.System} {r : DispatchResult}
    (hr : r.status = .failed) (hm : Moves σ (.result r) σ') : σ' = σ := by
  have hnot : ¬ r.status = .completed := by rw [hr]; decide
  rw [Moves, act, onCompletion, if_neg hnot] at hm
  cases hm
  rfl

theorem joined_pass (hinit : init .dispatcher lcfg = .ok s₀) (h : Joined cfg s₀ past c)
    {a : RemoteExecution.Act} {net : RemoteExecution.System} (hg : Grows a c.net net)
    (henter : entered a = []) (hsettle : a ≠ .settle) (hsound : RemoteExecution.Sound cfg net)
    (hs : c.pass net = some c') : ∃ past', Joined cfg s₀ past' c' := by
  have hdispatched : net.dispatched = c.net.dispatched := by
    rw [hg.dispatched, henter, List.append_nil]
  unfold System.pass at hs
  cases hpass : passedOn c.net net with
  | none =>
    rw [hpass] at hs
    cases hs
    refine ⟨past,h.run,h.answers,?_,hsound,?_,h.inRange,fun hnot => ?_⟩
    · rw [h.told, hg.results, hpass]
      exact (List.append_nil _).symm
    · rw [hdispatched]
      exact h.calls
    · exact h.quiet (hg.notified hsettle hnot).1
  | some r =>
    rw [hpass] at hs
    obtain ⟨orch,hm,hs⟩ := Option.bind_eq_some_iff.mp hs
    obtain ⟨calls,hi,hs⟩ := Option.bind_eq_some_iff.mp hs
    cases hs
    have hresults : net.results = c.net.results++[r] := by
      rw [hg.results, hpass]
      rfl
    have htold : results (past++[.result r]) = net.results := by
      rw [results_append, h.told, hresults]
      rfl
    have hsub : (net.results.map DispatchResult.taskId).Subperm
        (dispatchedIds c.orch.state.trace) := by
      refine (numbers hsound).trans (List.Subperm.trans ?_ h.ids.subperm)
      rw [hdispatched, List.append_assoc, List.map_append]
      exact (List.sublist_append_left _ _).subperm
    obtain ⟨hcalls,hrange⟩ := issue_moves (h.paced hinit) hm hi h.inRange
    have hrun : Run Moves (past++[.result r]) ⟨s₀,.idle⟩ orch :=
      run_append.mpr ⟨c.orch,h.run,orch,hm,rfl⟩
    refine ⟨past++[.result r],hrun,?_,htold,hsound,?_,hrange,fun hnot => ?_⟩
    · apply answersOnce_concat h.run h.answers
      · intro r' he
        cases he
        apply mem_dispatchedIds.mp
        apply hsub.subset
        rw [hresults, List.map_append]
        exact List.mem_append_right _ (List.mem_singleton_self _)
      · rw [htold]
        obtain ⟨l,hperm,hl⟩ := hsub
        exact hperm.nodup_iff.mp (hl.nodup (h.distinct hinit))
    · dsimp only
      rw [hdispatched, ← List.append_assoc]
      exact List.perm_append_comm.trans ((h.calls.append_left _).trans hcalls.symm)
    · obtain ⟨hnone,hfail⟩ := hg.notified hsettle hnot
      rw [act_failed (hfail r hpass) hm] at hi
      dsimp only
      rw [h.quiet hnone, issue_same hi, List.append_nil]

theorem joined_step (hinit : init .dispatcher lcfg = .ok s₀)
    (h : ∃ past, Joined cfg s₀ past c) {a : Act} (hc : Honest cfg c a)
    (hs : Steps cfg c a c') : ∃ past, Joined cfg s₀ past c' := by
  obtain ⟨past,h⟩ := h
  cases a with
  | call k => exact ⟨_,joined_thread hinit h (by simp) hs⟩
  | turn => exact ⟨_,joined_thread hinit h (by simp) hs⟩
  | net a =>
    obtain ⟨net,hnet,hs⟩ := Option.bind_eq_some_iff.mp hs
    have hsound := RemoteExecution.sound_step h.sound hc hnet
    have hg := grows_step cfg hnet
    cases a with
    | enter call =>
      cases hnet
      exact ⟨past,joined_enter h hs⟩
    | settle =>
      dsimp only at hs
      split at hs
      · rename_i hback
        cases hs
        have hnone : passedOn c.net net = none := by
          obtain ⟨payload,-,rfl⟩ := Option.map_eq_some_iff.mp hnet
          exact passedOn_none rfl
        have hdispatched : net.dispatched = c.net.dispatched++[] := hg.dispatched
        refine ⟨past,h.run,h.answers,?_,hsound,?_,h.inRange,fun _ => hback⟩
        · rw [h.told, hg.results, hnone]
          exact (List.append_nil _).symm
        · dsimp only
          rw [hdispatched, List.append_nil]
          exact h.calls
      · cases hs
    | listen p => exact joined_pass hinit h hg rfl (by simp) hsound hs
    | close p => exact joined_pass hinit h hg rfl (by simp) hsound hs
    | outside p bytes => exact joined_pass hinit h hg rfl (by simp) hsound hs
    | send call reached writes => exact joined_pass hinit h hg rfl (by simp) hsound hs
    | leave call => exact joined_pass hinit h hg rfl (by simp) hsound hs
    | handle p reads loaded => exact joined_pass hinit h hg rfl (by simp) hsound hs
    | answer job pieces => exact joined_pass hinit h hg rfl (by simp) hsound hs
    | recv reads => exact joined_pass hinit h hg rfl (by simp) hsound hs

theorem joined_run (hinit : init .dispatcher lcfg = .ok s₀) {acts : List Act}
    (hrun : Run (Steps cfg) acts { orch := ⟨s₀,.idle⟩ } c)
    (hhonest : Guarded (Steps cfg) (Honest cfg) acts { orch := ⟨s₀,.idle⟩ }) :
    ∃ past, Joined cfg s₀ past c := by
  refine run_invariant (P := fun c => ∃ past, Joined cfg s₀ past c)
    (fun _ _ _ h hc hs => joined_step hinit h hc hs) ?_ hhonest hrun
  have htrace := (OrchestratorCalls.init_rest hinit).2.1
  have hnil : ∀ e, e ∉ s₀.trace := by
    intro e
    rw [htrace]
    exact List.not_mem_nil
  refine ⟨[],rfl,⟨trivial,List.nodup_nil⟩,rfl,?_,?_,fun call hc => absurd hc (hnil _),
    fun _ => rfl⟩
  · exact ⟨fun _ => le_rfl,fun _ => le_rfl,rfl,List.Perm.refl _,fun _ he => by cases he⟩
  · dsimp only
    rw [htrace]
    exact List.Perm.refl _

end Joined

/-- The call has run at its node, with its own arguments. -/
def Ran (c : System) (call : DispatchCall) : Prop :=
  ∃ m, remoteCall call = some m ∧ cfg.task m ∈ c.net.executed.filterMap (ownRun cfg)

/-- The call could not be sent. -/
def Lost (c : System) (call : DispatchCall) : Prop :=
  ∃ m, remoteCall call = some m ∧ cfg.task m ∈ c.net.failed.map cfg.task

section Outcomes

variable {cfg} {lcfg : LinquOrchConfigInternal} {s₀ : State} {c : System}
  {past : List OrchestratorSteps.Act} {call : DispatchCall}

theorem Joined.unique (hinit : init .dispatcher lcfg = .ok s₀) (h : Joined cfg s₀ past c)
    {call' : DispatchCall} (hc : .dispatch call ∈ c.orch.state.trace)
    (hc' : .dispatch call' ∈ c.orch.state.trace) (hid : call.taskId = call'.taskId) :
    call = call' := by
  have hd := h.distinct hinit
  rw [dispatchedIds_eq] at hd
  exact List.inj_on_of_nodup_map hd (mem_issued.mpr hc) (mem_issued.mpr hc') hid

/-- No task is sent twice. -/
theorem Joined.tasks (hinit : init .dispatcher lcfg = .ok s₀) (h : Joined cfg s₀ past c) :
    (c.net.failed.map cfg.task++c.net.executed.filterMap (ownRun cfg)).Nodup := by
  have hids : (c.net.dispatched.map fun m => m.taskId.toInt).Nodup := by
    have hall := h.ids.nodup_iff.mpr (h.distinct hinit)
    rw [List.append_assoc, List.map_append] at hall
    exact hall.of_append_left
  have hnumber : (fun m : RemoteExecution.Call => m.taskId.toInt) =
      (fun t => (completion t).taskId) ∘ cfg.task :=
    (funext RemoteExecution.taskId_completion).symm
  rw [hnumber, ← List.map_map] at hids
  obtain ⟨l,hperm,hl⟩ := h.sound.ran
  exact hperm.nodup_iff.mp (hl.nodup hids.of_map)

theorem Joined.apart (hinit : init .dispatcher lcfg = .ok s₀) (h : Joined cfg s₀ past c)
    (hran : Ran cfg c call) : ¬Lost cfg c call := by
  intro hlost
  obtain ⟨m,hm,hmem⟩ := hran
  obtain ⟨m',hm',hmem'⟩ := hlost
  cases hm.symm.trans hm'
  exact (List.disjoint_of_nodup_append (h.tasks hinit)) hmem' hmem

/-- A report is that of a run. -/
theorem Joined.reported (hinit : init .dispatcher lcfg = .ok s₀) (h : Joined cfg s₀ past c)
    (hc : .dispatch call ∈ c.orch.state.trace) (hrep : .report call.taskId ∈ c.orch.state.trace) :
    Ran cfg c call := by
  obtain ⟨r,hr,hok,hid⟩ := ((run_answered hinit h.run h.answers).heard _).mp hrep
  rw [h.told] at hr
  rcases List.mem_append.mp (h.sound.outcomes.subset hr) with hf | hran
  · obtain ⟨f,-,rfl⟩ := List.mem_map.mp hf
    cases hok
  · obtain ⟨t,ht,rfl⟩ := List.mem_map.mp hran
    obtain ⟨m,hm,rfl⟩ := List.mem_map.mp (h.sound.ran.subset (List.mem_append_right _ ht))
    have hissued := h.calls.subset (List.mem_append_left _ (List.mem_append_left _ hm))
    obtain ⟨call',hc',hm'⟩ := List.mem_filterMap.mp hissued
    rw [RemoteExecution.taskId_completion, remoteCall_taskId hm'] at hid
    cases h.unique hinit (mem_issued.mp hc') hc hid
    exact ⟨m,hm',ht⟩

/-- Once nothing is outstanding, every call has run or is lost, and a run has
been reported. -/
theorem Joined.settled (h : Joined cfg s₀ past c) (hdue : c.due = [])
    (hready : c.net.dispatcher.waitAllReady = true)
    (hinit : init .dispatcher lcfg = .ok s₀) (hc : .dispatch call ∈ c.orch.state.trace) :
    (Ran cfg c call ∨ Lost cfg c call) ∧
      (Ran cfg c call → .report call.taskId ∈ c.orch.state.trace) := by
  obtain ⟨hall,htold⟩ := h.sound.settled hready
  have hnone : c.net.notified = none := by
    have hout : c.net.dispatcher.outstanding ≤ 0 := of_decide_eq_true hready
    have hb := h.sound.balance
    have hlen := hall.length_eq
    have hlen' := htold.length_eq
    rw [List.length_append, List.length_map, List.length_map] at hlen
    rw [List.length_map] at hlen'
    cases hn : c.net.notified with
    | none => rfl
    | some payload =>
      rw [hn] at hb
      have hone : (some payload).toList.length = 1 := rfl
      omega
  constructor
  · obtain ⟨m,hm⟩ := Option.isSome_iff_exists.mp (h.inRange call hc)
    have hissued : m ∈ (c.orch.state.trace.filterMap issued).filterMap remoteCall :=
      List.mem_filterMap.mpr ⟨call,mem_issued.mpr hc,hm⟩
    have hmem := h.calls.symm.subset hissued
    rw [hdue, h.quiet hnone, List.append_nil, List.append_nil] at hmem
    rcases List.mem_append.mp (hall.symm.subset (List.mem_map_of_mem hmem)) with hl | hr
    · exact Or.inr ⟨m,hm,hl⟩
    · exact Or.inl ⟨m,hm,hr⟩
  · rintro ⟨m,hm,hran⟩
    apply ((run_answered hinit h.run h.answers).heard _).mpr
    refine ⟨completion (cfg.task m),?_,rfl,?_⟩
    · rw [h.told]
      apply h.sound.results.symm.subset
      apply List.mem_append_right
      have hmap := htold.map RemoteExecution.resultOf
      rw [List.map_map] at hmap
      exact hmap.symm.subset (List.mem_map_of_mem hran)
    · rw [RemoteExecution.taskId_completion, remoteCall_taskId hm]

/-- A plain task is RUNNING from its dispatch to its report. -/
theorem running_iff {σ : OrchestratorSteps.System} (h : Answered past σ)
    (hc : .dispatch call ∈ σ.state.trace) (ho : call.origin = .plain) :
    Running σ.state call.taskId ↔ .report call.taskId ∉ σ.state.trace := by
  obtain ⟨hpos,hopen⟩ := h.account.plain call hc ho
  constructor
  · intro hrunning hrep
    have hfin := (h.closed _ hpos hrep).2
    rw [finished_live hrunning.1, hrunning.2] at hfin
    cases hfin
  · intro hrep
    exact (hopen hrep).1

/-- A group is done with when every sub-task that was dispatched is reported. -/
theorem freed_iff {σ : OrchestratorSteps.System} (h : Answered past σ) {g : ℤ}
    (hgroup : σ.state.taskRing.Live g → (σ.state.get g).isGroup = true)
    (hidle : σ.pc = .idle) :
    Freed σ.state g ↔ ∀ call i, .dispatch call ∈ σ.state.trace → call.origin = .sub g i →
      .report call.taskId ∈ σ.state.trace := by
  constructor
  · intro hfree call i hc ho
    by_contra hrep
    exact hfree.2 _ ((h.filed.entries _ g).mpr ⟨⟨call,i,hc,rfl,ho⟩,hrep⟩) rfl
  · intro hall
    have hanswered : AllAnswered past σ g := by
      refine ⟨hgroup,by rw [hidle]; rfl,fun call i hc ho => ?_⟩
      obtain ⟨r,hr,-,hid⟩ := (h.heard _).mp (hall call i hc ho)
      exact ⟨r,hr,hid⟩
    apply freed_of_no_entry h hanswered
    intro e he heg
    obtain ⟨⟨call,i,hc,hid,ho⟩,hrep⟩ := (h.filed.entries e.1 e.2).mp he
    rw [heg] at ho
    rw [← hid] at hrep
    exact hrep (hall call i hc ho)

theorem errand_fits : [(97 : UInt8)].length+14+17*([] : List ParamEntry).length < 2^32 := by
  decide

/-- The calls of `errands`: two to the near node, one to a node that is not there. -/
def errand (id : Int32) (target : LinquCoordinate) : RemoteExecution.Call :=
  ⟨id,target,[97],[],errand_fits⟩

/-- A call to the near node and its answer. -/
def served (id : Int32) : List RemoteExecution.Act :=
  [.send (errand id {}) true (List.replicate 2 (.moved 100)),
    .handle RemoteExecution.nearNode (List.replicate 2 (.moved 100)) fun _ => true,
    .answer ⟨RemoteExecution.nearNode,{},6,⟨id.toUInt32,0⟩⟩ (some (24,8)),
    .recv (List.replicate 2 (.moved 100)),.settle]

/-- A task for the near node, a group with one sub-task, and a task for the far
node. The answer of the sub-task comes first. -/
def errands : List Act := List.flatten [
  [.net (.listen RemoteExecution.pair.home),.net (.listen RemoteExecution.nearNode),
    .call (.submit (.task {} (some "a") [])),.net (.enter (errand 0 {})),
    .call (.submit (.group (some "a") [] [⟨{},none,[]⟩])),.turn,
    .net (.enter (errand (-1) {})),.turn,
    .call (.submit (.task { l5Idx := 1 } (some "a") [])),
    .net (.enter (errand 2 { l5Idx := 1 }))],
  (served (-1)).map .net,(served 0).map .net,
  [.net (.send (errand 2 { l5Idx := 1 }) true []),.net (.leave (errand 2 { l5Idx := 1 }))]]

theorem errands_run : ∃ s₀ c, init .dispatcher {} = .ok s₀ ∧
    Run (Steps RemoteExecution.pair) errands { orch := ⟨s₀,.idle⟩ } c ∧
    Guarded (Steps RemoteExecution.pair) (Honest RemoteExecution.pair) errands
      { orch := ⟨s₀,.idle⟩ } ∧
    dispatchedIds c.orch.state.trace = [2,-1,0] ∧ c.orch.pc = .idle ∧ c.due = [] ∧
      c.net.dispatcher.waitAllReady = true := by
  obtain ⟨c₀,c,h₀,hrun,hhonest,hend⟩ := exists_run (f := step RemoteExecution.pair)
    (o := (init .dispatcher {}).toOption.map fun s => { orch := ⟨s,.idle⟩ }) (l := errands)
    (g := fun c a => decide (Honest RemoteExecution.pair c a))
    (c := fun c => dispatchedIds c.orch.state.trace = [2,-1,0] ∧ c.orch.pc = .idle ∧
      c.due = [] ∧ c.net.dispatcher.waitAllReady = true)
    (by decide +kernel)
  obtain ⟨s₀,hs₀,rfl⟩ := Option.map_eq_some_iff.mp h₀
  exact ⟨s₀,c,toOption_some.mp hs₀,hrun,guarded_mono (fun _ _ => of_decide_eq_true) hhonest,
    of_decide_eq_true hend⟩

end Outcomes

end Linqu.RemoteOrchestration
