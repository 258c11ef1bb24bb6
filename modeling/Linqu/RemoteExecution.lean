import Linqu.Mailboxes
import Linqu.Transport
import Linqu.NodeDaemon
import Linqu.TruncatedCalls
import Linqu.WaitAll

/-!
# Remote execution

The remote dispatcher, the daemons, and the connections between them. Threads
and processes take their steps in any order, are cut off in the middle of a
message, and daemons come and go. A call that was dispatched runs at most once,
at the node it names and with the arguments it was given; a result that is
passed on is that of a call that ran, or of one that will never run; and when
`wait_all` lets go, every call has done one or the other.
-/

set_option autoImplicit false

namespace Linqu.RemoteExecution
open Linqu.ByteStreams Linqu.Mailboxes Linqu.MsgTypes Linqu.Header Linqu.RoundTrip
open Linqu.OrchestrationApi Linqu.SocketPaths Linqu.Transport Linqu.Dispatchers
open Linqu.NodeDaemon Linqu.TruncatedCalls Linqu.BufferReads Linqu.Transition

/-- The dispatcher's place, and what the daemons write into their headers. -/
structure Setup where
  base : Path
  self : LinquCoordinate
  level : UInt8
  nodeLevel : Path → UInt8
  nodeCoord : Path → LinquCoordinate

/-- The arguments of `dispatch`. The message has a length of 32 bits. -/
structure Call where
  taskId : Int32
  target : LinquCoordinate
  kernelSo : List UInt8
  params : List ParamEntry
  fits : kernelSo.length+14+17*params.length < 2^32
  deriving DecidableEq

def Call.payload (call : Call) : CallTaskPayload :=
  { kernelSoName := call.kernelSo, taskId := call.taskId.toUInt32, scopeDepth := 0
    numParams := .ofNat call.params.length, params := call.params }

def address (base : Path) (coord : LinquCoordinate) (level : UInt8) : Path :=
  sunPath (makeSocketPath base coord level)

variable (cfg : Setup)

def Setup.home : Path := address cfg.base cfg.self cfg.level

/-- The header of a CALL_TASK message with a payload of that size. -/
def Setup.callHeader (target : LinquCoordinate) (size : ℕ) : LinquHeader :=
  .make .callTask cfg.level cfg.self target (.ofNat size)

/-- What a daemon is at: the kernel has run, and the answer goes to the sender. -/
structure Job where
  node : Path
  sender : LinquCoordinate
  senderLevel : UInt8
  complete : TaskCompletePayload
  deriving DecidableEq

structure Execution where
  node : Path
  caller : Path
  payload : CallTaskPayload
  run : Option KernelRun
  deriving DecidableEq

/-- `sending` are the calls before and `failing` those after a `send` that has
failed; `notified` is the report between the callback and the tables. What was
dispatched, has run, failed and was passed on is kept. -/
structure System where
  dispatcher : RemoteDispatcher := {}
  sending : List Call := []
  failing : List Call := []
  notified : Option (List UInt8) := none
  up : Path → Bool := fun _ => false
  halted : Path → Bool := fun _ => false
  wire : List (Path × List UInt8) := []
  jobs : List Job := []
  dispatched : List Call := []
  executed : List Execution := []
  failed : List Call := []
  reported : List TaskCompletePayload := []
  results : List DispatchResult := []

/-- `loaded` tells which kernels the code cache gives an entry for when the
message is handled. A daemon writes that many bytes of its answer, if it can
connect. -/
inductive Act where
  | listen (p : Path)
  | close (p : Path)
  | outside (p : Path) (bytes : List UInt8)
  | enter (call : Call)
  | send (call : Call) (reached : Bool) (writes : List Io)
  | leave (call : Call)
  | handle (p : Path) (reads : List Io) (loaded : List UInt8 → Bool)
  | answer (job : Job) (pieces : Option (ℕ × ℕ))
  | recv (reads : List Io)
  | settle

namespace System

def listen (s : System) (p : Path) : Option System :=
  if s.up p ∨ 107 < p.length then none
  else some { s with
    up := Function.update s.up p true, halted := Function.update s.halted p false }

/-- The process behind a path ends, and so do its connections. -/
def close (s : System) (p : Path) : System :=
  { s with
    up := Function.update s.up p false
    wire := discard p s.wire
    jobs := s.jobs.filter fun j => j.node ≠ p }

/-- `dispatch` up to `send`. -/
def enter (s : System) (call : Call) : System :=
  { s with
    dispatcher := s.dispatcher.dispatchEnter call.taskId
    sending := s.sending++[call]
    dispatched := s.dispatched++[call] }

/-- `send`, and the failure if it fails. -/
def send (s : System) (call : Call) (reached : Bool) (writes : List Io) : Option System :=
  if call ∈ s.sending then do
    let buf ← call.payload.serialize
    let hdr := cfg.callHeader call.target buf.length
    let path := address cfg.base call.target (targetLevel hdr)
    let s := { s with sending := s.sending.erase call }
    if reached ∧ s.up path then
      let g := transmit writes hdr buf
      let s := { s with wire := s.wire++[(path,g.written)] }
      return if g.ok then s else { s with failing := s.failing++[call] }
    else return { s with failing := s.failing++[call] }
  else none

/-- `dispatch` after a `send` that has failed. -/
def leave (s : System) (call : Call) : Option System :=
  if call ∈ s.failing then
    let (r,dispatcher) := s.dispatcher.dispatchLeave call.taskId false
    some { s with
      dispatcher := dispatcher
      failing := s.failing.erase call
      failed := s.failed++[call]
      results := s.results++r.toList }
  else none

/-- `handle_call_task` up to the answer. A read outside of the payload has no
result. -/
def call (s : System) (p : Path) (loaded : List UInt8 → Bool) (hdr : LinquHeader)
    (payload : List UInt8) : Option System := do
  let task ← CallTaskPayload.deserialize payload
  let out ← handleCallTask loaded payload
  let job : Job := ⟨p,hdr.getSender,hdr.senderLevel,out.complete⟩
  let e : Execution := ⟨p,address cfg.base hdr.getSender hdr.senderLevel,task,out.run⟩
  return { s with jobs := s.jobs++[job], executed := s.executed++[e] }

/-- `handle_one_message`. Of the messages that are no calls only SHUTDOWN is
looked at. -/
def handle (s : System) (p : Path) (reads : List Io) (loaded : List UInt8 → Bool) :
    Option System :=
  if p ≠ cfg.home ∧ s.up p ∧ s.halted p = false ∧ ∀ j ∈ s.jobs, j.node ≠ p then do
    let conn ← next p s.wire
    let s := { s with wire := conn.2 }
    match receive reads conn.1 with
    | none => some s
    | some (hdr,payload) =>
      if hdr.msgType = .callTask then s.call cfg p loaded hdr payload
      else if hdr.msgType = shutdown then
        some { s with halted := Function.update s.halted p true }
      else some s
  else none

/-- `send_task_complete`. The results of the two writes are not looked at. -/
def answer (s : System) (job : Job) (pieces : Option (ℕ × ℕ)) : Option System :=
  if job ∈ s.jobs then do
    let buf ← job.complete.serialize
    let hdr := LinquHeader.make taskComplete (cfg.nodeLevel job.node) (cfg.nodeCoord job.node)
      job.sender (.ofNat buf.length)
    let path := address cfg.base job.sender job.senderLevel
    let s := { s with jobs := s.jobs.erase job }
    match pieces with
    | some (a,b) =>
      if s.up path then
        return { s with wire := s.wire++[(path,hdr.serialize.take a++buf.take b)] }
      else return s
    | none => return s
  else none

/-- `recv_thread_fn` up to the callback. -/
def recv (s : System) (reads : List Io) : Option System :=
  if s.notified = none ∧ s.up cfg.home then do
    let conn ← next cfg.home s.wire
    let s := { s with wire := conn.2 }
    match receive reads conn.1 with
    | none => some s
    | some (hdr,payload) =>
      if hdr.msgType = taskComplete then
        some { s with
          notified := some payload
          reported := s.reported++[TaskCompletePayload.deserialize payload]
          results := s.results++[(s.dispatcher.recvTaskComplete payload).1] }
      else some s
  else none

/-- `recv_thread_fn` after the callback. -/
def settle (s : System) : Option System :=
  s.notified.map fun payload =>
    { s with dispatcher := (s.dispatcher.recvTaskComplete payload).2, notified := none }

end System

def step (s : System) : Act → Option System
  | .listen p => s.listen p
  | .close p => some (s.close p)
  | .outside p bytes => if s.up p then some { s with wire := s.wire++[(p,bytes)] } else none
  | .enter call => some (s.enter call)
  | .send call reached writes => s.send cfg call reached writes
  | .leave call => s.leave call
  | .handle p reads loaded => s.handle cfg p reads loaded
  | .answer job pieces => s.answer cfg job pieces
  | .recv reads => s.recv cfg reads
  | .settle => s.settle

def Steps (s : System) (a : Act) (s' : System) : Prop := step cfg s a = some s'

/-- What a call asks for, and where. -/
structure Task where
  node : Path
  payload : CallTaskPayload
  deriving DecidableEq

def Setup.task (call : Call) : Task :=
  ⟨address cfg.base call.target (cfg.level-1),call.payload⟩

/-- The call of this dispatcher that a connection holds. -/
def callOf (conn : Path × List UInt8) : Option Task :=
  (message conn.2).bind fun m =>
    if m.1.msgType = .callTask ∧ address cfg.base m.1.getSender m.1.senderLevel = cfg.home then
      (CallTaskPayload.deserialize m.2).map (Task.mk conn.1)
    else none

/-- The report to this dispatcher that a connection holds. -/
def reportOf (conn : Path × List UInt8) : Option TaskCompletePayload :=
  (message conn.2).bind fun m =>
    if conn.1 = cfg.home ∧ m.1.msgType = taskComplete then
      some (TaskCompletePayload.deserialize m.2)
    else none

section Messages

variable {cfg}

theorem callOf_none {conn : Path × List UInt8} (h : message conn.2 = none) :
    callOf cfg conn = none := by
  rw [callOf, h]
  rfl

theorem reportOf_none {conn : Path × List UInt8} (h : message conn.2 = none) :
    reportOf cfg conn = none := by
  rw [reportOf, h]
  rfl

theorem length_payload (call : Call) :
    (callBytes call.payload).length = call.kernelSo.length+14+17*call.params.length := by
  rw [length_callBytes]
  change 14+call.kernelSo.length+17*call.params.length = _
  omega

theorem serialize_payload (call : Call) :
    call.payload.serialize = some (callBytes call.payload) ∧
      CallTaskPayload.deserialize (callBytes call.payload) = some call.payload := by
  have hfits := call.fits
  have hnum : call.payload.numParams.toNat = call.payload.params.length := by
    change (UInt32.ofNat call.params.length).toNat = call.params.length
    rw [UInt32.toNat_ofNat', Nat.mod_eq_of_lt (by omega)]
  have hname : call.payload.kernelSoName.length+14 < 2^32 := by
    change call.kernelSo.length+14 < 2^32
    omega
  have hser := call_task_fits hnum hname
  obtain ⟨b,hb,hd⟩ := (call_task_trips hnum (by omega)).mpr hname
  rw [hser] at hb
  cases hb
  exact ⟨hser,hd⟩

/-- A call comes with the address of its sender. -/
theorem callHeader_home (target : LinquCoordinate) (size : ℕ) :
    address cfg.base (cfg.callHeader target size).getSender
      (cfg.callHeader target size).senderLevel = cfg.home := by
  rw [Setup.callHeader, make_sender]
  rfl

theorem callOf_frame (p : Path) (call : Call) :
    callOf cfg (p,(cfg.callHeader call.target (callBytes call.payload).length).serialize++
      callBytes call.payload) = some ⟨p,call.payload⟩ := by
  have hfits := call.fits
  have hsize : (cfg.callHeader call.target (callBytes call.payload).length).payloadSize.toNat =
      (callBytes call.payload).length := by
    change (UInt32.ofNat (callBytes call.payload).length).toNat = _
    rw [UInt32.toNat_ofNat', length_payload, Nat.mod_eq_of_lt hfits]
  rw [callOf, message_frame rfl hsize, Option.bind_some, if_pos ⟨rfl,callHeader_home _ _⟩,
    (serialize_payload call).2, Option.map_some]

variable (cfg) in
/-- A call that was sent in full is there for the daemon, one that was cut off
is not, and neither is a report. -/
theorem call_written (p : Path) (call : Call) (writes : List Io) :
    let g := transmit writes (cfg.callHeader call.target (callBytes call.payload).length)
      (callBytes call.payload)
    callOf cfg (p,g.written) = (if g.ok = true then some ⟨p,call.payload⟩ else none) ∧
      reportOf cfg (p,g.written) = none := by
  intro g
  have hfits := call.fits
  have hsize : (cfg.callHeader call.target (callBytes call.payload).length).payloadSize.toNat =
      (callBytes call.payload).length := by
    change (UInt32.ofNat (callBytes call.payload).length).toNat = _
    rw [UInt32.toNat_ofNat', length_payload, Nat.mod_eq_of_lt hfits]
  obtain ⟨hpre,hok⟩ := transmit_spec writes
    (cfg.callHeader call.target (callBytes call.payload).length) (callBytes call.payload)
  by_cases hsent : g.ok = true
  · rw [if_pos hsent, show g.written = _ from hok.mp hsent]
    refine ⟨callOf_frame p call,?_⟩
    rw [reportOf, message_frame rfl hsize, Option.bind_some, if_neg]
    exact fun h => absurd h.2 (show MsgType.callTask ≠ taskComplete by decide)
  · have hcut := message_cut hsize hpre (fun he => hsent (hok.mpr he))
    rw [if_neg hsent]
    exact ⟨callOf_none hcut,reportOf_none hcut⟩

variable (cfg) in
/-- What a daemon writes of its answer is the report or nothing. -/
theorem answer_written (p : Path) {job : Job} {buf : List UInt8} (level : UInt8)
    (coord : LinquCoordinate) (a b : ℕ) (hbuf : job.complete.serialize = some buf) :
    let bytes := (LinquHeader.make taskComplete level coord job.sender
      (.ofNat buf.length)).serialize.take a++buf.take b
    callOf cfg (p,bytes) = none ∧ ∀ r, reportOf cfg (p,bytes) = some r →
      p = cfg.home ∧ r = job.complete := by
  intro bytes
  obtain ⟨b',hb',hread⟩ := task_complete_trips job.complete
  rw [hbuf] at hb'
  cases hb'
  have hlen : buf.length = 8 := by
    rw [TaskCompletePayload.serialize, fill_of_length (by simp)] at hbuf
    cases hbuf
    simp
  have hdes : TaskCompletePayload.deserialize buf = job.complete := by
    rw [task_complete_read] at hread
    exact Option.some.inj hread
  have hsize : (LinquHeader.make taskComplete level coord job.sender
      (.ofNat buf.length)).payloadSize.toNat = buf.length := by
    rw [hlen]
    rfl
  cases hm : message bytes with
  | none =>
    refine ⟨callOf_none hm,fun r hr => ?_⟩
    rw [reportOf_none hm] at hr
    cases hr
  | some m =>
    have hall := message_pieces (by omega) hsize a b hm
    have hframe := message_frame rfl hsize
    rw [← hall] at hframe
    change message bytes = _ at hframe
    constructor
    · rw [callOf, hframe, Option.bind_some, if_neg]
      intro h
      exact absurd h.1 (show taskComplete ≠ .callTask by decide)
    · intro r hr
      rw [reportOf, hframe, Option.bind_some] at hr
      split at hr
      · rename_i hp
        cases hr
        exact ⟨hp.1,hdes⟩
      · cases hr

end Messages

/-- The run of a call that this dispatcher made. -/
def ownRun (e : Execution) : Option Task :=
  if e.caller = cfg.home then some ⟨e.node,e.payload⟩ else none

/-- The answer to a call that this dispatcher made. -/
def ownJob (j : Job) : Option TaskCompletePayload :=
  if address cfg.base j.sender j.senderLevel = cfg.home then some j.complete else none

/-- Every call that has run is answered in the same way. -/
def Task.answer (t : Task) : TaskCompletePayload := { taskId := t.payload.taskId, status := 0 }

def ownAnswer (e : Execution) : Option TaskCompletePayload := (ownRun cfg e).map Task.answer

/-- What a kernel is called with. -/
def runOf (p : CallTaskPayload) : KernelRun :=
  { kernelSo := p.kernelSoName, tensors := p.params.countP isTensor, args := p.params.map argOf }

/-- What is passed on for a call that failed. -/
def failure (call : Call) : DispatchResult :=
  { taskId := call.taskId.toInt, status := .failed, errorCode := -1 }

/-- What is passed on for a report. -/
def resultOf (comp : TaskCompletePayload) : DispatchResult :=
  { taskId := comp.taskId.toInt32.toInt
    status := if comp.status = 0 then .completed else .failed
    errorCode := comp.status.toInt }

/-- Every call is in one place at most, and so is every report. -/
structure Sound (s : System) : Prop where
  calls : ∀ t, (s.sending.map cfg.task).count t+(s.wire.filterMap (callOf cfg)).count t+
    (s.failing.map cfg.task).count t+(s.failed.map cfg.task).count t+
    (s.executed.filterMap (ownRun cfg)).count t ≤ (s.dispatched.map cfg.task).count t
  reports : ∀ r, (s.jobs.filterMap (ownJob cfg)).count r+
    (s.wire.filterMap (reportOf cfg)).count r+s.reported.count r ≤
    (s.executed.filterMap (ownAnswer cfg)).count r
  balance : s.dispatcher.outstanding+s.failed.length+s.reported.length =
    s.dispatched.length+s.notified.toList.length
  results : s.results.Perm (s.failed.map failure++s.reported.map resultOf)
  runs : ∀ e ∈ s.executed, ∀ r, e.run = some r → r = runOf e.payload

/-- What other processes send is neither a call in this dispatcher's name nor a
report to it. -/
def Honest (_ : System) : Act → Prop
  | .outside p bytes => callOf cfg (p,bytes) = none ∧ reportOf cfg (p,bytes) = none
  | _ => True

instance (s : System) : DecidablePred (Honest cfg s)
  | .outside _ _ => inferInstanceAs (Decidable (_ = none ∧ _ = none))
  | .listen _ | .close _ | .enter _ | .send _ _ _ | .leave _ | .handle _ _ _ | .answer _ _
  | .recv _ | .settle => .isTrue trivial

section Steps

variable {cfg} {s s' : System}

theorem count_erase_map {α β : Type} [DecidableEq α] [DecidableEq β] (f : α → β) {l : List α}
    {a : α} (h : a ∈ l) (b : β) :
    ((l.erase a).map f).count b+[f a].count b = (l.map f).count b := by
  have hp := ((List.perm_cons_erase h).map f).count_eq b
  have happ : f a::(l.erase a).map f = [f a]++(l.erase a).map f := rfl
  rw [hp, List.map_cons, happ, List.count_append, Nat.add_comm]

theorem count_post_map {α β : Type} [DecidableEq β] (f : α → β) (l : List α) (a : α) (b : β) :
    ((l++[a]).map f).count b = (l.map f).count b+[f a].count b := by
  rw [List.map_append, List.count_append]
  rfl

theorem sound_close (h : Sound cfg s) (p : Path) : Sound cfg (s.close p) := by
  refine { h with calls := fun t => ?_, reports := fun r => ?_ }
  · have hle := count_discard (callOf cfg) t (l := s.wire) p
    have hc := h.calls t
    dsimp only [System.close]
    omega
  · have hle := count_discard (reportOf cfg) r (l := s.wire) p
    have hjobs := count_filter (ownJob cfg) r (l := s.jobs) fun j => decide (j.node ≠ p)
    have hc := h.reports r
    dsimp only [System.close]
    omega

theorem sound_enter (h : Sound cfg s) (call : Call) : Sound cfg (s.enter call) := by
  refine { h with calls := fun t => ?_, balance := ?_ }
  · have hc := h.calls t
    dsimp only [System.enter]
    rw [count_post_map, count_post_map]
    omega
  · have hb := h.balance
    dsimp only [System.enter, RemoteDispatcher.dispatchEnter]
    rw [List.length_append, List.length_singleton]
    omega

theorem sound_post (h : Sound cfg s) {p : Path} {bytes : List UInt8}
    (hcall : callOf cfg (p,bytes) = none) (hreport : reportOf cfg (p,bytes) = none) :
    Sound cfg { s with wire := s.wire++[(p,bytes)] } := by
  refine { h with calls := fun t => ?_, reports := fun r => ?_ }
  · have hc := h.calls t
    dsimp only
    rw [count_post, shown_none _ _ hcall]
    exact hc
  · have hc := h.reports r
    dsimp only
    rw [count_post, shown_none _ _ hreport]
    exact hc

theorem sound_sent (h : Sound cfg s) {call : Call} {p : Path} {bytes : List UInt8}
    (hmem : call ∈ s.sending) (hcall : callOf cfg (p,bytes) = some (cfg.task call))
    (hreport : reportOf cfg (p,bytes) = none) :
    Sound cfg { s with sending := s.sending.erase call, wire := s.wire++[(p,bytes)] } := by
  refine { h with calls := fun t => ?_, reports := fun r => ?_ }
  · have hc := h.calls t
    have he := count_erase_map cfg.task hmem t
    dsimp only
    rw [count_post, shown_some _ _ hcall]
    omega
  · have hc := h.reports r
    dsimp only
    rw [count_post, shown_none _ _ hreport]
    exact hc

/-- A `send` that fails leaves nothing behind that a daemon would run. -/
theorem sound_failing (h : Sound cfg s) {call : Call} (hmem : call ∈ s.sending) :
    Sound cfg { s with sending := s.sending.erase call, failing := s.failing++[call] } := by
  refine { h with calls := fun t => ?_ }
  have hc := h.calls t
  have he := count_erase_map cfg.task hmem t
  dsimp only
  rw [count_post_map]
  omega

theorem sound_send (h : Sound cfg s) {call : Call} {reached : Bool} {writes : List Io}
    (hs : s.send cfg call reached writes = some s') : Sound cfg s' := by
  unfold System.send at hs
  split at hs
  · rename_i hmem
    rw [(serialize_payload call).1] at hs
    simp only [Option.bind_eq_bind, Option.bind_some] at hs
    split at hs
    · obtain ⟨hcall,hreport⟩ := call_written cfg
        (address cfg.base call.target (cfg.level-1)) call writes
      split at hs
      · rename_i hok
        cases hs
        rw [if_pos hok] at hcall
        exact sound_sent h hmem hcall hreport
      · rename_i hok
        cases hs
        rw [if_neg hok] at hcall
        exact sound_failing (sound_post h hcall hreport) hmem
    · cases hs
      exact sound_failing h hmem
  · cases hs

theorem sound_leave (h : Sound cfg s) {call : Call} (hs : s.leave call = some s') :
    Sound cfg s' := by
  unfold System.leave at hs
  split at hs
  · rename_i hmem
    cases hs
    constructor
    case calls =>
      intro t
      have hc := h.calls t
      have he := count_erase_map cfg.task hmem t
      dsimp only
      rw [count_post_map]
      omega
    case reports => exact h.reports
    case balance =>
      have hb := h.balance
      dsimp only
      rw [List.length_append, List.length_singleton]
      push_cast
      omega
    case results =>
      change (s.results++[failure call]).Perm ((s.failed++[call]).map failure++_)
      rw [List.map_append, List.append_assoc]
      refine (h.results.append_right _).trans ?_
      rw [List.append_assoc]
      exact List.perm_append_comm.append_left _
    case runs => exact h.runs
  · cases hs

/-- A connection that is taken and not looked at any more. -/
theorem sound_drop (h : Sound cfg s) {p : Path} {bytes : List UInt8}
    {wire : List (Path × List UInt8)} (hn : next p s.wire = some (bytes,wire)) :
    Sound cfg { s with wire } := by
  refine { h with calls := fun t => ?_, reports := fun r => ?_ }
  · have hc := h.calls t
    have hnext := count_next (callOf cfg) t hn
    dsimp only
    omega
  · have hc := h.reports r
    have hnext := count_next (reportOf cfg) r hn
    dsimp only
    omega

/-- A daemon takes a call: it has run, and the answer is due. -/
theorem sound_run (h : Sound cfg s) {p : Path} {bytes : List UInt8}
    {wire : List (Path × List UInt8)} {job : Job} {e : Execution}
    (hn : next p s.wire = some (bytes,wire)) (hcall : callOf cfg (p,bytes) = ownRun cfg e)
    (hreport : reportOf cfg (p,bytes) = none) (hjob : ownJob cfg job = ownAnswer cfg e)
    (hrun : ∀ r, e.run = some r → r = runOf e.payload) :
    Sound cfg { s with wire, jobs := s.jobs++[job], executed := s.executed++[e] } := by
  constructor
  case calls =>
    intro t
    have hc := h.calls t
    have hnext := count_next (callOf cfg) t hn
    rw [shown, hcall, ← shown] at hnext
    dsimp only
    rw [count_post]
    omega
  case reports =>
    intro r
    have hc := h.reports r
    have hnext := count_next (reportOf cfg) r hn
    have hdue : shown (ownJob cfg) r job = shown (ownAnswer cfg) r e := by
      rw [shown, hjob, shown]
    rw [shown_none _ _ hreport, Nat.zero_add] at hnext
    dsimp only
    rw [count_post, count_post, hnext, hdue]
    omega
  case balance => exact h.balance
  case results => exact h.results
  case runs =>
    intro e' he r hr
    rcases List.mem_append.mp he with hold | hnew
    · exact h.runs e' hold r hr
    · rw [List.mem_singleton.mp hnew] at hr ⊢
      exact hrun r hr

theorem sound_call (h : Sound cfg s) {p : Path} {bytes payload : List UInt8} {hdr : LinquHeader}
    {wire : List (Path × List UInt8)} {loaded : List UInt8 → Bool}
    (hn : next p s.wire = some (bytes,wire)) (hmsg : message bytes = some (hdr,payload))
    (htype : hdr.msgType = .callTask)
    (hs : { s with wire }.call cfg p loaded hdr payload = some s') : Sound cfg s' := by
  obtain ⟨task,htask,hs⟩ := Option.bind_eq_some_iff.mp hs
  obtain ⟨out,hout,hs⟩ := Option.bind_eq_some_iff.mp hs
  rw [handleCallTask, htask] at hout
  cases hout
  cases hs
  refine sound_run h hn ?_ ?_ ?_ ?_
  · rw [callOf, hmsg, Option.bind_some]
    by_cases hown : address cfg.base hdr.getSender hdr.senderLevel = cfg.home
    · rw [if_pos ⟨htype,hown⟩, htask, ownRun, if_pos hown]
      rfl
    · rw [if_neg (fun hc => hown hc.2), ownRun, if_neg hown]
  · rw [reportOf, hmsg, Option.bind_some, htype, if_neg]
    exact fun hc => absurd hc.2 (by decide)
  · rw [ownJob, ownAnswer, ownRun]
    dsimp only
    split
    · rfl
    · rfl
  · intro r hr
    dsimp only at hr
    split at hr
    · exact (Option.some.inj hr).symm
    · cases hr

theorem sound_handle (h : Sound cfg s) {p : Path} {reads : List Io} {loaded : List UInt8 → Bool}
    (hs : s.handle cfg p reads loaded = some s') : Sound cfg s' := by
  unfold System.handle at hs
  split at hs
  · obtain ⟨⟨bytes,wire⟩,hn,hs⟩ := Option.bind_eq_some_iff.mp hs
    dsimp only at hs
    split at hs
    · cases hs
      exact sound_drop h hn
    · rename_i hdr payload hrecv
      split at hs
      · rename_i htype
        exact sound_call h hn (message_of_receive hrecv) htype hs
      · split at hs
        · cases hs
          exact { sound_drop h hn with }
        · cases hs
          exact sound_drop h hn
  · cases hs

theorem sound_answer (h : Sound cfg s) {job : Job} {pieces : Option (ℕ × ℕ)}
    (hs : s.answer cfg job pieces = some s') : Sound cfg s' := by
  unfold System.answer at hs
  split at hs
  · rename_i hmem
    obtain ⟨buf,hbuf,hs⟩ := Option.bind_eq_some_iff.mp hs
    have htake := fun r => count_take (ownJob cfg) r hmem
    have hlost : Sound cfg { s with jobs := s.jobs.erase job } := by
      refine { h with reports := fun r => ?_ }
      have hc := h.reports r
      have ht := htake r
      dsimp only
      omega
    cases pieces with
    | none =>
      cases hs
      exact hlost
    | some ab =>
      obtain ⟨a,b⟩ := ab
      dsimp only at hs
      split at hs
      · cases hs
        obtain ⟨hcall,hreport⟩ := answer_written cfg
          (address cfg.base job.sender job.senderLevel) (cfg.nodeLevel job.node)
          (cfg.nodeCoord job.node) a b hbuf
        generalize (LinquHeader.make taskComplete (cfg.nodeLevel job.node) (cfg.nodeCoord job.node)
          job.sender (.ofNat buf.length)).serialize.take a++buf.take b = bytes at hcall hreport
        refine { h with calls := fun t => ?_, reports := fun r => ?_ }
        · have hc := h.calls t
          dsimp only
          rw [count_post, shown_none _ _ hcall]
          exact hc
        · have hc := h.reports r
          have ht := htake r
          have hle : shown (reportOf cfg) r (address cfg.base job.sender job.senderLevel,bytes) ≤
              shown (ownJob cfg) r job := by
            cases hrep : reportOf cfg (address cfg.base job.sender job.senderLevel,bytes) with
            | none =>
              rw [shown_none _ _ hrep]
              exact Nat.zero_le _
            | some r' =>
              obtain ⟨hhome,rfl⟩ := hreport r' hrep
              have hown : ownJob cfg job = some job.complete := by rw [ownJob, if_pos hhome]
              rw [shown_some _ _ hrep, shown_some _ _ hown]
          dsimp only
          rw [count_post]
          omega
      · cases hs
        exact hlost
  · cases hs

theorem sound_recv (h : Sound cfg s) {reads : List Io} (hs : s.recv cfg reads = some s') :
    Sound cfg s' := by
  unfold System.recv at hs
  split at hs
  · rename_i hc
    obtain ⟨⟨bytes,wire⟩,hn,hs⟩ := Option.bind_eq_some_iff.mp hs
    dsimp only at hs
    split at hs
    · cases hs
      exact sound_drop h hn
    · rename_i hdr payload hrecv
      have hmsg := message_of_receive hrecv
      split at hs
      · rename_i htype
        cases hs
        have hreport : reportOf cfg (cfg.home,bytes) =
            some (TaskCompletePayload.deserialize payload) := by
          rw [reportOf, hmsg, Option.bind_some, if_pos ⟨rfl,htype⟩]
        constructor
        case calls =>
          intro t
          have hc := h.calls t
          have hnext := count_next (callOf cfg) t hn
          dsimp only
          omega
        case reports =>
          intro r
          have hc := h.reports r
          have hnext := count_next (reportOf cfg) r hn
          rw [shown_some _ _ hreport] at hnext
          dsimp only
          rw [List.count_append]
          omega
        case balance =>
          have hb := h.balance
          rw [hc.1] at hb
          have hone : (some payload).toList.length = 1 := rfl
          have hnone : (none : Option (List UInt8)).toList.length = 0 := rfl
          dsimp only
          rw [List.length_append, List.length_singleton]
          push_cast
          omega
        case results =>
          change (s.results++[resultOf (TaskCompletePayload.deserialize payload)]).Perm
            (s.failed.map failure++(s.reported++[TaskCompletePayload.deserialize payload]).map _)
          rw [List.map_append, ← List.append_assoc]
          exact h.results.append_right _
        case runs => exact h.runs
      · cases hs
        exact sound_drop h hn
  · cases hs

theorem sound_settle (h : Sound cfg s) (hs : s.settle = some s') : Sound cfg s' := by
  obtain ⟨payload,hpay,rfl⟩ := Option.map_eq_some_iff.mp hs
  refine { h with balance := ?_ }
  have hb := h.balance
  rw [hpay] at hb
  dsimp only [RemoteDispatcher.recvTaskComplete]
  have hone : (some payload).toList.length = 1 := rfl
  have hnone : (none : Option (List UInt8)).toList.length = 0 := rfl
  omega

theorem sound_step (h : Sound cfg s) {a : Act} (hc : Honest cfg s a) (hs : Steps cfg s a s') :
    Sound cfg s' := by
  cases a with
  | listen p =>
    rw [Steps, step, System.listen] at hs
    split at hs
    · cases hs
    · cases hs
      exact { h with }
  | close p =>
    cases hs
    exact sound_close h p
  | outside p bytes =>
    rw [Steps, step] at hs
    split at hs
    · cases hs
      exact sound_post h hc.1 hc.2
    · cases hs
  | enter call =>
    cases hs
    exact sound_enter h call
  | send call reached writes => exact sound_send h hs
  | leave call => exact sound_leave h hs
  | handle p reads loaded => exact sound_handle h hs
  | answer job pieces => exact sound_answer h hs
  | recv reads => exact sound_recv h hs
  | settle => exact sound_settle h hs

theorem sound_runs {acts : List Act} (hrun : Run (Steps cfg) acts {} s)
    (hhonest : Guarded (Steps cfg) (Honest cfg) acts {}) : Sound cfg s := by
  refine run_invariant (P := Sound cfg) (fun _ _ _ hu hc ht => sound_step hu hc ht) ?_
    hhonest hrun
  exact ⟨fun _ => le_rfl,fun _ => le_rfl,rfl,List.Perm.refl _,fun _ he => by cases he⟩

end Steps

section Results

variable {cfg} {s : System}

theorem Sound.placed (h : Sound cfg s) :
    (s.sending.map cfg.task++s.wire.filterMap (callOf cfg)++s.failing.map cfg.task++
      s.failed.map cfg.task++s.executed.filterMap (ownRun cfg)).Subperm
        (s.dispatched.map cfg.task) := by
  refine List.subperm_ext_iff.mpr fun t _ => ?_
  rw [List.count_append, List.count_append, List.count_append, List.count_append]
  exact h.calls t

theorem Sound.told (h : Sound cfg s) :
    s.reported.Subperm ((s.executed.filterMap (ownRun cfg)).map Task.answer) := by
  refine List.subperm_ext_iff.mpr fun r _ => ?_
  have hc := h.reports r
  rw [List.map_filterMap]
  change _ ≤ (s.executed.filterMap (ownAnswer cfg)).count r
  omega

theorem Sound.ran (h : Sound cfg s) :
    (s.failed.map cfg.task++s.executed.filterMap (ownRun cfg)).Subperm
      (s.dispatched.map cfg.task) := by
  refine List.Subperm.trans ?_ h.placed
  rw [List.append_assoc]
  exact (List.sublist_append_right _ _).subperm

/-- What is passed on for a call that has run. -/
def completion (t : Task) : DispatchResult :=
  { taskId := t.payload.taskId.toInt32.toInt, status := .completed }

theorem resultOf_answer (t : Task) : resultOf t.answer = completion t := rfl

theorem taskId_completion (call : Call) :
    (completion (cfg.task call)).taskId = call.taskId.toInt := by
  change call.taskId.toUInt32.toInt32.toInt = call.taskId.toInt
  simp

/-- Each result that was passed on is the outcome of a call. -/
theorem Sound.outcomes (h : Sound cfg s) : s.results.Subperm
    (s.failed.map failure++(s.executed.filterMap (ownRun cfg)).map completion) := by
  have hmap := subperm_map resultOf h.told
  rw [List.map_map] at hmap
  exact h.results.subperm.trans ((List.subperm_append_left _).mpr hmap)

/-- A dispatcher of level 6 and the nodes of level 5. -/
def pair : Setup :=
  { base := "/".toList, self := {}, level := 6, nodeLevel := fun _ => 5, nodeCoord := fun _ => {} }

def near : Call := ⟨1,{},[97],[],by decide⟩

/-- There is no node with this index. -/
def far : Call := ⟨2,{ l5Idx := 1 },[97],[],by decide⟩

def nearNode : Path := address pair.base near.target 5

/-- The call and the answer of the near node are written in pieces, another
process sends half a message, and the far node is not reached. -/
def delivered : List Act :=
  [.listen pair.home,.listen nearNode,.enter near,.outside nearNode [0,1],
    .send near true [.moved 9,.interrupted,.moved 100,.moved 100],
    .handle nearNode [.moved 100] fun _ => true,
    .handle nearNode (List.replicate 2 (.moved 100)) fun _ => true,
    .enter far,.answer ⟨nearNode,{},6,⟨1,0⟩⟩ (some (24,8)),.send far true [],.leave far,
    .recv (List.replicate 4 (.moved 20)),.settle]

theorem delivered_run : ∃ s, Run (Steps pair) delivered {} s ∧
    Guarded (Steps pair) (Honest pair) delivered {} ∧ s.dispatcher.waitAllReady = true ∧
      s.failed = [far] ∧ s.executed.filterMap (ownRun pair) = [pair.task near] := by
  obtain ⟨s₀,s,h₀,hrun,hhonest,hend⟩ := exists_run (f := step pair) (o := some {})
    (l := delivered) (g := fun s a => decide (Honest pair s a))
    (c := fun s => s.dispatcher.waitAllReady = true ∧ s.failed = [far] ∧
      s.executed.filterMap (ownRun pair) = [pair.task near])
    (by decide +kernel)
  cases h₀
  exact ⟨s,hrun,guarded_mono (fun _ _ => of_decide_eq_true) hhonest,of_decide_eq_true hend⟩

/-- Whatever the threads, the daemons and the network do, as long as no other
process acts in the dispatcher's name: every run of one of its calls is of a call
that was dispatched, at the node that it names; a call runs no more often than it
was dispatched, and one whose `send` failed does not run; a result that was
passed on is the outcome of one of these, and each has one result at most; and a
kernel is given the name and the arguments of its call. -/
theorem executed_once {acts : List Act} (hrun : Run (Steps cfg) acts {} s)
    (hhonest : Guarded (Steps cfg) (Honest cfg) acts {}) :
    (s.failed.map cfg.task++s.executed.filterMap (ownRun cfg)).Subperm
        (s.dispatched.map cfg.task) ∧
      s.results.Subperm
        (s.failed.map failure++(s.executed.filterMap (ownRun cfg)).map completion) ∧
      ∀ e ∈ s.executed, ∀ r, e.run = some r → r = runOf e.payload := by
  have h := sound_runs hrun hhonest
  exact ⟨h.ran,h.outcomes,h.runs⟩

theorem executed_once_delivered : ∃ s, Run (Steps pair) delivered {} s ∧ s.results.Subperm
    (s.failed.map failure++(s.executed.filterMap (ownRun pair)).map completion) := by
  obtain ⟨s,hrun,hhonest,-⟩ := delivered_run
  exact ⟨s,hrun,(executed_once hrun hhonest).2.1⟩

/-- When nothing is outstanding nothing is under way. -/
theorem Sound.settled (h : Sound cfg s) (hready : s.dispatcher.waitAllReady = true) :
    (s.failed.map cfg.task++s.executed.filterMap (ownRun cfg)).Perm (s.dispatched.map cfg.task) ∧
      s.reported.Perm ((s.executed.filterMap (ownRun cfg)).map Task.answer) := by
  have hout : s.dispatcher.outstanding ≤ 0 := of_decide_eq_true hready
  have hplaced := h.placed.length_le
  have htold := h.told.length_le
  have hb := h.balance
  simp only [List.length_append, List.length_map] at hplaced htold
  constructor
  · apply h.ran.perm_of_length_le
    rw [List.length_append, List.length_map, List.length_map]
    omega
  · apply h.told.perm_of_length_le
    rw [List.length_map]
    omega

/-- When `wait_all` lets go, every call has run or failed, and exactly these
outcomes have been passed on: one for each call, under its own number. -/
theorem wait_all_complete {acts : List Act} (hrun : Run (Steps cfg) acts {} s)
    (hhonest : Guarded (Steps cfg) (Honest cfg) acts {})
    (hready : s.dispatcher.waitAllReady = true) :
    (s.failed.map cfg.task++s.executed.filterMap (ownRun cfg)).Perm (s.dispatched.map cfg.task) ∧
      s.results.Perm
        (s.failed.map failure++(s.executed.filterMap (ownRun cfg)).map completion) ∧
      (s.results.map (·.taskId)).Perm (s.dispatched.map fun call => call.taskId.toInt) := by
  have h := sound_runs hrun hhonest
  obtain ⟨hall,htold⟩ := h.settled hready
  have hresults : s.results.Perm
      (s.failed.map failure++(s.executed.filterMap (ownRun cfg)).map completion) := by
    have hmap := htold.map resultOf
    rw [List.map_map] at hmap
    exact h.results.trans (hmap.append_left _)
  refine ⟨hall,hresults,?_⟩
  have hids := hall.map fun t => (completion t).taskId
  rw [List.map_append, List.map_map, List.map_map] at hids
  have hnumber : (fun t => (completion t).taskId) ∘ cfg.task = fun call : Call =>
      call.taskId.toInt := funext taskId_completion
  rw [hnumber] at hids
  have hnumbers := hresults.map (·.taskId)
  rw [List.map_append, List.map_map, List.map_map] at hnumbers
  exact hnumbers.trans hids

theorem wait_all_complete_delivered : ∃ s, Run (Steps pair) delivered {} s ∧
    s.results.Perm [failure far,completion (pair.task near)] := by
  obtain ⟨s,hrun,hhonest,hready,hfailed,hran⟩ := delivered_run
  have hresults := (wait_all_complete hrun hhonest hready).2.1
  rw [hfailed, hran] at hresults
  exact ⟨s,hrun,hresults⟩

end Results

end Linqu.RemoteExecution
