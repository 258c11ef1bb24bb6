import Linqu.CodeStore
import Linqu.Heartbeats
import Linqu.Transport

/-!
# The daemon's loop

A daemon takes one message after another until it is told to shut down. What it
keeps (code, data, peers) is what the messages said last, and it answers every
call: the caches, the file system and the loader behind it stay out of sight.
-/

set_option autoImplicit false

namespace Linqu.DaemonLoop
open Linqu.MsgTypes Linqu.Header Linqu.RoundTrip Linqu.OrchestrationApi Linqu.PeerRegistry
open Linqu.NodeDaemon Linqu.Heartbeats Linqu.KernelLoading Linqu.CodeStore Linqu.Transport

def regCode : MsgType := 1
def regData : MsgType := 2
def scopeExit : MsgType := 4
def retryWithCode : MsgType := 5

/-- `taskProfiles` counts the profiles. -/
structure Daemon (Handle Entry Config File : Type) where
  running : Bool := true
  registry : PeerRegistry := {}
  codeCache : CodeCache Handle Entry Config File
  dataCache : UInt64 → Option (List UInt8) := fun _ => none
  messagesHandled : ℕ := 0
  taskProfiles : ℕ := 0

/-- What a call leads to: the entry function that is run, if any, and the answer
with the node that it goes to. -/
structure Answer (Entry : Type) where
  run : Option (Entry × KernelRun)
  complete : TaskCompletePayload
  target : LinquCoordinate
  level : UInt8
  deriving DecidableEq, Repr

section Code

variable {Handle Entry Config File : Type} [DecidableEq File]
  (sys : System Handle Entry Config File) (level : UInt8)

namespace Daemon

def call (d : Daemon Handle Entry Config File) (hdr : LinquHeader) (payload : List UInt8) :
    Option (Daemon Handle Entry Config File × Answer Entry) := do
  let task ← CallTaskPayload.deserialize payload
  let (kernel,codeCache) := load sys d.codeCache (nameOf task.kernelSoName)
  let out ← handleCallTask (fun _ => kernel.entryFn.isSome) payload
  let run := kernel.entryFn.bind fun entry => out.run.map (entry,·)
  return ({ d with codeCache, taskProfiles := d.taskProfiles+run.toList.length },
    { run, complete := out.complete, target := hdr.getSender, level := hdr.senderLevel })

def handleRegCode (d : Daemon Handle Entry Config File) (payload : List UInt8) :
    Option (Daemon Handle Entry Config File) := do
  let reg ← RegCodePayload.deserialize payload
  if reg.codeBinary ≠ [] then
    let name := nameOf (blobName reg.blobHash)
    return { d with codeCache := registerCode sys d.codeCache name reg.codeBinary }
  else return d

def handleRegData (d : Daemon Handle Entry Config File) (payload : List UInt8) :
    Option (Daemon Handle Entry Config File) := do
  let reg ← RegDataPayload.deserialize payload
  if reg.bufferBytes ≠ [] then
    return { d with dataCache := Function.update d.dataCache reg.dataHandle (some reg.bufferBytes) }
  else return d

/-- `handle_one_message` for a message that was received. -/
def handleOneMessage (d : Daemon Handle Entry Config File) (hdr : LinquHeader)
    (payload : List UInt8) : Option (Daemon Handle Entry Config File × Option (Answer Entry)) :=
  if hdr.magic ≠ linquMagic then some (d,none)
  else
    let d := { d with messagesHandled := d.messagesHandled+1 }
    if hdr.msgType = .callTask then (d.call sys hdr payload).map fun r => (r.1,some r.2)
    else if hdr.msgType = shutdown then some ({ d with running := false },none)
    else if hdr.msgType = .heartbeat then
      (handleHeartbeat level d.registry hdr payload).map fun registry => ({ d with registry },none)
    else if hdr.msgType = regCode then (d.handleRegCode sys payload).map (·,none)
    else if hdr.msgType = regData then (d.handleRegData payload).map (·,none)
    else if hdr.msgType = scopeExit then
      (ScopeExitPayload.deserialize payload).map fun _ => (d,none)
    else some (d,none)

/-- The loop of `main`, and of `run_event_loop` without a bound, with the answers. -/
def loop (d : Daemon Handle Entry Config File) :
    List (LinquHeader × List UInt8) → Option (Daemon Handle Entry Config File × List (Answer Entry))
  | [] => some (d,[])
  | m::ms =>
    if d.running then do
      let (d,answer) ← d.handleOneMessage sys level m.1 m.2
      let (d,answers) ← d.loop ms
      return (d,answer.toList++answers)
    else some (d,[])

end Daemon

/-! What a daemon is for, with no files and no loaded kernels. -/

/-- A message before it is encoded. -/
abbrev Letter := LinquHeader × Payload

structure Node where
  up : Bool := true
  code : List UInt8 → Option Binary := fun _ => none
  data : UInt64 → Option (List UInt8) := fun _ => none
  beats : List Beat := []
  heard : ℕ := 0

/-- Code and data without a byte are left out. -/
def Node.tell (n : Node) (l : Letter) : Node :=
  let n := { n with heard := n.heard+1 }
  match l.2 with
  | .regCode p =>
    if p.codeBinary = [] then n
    else { n with code := Function.update n.code (blobName p.blobHash) (some p.codeBinary) }
  | .regData p =>
    if p.bufferBytes = [] then n
    else { n with data := Function.update n.data p.dataHandle (some p.bufferBytes) }
  | .heartbeat p => { n with beats := n.beats++[(l.1,p)] }
  | .shutdown _ => { n with up := false }
  | _ => n

/-- The entry function of the binary of that name. -/
def Node.entry (n : Node) (name : List UInt8) : Option Entry :=
  (n.code name).bind fun b => (kernelOf sys (path sys (nameOf name)) b).entryFn

/-- A call is answered whether there is a kernel or not. -/
def Node.answer (n : Node) (l : Letter) : Option (Answer Entry) :=
  match l.2 with
  | .callTask p => some
    { run := (n.entry sys p.kernelSoName).map fun entry =>
        (entry,{ kernelSo := p.kernelSoName, tensors := p.params.countP isTensor
                 args := p.params.map argOf })
      complete := { taskId := p.taskId, status := 0 }
      target := l.1.getSender
      level := l.1.senderLevel }
  | _ => none

def Node.listen (n : Node) : List Letter → Node × List (Answer Entry)
  | [] => (n,[])
  | l::ls =>
    if n.up then
      let r := (n.tell l).listen ls
      (r.1,(n.answer sys l).toList++r.2)
    else (n,[])

end Code

/-- The type that a payload is sent under. -/
def msgType : Payload → Option MsgType
  | .callTask _ => some .callTask
  | .taskComplete _ => some taskComplete
  | .shutdown _ => some shutdown
  | .regCode _ => some regCode
  | .regData _ => some regData
  | .scopeExit _ => some scopeExit
  | .retryWithCode _ => some retryWithCode
  | .heartbeat _ => some .heartbeat
  | .tensorLookup _ => none
  | .tensorData _ => none

/-- The header is that of the payload, which has an encoding. -/
structure Proper (l : Letter) : Prop where
  magic : l.1.magic = linquMagic
  type : msgType l.2 = some l.1.msgType
  encodable : Encodable l.2
  fits : Fits l.2

section Refinement

variable {Handle Entry Config File : Type} [DecidableEq File]
  {sys : System Handle Entry Config File} {level : UInt8}
  {d : Daemon Handle Entry Config File} {n : Node}

/-- The daemon holds what the node does. -/
structure Reflects (sys : System Handle Entry Config File) (level : UInt8)
    (d : Daemon Handle Entry Config File) (n : Node) : Prop where
  code : ∃ h, Tracks sys d.codeCache h ∧ Stored sys h n.code
  data : d.dataCache = n.data
  peers : Holds level n.beats d.registry
  running : d.running = n.up
  handled : d.messagesHandled = n.heard

/-- Nothing else is stored under the hash of a binary. -/
def Addressed (n : Node) (l : Letter) : Prop :=
  ∀ p, l.2 = .regCode p → p.codeBinary ≠ [] → ∀ b, n.code (blobName p.blobHash) = some b →
    b = p.codeBinary

omit [DecidableEq File] in
theorem call_eq {hdr : LinquHeader} {p : CallTaskPayload} {b : List UInt8}
    (hp : CallTaskPayload.deserialize b = some p) :
    let r := load sys d.codeCache (nameOf p.kernelSoName)
    d.call sys hdr b = some
      ({ d with codeCache := r.2, taskProfiles := d.taskProfiles+r.1.entryFn.toList.length },
        { run := r.1.entryFn.map fun entry =>
            (entry,{ kernelSo := p.kernelSoName, tensors := p.params.countP isTensor
                     args := p.params.map argOf })
          complete := { taskId := p.taskId, status := 0 }
          target := hdr.getSender
          level := hdr.senderLevel }) := by
  intro r
  have hr : load sys d.codeCache (nameOf p.kernelSoName) = r := rfl
  rw [Daemon.call, hp]
  simp only [Option.bind_eq_bind, Option.bind_some, handleCallTask, hp, hr, Option.pure_def]
  cases r.1.entryFn with
  | none => rfl
  | some entry => rfl

/-- A call is answered as the node does, with one profile for a kernel that ran. -/
theorem Reflects.call (hr : Reflects sys level d n) (hdr : LinquHeader) {p : CallTaskPayload}
    {b : List UInt8} (hp : CallTaskPayload.deserialize b = some p) :
    ∃ d' a, d.call sys hdr b = some (d',a) ∧ n.answer sys (hdr,.callTask p) = some a ∧
      Reflects sys level d' n ∧ d'.taskProfiles = d.taskProfiles+a.run.toList.length := by
  obtain ⟨h,ht,hs⟩ := hr.code
  have hentry : _ = n.entry sys p.kernelSoName := hs.entry ht p.kernelSoName
  have hload : Tracks sys (load sys d.codeCache (nameOf p.kernelSoName)).2
      (next sys h (.load (nameOf p.kernelSoName))) := ht.load _
  refine ⟨_,_,call_eq hp,?_,{ hr with code := ⟨_,hload,hs.load _⟩ },?_⟩
  · rw [Node.answer, hentry]
  · dsimp only
    rw [Option.toList_map, List.length_map]

theorem Proper.read {l : Letter} (hl : Proper l) {b : List UInt8} (hb : l.2.serialize = some b) :
    Payload.deserialize l.2.type b = some l.2 := by
  obtain ⟨b',hb',hd⟩ := (payload_trips hl.encodable).mpr hl.fits
  rw [hb] at hb'
  cases hb'
  exact hd

theorem Reflects.registerCode (hr : Reflects sys level d n)
    (hfiles : ∀ x y, sys.resolve (blobPath sys x) = sys.resolve (blobPath sys y) →
      blobPath sys x = blobPath sys y) {p : RegCodePayload} {b : List UInt8}
    (hp : RegCodePayload.deserialize b = some p)
    (hone : p.codeBinary ≠ [] → ∀ b, n.code (blobName p.blobHash) = some b → b = p.codeBinary) :
    ∃ d', d.handleRegCode sys b = some d' ∧ d'.taskProfiles = d.taskProfiles ∧
      Reflects sys level d' (if p.codeBinary = [] then n else
        { n with code := Function.update n.code (blobName p.blobHash) (some p.codeBinary) }) := by
  rw [Daemon.handleRegCode, hp]
  by_cases hempty : p.codeBinary = []
  · exact ⟨d,by simp [hempty],rfl,by rwa [if_pos hempty]⟩
  · obtain ⟨h,ht,hs⟩ := hr.code
    let codeCache := KernelLoading.registerCode sys d.codeCache (nameOf (blobName p.blobHash))
      p.codeBinary
    refine ⟨{ d with codeCache },by simp [hempty, codeCache],rfl,?_⟩
    rw [if_neg hempty]
    exact { hr with code := ⟨_,ht.registerCode _ _,hs.register hfiles (hone hempty)⟩ }

omit [DecidableEq File] in
theorem Reflects.registerData (hr : Reflects sys level d n) {p : RegDataPayload} {b : List UInt8}
    (hp : RegDataPayload.deserialize b = some p) :
    ∃ d', d.handleRegData b = some d' ∧ d'.taskProfiles = d.taskProfiles ∧
      Reflects sys level d' (if p.bufferBytes = [] then n else
        { n with data := Function.update n.data p.dataHandle (some p.bufferBytes) }) := by
  rw [Daemon.handleRegData, hp]
  by_cases hempty : p.bufferBytes = []
  · exact ⟨d,by simp [hempty],rfl,by rwa [if_pos hempty]⟩
  · refine ⟨{ d with dataCache := Function.update d.dataCache p.dataHandle (some p.bufferBytes) },
      by simp [hempty],rfl,?_⟩
    rw [if_neg hempty]
    exact { hr with data := by rw [hr.data] }

/-- A daemon that hears a message goes on as the node does. -/
theorem Reflects.message (hr : Reflects sys level d n)
    (hfiles : ∀ x y, sys.resolve (blobPath sys x) = sys.resolve (blobPath sys y) →
      blobPath sys x = blobPath sys y) {l : Letter} (hl : Proper l) (hone : Addressed n l)
    {b : List UInt8} (hb : l.2.serialize = some b) :
    ∃ d' a, d.handleOneMessage sys level l.1 b = some (d',a) ∧ n.answer sys l = a ∧
      Reflects sys level d' (n.tell l) ∧
      d'.taskProfiles = d.taskProfiles+(a.toList.filter fun a => a.run.isSome).length := by
  have hread := hl.read hb
  have htype := hl.type
  have hcount : Reflects sys level { d with messagesHandled := d.messagesHandled+1 }
      { n with heard := n.heard+1 } := { hr with handled := congrArg (·+1) hr.handled }
  obtain ⟨hdr,p⟩ := l
  rw [Daemon.handleOneMessage, if_neg (not_not.mpr hl.magic)]
  cases p with
  | callTask p =>
    obtain ⟨_,hp,he⟩ := Option.map_eq_some_iff.mp hread
    cases he
    obtain ⟨d',a,hcall,hanswer,hnext,hprofiles⟩ := hcount.call hdr hp
    rw [if_pos (Option.some.inj htype).symm, hcall]
    refine ⟨d',some a,rfl,hanswer,hnext,?_⟩
    rw [hprofiles]
    cases hrun : a.run <;> simp [hrun]
  | shutdown p =>
    have ht : hdr.msgType = shutdown := (Option.some.inj htype).symm
    rw [ht, if_neg (by decide), if_pos rfl]
    exact ⟨_,_,rfl,rfl,{ hcount with running := rfl },rfl⟩
  | heartbeat p =>
    have ht : hdr.msgType = .heartbeat := (Option.some.inj htype).symm
    rw [ht, if_neg (by decide), if_neg (by decide), if_pos rfl]
    have hhear := hear_eq level d.registry (m := (hdr,p)) hl.fits
    rw [hear, show p.serialize = some b from hb, Option.bind_some] at hhear
    rw [hhear]
    exact ⟨_,_,rfl,rfl,{ hcount with peers := hr.peers.add (hdr,p) },rfl⟩
  | regCode p =>
    obtain ⟨_,hp,he⟩ := Option.map_eq_some_iff.mp hread
    cases he
    have ht : hdr.msgType = regCode := (Option.some.inj htype).symm
    obtain ⟨d',hreg,hprofiles,hnext⟩ := hcount.registerCode hfiles hp (hone p rfl)
    rw [ht, if_neg (by decide), if_neg (by decide), if_neg (by decide), if_pos rfl, hreg]
    exact ⟨d',none,rfl,rfl,hnext,hprofiles⟩
  | regData p =>
    obtain ⟨_,hp,he⟩ := Option.map_eq_some_iff.mp hread
    cases he
    have ht : hdr.msgType = regData := (Option.some.inj htype).symm
    obtain ⟨d',hreg,hprofiles,hnext⟩ := hcount.registerData hp
    rw [ht, if_neg (by decide), if_neg (by decide), if_neg (by decide), if_neg (by decide),
      if_pos rfl, hreg]
    exact ⟨d',none,rfl,rfl,hnext,hprofiles⟩
  | scopeExit p =>
    obtain ⟨_,hp,he⟩ := Option.map_eq_some_iff.mp hread
    cases he
    have ht : hdr.msgType = scopeExit := (Option.some.inj htype).symm
    rw [ht, if_neg (by decide), if_neg (by decide), if_neg (by decide), if_neg (by decide),
      if_neg (by decide), if_pos rfl, hp]
    exact ⟨_,none,rfl,rfl,hcount,rfl⟩
  | taskComplete p =>
    have ht : hdr.msgType = taskComplete := (Option.some.inj htype).symm
    rw [ht, if_neg (by decide), if_neg (by decide), if_neg (by decide), if_neg (by decide),
      if_neg (by decide), if_neg (by decide)]
    exact ⟨_,none,rfl,rfl,hcount,rfl⟩
  | retryWithCode p =>
    have ht : hdr.msgType = retryWithCode := (Option.some.inj htype).symm
    rw [ht, if_neg (by decide), if_neg (by decide), if_neg (by decide), if_neg (by decide),
      if_neg (by decide), if_neg (by decide)]
    exact ⟨_,none,rfl,rfl,hcount,rfl⟩
  | tensorLookup p => cases htype
  | tensorData p => cases htype

/-- Binaries come from the messages. -/
def Told (n : Node) (pre : List Letter) : Prop :=
  ∀ name b, n.code name = some b → ∃ p, .regCode p ∈ pre.map Prod.snd ∧ p.codeBinary ≠ [] ∧
    name = blobName p.blobHash ∧ b = p.codeBinary

theorem Told.tell {pre : List Letter} (ht : Told n pre) (l : Letter) :
    Told (n.tell l) (pre++[l]) := by
  intro name b hb
  have hold : n.code name = some b → ∃ p, .regCode p ∈ (pre++[l]).map Prod.snd ∧
      p.codeBinary ≠ [] ∧ name = blobName p.blobHash ∧ b = p.codeBinary := by
    intro hc
    obtain ⟨p,hp,hrest⟩ := ht name b hc
    exact ⟨p,by rw [List.map_append]; exact List.mem_append_left _ hp,hrest⟩
  obtain ⟨hdr,p⟩ := l
  cases p with
  | regCode p =>
    by_cases hempty : p.codeBinary = []
    · simp only [Node.tell, if_pos hempty] at hb
      exact hold hb
    · simp only [Node.tell, if_neg hempty] at hb
      by_cases hn : name = blobName p.blobHash
      · rw [hn, Function.update_self] at hb
        exact ⟨p,by simp,hempty,hn,(Option.some.inj hb).symm⟩
      · rw [Function.update_of_ne hn] at hb
        exact hold hb
  | regData p =>
    by_cases hempty : p.bufferBytes = []
    · simp only [Node.tell, if_pos hempty] at hb
      exact hold hb
    · simp only [Node.tell, if_neg hempty] at hb
      exact hold hb
  | _ => exact hold hb

/-- All messages that bring code of one hash bring the same. -/
def OneContent (letters : List Letter) : Prop :=
  ∀ p p', .regCode p ∈ letters.map Prod.snd → .regCode p' ∈ letters.map Prod.snd →
    p.codeBinary ≠ [] → p'.codeBinary ≠ [] → p.blobHash = p'.blobHash →
      p.codeBinary = p'.codeBinary

theorem Told.addressed {pre post : List Letter} {l : Letter} (ht : Told n pre)
    (hone : OneContent (pre++l::post)) : Addressed n l := by
  intro p hp hne b hb
  obtain ⟨p',hp',hne',hname,rfl⟩ := ht _ b hb
  refine hone p' p ?_ ?_ hne' hne (blobName_injective hname).symm
  · rw [List.map_append]
    exact List.mem_append_left _ hp'
  · rw [List.map_append, List.map_cons, hp]
    exact List.mem_append_right _ List.mem_cons_self

/-- The message that a letter is sent as. -/
def encode (l : Letter) : LinquHeader × List UInt8 := (l.1,l.2.serialize.getD [])

theorem Reflects.loop (hr : Reflects sys level d n)
    (hfiles : ∀ x y, sys.resolve (blobPath sys x) = sys.resolve (blobPath sys y) →
      blobPath sys x = blobPath sys y) {pre letters : List Letter} (ht : Told n pre)
    (hproper : ∀ l ∈ letters, Proper l) (hone : OneContent (pre++letters)) :
    ∃ d', d.loop sys level (letters.map encode) = some (d',(n.listen sys letters).2) ∧
      Reflects sys level d' (n.listen sys letters).1 ∧ d'.taskProfiles =
        d.taskProfiles+((n.listen sys letters).2.filter fun a => a.run.isSome).length := by
  induction letters generalizing d n pre with
  | nil => exact ⟨d,rfl,hr,rfl⟩
  | cons l ls ih =>
    rw [List.map_cons, Daemon.loop, Node.listen, hr.running]
    by_cases hup : n.up = true
    · have hl := hproper l List.mem_cons_self
      obtain ⟨b,hb,-⟩ := (payload_trips hl.encodable).mpr hl.fits
      obtain ⟨d₁,a,hmsg,hanswer,hnext,hprofiles⟩ :=
        hr.message hfiles hl (ht.addressed hone) hb
      have hcode : encode l = (l.1,b) := by rw [encode, hb, Option.getD_some]
      have hone' : OneContent ((pre++[l])++ls) := by
        rwa [List.append_assoc]
      obtain ⟨d₂,hloop,hlast,hmore⟩ :=
        ih hnext (ht.tell l) (fun l' hl' => hproper l' (List.mem_cons_of_mem _ hl')) hone'
      rw [if_pos hup, if_pos hup, hcode, hmsg, Option.bind_eq_bind, Option.bind_some]
      refine ⟨d₂,?_,hlast,?_⟩
      · dsimp only
        rw [hloop, hanswer]
        rfl
      · rw [hmore, hprofiles, hanswer, List.filter_append, List.length_append, Nat.add_assoc]
    · rw [if_neg hup, if_neg hup]
      exact ⟨d,rfl,hr,rfl⟩

/-- A header with the type of the payload. -/
def sealed (type : MsgType) (p : Payload) : Letter := (.make type 6 {} {} 0,p)

theorem sealed_proper {type : MsgType} {p : Payload} (ht : msgType p = some type)
    (he : Encodable p) (hf : Fits p) : Proper (sealed type p) := ⟨rfl,ht,he,hf⟩

/-- A binary is registered, called and called under another name; the last call
comes after the end. -/
def errands : List Letter :=
  [sealed regCode (.regCode ⟨7,[1,2]⟩),
    sealed .callTask (.callTask { kernelSoName := blobName 7, taskId := 1 }),
    sealed regData (.regData ⟨5,0,[9]⟩),
    sealed .callTask (.callTask { kernelSoName := [97], taskId := 2 }),
    sealed shutdown (.shutdown {}),
    sealed .callTask (.callTask { kernelSoName := blobName 7, taskId := 3 })]

end Refinement

end Linqu.DaemonLoop
