import Linqu.LevelRuntime
import Linqu.Transition

/-!
# What a step can do

One constructor for every way a thread of the level runtime can move, with
what the thread has seen on the way.
-/

set_option autoImplicit false

namespace Linqu.LevelMoves
open Linqu.TaskRing Linqu.TensorMap Linqu.ReadyQueue Linqu.Level Linqu.Transition
open Linqu.Level.LevelRuntime

inductive Move (s : LevelRuntime) : Act → LevelRuntime → Prop
  | call {req : Request}
      (hpc : s.submitter = .idle) : Move s (.call req) (s.setSubmitter (.waiting req 0))
  | alloc {req : Request} {spins : ℕ} {s' : LevelRuntime}
      (hpc : s.submitter = .waiting req spins) (h : s.allocTask req = some s') :
      Move s .submit s'
  | advance {req : Request} {spins : ℕ}
      (hpc : s.submitter = .waiting req spins) : Move s .submit s.tryAdvanceRingPointers
  | spin {req : Request} {spins : ℕ}
      (hpc : s.submitter = .waiting req spins) :
      Move s .submit (s.tryAdvanceRingPointers.setSubmitter (.waiting req (spins+1)))
  | link {tid producer : ℤ} {fanin : ℕ} {outputs rest : List LinquTensor} {input : LinquTensor}
      {producers : List ℤ} {s' : LevelRuntime}
      (hpc : s.submitter = .scanning tid outputs (input::rest) fanin producers)
      (hlook : s.tensorMap.lookup input.handle = some (some producer))
      (h : s.linkFanin tid producer = some s') :
      Move s .submit
        (s'.setSubmitter (.scanning tid outputs rest (fanin+1) (producers++[producer])))
  | push {tid : ℤ} {fanin : ℕ} {outputs rest : List LinquTensor} {input : LinquTensor}
      {producers : List ℤ}
      (hpc : s.submitter = .scanning tid outputs (input::rest) fanin producers)
      (hvalid : input.isValid = true) (hlook : s.tensorMap.lookup input.handle = some none)
      (hready : s.tensorReady input.handle = false) :
      Move s .submit ((s.pushExternal tid input.handle).setSubmitter
        (.scanning tid outputs rest (fanin+1) producers))
  | skip {tid : ℤ} {fanin : ℕ} {outputs rest : List LinquTensor} {input : LinquTensor}
      {producers : List ℤ}
      (hpc : s.submitter = .scanning tid outputs (input::rest) fanin producers) :
      Move s .submit (s.setSubmitter (.scanning tid outputs rest fanin producers))
  | buffers {tid : ℤ} {fanin : ℕ} {outputs : List LinquTensor} {producers : List ℤ}
      {s' : LevelRuntime}
      (hpc : s.submitter = .scanning tid outputs [] fanin producers)
      (h : s.allocBuffers outputs = some s') :
      Move s .submit (s'.setSubmitter (.registering tid outputs fanin producers))
  | register {tid : ℤ} {fanin : ℕ} {outputs : List LinquTensor} {producers : List ℤ}
      {s' : LevelRuntime}
      (hpc : s.submitter = .registering tid outputs fanin producers)
      (h : s.registerTask tid outputs = some s') :
      Move s .submit (s'.setSubmitter (.storingFanin tid fanin producers))
  | storeFanin {tid : ℤ} {fanin : ℕ} {producers : List ℤ}
      (hpc : s.submitter = .storingFanin tid fanin producers) :
      Move s .submit
        ((s.storeFanin tid fanin).setSubmitter (.storingStatus tid fanin producers))
  | storeReady {tid : ℤ} {producers : List ℤ}
      (hpc : s.submitter = .storingStatus tid 0 producers) :
      Move s .submit ((s.setStatus tid .ready).setSubmitter (.enqueuing tid))
  | storePending {tid : ℤ} {fanin : ℕ} {producers : List ℤ}
      (hpc : s.submitter = .storingStatus tid fanin producers) (h : fanin ≠ 0) :
      Move s .submit ((s.setStatus tid .pending).setSubmitter (.exposing tid fanin producers))
  | expose {tid producer : ℤ} {fanin : ℕ} {ps : List ℤ} {s' : LevelRuntime}
      (hpc : s.submitter = .exposing tid fanin (producer::ps))
      (h : s.addConsumerToProducer producer tid = some s') :
      Move s .submit (s'.setSubmitter (.exposing tid fanin ps))
  | satisfied {tid : ℤ} {fanin : ℕ}
      (hpc : s.submitter = .exposing tid fanin [])
      (h : fanin ≤ (s.get tid).atomicFaninRefcount) :
      Move s .submit (s.setSubmitter (.setting tid))
  | unsatisfied {tid : ℤ} {fanin : ℕ}
      (hpc : s.submitter = .exposing tid fanin [])
      (h : (s.get tid).atomicFaninRefcount < fanin) :
      Move s .submit (s.setSubmitter .idle)
  | claim {tid : ℤ}
      (hpc : s.submitter = .setting tid) (h : (s.get tid).status = .pending) :
      Move s .submit ((s.setStatus tid .ready).setSubmitter (.enqueuing tid))
  | lost {tid : ℤ}
      (hpc : s.submitter = .setting tid) (h : (s.get tid).status ≠ .pending) :
      Move s .submit (s.setSubmitter .idle)
  | enqueue {tid : ℤ}
      (hpc : s.submitter = .enqueuing tid) :
      Move s .submit ((s.enqueueReady tid).setSubmitter .idle)
  | dequeueNone {w : ℕ} {tid : ℤ} {queue : Queue}
      (hpc : s.workers w = .idle) (h : s.readyQueue.dequeueReady = some (tid,queue))
      (hneg : tid < 0) : Move s (.work w) { s with readyQueue := queue }
  | dequeue {w : ℕ} {tid : ℤ} {queue : Queue}
      (hpc : s.workers w = .idle) (h : s.readyQueue.dequeueReady = some (tid,queue))
      (hpos : 0 ≤ tid) (hw : w < s.workerCount) :
      Move s (.work w) ({ s with readyQueue := queue }.setWorker w (.dequeued tid))
  | start {w : ℕ} {tid : ℤ}
      (hpc : s.workers w = .dequeued tid) :
      Move s (.work w) ((s.setStatus tid .running).setWorker w (.running tid))
  | ran {w : ℕ} {tid : ℤ}
      (hpc : s.workers w = .running tid) :
      Move s (.work w) ((s.markOutputs (s.taskOutputs (s.taskRing.slot tid))).setWorker w
        (.returned tid))
  | complete {w : ℕ} {tid : ℤ}
      (hpc : s.workers w = .returned tid) :
      Move s (.work w) ((s.setStatus tid .completed).setWorker w (.completed tid))
  | walk {w : ℕ} {tid : ℤ}
      (hpc : s.workers w = .completed tid) :
      Move s (.work w) ((s.walkFanout tid).setWorker w
        (.releasing tid ((s.walkFanout tid).faninList tid)))
  | release {w : ℕ} {tid producer : ℤ} {ps : List ℤ}
      (hpc : s.workers w = .releasing tid (producer::ps)) :
      Move s (.work w)
        ((s.raiseFanout producer).setWorker w (.checking tid producer (some ps)))
  | released {w : ℕ} {tid : ℤ}
      (hpc : s.workers w = .releasing tid []) :
      Move s (.work w) (s.setWorker w (.checking tid tid none))
  | consumable {w : ℕ} {tid target : ℤ} {more : Option (List ℤ)}
      (hpc : s.workers w = .checking tid target more)
      (hdone : (s.get target).status = .completed)
      (hle : (s.get target).fanoutCount ≤ (s.get target).atomicFanoutRefcount) :
      Move s (.work w) (s.setWorker w (.consuming tid target more))
  | kept {w : ℕ} {tid target : ℤ} {more : Option (List ℤ)}
      (hpc : s.workers w = .checking tid target more) :
      Move s (.work w) (s.setWorker w (resume tid more))
  | consume {w : ℕ} {tid target : ℤ} {more : Option (List ℤ)}
      (hpc : s.workers w = .consuming tid target more) :
      Move s (.work w) ((s.setStatus target .consumed).setWorker w (.advancing tid target more))
  | retire {w : ℕ} {tid target : ℤ} {more : Option (List ℤ)}
      (hpc : s.workers w = .advancing tid target more) :
      Move s (.work w) (s.tryAdvanceRingPointers.setWorker w (resume tid more))
  | retained {w : ℕ} {tid target : ℤ} {more : Option (List ℤ)}
      (hpc : s.workers w = .advancing tid target more) :
      Move s (.work w) (s.setWorker w (resume tid more))
  | beginPass {k : ℕ}
      (hpc : s.schedulers k = .waiting) :
      Move s (.schedule k)
        (s.setScheduler k (.scanning s.taskRing.lastTaskAlive s.taskRing.currentIndex))
  | endPass {k : ℕ} {i cur : ℤ}
      (hpc : s.schedulers k = .scanning i cur) :
      Move s (.schedule k) (s.setScheduler k .waiting)
  | raise {k : ℕ} {i cur : ℤ}
      (hpc : s.schedulers k = .scanning i cur) (hlt : i < cur)
      (h : s.externalsReady i = true) (hk : k < s.schedCount) :
      Move s (.schedule k) (let s' := s.raiseFanin i (s.externalReady (s.taskRing.slot i)).length
        s'.setScheduler k (.clearing i cur (s'.get i).atomicFaninRefcount))
  | pass {k : ℕ} {i cur : ℤ}
      (hpc : s.schedulers k = .scanning i cur) :
      Move s (.schedule k) (s.setScheduler k (.scanning (i+1) cur))
  | clear {k : ℕ} {i cur : ℤ} {count : ℕ}
      (hpc : s.schedulers k = .clearing i cur count) (hk : k < s.schedCount) :
      Move s (.schedule k) ((s.clearReady i).setScheduler k (.setting i cur count))
  | promote {k : ℕ} {i cur : ℤ} {count : ℕ}
      (hpc : s.schedulers k = .setting i cur count)
      (hle : (s.get i).faninCount ≤ count) (h : (s.get i).status = .pending) :
      Move s (.schedule k) ((s.setStatus i .ready).setScheduler k (.enqueuing i cur))
  | giveUp {k : ℕ} {i cur : ℤ} {count : ℕ}
      (hpc : s.schedulers k = .setting i cur count)
      (h : (s.get i).status = .pending → count < (s.get i).faninCount) :
      Move s (.schedule k) (s.setScheduler k (.scanning (i+1) cur))
  | promoted {k : ℕ} {i cur : ℤ}
      (hpc : s.schedulers k = .enqueuing i cur) :
      Move s (.schedule k) ((s.enqueueReady i).setScheduler k (.scanning (i+1) cur))
  | markReady {handle : UInt64} :
      Move s (.markReady handle) { s with tensorReady := Function.update s.tensorReady handle true }

variable {s s' : LevelRuntime} {a : Act}

theorem scanInput_move {tid : ℤ} {fanin : ℕ} {outputs rest : List LinquTensor}
    {input : LinquTensor} {producers : List ℤ}
    (hpc : s.submitter = .scanning tid outputs (input::rest) fanin producers)
    (h : s.scanInput tid outputs rest fanin producers input = some s') : Move s .submit s' := by
  unfold scanInput at h
  split at h
  · rename_i hvalid
    obtain ⟨found,hlook,h⟩ := Option.bind_eq_some_iff.mp h
    cases found with
    | some producer =>
      obtain ⟨m,hm,h⟩ := Option.bind_eq_some_iff.mp h
      cases h
      exact .link hpc hlook hm
    | none =>
      dsimp only at h
      split at h
      · cases h
        exact .skip hpc
      · rename_i hready
        cases h
        exact .push hpc hvalid hlook (Bool.eq_false_of_not_eq_true hready)
  · cases h
    exact .skip hpc

theorem submitStep_move (h : s.submitStep = some s') : Move s .submit s' := by
  unfold submitStep at h
  split at h
  · cases h
  · rename_i hpc
    split at h
    · exact .alloc hpc h
    · dsimp only at h
      split at h
      · cases h
        exact .advance hpc
      · split at h
        · cases h
        · cases h
          exact .spin hpc
  · rename_i hpc
    exact scanInput_move hpc h
  · rename_i hpc
    obtain ⟨m,hm,h⟩ := Option.bind_eq_some_iff.mp h
    cases h
    exact .buffers hpc hm
  · rename_i hpc
    obtain ⟨m,hm,h⟩ := Option.bind_eq_some_iff.mp h
    cases h
    exact .register hpc hm
  · rename_i hpc
    cases h
    exact .storeFanin hpc
  · rename_i hpc
    split at h
    · rename_i h0
      subst h0
      cases h
      exact .storeReady hpc
    · rename_i h0
      cases h
      exact .storePending hpc h0
  · rename_i hpc
    obtain ⟨m,hm,h⟩ := Option.bind_eq_some_iff.mp h
    cases h
    exact .expose hpc hm
  · rename_i hpc
    split at h
    · rename_i hle
      cases h
      exact .satisfied hpc hle
    · rename_i hlt
      cases h
      exact .unsatisfied hpc (by omega)
  · rename_i hpc
    split at h
    · rename_i hp
      cases h
      exact .claim hpc hp
    · rename_i hp
      cases h
      exact .lost hpc hp
  · rename_i hpc
    cases h
    exact .enqueue hpc

theorem workStep_move {w : ℕ} (hw : w < s.workerCount) (h : s.workStep w = some s') : Move s (.work w) s' := by
  unfold workStep at h
  split at h
  · rename_i hpc
    obtain ⟨⟨tid,queue⟩,hq,h⟩ := Option.bind_eq_some_iff.mp h
    dsimp only at h
    split at h
    · rename_i hneg
      cases h
      exact .dequeueNone hpc hq hneg
    · rename_i hneg
      cases h
      exact .dequeue hpc hq (by omega) hw
  · rename_i hpc
    cases h
    exact .start hpc
  · rename_i hpc
    cases h
    exact .ran hpc
  · rename_i hpc
    cases h
    exact .complete hpc
  · rename_i hpc
    cases h
    exact .walk hpc
  · rename_i hpc
    cases h
    exact .release hpc
  · rename_i hpc
    cases h
    exact .released hpc
  · rename_i hpc
    split at h
    · rename_i hc
      cases h
      exact .consumable hpc hc.1 hc.2
    · cases h
      exact .kept hpc
  · rename_i hpc
    cases h
    exact .consume hpc
  · rename_i hpc
    dsimp only at h
    split at h
    · cases h
      exact .retire hpc
    · cases h
      exact .retained hpc

theorem scheduleStep_move {k : ℕ} (hk : k < s.schedCount) :
    Move s (.schedule k) (s.scheduleStep k) := by
  unfold scheduleStep
  split
  · rename_i hpc
    exact .beginPass hpc
  · rename_i hpc
    split
    · exact .endPass hpc
    · rename_i hlt
      split
      · rename_i h
        exact .raise hpc (by omega) h hk
      · exact .pass hpc
  · rename_i hpc
    exact .clear hpc hk
  · rename_i hpc
    split
    · rename_i hc
      exact .promote hpc hc.1 hc.2
    · rename_i hc
      refine .giveUp hpc fun hp => ?_
      by_contra hle
      exact hc ⟨by omega,hp⟩
  · rename_i hpc
    exact .promoted hpc

/-- Every step of the level runtime is one of the moves. -/
theorem step_move (h : Steps s a s') : Move s a s' := by
  unfold Steps at h
  cases a with
  | call req =>
    rw [step] at h
    split at h
    · rename_i hpc
      cases h
      exact .call hpc
    · cases h
  | submit => exact submitStep_move h
  | work i =>
    rw [step] at h
    split at h
    · rename_i hw
      exact workStep_move hw h
    · cases h
  | schedule k =>
    rw [step] at h
    split at h
    · rename_i hk
      cases h
      exact scheduleStep_move hk
    · cases h
  | markReady handle =>
    cases h
    exact .markReady

/-- What every guarded move keeps holds at the end of every guarded run. -/
theorem run_move {P : LevelRuntime → Prop} {cond : LevelRuntime → Act → Prop} {acts : List Act}
    (hmove : ∀ s a s', P s → cond s a → Move s a s' → P s') (h : P s)
    (hg : Guarded Steps cond acts s) (hr : Run Steps acts s s') : P s' :=
  run_invariant (fun s a t hs hc ht => hmove s a t hs hc (step_move ht)) h hg hr

end Linqu.LevelMoves
