import Linqu.LevelProgress
import Linqu.TensorMapEntries

/-!
# No task is started before its inputs are ready

A scheduler counts the external inputs of a task when it has seen all of them
ready, and a worker marks the outputs of its task before it walks the fanout
chain. In a run without races a task that is not PENDING has therefore inputs
that are ready only, wherever they come from.
-/

set_option autoImplicit false

namespace Linqu.LevelInputs
open Linqu.TaskRing Linqu.DepPool Linqu.TensorMap Linqu.TensorMapEntries Linqu.ReadyQueue
open Linqu.Ownership Linqu.Transition
open Linqu.Level Linqu.Level.LevelRuntime Linqu.LevelMoves Linqu.LevelLayout Linqu.LevelWiring
open Linqu.LevelSubmission Linqu.LevelWorkers Linqu.LevelOrder Linqu.LevelProgress

/-- All external inputs of a task are ready. -/
def InputsReady (s : LevelRuntime) (c : ℤ) : Prop :=
  ∀ x ∈ s.externalInputs (s.taskRing.slot c), s.tensorReady x = true

/-- What is known of the external inputs of a task: they are still to be counted,
or they are ready. -/
structure Supplied (s : LevelRuntime) : Prop where
  fresh : ∀ c, Known s c → preparing s.submitter = some c →
    s.externalReady (s.taskRing.slot c) = s.externalInputs (s.taskRing.slot c)
  uncounted : ∀ c, Known s c →
    s.externalReady (s.taskRing.slot c) = s.externalInputs (s.taskRing.slot c) ∨ InputsReady s c
  counted : ∀ c, Known s c → Clears s c → InputsReady s c
  started : ∀ c, Known s c → (s.get c).status ≠ .pending → InputsReady s c

/-- A step that has nothing to do with external inputs. -/
structure Still (s s' : LevelRuntime) : Prop where
  known : ∀ c, Known s' c → Known s c
  slot : ∀ c, s'.taskRing.slot c = s.taskRing.slot c
  inputs : s'.externalInputs = s.externalInputs
  ready : s'.externalReady = s.externalReady
  flags : ∀ x, s.tensorReady x = true → s'.tensorReady x = true
  clears : ∀ c, Clears s' c → Clears s c

variable {exact : Prop} {s s' : LevelRuntime} {a : Act} {t : ℤ} {d : Debts}

theorem Still.inputsReady (h : Still s s') {c : ℤ} (hc : InputsReady s c) : InputsReady s' c := by
  intro x hx
  rw [h.inputs, h.slot] at hx
  exact h.flags x (hc x hx)

theorem Supplied.frame (h : Supplied s) (hs : Still s s')
    (hprep : ∀ c, preparing s'.submitter = some c → preparing s.submitter = some c)
    (hst : ∀ c, (s'.get c).status ≠ .pending →
      (s.get c).status ≠ .pending ∨ InputsReady s c) : Supplied s' := by
  constructor
  case fresh =>
    intro c hc hp
    rw [hs.slot, hs.ready, hs.inputs]
    exact h.fresh c (hs.known c hc) (hprep c hp)
  case uncounted =>
    intro c hc
    rw [hs.slot, hs.ready, hs.inputs]
    exact (h.uncounted c (hs.known c hc)).imp_right hs.inputsReady
  case counted =>
    intro c hc hclear
    exact hs.inputsReady (h.counted c (hs.known c hc) (hs.clears c hclear))
  case started =>
    intro c hc hp
    rcases hst c hp with hp | hready
    · exact hs.inputsReady (h.started c (hs.known c hc) hp)
    · exact hs.inputsReady hready

/-- A step that leaves the descriptors alone as well. -/
theorem Supplied.same (h : Supplied s) (hs : Still s s')
    (hprep : ∀ c, preparing s'.submitter = some c → preparing s.submitter = some c)
    (hget : ∀ c, (s'.get c).status = (s.get c).status) : Supplied s' :=
  h.frame hs hprep fun c hp => Or.inl (by rwa [hget] at hp)

section Updates

theorem Still.refl (s : LevelRuntime) : Still s s :=
  ⟨fun _ h => h,fun _ => rfl,rfl,rfl,fun _ h => h,fun _ h => h⟩

theorem still_modify (s : LevelRuntime) (t : ℤ)
    (f : LinquTaskDescriptor → LinquTaskDescriptor) : Still s (s.modify t f) :=
  ⟨fun _ h => h,fun _ => rfl,rfl,rfl,fun _ h => h,fun _ h => h⟩

theorem Supplied.modify (h : Supplied s) (t : ℤ) {f : LinquTaskDescriptor → LinquTaskDescriptor}
    (hf : ∀ d, (f d).status = d.status) : Supplied (s.modify t f) :=
  h.same (still_modify s t f) (fun _ hp => hp) (proj_modify (·.status) hf s t)

theorem Supplied.setStatus (h : Supplied s) {v : Status}
    (ht : v = .pending ∨ InputsReady s t) : Supplied (s.setStatus t v) := by
  refine h.frame (still_modify s t _) (fun _ hp => hp) fun c hp => ?_
  rw [LevelRuntime.setStatus, LevelLayout.get_modify] at hp
  by_cases hslot : s.taskRing.slot c = s.taskRing.slot t
  · rw [if_pos hslot] at hp
    rcases ht with hv | hready
    · exact absurd hv hp
    · right
      intro x hx
      rw [hslot] at hx
      exact hready x hx
  · rw [if_neg hslot] at hp
    exact Or.inl hp

theorem Supplied.setSubmitter (h : Supplied s) {pc : SubmitPc}
    (hprep : ∀ c, preparing pc = some c → preparing s.submitter = some c) :
    Supplied (s.setSubmitter pc) :=
  h.same ⟨fun _ h => h,fun _ => rfl,rfl,rfl,fun _ h => h,fun _ h => h⟩ hprep (fun _ => rfl)

theorem Supplied.setWorker (h : Supplied s) (w : ℕ) (pc : WorkerPc) :
    Supplied (s.setWorker w pc) :=
  h.same ⟨fun _ h => h,fun _ => rfl,rfl,rfl,fun _ h => h,fun _ h => h⟩ (fun _ hp => hp)
    (fun _ => rfl)

/-- A scheduler goes on without a task whose inputs it has counted. -/
theorem Supplied.setScheduler (h : Supplied s) (k : ℕ) {pc : SchedulePc}
    (hpc : clearing pc = none) : Supplied (s.setScheduler k pc) := by
  refine h.same ⟨fun _ h => h,fun _ => rfl,rfl,rfl,fun _ h => h,fun c ⟨j,hj,hc⟩ => ?_⟩
    (fun _ hp => hp) (fun _ => rfl)
  rw [schedulers_setScheduler] at hc
  split at hc
  · rw [hpc] at hc
    cases hc
  · exact ⟨j,hj,hc⟩

theorem Supplied.enqueueReady (h : Supplied s) (t : ℤ) : Supplied (s.enqueueReady t) :=
  h.same ⟨fun _ h => h,fun _ => rfl,rfl,rfl,fun _ h => h,fun _ h => h⟩ (fun _ hp => hp)
    (fun _ => rfl)

theorem Supplied.advance (h : Supplied s) : Supplied s.tryAdvanceRingPointers := by
  obtain ⟨tm,heap,-,heq⟩ := tryAdvance_spec s
  rw [heq]
  exact h.same ⟨fun _ h => h,fun _ => rfl,rfl,rfl,fun _ h => h,fun _ h => h⟩ (fun _ hp => hp)
    (fun _ => rfl)

/-- A refcount that has reached the fanin count has counted the external inputs. -/
theorem Wired.owed_zero (h : Wired exact d s) (he : exact) (ht : Known s t)
    (hprep : preparing s.submitter ≠ some t)
    (hle : (s.get t).faninCount ≤ (s.get t).atomicFaninRefcount) : owed s t = 0 := by
  have hup := h.counts.upper he t ht
  have hreq := h.counts.required t ht hprep
  have hlen : (s.faninList t).countP (LevelWiring.walked s) ≤ (s.faninList t).length :=
    List.countP_le_length
  omega

theorem Supplied.of_owed (h : Supplied s) (ht : Known s t) (h0 : owed s t = 0) :
    InputsReady s t := by
  by_cases hclear : Clears s t
  · exact h.counted t ht hclear
  · rw [owed, if_neg hclear] at h0
    have hnil := List.length_eq_zero_iff.mp h0
    rcases h.uncounted t ht with heq | hready
    · intro x hx
      rw [← heq, hnil] at hx
      cases hx
    · exact hready

theorem Supplied.notify {ntf : List ℤ} (hw : Wired exact d s) (he : exact) (h : Supplied s)
    (hd : d.ntf = t::ntf) (ht : Known s t) (hprep : preparing s.submitter ≠ some t) :
    Supplied (s.notifyConsumer t) := by
  have hr : Supplied (s.raiseFanin t 1) := h.modify t (fun _ => by rfl)
  have hwr := hw.raiseFanin (n := 1) hd ht
  unfold LevelRuntime.notifyConsumer LevelRuntime.wake
  dsimp only
  split
  · rename_i hle
    split
    · have hready := hr.of_owed ht (Wired.owed_zero hwr he ht hprep hle)
      exact (hr.setStatus (Or.inr hready)).enqueueReady t
    · exact hr
  · exact hr

theorem Supplied.walkFanout (hw : Wired exact {} s) (he : exact) (h : Supplied s)
    (ht : Known s t) (hdone : (s.get t).status.isDone = true) (hnew : t ∉ s.walks)
    (hidle : ∀ th, owns s th ≠ some t) : Supplied (s.walkFanout t) := by
  refine walkFanout_rule hw ht hdone hnew hidle ?_ fun l u c hu hc hp hP =>
    Supplied.notify hu he hP rfl hc hp
  exact h.same ⟨fun _ h => h,fun _ => rfl,rfl,rfl,fun _ h => h,fun _ h => h⟩ (fun _ hp => hp)
    (fun _ => rfl)

/-- The worker's task is not PENDING. -/
theorem Supplied.busy (hw : Wired exact {} s) (h : Supplied s) {w : ℕ}
    (hown : workOwns (s.workers w) = some t) : InputsReady s t := by
  obtain ⟨hk,hst,-⟩ := hw.owned.phases (.worker w) t hown
  refine h.started t hk ?_
  rcases hst with hst | ⟨-,hst⟩
  · exact hst.trans_ne (phase_ne_pending s _)
  · exact hst.trans_ne (by decide)

theorem Supplied.externals (h : Supplied s) (ht : Known s t) (hready : s.externalsReady t = true) :
    InputsReady s t := by
  simp only [externalsReady, decide_eq_true_eq, List.all_eq_true] at hready
  rcases h.uncounted t ht with heq | hall
  · rw [InputsReady, ← heq]
    exact hready.2.2
  · exact hall

theorem clears_preparing (hw : Wired exact {} s) {c : ℤ} (hc : Clears s c) :
    preparing s.submitter ≠ some c := by
  obtain ⟨j,-,hj⟩ := hc
  have hsched := fun i count => hw.counts.scheduling j i count
  revert hj hsched
  cases s.schedulers j with
  | clearing i cur count =>
    rintro ⟨⟩ hsched
    exact (hsched c count rfl).2
  | _ =>
    intro hj
    cases hj

/-- The other fields that the allocation of a task touches or not. -/
theorem allocTask_outputs {req : Request} (h : s.allocTask req = some s') :
    s'.tensorReady = s.tensorReady ∧ s'.taskOutputs =
      Function.update s.taskOutputs (s.taskRing.slot s.taskRing.currentIndex) req.outputs := by
  obtain ⟨⟨tid,r⟩,hr,h⟩ := Option.bind_eq_some_iff.mp h
  cases h
  obtain ⟨rfl,-,hws,-⟩ := LinquTaskRing.tryAlloc_spec hr
  have hslot : r.slot s.taskRing.currentIndex = s.taskRing.slot s.taskRing.currentIndex := by
    rw [LinquTaskRing.slot, LinquTaskRing.slot, hws]
  refine ⟨rfl,?_⟩
  rw [← hslot]
  rfl

theorem Supplied.alloc {req : Request} (hw : Wired exact {} s) (h : Supplied s)
    (hle : s'.taskRing.currentIndex ≤ s'.taskRing.windowSize) (halloc : s.allocTask req = some s') :
    Supplied s' := by
  have ha := allocTask_spec halloc
  have hg := Allocates.grown ha hw.laid hle
  have hslot : ∀ c, s'.taskRing.slot c = s.taskRing.slot c := fun c => by
    rw [LinquTaskRing.slot, LinquTaskRing.slot, ha.window]
  have hclears : ∀ c, Clears s' c ↔ Clears s c := fun c => by
    rw [Clears, Clears, ha.schedCount, ha.schedulers]
  have hready := (allocTask_outputs halloc).1
  -- the lists of the new task are empty, the others are the same
  have hlists : ∀ c, Known s' c →
      s'.externalInputs (s'.taskRing.slot c) = [] ∧ s'.externalReady (s'.taskRing.slot c) = [] ∨
      Known s c ∧ s'.externalInputs (s'.taskRing.slot c) = s.externalInputs (s.taskRing.slot c) ∧
        s'.externalReady (s'.taskRing.slot c) = s.externalReady (s.taskRing.slot c) := by
    intro c hc
    rw [hslot, ha.externalInputs, ha.externalReady]
    rcases (hg.known c).mp hc with hk | rfl
    · have hne := (Allocates.get_known ha hw.laid hle hk).1
      rw [Function.update_of_ne hne, Function.update_of_ne hne]
      exact Or.inr ⟨hk,rfl,rfl⟩
    · rw [Function.update_self, Function.update_self]
      exact Or.inl ⟨rfl,rfl⟩
  constructor
  case fresh =>
    intro c hc hp
    rcases hlists c hc with ⟨h1,h2⟩ | ⟨hk,h1,h2⟩
    · rw [h1, h2]
    · rw [ha.submitter] at hp
      cases hp
      exact absurd hk.2 (lt_irrefl _)
  case uncounted =>
    intro c hc
    rcases hlists c hc with ⟨h1,h2⟩ | ⟨hk,h1,h2⟩
    · exact Or.inl (by rw [h1, h2])
    · rw [InputsReady, h1, h2, hready]
      exact h.uncounted c hk
  case counted =>
    intro c hc hclear
    rcases hlists c hc with ⟨h1,-⟩ | ⟨hk,h1,-⟩
    · rw [InputsReady, h1]
      exact fun x hx => by cases hx
    · rw [InputsReady, h1, hready]
      exact h.counted c hk ((hclears c).mp hclear)
  case started =>
    intro c hc hst
    rcases hlists c hc with ⟨h1,-⟩ | ⟨hk,h1,-⟩
    · rw [InputsReady, h1]
      exact fun x hx => by cases hx
    · rw [InputsReady, h1, hready]
      rw [hg.get c hk] at hst
      exact h.started c hk hst

/-- Only the lists of the task itself get longer. -/
theorem push_lists (hle : s.taskRing.currentIndex ≤ s.taskRing.windowSize) (ht : Known s t)
    (x : UInt64) {c : ℤ} (hc : Known s c) :
    (s.pushExternal t x).externalInputs (s.taskRing.slot c) =
      s.externalInputs (s.taskRing.slot c)++(if c = t then [x] else []) ∧
    (s.pushExternal t x).externalReady (s.taskRing.slot c) =
      s.externalReady (s.taskRing.slot c)++(if c = t then [x] else []) := by
  simp only [pushExternal, Function.update_apply, Known.slot_eq_iff hle ht hc]
  by_cases hct : c = t
  · subst hct
    simp
  · simp [hct]

theorem Supplied.push (hw : Wired exact {} s) (h : Supplied s) {fanin : ℕ} {x : UInt64}
    {outputs inputs rest : List LinquTensor} {ps : List ℤ}
    (hpc : s.submitter = .scanning t outputs inputs fanin ps) :
    Supplied ((s.pushExternal t x).setSubmitter (.scanning t outputs rest (fanin+1) ps)) := by
  have hprep : preparing s.submitter = some t := by rw [hpc]; rfl
  have hsub := hw.laid.submitter
  rw [hpc] at hsub
  have htid : Known s t := Newest.known hsub.1
  -- nobody has counted or started the task
  have hclear : ¬Clears s t := fun hc => clears_preparing hw hc hprep
  have hpend : (s.get t).status = .pending := by
    by_contra hst
    exact (hw.owned.started t htid hst).1 hprep
  have hlists := fun c => push_lists (c := c) hw.placed htid x
  have hother : ∀ c, Known s c → c ≠ t → InputsReady s c → InputsReady (s.pushExternal t x) c := by
    intro c hc hne hready
    rw [InputsReady]
    change ∀ y ∈ (s.pushExternal t x).externalInputs (s.taskRing.slot c), s.tensorReady y = true
    rw [(hlists c hc).1, if_neg hne, List.append_nil]
    exact hready
  constructor
  case fresh =>
    rintro c hc ⟨⟩
    change (s.pushExternal t x).externalReady (s.taskRing.slot t) =
      (s.pushExternal t x).externalInputs (s.taskRing.slot t)
    rw [(hlists t htid).1, (hlists t htid).2, h.fresh t htid hprep]
  case uncounted =>
    intro c hc
    have hc : Known s c := hc
    by_cases hct : c = t
    · subst hct
      left
      change (s.pushExternal c x).externalReady (s.taskRing.slot c) =
        (s.pushExternal c x).externalInputs (s.taskRing.slot c)
      rw [(hlists c htid).1, (hlists c htid).2, h.fresh c htid hprep]
    · refine (h.uncounted c hc).imp (fun heq => ?_) (hother c hc hct)
      change (s.pushExternal t x).externalReady (s.taskRing.slot c) =
        (s.pushExternal t x).externalInputs (s.taskRing.slot c)
      rw [(hlists c hc).1, (hlists c hc).2, heq]
  case counted =>
    intro c hc hcl
    have hct : c ≠ t := fun he => hclear (he ▸ hcl)
    exact hother c hc hct (h.counted c hc hcl)
  case started =>
    intro c hc hst
    have hct : c ≠ t := fun he => hst (he ▸ hpend)
    exact hother c hc hct (h.started c hc hst)

/-- A scheduler has seen that all external inputs of a task are ready. -/
theorem Supplied.raise (h : Supplied s) (ht : Known s t) (hready : s.externalsReady t = true)
    {k count : ℕ} {cur : ℤ} (n : ℕ) :
    Supplied ((s.raiseFanin t n).setScheduler k (.clearing t cur count)) := by
  have hr : Supplied (s.raiseFanin t n) := h.modify t (fun _ => by rfl)
  refine ⟨hr.fresh,hr.uncounted,fun c hc hcl => ?_,hr.started⟩
  obtain ⟨j,hj,hcl⟩ := hcl
  rw [schedulers_setScheduler] at hcl
  split at hcl
  · cases hcl
    exact h.externals ht hready
  · exact h.counted c hc ⟨j,hj,hcl⟩

theorem Supplied.clear (hw : Wired exact {} s) (h : Supplied s) (ht : Known s t)
    (hcl : Clears s t) : Supplied (s.clearReady t) := by
  have hready := h.counted t ht hcl
  have hprep := clears_preparing hw hcl
  have hlist : ∀ c, s.taskRing.slot c ≠ s.taskRing.slot t →
      (s.clearReady t).externalReady (s.taskRing.slot c) =
        s.externalReady (s.taskRing.slot c) := fun c hne => Function.update_of_ne hne _ _
  constructor
  case fresh =>
    intro c hc hp
    have hne : s.taskRing.slot c ≠ s.taskRing.slot t := by
      rw [Ne, Known.slot_eq_iff hw.placed ht hc]
      rintro rfl
      exact hprep hp
    exact (hlist c hne).trans (h.fresh c hc hp)
  case uncounted =>
    intro c hc
    by_cases hslot : s.taskRing.slot c = s.taskRing.slot t
    · right
      change ∀ x ∈ s.externalInputs (s.taskRing.slot c), _
      rw [hslot]
      exact hready
    · exact (h.uncounted c hc).imp_left (hlist c hslot).trans
  case counted => exact h.counted
  case started => exact h.started

end Updates

theorem markOutputs_mono (s : LevelRuntime) (outs : List LinquTensor) {x : UInt64}
    (hx : s.tensorReady x = true) : (s.markOutputs outs).tensorReady x = true := by
  change (outs.any (fun out => out.handle == x) || s.tensorReady x) = true
  rw [hx, Bool.or_true]

theorem markOutputs_marks (s : LevelRuntime) (outs : List LinquTensor) {out : LinquTensor}
    (ho : out ∈ outs) : (s.markOutputs outs).tensorReady out.handle = true := by
  change (outs.any (fun o => o.handle == out.handle) || s.tensorReady out.handle) = true
  have hany : outs.any (fun o => o.handle == out.handle) = true :=
    List.any_eq_true.mpr ⟨out,ho,beq_self_eq_true _⟩
  rw [hany, Bool.true_or]

theorem markReady_mono (s : LevelRuntime) (handle : UInt64) {x : UInt64}
    (hx : s.tensorReady x = true) : Function.update s.tensorReady handle true x = true := by
  by_cases he : x = handle
  · rw [he, Function.update_self]
  · rw [Function.update_of_ne he]
    exact hx

/-- In a run without races the external inputs of a task are ready before it is
claimed. -/
theorem supplied_move (hw : Wired True {} s) (h : Supplied s)
    (hle : s'.taskRing.currentIndex ≤ s'.taskRing.windowSize) (hm : Move s a s') :
    Supplied s' := by
  have hsubmit := hw.counts.submitting
  have hin := hw.laid.submitter
  have hsched := hw.counts.scheduling
  have hscan := hw.laid.schedulers
  cases hm with
  | call hpc => exact h.setSubmitter (fun _ hp => by cases hp)
  | alloc hpc ha => exact h.alloc hw hle ha
  | advance hpc => exact h.advance
  | spin hpc => exact h.advance.setSubmitter (fun _ hp => by cases hp)
  | @link tid producer fanin outputs more input producers m hpc hlook hl =>
    obtain ⟨idx,pool,-,rfl⟩ := linkFanin_spec hl
    have hpool : Supplied { s with depPool := pool } :=
      ⟨h.fresh,h.uncounted,h.counted,h.started⟩
    refine (hpool.modify tid (fun _ => by rfl)).setSubmitter fun c hp => ?_
    change preparing s.submitter = some c
    rw [hpc]
    exact hp
  | push hpc hvalid hlook hready => exact h.push hw hpc
  | skip hpc =>
    refine h.setSubmitter fun c hp => ?_
    rw [hpc]
    exact hp
  | buffers hpc hb =>
    obtain ⟨heap,rfl⟩ := allocBuffers_spec hb
    have hheap : Supplied { s with heapRing := heap } :=
      ⟨h.fresh,h.uncounted,h.counted,h.started⟩
    refine hheap.setSubmitter fun c hp => ?_
    change preparing s.submitter = some c
    rw [hpc]
    exact hp
  | @register tid fanin outputs producers m hpc hr =>
    obtain ⟨tm,scopes,top,-,rfl⟩ := registerTask_spec hr
    have hmap : Supplied { s with tensorMap := tm, scopeStack := scopes } :=
      ⟨h.fresh,h.uncounted,h.counted,h.started⟩
    refine (hmap.modify tid (fun _ => by rfl)).setSubmitter fun c hp => ?_
    change preparing s.submitter = some c
    rw [hpc]
    exact hp
  | storeFanin hpc =>
    refine (h.modify _ (fun _ => by rfl)).setSubmitter fun c hp => ?_
    change preparing s.submitter = some c
    rw [hpc]
    exact hp
  | @storeReady tid producers hpc =>
    rw [hpc] at hsubmit
    have hnone : s.externalInputs (s.taskRing.slot tid) = [] := by
      have hlen := hsubmit.1.1
      rw [LevelWiring.externals] at hlen
      exact List.length_eq_zero_iff.mp (by omega)
    have hready : InputsReady s tid := by
      rw [InputsReady, hnone]
      exact fun x hx => by cases hx
    exact (h.setStatus (Or.inr hready)).setSubmitter (fun _ hp => by cases hp)
  | storePending hpc h0 => exact (h.setStatus (Or.inl rfl)).setSubmitter (fun _ hp => by cases hp)
  | @expose tid producer fanin ps m hpc he =>
    obtain ⟨m,hm,he⟩ := Option.bind_eq_some_iff.mp he
    obtain ⟨idx,pool,-,rfl⟩ := linkFanout_spec hm
    have hpool : Supplied { s with depPool := pool } :=
      ⟨h.fresh,h.uncounted,h.counted,h.started⟩
    have hlink := hpool.modify producer (f := fun d => { d with
      fanoutListHead := some idx, fanoutCount := d.fanoutCount+1 }) (fun _ => by rfl)
    cases he
    split
    · exact (hlink.modify tid (fun _ => by rfl)).setSubmitter (fun _ hp => by cases hp)
    · exact hlink.setSubmitter (fun _ hp => by cases hp)
  | satisfied hpc hle => exact h.setSubmitter (fun _ hp => by cases hp)
  | unsatisfied hpc hlt => exact h.setSubmitter (fun _ hp => by cases hp)
  | @claim tid hpc hst =>
    rw [hpc] at hsubmit hin
    have hk : Known s tid := Newest.known hin
    have hprep : preparing s.submitter ≠ some tid := by
      rw [hpc]
      exact fun he => by cases he
    have h0 := Wired.owed_zero hw trivial hk hprep hsubmit
    exact (h.setStatus (Or.inr (h.of_owed hk h0))).setSubmitter (fun _ hp => by cases hp)
  | lost hpc hst => exact h.setSubmitter (fun _ hp => by cases hp)
  | enqueue hpc => exact (h.enqueueReady _).setSubmitter (fun _ hp => by cases hp)
  | dequeueNone hpc hq hneg => exact ⟨h.fresh,h.uncounted,h.counted,h.started⟩
  | @dequeue w tid queue hpc hq hpos hi =>
    have hpop : Supplied { s with readyQueue := queue } :=
      ⟨h.fresh,h.uncounted,h.counted,h.started⟩
    exact hpop.setWorker w _
  | start hpc =>
    exact (h.setStatus (Or.inr (h.busy hw (by rw [hpc]; rfl)))).setWorker _ _
  | @ran w tid hpc =>
    have hmark : Supplied (s.markOutputs (s.taskOutputs (s.taskRing.slot tid))) := by
      exact h.same ⟨fun _ h => h,fun _ => rfl,rfl,rfl,fun _ => markOutputs_mono s _,
        fun _ h => h⟩ (fun _ hp => hp) (fun _ => rfl)
    exact hmark.setWorker w _
  | complete hpc =>
    exact (h.setStatus (Or.inr (h.busy hw (by rw [hpc]; rfl)))).setWorker _ _
  | @walk w t hpc =>
    have hown : workOwns (s.workers w) = some t := by rw [hpc]; rfl
    obtain ⟨hdrop,hfree,hk,-,-⟩ := Wired.drop hw hown
    obtain ⟨-,hst,hnew⟩ := hw.owned.phases (.worker w) t hown
    have hphase : phase s (.worker w) = .completed := by rw [phase, hpc]; rfl
    rw [hphase] at hst hnew
    have hdone : (s.get t).status.isDone = true := by
      rcases hst with hst | ⟨-,hst⟩ <;> rw [hst] <;> rfl
    have hwalk := (h.setWorker w .idle).walkFanout hdrop trivial hk hdone (hnew rfl) hfree.1
    rw [walkFanout_setWorker] at hwalk
    rw [← setWorker_setWorker _ w .idle]
    exact hwalk.setWorker w _
  | release hpc => exact (h.modify _ (fun _ => by rfl)).setWorker _ _
  | released hpc => exact h.setWorker _ _
  | consumable hpc hdone hle => exact h.setWorker _ _
  | kept hpc => exact h.setWorker _ _
  | @consume w tid target more hpc =>
    obtain ⟨hk,hdone⟩ := hw.owned.targets w tid target more hpc
    have hst : (s.get target).status ≠ .pending := fun he => by
      rw [he] at hdone
      cases hdone
    exact (h.setStatus (Or.inr (h.started target hk hst))).setWorker _ _
  | retire hpc => exact h.advance.setWorker _ _
  | retained hpc => exact h.setWorker _ _
  | beginPass hpc => exact h.setScheduler _ rfl
  | endPass hpc => exact h.setScheduler _ rfl
  | @raise k i cur hpc hlt hready hk =>
    have hin := hscan k
    rw [hpc] at hin
    exact h.raise ⟨hin.1,hlt.trans_le hin.2⟩ hready _
  | pass hpc => exact h.setScheduler _ rfl
  | @clear k i cur count hpc hk =>
    have hin := hscan k
    rw [hpc] at hin
    exact (h.clear hw ⟨hin.1,hin.2.1.trans_le hin.2.2⟩ ⟨k,hk,by rw [hpc]; rfl⟩).setScheduler k rfl
  | @promote k i cur count hpc hcnt hst =>
    have hin := hscan k
    rw [hpc] at hin
    have hk : Known s i := ⟨hin.1,hin.2.1.trans_le hin.2.2⟩
    obtain ⟨hcount,hprep⟩ := hsched k i count (by rw [hpc]; rfl)
    rw [List.count_nil] at hcount
    have h0 := Wired.owed_zero hw trivial hk hprep (hcnt.trans hcount)
    exact (h.setStatus (Or.inr (h.of_owed hk h0))).setScheduler k rfl
  | giveUp hpc hst => exact h.setScheduler _ rfl
  | promoted hpc => exact (h.enqueueReady _).setScheduler _ rfl
  | @markReady handle =>
    exact h.same ⟨fun _ h => h,fun _ => rfl,rfl,rfl,fun _ => markReady_mono s handle,
      fun _ h => h⟩ (fun _ hp => hp) (fun _ => rfl)

/-- The outputs of a task are ready. -/
def OutputsReady (s : LevelRuntime) (c : ℤ) : Prop :=
  ∀ out ∈ s.taskOutputs (s.taskRing.slot c), s.tensorReady out.handle = true

/-- The task whose outputs a worker has marked. -/
def marks : WorkerPc → Option ℤ
  | .returned t => some t
  | .completed t => some t
  | _ => none

structure Marked (s : LevelRuntime) : Prop where
  walks : ∀ p ∈ s.walks, OutputsReady s p
  workers : ∀ w p, marks (s.workers w) = some p → OutputsReady s p

section Marking

/-- A step that keeps the flags and the outputs of the tasks that are done. -/
theorem Marked.mono (h : Marked s)
    (hout : ∀ p, OutputsReady s p → (p ∈ s.walks ∨ ∃ w, marks (s.workers w) = some p) →
      OutputsReady s' p)
    (hwalk : ∀ p ∈ s'.walks, p ∈ s.walks ∨ ∃ w, marks (s.workers w) = some p)
    (hwork : ∀ w p, marks (s'.workers w) = some p →
      OutputsReady s' p ∨ marks (s.workers w) = some p) : Marked s' := by
  constructor
  case walks =>
    intro p hp
    rcases hwalk p hp with hp | ⟨w,hw⟩
    · exact hout p (h.walks p hp) (Or.inl hp)
    · exact hout p (h.workers w p hw) (Or.inr ⟨w,hw⟩)
  case workers =>
    intro w p hp
    rcases hwork w p hp with hready | hp
    · exact hready
    · exact hout p (h.workers w p hp) (Or.inr ⟨w,hp⟩)

/-- A step that keeps the workers and the walks as well. -/
theorem Marked.frame (h : Marked s) (hslot : ∀ c, s'.taskRing.slot c = s.taskRing.slot c)
    (hout : s'.taskOutputs = s.taskOutputs)
    (hflags : ∀ x, s.tensorReady x = true → s'.tensorReady x = true)
    (hwalk : s'.walks = s.walks) (hwork : s'.workers = s.workers) : Marked s' := by
  refine h.mono (fun p hp _ out ho => ?_) (fun p hp => Or.inl (hwalk ▸ hp))
    (fun w p hp => Or.inr (hwork ▸ hp))
  rw [hout, hslot] at ho
  exact hflags _ (hp out ho)

theorem Marked.setWorker (h : Marked s) (w : ℕ) {pc : WorkerPc}
    (hpc : ∀ p, marks pc = some p → OutputsReady s p) : Marked (s.setWorker w pc) := by
  refine h.mono (fun p hp _ => hp) (fun p hp => Or.inl hp) fun v p hp => ?_
  rw [workers_setWorker] at hp
  split at hp
  · exact Or.inl (hpc p hp)
  · exact Or.inr hp

theorem Marked.advance (h : Marked s) : Marked s.tryAdvanceRingPointers := by
  obtain ⟨tm,heap,-,heq⟩ := tryAdvance_spec s
  rw [heq]
  exact h.frame (fun _ => rfl) rfl (fun _ hx => hx) rfl rfl

/-- A worker marks the outputs of its task before it is done. -/
theorem marked_move (hw : Wired exact {} s) (h : Marked s)
    (hle : s'.taskRing.currentIndex ≤ s'.taskRing.windowSize) (hm : Move s a s') :
    Marked s' := by
  cases hm with
  | alloc hpc ha =>
    have hspec := allocTask_spec ha
    obtain ⟨hflags,houts⟩ := allocTask_outputs ha
    have hslot : ∀ c, s'.taskRing.slot c = s.taskRing.slot c := fun c => by
      rw [LinquTaskRing.slot, LinquTaskRing.slot, hspec.window]
    refine h.mono (fun p hp hdone out ho => ?_) (fun p hp => Or.inl (hspec.walks ▸ hp))
      (fun w p hp => Or.inr (hspec.workers ▸ hp))
    have hk : Known s p := by
      rcases hdone with hwalk | ⟨w,hw'⟩
      · exact (hw.owned.walked p hwalk).1
      · have hin := hw.laid.workers w
        revert hin hw'
        cases s.workers w <;> rintro ⟨⟩ hin <;> exact hin
    rw [houts, hslot, Function.update_of_ne (Allocates.get_known hspec hw.laid hle hk).1] at ho
    rw [hflags]
    exact hp out ho
  | advance hpc => exact h.advance
  | spin hpc => exact h.advance.frame (fun _ => rfl) rfl (fun _ hx => hx) rfl rfl
  | link hpc hlook hl =>
    obtain ⟨idx,pool,-,rfl⟩ := linkFanin_spec hl
    exact h.frame (fun _ => rfl) rfl (fun _ hx => hx) rfl rfl
  | buffers hpc hb =>
    obtain ⟨heap,rfl⟩ := allocBuffers_spec hb
    exact h.frame (fun _ => rfl) rfl (fun _ hx => hx) rfl rfl
  | register hpc hr =>
    obtain ⟨tm,scopes,top,-,rfl⟩ := registerTask_spec hr
    exact h.frame (fun _ => rfl) rfl (fun _ hx => hx) rfl rfl
  | expose hpc he =>
    obtain ⟨m,hm,he⟩ := Option.bind_eq_some_iff.mp he
    obtain ⟨idx,pool,-,rfl⟩ := linkFanout_spec hm
    cases he
    split
    · exact h.frame (fun _ => rfl) rfl (fun _ hx => hx) rfl rfl
    · exact h.frame (fun _ => rfl) rfl (fun _ hx => hx) rfl rfl
  | dequeue hpc hq hpos hi =>
    refine Marked.setWorker ?_ _ fun p hp => by cases hp
    exact h.frame (fun _ => rfl) rfl (fun _ hx => hx) rfl rfl
  | start hpc =>
    refine Marked.setWorker ?_ _ fun p hp => by cases hp
    exact h.frame (fun _ => rfl) rfl (fun _ hx => hx) rfl rfl
  | @ran w tid hpc =>
    refine Marked.setWorker ?_ w fun p hp => ?_
    · exact h.frame (fun _ => rfl) rfl (fun _ => markOutputs_mono s _) rfl rfl
    · cases hp
      exact fun out ho => markOutputs_marks s _ ho
  | @complete w tid hpc =>
    refine Marked.setWorker (s := s.setStatus tid .completed) ?_ w fun p hp => ?_
    · exact h.frame (fun _ => rfl) rfl (fun _ hx => hx) rfl rfl
    · cases hp
      exact h.workers w tid (by rw [hpc]; rfl)
  | @walk w t hpc =>
    obtain ⟨ring,queue,enqueues,heq,hwin,-⟩ := walkFanout_frame s t
    rw [heq]
    refine Marked.setWorker ?_ w fun p hp => by cases hp
    have hdone : ∃ v, marks (s.workers v) = some t := ⟨w,by rw [hpc]; rfl⟩
    refine h.mono (fun p hp _ out ho => ?_) (fun p hp => ?_) (fun v p hp => Or.inr hp)
    · have hslot : ring.slot p = s.taskRing.slot p := by
        rw [LinquTaskRing.slot, LinquTaskRing.slot, hwin]
      change out ∈ s.taskOutputs (ring.slot p) at ho
      rw [hslot] at ho
      exact hp out ho
    · rcases List.mem_cons.mp hp with rfl | hp
      · exact Or.inr hdone
      · exact Or.inl hp
  | release hpc =>
    refine Marked.frame (h.setWorker _ fun p hp => ?_) (fun _ => rfl) rfl (fun _ hx => hx) rfl rfl
    cases hp
  | released hpc => exact h.setWorker _ fun p hp => by cases hp
  | consumable hpc hdone hcnt => exact h.setWorker _ fun p hp => by cases hp
  | @kept w tid target more hpc =>
    refine h.setWorker w fun p hp => ?_
    cases more <;> cases hp
  | @consume w tid target more hpc =>
    refine Marked.setWorker (s := s.setStatus target .consumed) ?_ w fun p hp => by cases hp
    exact h.frame (fun _ => rfl) rfl (fun _ hx => hx) rfl rfl
  | @retire w tid target more hpc =>
    refine h.advance.setWorker w fun p hp => ?_
    cases more <;> cases hp
  | @retained w tid target more hpc =>
    refine h.setWorker w fun p hp => ?_
    cases more <;> cases hp
  | @markReady handle =>
    exact h.frame (fun _ => rfl) rfl (fun _ => markReady_mono s handle) rfl rfl
  | _ => exact h.frame (fun _ => rfl) rfl (fun _ hx => hx) rfl rfl

end Marking

/-- The requests of a run, in the order of the calls. -/
def requestOf : Act → List Request
  | .call req => [req]
  | _ => []

def requests (acts : List Act) : List Request := acts.flatMap requestOf

/-- The request that has no task yet. -/
def asked : SubmitPc → List Request
  | .waiting req _ => [req]
  | _ => []

/-- The inputs of a task that are still to be scanned. -/
def remaining (pc : SubmitPc) (c : ℤ) : List LinquTensor :=
  match pc with
  | .scanning tid _ inputs _ _ => if c = tid then inputs else []
  | _ => []

/-- The task whose outputs are still to be inserted, and these. -/
def building : SubmitPc → Option (ℤ × List LinquTensor)
  | .scanning tid outputs _ _ _ => some (tid,outputs)
  | .registering tid outputs _ _ => some (tid,outputs)
  | _ => none

/-- The tensor is an output of the task. -/
def Made (s : LevelRuntime) (x : UInt64) (p : ℤ) : Prop :=
  Known s p ∧ ∃ out ∈ s.taskOutputs (s.taskRing.slot p), out.handle = x

/-- Where an input of a task comes from: it is ready, it is external, or a
producer of the task makes it. -/
def Source (s : LevelRuntime) (c : ℤ) (x : UInt64) : Prop :=
  s.tensorReady x = true ∨ x ∈ s.externalInputs (s.taskRing.slot c) ∨
    ∃ p ∈ s.faninList c, Made s x p

/-- The tasks are those of the requests, in their order. -/
structure Requested (reqs : List Request) (s : LevelRuntime) : Prop where
  enough : s.taskRing.currentIndex ≤ reqs.length
  pending : reqs.drop s.taskRing.currentIndex.toNat = asked s.submitter
  built : ∀ tid outputs, building s.submitter = some (tid,outputs) →
    s.taskOutputs (s.taskRing.slot tid) = outputs
  known : ∀ c, Known s c → ∃ req, reqs[c.toNat]? = some req ∧
    ∀ input ∈ req.inputs, input.isValid = true →
      input ∈ remaining s.submitter c ∨ Source s c input.handle
  map : Every (Made s) s.tensorMap

section Requests

variable {reqs : List Request}

/-- A step that keeps the tasks and what is known of their inputs. -/
structure Keeps (s s' : LevelRuntime) : Prop where
  current : s'.taskRing.currentIndex = s.taskRing.currentIndex
  slot : ∀ c, s'.taskRing.slot c = s.taskRing.slot c
  outputs : s'.taskOutputs = s.taskOutputs
  flags : ∀ x, s.tensorReady x = true → s'.tensorReady x = true
  inputs : ∀ c, Known s c → ∀ x ∈ s.externalInputs (s.taskRing.slot c),
    x ∈ s'.externalInputs (s.taskRing.slot c)
  producers : ∀ c, Known s c → ∀ p ∈ s.faninList c, p ∈ s'.faninList c

theorem Keeps.made (h : Keeps s s') {x : UInt64} {p : ℤ} (hp : Made s x p) : Made s' x p := by
  obtain ⟨hk,hout⟩ := hp
  refine ⟨⟨hk.1,h.current.symm ▸ hk.2⟩,?_⟩
  rw [h.outputs, h.slot]
  exact hout

theorem Keeps.source (h : Keeps s s') {c : ℤ} {x : UInt64} (hc : Known s c)
    (hx : Source s c x) : Source s' c x := by
  rcases hx with hx | hx | ⟨p,hp,hmade⟩
  · exact Or.inl (h.flags x hx)
  · right; left
    rw [h.slot]
    exact h.inputs c hc x hx
  · exact Or.inr (Or.inr ⟨p,h.producers c hc p hp,h.made hmade⟩)

theorem Requested.frame (h : Requested reqs s) (hk : Keeps s s')
    (hasked : asked s'.submitter = asked s.submitter)
    (hbuilt : ∀ b, building s'.submitter = some b → building s.submitter = some b)
    (hrem : ∀ c, Known s c → ∀ input ∈ remaining s.submitter c, input.isValid = true →
      input ∈ remaining s'.submitter c ∨ Source s' c input.handle)
    (hmap : Every (Made s) s'.tensorMap) : Requested reqs s' := by
  constructor
  case enough =>
    rw [hk.current]
    exact h.enough
  case pending =>
    rw [hk.current, hasked]
    exact h.pending
  case built =>
    intro tid outputs hb
    rw [hk.outputs, hk.slot]
    exact h.built tid outputs (hbuilt _ hb)
  case known =>
    intro c hc
    have hc : Known s c := ⟨hc.1,hk.current ▸ hc.2⟩
    obtain ⟨req,hreq,hin⟩ := h.known c hc
    refine ⟨req,hreq,fun input hmem hvalid => ?_⟩
    rcases hin input hmem hvalid with hr | hsrc
    · exact hrem c hc input hr hvalid
    · exact Or.inr (hk.source hc hsrc)
  case map => exact hmap.mono fun x p hp => hk.made hp

/-- A step of another thread. -/
theorem Requested.keep (h : Requested reqs s) (hk : Keeps s s') (hsub : s'.submitter = s.submitter)
    (hpool : s'.tensorMap.pool = s.tensorMap.pool) : Requested reqs s' := by
  refine h.frame hk (by rw [hsub]) (fun b hb => hsub ▸ hb) (fun c _ input hi _ => Or.inl ?_)
    (h.map.of_pool hpool)
  rw [hsub]
  exact hi

theorem keeps_refl (s : LevelRuntime) : Keeps s s :=
  ⟨rfl,fun _ => rfl,rfl,fun _ hx => hx,fun _ _ _ hx => hx,fun _ _ _ hp => hp⟩

theorem keeps_modify (s : LevelRuntime) (t : ℤ) {f : LinquTaskDescriptor → LinquTaskDescriptor}
    (hf : ∀ d, (f d).depListHead = d.depListHead) : Keeps s (s.modify t f) := by
  refine ⟨rfl,fun _ => rfl,rfl,fun _ hx => hx,fun _ _ _ hx => hx,fun c _ p hp => ?_⟩
  rw [faninList_modify hf]
  exact hp

theorem Keeps.trans {s'' : LevelRuntime} (h : Keeps s s') (h' : Keeps s' s'') : Keeps s s'' := by
  have hk : ∀ c, Known s c → Known s' c := fun c hc => ⟨hc.1,h.current.symm ▸ hc.2⟩
  refine ⟨h'.current.trans h.current,fun c => (h'.slot c).trans (h.slot c),
    h'.outputs.trans h.outputs,fun x hx => h'.flags x (h.flags x hx),fun c hc x hx => ?_,
    fun c hc p hp => h'.producers c (hk c hc) p (h.producers c hc p hp)⟩
  have := h'.inputs c (hk c hc) x (by rw [h.slot]; exact h.inputs c hc x hx)
  rwa [h.slot] at this

theorem keeps_advance (s : LevelRuntime) : Keeps s s.tryAdvanceRingPointers ∧
    s.tryAdvanceRingPointers.submitter = s.submitter ∧
    s.tryAdvanceRingPointers.tensorMap.pool = s.tensorMap.pool := by
  obtain ⟨tm,heap,hpool,heq⟩ := tryAdvance_spec s
  rw [heq]
  exact ⟨⟨rfl,fun _ => rfl,rfl,fun _ hx => hx,fun _ _ _ hx => hx,fun _ _ _ hp => hp⟩,rfl,hpool⟩

theorem keeps_walk (s : LevelRuntime) (t : ℤ) : Keeps s (s.walkFanout t) ∧
    (s.walkFanout t).submitter = s.submitter ∧
    (s.walkFanout t).tensorMap.pool = s.tensorMap.pool := by
  obtain ⟨ring,queue,enqueues,heq,hwin,hcur⟩ := walkFanout_frame s t
  have hn : ∀ c, (s.walkFanout t).faninList c = s.faninList c :=
    foldl_rule (P := fun _ u => ∀ c, u.faninList c = s.faninList c)
      (fun c _ u hu e => ((notifyConsumer_notified u c).faninList e).trans (hu e))
      (s.fanoutList t) (s := s.recordWalk t) (fun _ => rfl)
  rw [heq] at hn ⊢
  refine ⟨⟨hcur,fun c => ?_,rfl,fun _ hx => hx,fun _ _ _ hx => hx,fun c _ p hp => ?_⟩,rfl,rfl⟩
  · change ring.slot c = s.taskRing.slot c
    rw [LinquTaskRing.slot, LinquTaskRing.slot, hwin]
  · rw [hn]
    exact hp

/-- Workers, schedulers and other levels keep the tasks as they are. -/
theorem keeps_others (hm : Move s a s') (hsub : a ≠ .submit) (hcall : ∀ req, a ≠ .call req) :
    Keeps s s' ∧ s'.submitter = s.submitter ∧ s'.tensorMap.pool = s.tensorMap.pool := by
  have hstatus : ∀ (u : LevelRuntime) (t : ℤ) (v : Status), Keeps u (u.setStatus t v) :=
    fun u t v => keeps_modify u t (fun _ => by rfl)
  have hset : ∀ {u u' : LevelRuntime}, Keeps u u' → u'.submitter = u.submitter →
      u'.tensorMap.pool = u.tensorMap.pool → ∀ (w : ℕ) (pc : WorkerPc),
      Keeps u (u'.setWorker w pc) ∧ (u'.setWorker w pc).submitter = u.submitter ∧
        (u'.setWorker w pc).tensorMap.pool = u.tensorMap.pool :=
    fun hk h1 h2 _ _ => ⟨⟨hk.current,hk.slot,hk.outputs,hk.flags,hk.inputs,hk.producers⟩,h1,h2⟩
  have hsched : ∀ {u u' : LevelRuntime}, Keeps u u' → u'.submitter = u.submitter →
      u'.tensorMap.pool = u.tensorMap.pool → ∀ (k : ℕ) (pc : SchedulePc),
      Keeps u (u'.setScheduler k pc) ∧ (u'.setScheduler k pc).submitter = u.submitter ∧
        (u'.setScheduler k pc).tensorMap.pool = u.tensorMap.pool :=
    fun hk h1 h2 _ _ => ⟨⟨hk.current,hk.slot,hk.outputs,hk.flags,hk.inputs,hk.producers⟩,h1,h2⟩
  cases hm with
  | call hpc => exact absurd rfl (hcall _)
  | start hpc => exact hset (hstatus s _ _) rfl rfl _ _
  | @ran w tid hpc =>
    have hk : Keeps s (s.markOutputs (s.taskOutputs (s.taskRing.slot tid))) :=
      ⟨rfl,fun _ => rfl,rfl,fun _ => markOutputs_mono s _,fun _ _ _ hx => hx,fun _ _ _ hp => hp⟩
    exact hset hk rfl rfl w _
  | complete hpc => exact hset (hstatus s _ _) rfl rfl _ _
  | @walk w t hpc =>
    obtain ⟨hk,h1,h2⟩ := keeps_walk s t
    exact hset hk h1 h2 w _
  | @release w tid producer ps hpc =>
    exact hset (keeps_modify s producer (fun _ => by rfl)) rfl rfl w _
  | consume hpc => exact hset (hstatus s _ _) rfl rfl _ _
  | retire hpc =>
    obtain ⟨hk,h1,h2⟩ := keeps_advance s
    exact hset hk h1 h2 _ _
  | @raise k i cur hpc hlt hready hk =>
    exact hsched (keeps_modify s i (fun _ => by rfl)) rfl rfl k _
  | promote hpc hcnt hst => exact hsched (hstatus s _ _) rfl rfl _ _
  | @markReady handle =>
    exact ⟨⟨rfl,fun _ => rfl,rfl,fun _ => markReady_mono s handle,fun _ _ _ hx => hx,
      fun _ _ _ hp => hp⟩,rfl,rfl⟩
  | alloc | advance | spin | link | push | skip | buffers | register | storeFanin | storeReady
  | storePending | expose | satisfied | unsatisfied | claim | lost | enqueue =>
    exact absurd rfl hsub
  | _ =>
    exact ⟨⟨rfl,fun _ => rfl,rfl,fun _ hx => hx,fun _ _ _ hx => hx,fun _ _ _ hp => hp⟩,rfl,rfl⟩

/-- A scanned input is linked to its producer, recorded, or ready. -/
theorem scanInput_cases {tid : ℤ} {outputs more : List LinquTensor} {input : LinquTensor}
    {fanin : ℕ} {ps : List ℤ} (h : s.scanInput tid outputs more fanin ps input = some s') :
    (∃ producer m, s.tensorMap.lookup input.handle = some (some producer) ∧
      s.linkFanin tid producer = some m ∧
      s' = m.setSubmitter (.scanning tid outputs more (fanin+1) (ps++[producer]))) ∨
    s' = (s.pushExternal tid input.handle).setSubmitter
      (.scanning tid outputs more (fanin+1) ps) ∨
    (input.isValid = true → s.tensorReady input.handle = true) ∧
      s' = s.setSubmitter (.scanning tid outputs more fanin ps) := by
  unfold scanInput at h
  split at h
  · obtain ⟨found,hlook,h⟩ := Option.bind_eq_some_iff.mp h
    cases found with
    | some producer =>
      obtain ⟨m,hm,h⟩ := Option.bind_eq_some_iff.mp h
      cases h
      exact Or.inl ⟨producer,m,hlook,hm,rfl⟩
    | none =>
      dsimp only at h
      split at h
      · rename_i hready
        cases h
        exact Or.inr (Or.inr ⟨fun _ => hready,rfl⟩)
      · cases h
        exact Or.inr (Or.inl rfl)
  · rename_i hvalid
    cases h
    exact Or.inr (Or.inr ⟨fun hv => absurd hv hvalid,rfl⟩)

/-- The scan goes on to the next input, whose source is known then. -/
theorem Requested.scanned (h : Requested reqs s) (hk : Keeps s s') {tid : ℤ} {input : LinquTensor}
    {outputs more : List LinquTensor} {fanin fanin' : ℕ} {ps ps' : List ℤ}
    (hpc : s.submitter = .scanning tid outputs (input::more) fanin ps)
    (hpc' : s'.submitter = .scanning tid outputs more fanin' ps')
    (hsrc : input.isValid = true → Source s' tid input.handle)
    (hpool : s'.tensorMap.pool = s.tensorMap.pool) : Requested reqs s' := by
  refine h.frame hk (by rw [hpc, hpc']; rfl) (fun b hb => ?_) (fun c _ x hx hvalid => ?_)
    (h.map.of_pool hpool)
  · rw [hpc'] at hb
    rw [hpc]
    exact hb
  · rw [hpc, remaining] at hx
    rw [hpc', remaining]
    by_cases hct : c = tid
    · subst hct
      rw [if_pos rfl] at hx ⊢
      rcases List.mem_cons.mp hx with rfl | hx
      · exact Or.inr (hsrc hvalid)
      · exact Or.inl hx
    · rw [if_neg hct] at hx
      cases hx

theorem Requested.scan (hw : Wired exact {} s) (h : Requested reqs s) {tid : ℤ}
    {input : LinquTensor} {outputs more : List LinquTensor} {fanin : ℕ} {ps : List ℤ}
    (hpc : s.submitter = .scanning tid outputs (input::more) fanin ps)
    (hs : s.scanInput tid outputs more fanin ps input = some s') : Requested reqs s' := by
  have hsub := hw.laid.submitter
  rw [hpc] at hsub
  have htid : Known s tid := Newest.known hsub.1
  rcases scanInput_cases hs with ⟨producer,m,hlook,hm,rfl⟩ | rfl | ⟨hready,rfl⟩
  · have hlists := hw.laid.linkFanin_lists hm
    have hmade := lookup_every h.map hlook
    obtain ⟨idx,pool,-,heq⟩ := linkFanin_spec hm
    have hk : Keeps s m := by
      refine ⟨by rw [heq]; rfl,fun c => by rw [heq]; rfl,by rw [heq]; rfl,fun x hx => ?_,
        fun c _ x hx => ?_,fun c _ p hp => ?_⟩
      · rw [heq]
        exact hx
      · rw [heq]
        exact hx
      · rw [(hlists c).1]
        split
        · exact List.mem_cons_of_mem _ hp
        · exact hp
    have hmem : producer ∈ m.faninList tid := by
      rw [(hlists tid).1, if_pos rfl]
      exact List.mem_cons_self
    have hset : ∀ pc, Keeps s (m.setSubmitter pc) := fun _ =>
      ⟨hk.current,hk.slot,hk.outputs,hk.flags,hk.inputs,hk.producers⟩
    refine h.scanned (hset _) hpc rfl (fun _ => ?_) (by rw [heq]; rfl)
    exact Or.inr (Or.inr ⟨producer,hmem,hk.made hmade⟩)
  · have hlists := fun c => push_lists (c := c) hw.placed htid input.handle
    refine h.scanned ⟨rfl,fun _ => rfl,rfl,fun _ hx => hx,fun c hc x hx => ?_,
      fun _ _ _ hp => hp⟩ hpc rfl (fun _ => ?_) rfl
    · change x ∈ (s.pushExternal tid input.handle).externalInputs (s.taskRing.slot c)
      rw [(hlists c hc).1]
      exact List.mem_append_left _ hx
    · refine Or.inr (Or.inl ?_)
      change _ ∈ (s.pushExternal tid input.handle).externalInputs (s.taskRing.slot tid)
      rw [(hlists tid htid).1, if_pos rfl]
      exact List.mem_append_right _ (List.mem_singleton_self _)
  · refine h.scanned ⟨rfl,fun _ => rfl,rfl,fun _ hx => hx,fun _ _ _ hx => hx,
      fun _ _ _ hp => hp⟩ hpc rfl (fun hv => Or.inl (hready hv)) rfl

theorem Requested.alloc {req : Request} {spins : ℕ} (hw : Wired exact {} s)
    (h : Requested reqs s) (hle : s'.taskRing.currentIndex ≤ s'.taskRing.windowSize)
    (hpc : s.submitter = .waiting req spins) (halloc : s.allocTask req = some s') :
    Requested reqs s' := by
  have ha := allocTask_spec halloc
  obtain ⟨hflags,houts⟩ := allocTask_outputs halloc
  have hg := Allocates.grown ha hw.laid hle
  have hslot : ∀ c, s'.taskRing.slot c = s.taskRing.slot c := fun c => by
    rw [LinquTaskRing.slot, LinquTaskRing.slot, ha.window]
  have h0 : 0 ≤ s.taskRing.currentIndex :=
    hw.laid.windowed.alive_nonneg.trans hw.laid.windowed.alive_le
  have hasked := h.pending
  rw [hpc] at hasked
  have hmade : ∀ x p, Made s x p → Made s' x p := by
    rintro x p ⟨hk,hout⟩
    refine ⟨(hg.known p).mpr (Or.inl hk),?_⟩
    rw [houts, hslot, Function.update_of_ne (Allocates.get_known ha hw.laid hle hk).1]
    exact hout
  obtain ⟨n,hn⟩ := Int.eq_ofNat_of_zero_le h0
  rw [hn, Int.toNat_natCast] at hasked
  have hlen : reqs.length = n+1 := by
    have := congrArg List.length hasked
    rw [List.length_drop] at this
    have hone : (asked (.waiting req spins)).length = 1 := rfl
    omega
  have hget : reqs[n]? = some req := by
    have := congrArg (fun l : List Request => l[0]?) hasked
    simpa [asked] using this
  constructor
  case enough =>
    rw [ha.current, hn, hlen]
    exact le_rfl
  case pending =>
    rw [ha.current, ha.submitter, hn, List.drop_of_length_le (by omega)]
    rfl
  case built =>
    intro tid outputs hb
    rw [ha.submitter] at hb
    cases hb
    rw [houts, hslot, Function.update_self]
  case known =>
    intro c hc
    rcases (hg.known c).mp hc with hk | rfl
    · obtain ⟨r,hr,hin⟩ := h.known c hk
      refine ⟨r,hr,fun input hi hvalid => ?_⟩
      have hne := (Allocates.get_known ha hw.laid hle hk).1
      rcases hin input hi hvalid with hrem | hx | hx | ⟨p,hp,hx⟩
      · rw [hpc] at hrem
        cases hrem
      · refine Or.inr (Or.inl ?_)
        rw [hflags]
        exact hx
      · refine Or.inr (Or.inr (Or.inl ?_))
        rw [hslot, ha.externalInputs, Function.update_of_ne hne]
        exact hx
      · refine Or.inr (Or.inr (Or.inr ⟨p,?_,hmade _ p hx⟩))
        rw [hg.faninList c hk]
        exact hp
    · refine ⟨req,by rw [hn, Int.toNat_natCast]; exact hget,fun input hi _ => Or.inl ?_⟩
      rw [ha.submitter, remaining, if_pos rfl]
      exact hi
  case map =>
    rw [ha.tensorMap]
    exact h.map.mono hmade

theorem inserts_every {P : UInt64 → ℤ → Prop} {outputs : List LinquTensor}
    {tm tm' : LinquTensorMap} (hall : Every P tm) (hnew : ∀ out ∈ outputs, P out.handle t)
    (h : outputs.foldlM (fun tm out => LinquTensorMap.insert tm out.handle t true) tm = some tm') :
    Every P tm' := by
  induction outputs generalizing tm with
  | nil => cases h; exact hall
  | cons out outputs ih =>
    rw [List.foldlM_cons] at h
    obtain ⟨m,hm,h⟩ := Option.bind_eq_some_iff.mp h
    obtain ⟨hout,hrest⟩ := List.forall_mem_cons.mp hnew
    exact ih (insert_every hall hout hm) hrest h

/-- The submitting thread works off one request after the other. -/
theorem requested_submit (hw : Wired exact {} s) (h : Requested reqs s)
    (hle : s'.taskRing.currentIndex ≤ s'.taskRing.windowSize) (hs : Steps s .submit s') :
    Requested reqs s' := by
  have hm := step_move hs
  have hquiet : ∀ {u : LevelRuntime} {pc : SubmitPc}, Keeps s u →
      u.tensorMap.pool = s.tensorMap.pool → asked pc = asked s.submitter → building pc = none →
      (∀ c, remaining s.submitter c = []) → Requested reqs (u.setSubmitter pc) := by
    intro u pc hk hpool hasked hb hrem
    refine h.frame ⟨hk.current,hk.slot,hk.outputs,hk.flags,hk.inputs,hk.producers⟩ hasked
      (fun b hb' => ?_) (fun c _ x hx => ?_) (h.map.of_pool hpool)
    · change building pc = some b at hb'
      rw [hb] at hb'
      cases hb'
    · rw [hrem c] at hx
      cases hx
  cases hm with
  | alloc hpc ha => exact h.alloc hw hle hpc ha
  | advance hpc =>
    obtain ⟨hk,h1,h2⟩ := keeps_advance s
    exact h.keep hk h1 h2
  | spin hpc =>
    obtain ⟨hk,h1,h2⟩ := keeps_advance s
    exact hquiet hk h2 (by rw [hpc]; rfl) rfl (fun c => by rw [hpc]; rfl)
  | link hpc hlook hl =>
    rw [Steps, step, submitStep, hpc] at hs
    exact h.scan hw hpc hs
  | push hpc hvalid hlook hready =>
    rw [Steps, step, submitStep, hpc] at hs
    exact h.scan hw hpc hs
  | skip hpc =>
    rw [Steps, step, submitStep, hpc] at hs
    exact h.scan hw hpc hs
  | buffers hpc hb =>
    obtain ⟨heap,rfl⟩ := allocBuffers_spec hb
    refine h.frame ⟨rfl,fun _ => rfl,rfl,fun _ hx => hx,fun _ _ _ hx => hx,fun _ _ _ hp => hp⟩
      (by rw [hpc]; rfl) (fun b hb => ?_) (fun c _ x hx => ?_) h.map
    · rw [hpc]
      exact hb
    · rw [hpc, remaining] at hx
      split at hx <;> cases hx
  | @register tid fanin outputs producers m hpc hr =>
    obtain ⟨tm,scopes,top,htm,rfl⟩ := registerTask_spec hr
    have hsub := hw.laid.submitter
    rw [hpc] at hsub
    have htid : Known s tid := Newest.known hsub.1
    have hout := h.built tid outputs (by rw [hpc]; rfl)
    have hmap : Every (Made s) tm := inserts_every h.map
      (fun out ho => ⟨htid,out,by rw [hout]; exact ho,rfl⟩) htm
    refine h.frame ?_ (by rw [hpc]; rfl) (fun b hb => by cases hb) (fun c _ x hx => ?_) hmap
    · have hk := keeps_modify { s with tensorMap := tm, scopeStack := scopes } tid
        (f := fun d => { d with heapEnd := top }) (fun _ => by rfl)
      exact ⟨hk.current,hk.slot,hk.outputs,hk.flags,hk.inputs,hk.producers⟩
    · rw [hpc] at hx
      cases hx
  | storeFanin hpc =>
    exact hquiet (keeps_modify s _ (fun _ => by rfl)) rfl (by rw [hpc]; rfl) rfl
      (fun c => by rw [hpc]; rfl)
  | storeReady hpc =>
    exact hquiet (keeps_modify s _ (fun _ => by rfl)) rfl (by rw [hpc]; rfl) rfl
      (fun c => by rw [hpc]; rfl)
  | storePending hpc h0 =>
    exact hquiet (keeps_modify s _ (fun _ => by rfl)) rfl (by rw [hpc]; rfl) rfl
      (fun c => by rw [hpc]; rfl)
  | @expose tid producer fanin ps m hpc he =>
    obtain ⟨m,hm,he⟩ := Option.bind_eq_some_iff.mp he
    have hlists := hw.laid.linkFanout_lists hm
    obtain ⟨idx,pool,-,heq⟩ := linkFanout_spec hm
    have hk : Keeps s m := by
      refine ⟨by rw [heq]; rfl,fun c => by rw [heq]; rfl,by rw [heq]; rfl,fun x hx => ?_,
        fun c _ x hx => ?_,fun c _ p hp => ?_⟩
      · rw [heq]
        exact hx
      · rw [heq]
        exact hx
      · rw [(hlists c).2]
        exact hp
    have hpool : m.tensorMap.pool = s.tensorMap.pool := by
      rw [heq]
      rfl
    cases he
    split
    · exact hquiet (hk.trans (keeps_modify m tid (fun _ => by rfl))) hpool (by rw [hpc]; rfl) rfl
        (fun c => by rw [hpc]; rfl)
    · exact hquiet hk hpool (by rw [hpc]; rfl) rfl (fun c => by rw [hpc]; rfl)
  | claim hpc hst =>
    exact hquiet (keeps_modify s _ (fun _ => by rfl)) rfl (by rw [hpc]; rfl) rfl
      (fun c => by rw [hpc]; rfl)
  | satisfied hpc hcnt =>
    exact hquiet (keeps_refl s) rfl (by rw [hpc]; rfl) rfl (fun c => by rw [hpc]; rfl)
  | unsatisfied hpc hlt =>
    exact hquiet (keeps_refl s) rfl (by rw [hpc]; rfl) rfl (fun c => by rw [hpc]; rfl)
  | lost hpc hst =>
    exact hquiet (keeps_refl s) rfl (by rw [hpc]; rfl) rfl (fun c => by rw [hpc]; rfl)
  | @enqueue tid hpc =>
    refine hquiet (u := s.enqueueReady tid) ?_ rfl (by rw [hpc]; rfl) rfl
      (fun c => by rw [hpc]; rfl)
    exact ⟨rfl,fun _ => rfl,rfl,fun _ hx => hx,fun _ _ _ hx => hx,fun _ _ _ hp => hp⟩

/-- A call adds its request to the list. -/
theorem requested_step (hw : Wired exact {} s) (h : Requested reqs s)
    (hle : s'.taskRing.currentIndex ≤ s'.taskRing.windowSize) (hs : Steps s a s') :
    Requested (reqs++requestOf a) s' := by
  by_cases hsub : a = .submit
  · subst hsub
    have hnil : requestOf .submit = [] := rfl
    rw [hnil, List.append_nil]
    exact requested_submit hw h hle hs
  · by_cases hcall : ∃ req, a = .call req
    · obtain ⟨req,rfl⟩ := hcall
      cases step_move hs with
      | call hpc =>
        have hp := h.pending
        have h0 : 0 ≤ s.taskRing.currentIndex :=
          hw.laid.windowed.alive_nonneg.trans hw.laid.windowed.alive_le
        rw [hpc] at hp
        have hlen : reqs.length = s.taskRing.currentIndex.toNat := by
          have hle := List.drop_eq_nil_iff.mp hp
          have hge := h.enough
          omega
        refine ⟨?_,?_,fun tid outputs hb => (by cases hb),fun c hc => ?_,h.map⟩
        · rw [List.length_append]
          exact h.enough.trans (by push_cast; omega)
        · change (reqs++[req]).drop s.taskRing.currentIndex.toNat = [req]
          rw [← hlen, List.drop_left]
        · obtain ⟨r,hr,hin⟩ := h.known c hc
          refine ⟨r,?_,fun input hi hvalid => ?_⟩
          · rw [List.getElem?_append_left (List.getElem?_eq_some_iff.mp hr).1]
            exact hr
          · rcases hin input hi hvalid with hrem | hsrc
            · rw [hpc] at hrem
              cases hrem
            · exact Or.inr hsrc
    · obtain ⟨hk,h1,h2⟩ := keeps_others (step_move hs) hsub (fun req he => hcall ⟨req,he⟩)
      have hnil : requestOf a = [] := by
        cases a with
        | call req => exact absurd ⟨req,rfl⟩ hcall
        | _ => rfl
      rw [hnil, List.append_nil]
      exact h.keep hk h1 h2

end Requests

/-- What a run without races keeps. -/
structure Served (reqs : List Request) (s : LevelRuntime) : Prop where
  wired : Wired True {} s
  supplied : Supplied s
  marked : Marked s
  requested : Requested reqs s

theorem Initial.served {cfg : LevelRuntimeConfig} (h : Initial cfg s)
    (hcap : cfg.taskRingWindow ≤ cfg.readyQueueCapacity) : Served [] s := by
  have hnone : ∀ c, ¬Known s c := fun c hc => by
    have h0 := hc.1
    have h1 := hc.2
    rw [h.current] at h1
    omega
  constructor
  case wired => exact Initial.wired h hcap
  case supplied =>
    exact ⟨fun c hc => absurd hc (hnone c),fun c hc => absurd hc (hnone c),
      fun c hc => absurd hc (hnone c),fun c hc => absurd hc (hnone c)⟩
  case marked =>
    constructor
    · rw [h.walks]
      exact fun p hp => by cases hp
    · intro w p hp
      rw [h.workers] at hp
      cases hp
  case requested =>
    constructor
    case enough =>
      rw [h.current]
      exact le_rfl
    case pending =>
      rw [h.submitter]
      exact List.drop_nil
    case built =>
      intro tid outputs hb
      rw [h.submitter] at hb
      cases hb
    case known => exact fun c hc => absurd hc (hnone c)
    case map =>
      intro i hi
      rw [h.map] at hi
      cases hi

theorem served_step {reqs : List Request} (h : Served reqs s) (hrace : NoRace s a)
    (hs : Steps s a s') : Served (reqs++requestOf a) s' := by
  have hm := step_move hs
  have hlate : LateScan s a := by
    cases a with
    | schedule k => exact fun i hi => (hrace i hi).1
    | _ => trivial
  have hw := wired_move h.wired hlate (fun _ => hrace) (fun hn => absurd trivial hn) hm
  exact ⟨hw,supplied_move h.wired h.supplied hw.placed hm,
    marked_move h.wired h.marked hw.placed hm,requested_step h.wired h.requested hw.placed hs⟩

theorem served_run {schedThreads workerThreads : ℤ} {cfg : LevelRuntimeConfig}
    {s₀ : LevelRuntime} {acts : List Act} (hinit : init schedThreads workerThreads cfg = some s₀)
    (hcap : cfg.taskRingWindow ≤ cfg.readyQueueCapacity) (hrun : Run Steps acts s₀ s)
    (hrace : Guarded Steps NoRace acts s₀) : Served (requests acts) s := by
  refine run_history (P := fun pre u => Served (requests pre) u) (fun pre u a u' hu hc ht => ?_)
    (Initial.served (init_spec hinit) hcap) hrace hrun
  rw [requests, List.flatMap_append, List.flatMap_singleton]
  exact served_step hu hc ht

theorem Served.ready {reqs : List Request} (h : Served reqs s) {c : ℤ} (hc : Known s c)
    (hstarted : (s.get c).status ≠ .pending) : ∃ req, reqs[c.toNat]? = some req ∧
      ∀ input ∈ req.inputs, input.isValid = true → s.tensorReady input.handle = true := by
  obtain ⟨req,hget,hin⟩ := h.requested.known c hc
  obtain ⟨hprep,hdone⟩ := h.wired.owned.started c hc hstarted
  refine ⟨req,hget,fun input hi hvalid => ?_⟩
  rcases hin input hi hvalid with hrem | hx | hx | ⟨p,hp,hk,out,ho,hout⟩
  · revert hrem hprep
    cases s.submitter with
    | scanning tid outputs inputs fanin ps =>
      intro hprep hrem
      rw [remaining, if_neg (fun he => hprep (by rw [he]; rfl))] at hrem
      cases hrem
    | _ =>
      intro hprep hrem
      cases hrem
  · exact hx
  · exact h.supplied.started c hc hstarted _ hx
  · rw [← hout]
    exact h.marked.walks p ((hdone trivial).2 p hp) out ho

/-- The second task waits for the first and for a tensor of another level. -/
def mixed : List Act := List.flatten [
  [.call ⟨"producer",[],[⟨1,4⟩]⟩],List.replicate 6 .submit,
  [.call ⟨"consumer",[⟨1,4⟩,⟨7,4⟩],[]⟩],List.replicate 9 .submit,
  List.replicate 5 (.work 0),[.markReady 7],List.replicate 6 (.schedule 0)]

end Linqu.LevelInputs
