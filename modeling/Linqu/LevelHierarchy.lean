import Linqu.LevelInputs
import Linqu.Simulation

/-!
# A hierarchy of level runtimes

Every level has its threads and rings; the ready flag of a tensor is one for
all levels. What a level sees of a run of the hierarchy is a run of its own, in
which other levels mark tensors ready. Schedulers resolve the edges to lower
levels by polling the flags: in a hierarchy that has come to rest, an unfinished
task waits in the end for a tensor from outside, and a task that has started
finds its inputs made by tasks that have returned.
-/

set_option autoImplicit false

namespace Linqu.LevelHierarchy
open Linqu.TaskRing Linqu.Transition Linqu.Simulation
open Linqu.Level Linqu.Level.LevelRuntime Linqu.LevelMoves Linqu.LevelLayout Linqu.LevelWiring
open Linqu.LevelSubmission Linqu.LevelOrder Linqu.LevelProgress Linqu.LevelInputs

/-- The level runtimes of a process, from the lowest level up. -/
abbrev Hierarchy (n : ℕ) := Fin n → LevelRuntime

variable {n : ℕ}

def withFlags (s : LevelRuntime) (flags : UInt64 → Bool) : LevelRuntime :=
  { s with tensorReady := flags }

/-- One level takes a step. All levels see the flags that it sets. -/
def step (h : Hierarchy n) (a : Fin n × Act) : Option (Hierarchy n) :=
  (Level.step (h a.1) a.2).map fun s j => if j = a.1 then s else withFlags (h j) s.tensorReady

def Steps (h : Hierarchy n) (a : Fin n × Act) (h' : Hierarchy n) : Prop := step h a = some h'

/-- A condition on the steps of every level. -/
def Each (cond : LevelRuntime → Act → Prop) (h : Hierarchy n) (a : Fin n × Act) : Prop :=
  cond (h a.1) a.2

instance (cond : LevelRuntime → Act → Prop) [∀ s, DecidablePred (cond s)] (h : Hierarchy n)
    (a : Fin n × Act) : Decidable (Each cond h a) :=
  inferInstanceAs (Decidable (cond (h a.1) a.2))

/-- The levels agree on the flags. -/
def Shared (h : Hierarchy n) : Prop := ∀ i j, (h i).tensorReady = (h j).tensorReady

/-- The handles whose flags a step sets. -/
def marked (s : LevelRuntime) : Act → List UInt64
  | .markReady x => [x]
  | .work w =>
    match s.workers w with
    | .running t => (s.taskOutputs (s.taskRing.slot t)).map (·.handle)
    | _ => []
  | _ => []

def setFlags (flags : UInt64 → Bool) (xs : List UInt64) : UInt64 → Bool :=
  fun x => decide (x ∈ xs) || flags x

variable {h h' : Hierarchy n} {s s' : LevelRuntime} {a : Act}

theorem setFlags_cons (flags : UInt64 → Bool) (x : UInt64) (xs : List UInt64) :
    setFlags flags (x::xs) = setFlags (Function.update flags x true) xs := by
  funext y
  by_cases hy : y = x
  · simp [setFlags, hy]
  · simp [setFlags, hy]

theorem move_flags (hm : Move s a s') : s'.tensorReady = setFlags s.tensorReady (marked s a) := by
  have hnil : setFlags s.tensorReady [] = s.tensorReady := by
    funext x
    simp [setFlags]
  have hworker : ∀ {w : ℕ} {pc : WorkerPc}, s.workers w = pc → (∀ t, pc ≠ .running t) →
      s.tensorReady = setFlags s.tensorReady (marked s (.work w)) := by
    intro w pc hpc hne
    rw [marked, hpc]
    cases pc with
    | running t => exact absurd rfl (hne t)
    | _ => exact hnil.symm
  cases hm with
  | alloc hpc ha =>
    rw [(allocTask_outputs ha).1]
    exact hnil.symm
  | advance hpc =>
    obtain ⟨tm,heap,-,heq⟩ := tryAdvance_spec s
    rw [heq]
    exact hnil.symm
  | spin hpc =>
    obtain ⟨tm,heap,-,heq⟩ := tryAdvance_spec s
    rw [heq]
    exact hnil.symm
  | link hpc hlook hl =>
    obtain ⟨idx,pool,-,rfl⟩ := linkFanin_spec hl
    exact hnil.symm
  | buffers hpc hb =>
    obtain ⟨heap,rfl⟩ := allocBuffers_spec hb
    exact hnil.symm
  | register hpc hr =>
    obtain ⟨tm,scopes,top,-,rfl⟩ := registerTask_spec hr
    exact hnil.symm
  | expose hpc he =>
    obtain ⟨m,hm,he⟩ := Option.bind_eq_some_iff.mp he
    obtain ⟨idx,pool,-,rfl⟩ := linkFanout_spec hm
    cases he
    split <;> exact hnil.symm
  | @ran w t hpc =>
    funext x
    rw [marked, hpc]
    change (List.any _ (fun out : LinquTensor => out.handle == x) || s.tensorReady x) = _
    simp [setFlags, List.any_eq]
  | @walk w t hpc =>
    obtain ⟨ring,queue,enqueues,heq,-⟩ := walkFanout_frame s t
    rw [heq]
    exact hworker hpc (fun _ he => by cases he)
  | retire hpc =>
    obtain ⟨tm,heap,-,heq⟩ := tryAdvance_spec s
    rw [heq]
    exact hworker hpc (fun _ he => by cases he)
  | dequeueNone hpc | dequeue hpc | start hpc | complete hpc | release hpc | released hpc
  | consumable hpc | kept hpc | consume hpc | retained hpc =>
    exact hworker hpc (fun _ he => by cases he)
  | @markReady x =>
    funext y
    by_cases hy : y = x
    · simp [marked, setFlags, hy]
    · simp [marked, setFlags, hy]
  | _ => exact hnil.symm

/-- What the other levels mark is marked by the environment of a level. -/
theorem run_marks (s : LevelRuntime) (xs : List UInt64) :
    Run Level.Steps (xs.map .markReady) s (withFlags s (setFlags s.tensorReady xs)) := by
  induction xs generalizing s with
  | nil =>
    have hnil : setFlags s.tensorReady [] = s.tensorReady := by
      funext x
      simp [setFlags]
    rw [hnil]
    rfl
  | cons x xs ih =>
    have hrun := ih { s with tensorReady := Function.update s.tensorReady x true }
    rw [← setFlags_cons] at hrun
    exact ⟨_,rfl,hrun⟩

section Views

variable {cond : LevelRuntime → Act → Prop}

theorem guarded_marks (hmark : ∀ s x, cond s (.markReady x)) (s : LevelRuntime)
    (xs : List UInt64) : Guarded Level.Steps cond (xs.map .markReady) s := by
  induction xs generalizing s with
  | nil => trivial
  | cons x xs ih => exact ⟨hmark s x,fun m _ => ih m⟩

theorem marks_path (hmark : ∀ s x, cond s (.markReady x)) (s : LevelRuntime) (xs : List UInt64) :
    Leads Level.Steps cond requestOf s (withFlags s (setFlags s.tensorReady xs)) [] := by
  refine ⟨xs.map .markReady,run_marks s xs,guarded_marks hmark s xs,?_⟩
  induction xs with
  | nil => rfl
  | cons x xs ih => exact ih

theorem steps_functional : Functional Level.Steps := by
  intro s a u v hu hv
  exact Option.some.inj (hu.symm.trans hv)

/-- The requests of a step that are made to the level. -/
def requestAt (j : Fin n) (a : Fin n × Act) : List Request := if a.1 = j then requestOf a.2 else []

def requestsAt (j : Fin n) (acts : List (Fin n × Act)) : List Request := acts.flatMap (requestAt j)

theorem step_spec {a : Fin n × Act} (hs : Steps h a h') :
    Level.Steps (h a.1) a.2 (h' a.1) ∧
      ∀ j ≠ a.1, h' j = withFlags (h j) (h' a.1).tensorReady := by
  obtain ⟨s',hs',rfl⟩ := Option.map_eq_some_iff.mp hs
  constructor
  · simp only [if_true]
    exact hs'
  · intro j hj
    simp only [if_neg hj, if_true]

/-- What a level sees of a step of the hierarchy. -/
theorem step_view (hmark : ∀ s x, cond s (.markReady x)) (hshared : Shared h) {a : Fin n × Act}
    (hc : Each cond h a) (hs : Steps h a h') (j : Fin n) :
    Leads Level.Steps cond requestOf (h j) (h' j) (requestAt j a) := by
  obtain ⟨hs',hothers⟩ := step_spec hs
  by_cases hj : j = a.1
  · subst hj
    rw [requestAt, if_pos rfl]
    exact Leads.single hs' hc
  · have hflags : (h' a.1).tensorReady = setFlags (h j).tensorReady (marked (h a.1) a.2) := by
      rw [hshared j a.1]
      exact move_flags (step_move hs')
    rw [requestAt, if_neg (Ne.symm hj), hothers j hj, hflags]
    exact marks_path hmark (h j) _

theorem shared_step {a : Fin n × Act} (hs : Steps h a h') : Shared h' := by
  have hall : ∀ i, (h' i).tensorReady = (h' a.1).tensorReady := by
    intro i
    by_cases hi : i = a.1
    · rw [hi]
    · rw [(step_spec hs).2 i hi]
      rfl
  exact fun i j => (hall i).trans (hall j).symm

/-- What a level has seen of a run. -/
structure Seen (cond : LevelRuntime → Act → Prop) (h₀ : Hierarchy n) (pre : List (Fin n × Act))
    (h : Hierarchy n) : Prop where
  shared : Shared h
  path : ∀ j, Leads Level.Steps cond requestOf (h₀ j) (h j) (requestsAt j pre)

theorem Seen.step {h₀ : Hierarchy n} {pre : List (Fin n × Act)}
    (hmark : ∀ s x, cond s (.markReady x)) (hseen : Seen cond h₀ pre h) {a : Fin n × Act}
    (hc : Each cond h a) (hs : Steps h a h') : Seen cond h₀ (pre++[a]) h' := by
  refine ⟨shared_step hs,fun j => ?_⟩
  rw [requestsAt, List.flatMap_append, List.flatMap_singleton]
  exact (hseen.path j).trans steps_functional (step_view hmark hseen.shared hc hs j)

theorem Seen.start (hshared : Shared h) : Seen cond h [] h :=
  ⟨hshared,fun _ => Leads.refl _⟩

theorem seen_run {h₀ : Hierarchy n} {acts : List (Fin n × Act)}
    (hmark : ∀ s x, cond s (.markReady x)) (hshared : Shared h₀) (hrun : Run Steps acts h₀ h)
    (hg : Guarded Steps (Each cond) acts h₀) : Seen cond h₀ acts h :=
  run_history (P := fun pre u => Seen cond h₀ pre u)
    (fun _ _ _ _ hu hc ht => hu.step hmark hc ht) (Seen.start hshared) hg hrun

end Views

/-- Every level is as its constructor leaves it. -/
def Fresh (h : Hierarchy n) : Prop :=
  ∀ j, ∃ schedThreads workerThreads cfg, init schedThreads workerThreads cfg = some (h j) ∧
    cfg.taskRingWindow ≤ cfg.readyQueueCapacity

theorem Fresh.unready (hf : Fresh h) (j : Fin n) (x : UInt64) : (h j).tensorReady x = false := by
  obtain ⟨_,_,cfg,hinit,-⟩ := hf j
  obtain ⟨ring,-,hinit⟩ := Option.bind_eq_some_iff.mp hinit
  obtain ⟨pool,-,hinit⟩ := Option.bind_eq_some_iff.mp hinit
  obtain ⟨tm,-,hinit⟩ := Option.bind_eq_some_iff.mp hinit
  rw [← Option.some.inj hinit]

theorem Fresh.shared (hf : Fresh h) : Shared h := by
  intro i j
  funext x
  rw [hf.unready i, hf.unready j]

section Deadlock

theorem marked_run {schedThreads workerThreads : ℤ} {cfg : LevelRuntimeConfig}
    {s₀ : LevelRuntime} {acts : List Act} (hinit : init schedThreads workerThreads cfg = some s₀)
    (hcap : cfg.taskRingWindow ≤ cfg.readyQueueCapacity) (hrun : Run Level.Steps acts s₀ s)
    (hlate : Guarded Level.Steps LateScan acts s₀)
    (hfit : s.taskRing.currentIndex ≤ s.taskRing.windowSize) : Marked s := by
  have hspec := init_spec hinit
  refine (run_invariant (P := fun u => u.taskRing.currentIndex ≤ u.taskRing.windowSize →
    Wired False {} u ∧ Marked u) (fun u a u' hu hl ht hle => ?_)
    (fun _ => ⟨Initial.wired hspec hcap,(Initial.served hspec hcap).marked⟩) hlate hrun hfit).2
  have hm := step_move ht
  obtain ⟨hwindow,hcur⟩ := move_current hm
  obtain ⟨hw,hk⟩ := hu (by omega)
  exact ⟨wired_move hw hl (fun he => he.elim) (fun _ => hle) hm,marked_move hw hk hle hm⟩

/-- The task waits for one of its own level, or for an output of a task of a
lower level. -/
def Awaits (h : Hierarchy n) (c p : Fin n × ℤ) : Prop :=
  p.1 = c.1 ∧ p.2 ∈ (h c.1).faninList c.2 ∨
    p.1 < c.1 ∧ ∃ x ∈ (h c.1).externalReady ((h c.1).taskRing.slot c.2),
      (h c.1).tensorReady x = false ∧ Made (h p.1) x p.2

/-- The task was submitted, and its fanout chain has not been walked. -/
def Unfinished (h : Hierarchy n) (c : Fin n × ℤ) : Prop :=
  Known (h c.1) c.2 ∧ c.2 ∉ (h c.1).walks

/-- Lower levels first, and older tasks within a level. -/
theorem before_wf : WellFounded (Prod.Lex (· < ·) fun p c : ℤ => 0 ≤ p ∧ p < c :
    Fin n × ℤ → Fin n × ℤ → Prop) :=
  WellFounded.prod_lex (wellFounded_lt : WellFounded ((· < ·) : Fin n → Fin n → Prop))
    Waiting.int_before_wf

/-- A hierarchy of levels with the default configuration. -/
def initAll (n : ℕ) : Option (Hierarchy n) := (init 1 1 {}).map fun s _ => s

theorem initAll_fresh (hi : initAll n = some h) : Fresh h := by
  obtain ⟨s,hs,rfl⟩ := Option.map_eq_some_iff.mp hi
  exact fun j => ⟨1,1,{},hs,by decide⟩

def lower : Fin 2 := (Fin.last 0).castSucc

def upper : Fin 2 := Fin.last 1

/-- A task of the upper level waits for one of the lower level, and that for a
tensor from outside. -/
def starved : List (Fin 2 × Act) := List.flatten [
  [(lower,.call ⟨"leaf",[⟨7,4⟩],[⟨1,4⟩]⟩)],List.replicate 7 (lower,.submit),
  [(upper,.call ⟨"root",[⟨1,4⟩],[]⟩)],List.replicate 7 (upper,.submit),
  List.replicate 3 (lower,.schedule 0),List.replicate 3 (upper,.schedule 0)]

end Deadlock

section Provenance

variable {exact : Prop} {x : UInt64} {p : ℤ}

/-- The function of the task has returned, and its outputs were marked. -/
def Returned (s : LevelRuntime) (p : ℤ) : Prop := p ∈ s.walks ∨ ∃ w, marks (s.workers w) = some p

/-- The tensor is an output of a task whose function has returned. -/
def Yielded (s : LevelRuntime) (x : UInt64) (p : ℤ) : Prop := Made s x p ∧ Returned s p

theorem Yielded.mono (h : Yielded s x p) (hmade : Made s x p → Made s' x p)
    (hwalk : ∀ q ∈ s.walks, q ∈ s'.walks)
    (hwork : ∀ w q, marks (s.workers w) = some q → Returned s' q) : Yielded s' x p := by
  refine ⟨hmade h.1,?_⟩
  rcases h.2 with hq | ⟨w,hq⟩
  · exact Or.inl (hwalk p hq)
  · exact hwork w p hq

theorem Yielded.keep (h : Yielded s x p) (hk : Keeps s s') (hwalk : s'.walks = s.walks)
    (hwork : s'.workers = s.workers) : Yielded s' x p := by
  refine h.mono hk.made (fun q hq => ?_) (fun w q hq => Or.inr ⟨w,?_⟩)
  · rw [hwalk]
    exact hq
  · rw [hwork]
    exact hq

theorem Yielded.setWorker (h : Yielded s x p) (w : ℕ) {pc : WorkerPc}
    (hpc : ∀ q, marks (s.workers w) = some q → marks pc = some q ∨ q ∈ s.walks) :
    Yielded (s.setWorker w pc) x p := by
  refine h.mono (fun hm => hm) (fun q hq => hq) (fun v q hq => ?_)
  by_cases hv : v = w
  · subst hv
    rcases hpc q hq with hm | hm
    · refine Or.inr ⟨v,?_⟩
      rw [workers_setWorker, if_pos rfl]
      exact hm
    · exact Or.inl hm
  · refine Or.inr ⟨v,?_⟩
    rw [workers_setWorker, if_neg hv]
    exact hq

/-- A step of a level keeps what its tasks have yielded. -/
theorem yielded_move (hw : Wired exact {} s)
    (hle : s'.taskRing.currentIndex ≤ s'.taskRing.windowSize) (hm : Move s a s')
    (h : Yielded s x p) : Yielded s' x p := by
  have hquiet : ∀ {w : ℕ} {pc pc' : WorkerPc} {u : LevelRuntime}, s.workers w = pc →
      marks pc = none → Keeps s u → u.walks = s.walks → u.workers = s.workers →
      Yielded (u.setWorker w pc') x p := by
    intro w pc pc' u hpc hnone hk hwalk hwork
    refine (h.keep hk hwalk hwork).setWorker w fun q hq => ?_
    rw [hwork, hpc, hnone] at hq
    cases hq
  have hsame : ∀ {u : LevelRuntime} (t : ℤ) (v : Status), Keeps u (u.setStatus t v) :=
    fun t v => keeps_modify _ t (fun _ => by rfl)
  cases hm with
  | alloc hpc ha =>
    have hspec := allocTask_spec ha
    obtain ⟨hflags,houts⟩ := allocTask_outputs ha
    have hslot : ∀ c, s'.taskRing.slot c = s.taskRing.slot c := fun c => by
      rw [LinquTaskRing.slot, LinquTaskRing.slot, hspec.window]
    refine h.mono (fun hm => ?_) (fun q hq => hspec.walks.symm ▸ hq)
      (fun w q hq => Or.inr ⟨w,hspec.workers.symm ▸ hq⟩)
    refine ⟨(Allocates.known_iff hspec hw.laid p).mpr (Or.inl hm.1),?_⟩
    rw [houts, hslot, Function.update_of_ne (Allocates.get_known hspec hw.laid hle hm.1).1]
    exact hm.2
  | advance hpc =>
    obtain ⟨tm,heap,-,heq⟩ := tryAdvance_spec s
    rw [heq]
    exact h
  | spin hpc =>
    obtain ⟨tm,heap,-,heq⟩ := tryAdvance_spec s
    rw [heq]
    exact h
  | link hpc hlook hl =>
    obtain ⟨idx,pool,-,rfl⟩ := linkFanin_spec hl
    exact h
  | buffers hpc hb =>
    obtain ⟨heap,rfl⟩ := allocBuffers_spec hb
    exact h
  | register hpc hr =>
    obtain ⟨tm,scopes,top,-,rfl⟩ := registerTask_spec hr
    exact h
  | expose hpc he =>
    obtain ⟨m,hm,he⟩ := Option.bind_eq_some_iff.mp he
    obtain ⟨idx,pool,-,rfl⟩ := linkFanout_spec hm
    cases he
    split
    · exact h
    · exact h
  | @dequeue w t queue hpc hq hpos hcount =>
    refine hquiet hpc rfl (u := { s with readyQueue := queue }) ?_ rfl rfl
    exact ⟨rfl,fun _ => rfl,rfl,fun _ hx => hx,fun _ _ _ hx => hx,fun _ _ _ hp => hp⟩
  | start hpc => exact hquiet hpc rfl (hsame _ _) rfl rfl
  | @ran w t hpc =>
    refine hquiet hpc rfl (u := s.markOutputs _) ?_ rfl rfl
    exact ⟨rfl,fun _ => rfl,rfl,fun _ => markOutputs_mono s _,fun _ _ _ hx => hx,
      fun _ _ _ hp => hp⟩
  | @complete w t hpc =>
    refine (h.keep (hsame t .completed) rfl rfl).setWorker w fun q hq => Or.inl ?_
    change marks (s.workers w) = some q at hq
    rw [hpc] at hq
    exact hq
  | @walk w t hpc =>
    obtain ⟨ring,queue,enqueues,heq,hwindow,hcur⟩ := walkFanout_frame s t
    have hwalked : Yielded (s.walkFanout t) x p := by
      rw [heq]
      refine h.mono (fun hm => ⟨⟨hm.1.1,hcur.symm ▸ hm.1.2⟩,?_⟩)
        (fun q hq => List.mem_cons_of_mem t hq) (fun v q hq => Or.inr ⟨v,hq⟩)
      rw [LinquTaskRing.slot, hwindow]
      exact hm.2
    refine hwalked.setWorker w fun q hq => Or.inr ?_
    rw [heq] at hq ⊢
    change marks (s.workers w) = some q at hq
    rw [hpc] at hq
    cases hq
    exact List.mem_cons_self
  | release hpc =>
    exact hquiet hpc rfl (keeps_modify s _ (fun _ => by rfl)) rfl rfl
  | released hpc => exact hquiet hpc rfl (keeps_refl s) rfl rfl
  | consumable hpc hdone hcount => exact hquiet hpc rfl (keeps_refl s) rfl rfl
  | kept hpc => exact hquiet hpc rfl (keeps_refl s) rfl rfl
  | consume hpc => exact hquiet hpc rfl (hsame _ _) rfl rfl
  | retire hpc =>
    obtain ⟨tm,heap,-,heq⟩ := tryAdvance_spec s
    refine hquiet hpc rfl (keeps_advance s).1 ?_ ?_
    · rw [heq]
    · rw [heq]
  | retained hpc => exact hquiet hpc rfl (keeps_refl s) rfl rfl
  | _ => exact h

/-- A flag is set from outside, or by a worker that has returned from a task. -/
theorem marked_yielded (hw : Wired exact {} s) (hm : Move s a s') (hx : x ∈ marked s a) :
    a = .markReady x ∨ ∃ p, Yielded s' x p := by
  cases hm with
  | @ran w t hpc =>
    rw [marked, hpc] at hx
    obtain ⟨out,hout,rfl⟩ := List.mem_map.mp hx
    have hlaid := hw.laid.workers w
    rw [hpc] at hlaid
    refine Or.inr ⟨t,⟨hlaid,out,hout,rfl⟩,Or.inr ⟨w,?_⟩⟩
    rw [workers_setWorker, if_pos rfl]
    rfl
  | @markReady y =>
    left
    rw [List.mem_singleton.mp hx]
  | dequeueNone hpc | dequeue hpc | start hpc | complete hpc | walk hpc | release hpc
  | released hpc | consumable hpc | kept hpc | consume hpc | retire hpc | retained hpc =>
    rw [marked, hpc] at hx
    cases hx
  | _ => cases hx

/-- The handles that were marked from outside. -/
def told (acts : List (Fin n × Act)) : List UInt64 :=
  acts.flatMap fun a => match a.2 with
    | .markReady x => [x]
    | _ => []

/-- Where the ready flags come from. -/
def Sourced (pre : List (Fin n × Act)) (h : Hierarchy n) : Prop :=
  ∀ j x, (h j).tensorReady x = true → x ∈ told pre ∨ ∃ i p, Yielded (h i) x p

theorem sourced_step {pre : List (Fin n × Act)} {b : Fin n × Act} (hw : Wired exact {} (h b.1))
    (hle : (h' b.1).taskRing.currentIndex ≤ (h' b.1).taskRing.windowSize)
    (hsourced : Sourced pre h) (hs : Steps h b h') : Sourced (pre++[b]) h' := by
  intro j y hy
  obtain ⟨hb,hothers⟩ := step_spec hs
  have hm := step_move hb
  have htold : told (pre++[b]) = told pre++told [b] := List.flatMap_append
  rw [shared_step hs j b.1, move_flags hm, setFlags, Bool.or_eq_true] at hy
  rcases hy with hnew | hold
  · rcases marked_yielded hw hm (of_decide_eq_true hnew) with hmark | ⟨q,hq⟩
    · left
      have hlast : told [b] = [y] := by simp [told, hmark]
      rw [htold, hlast]
      exact List.mem_append_right _ List.mem_cons_self
    · exact Or.inr ⟨b.1,q,hq⟩
  · rcases hsourced b.1 y hold with hin | ⟨i,q,hq⟩
    · left
      rw [htold]
      exact List.mem_append_left _ hin
    · refine Or.inr ⟨i,q,?_⟩
      by_cases hi : i = b.1
      · subst hi
        exact yielded_move hw hle hm hq
      · rw [hothers i hi]
        exact hq

/-- The task of the upper level starts once that of the lower one has returned. -/
def fed : List (Fin 2 × Act) := List.flatten [
  [(lower,.call ⟨"leaf",[],[⟨1,4⟩]⟩)],List.replicate 6 (lower,.submit),
  [(upper,.call ⟨"root",[⟨1,4⟩,⟨7,4⟩],[]⟩)],List.replicate 8 (upper,.submit),
  List.replicate 3 (lower,.work 0),[(lower,.markReady 7)],List.replicate 6 (upper,.schedule 0)]

end Provenance

end Linqu.LevelHierarchy
