import Linqu.ScopeArrays
import Linqu.Transition

/-!
# Scope tokens

A run interleaves the calls of the scope stack with what the rest of the
runtime does to the descriptors and to the set of live tasks. The task lists
of the open scopes form a stack of lists on which a call acts at the top
only, so a nested body leaves the lists below it alone.
-/

set_option autoImplicit false

namespace Linqu.ScopeTokens
open Linqu.ScopeStack Linqu.ScopeArrays Linqu.TaskRing Linqu.Transition

variable {δ : Type} [DecidableEq δ]

structure State (δ : Type) where
  stack : FlatScopeStack
  desc : δ → LinquTaskDescriptor
  live : ℤ → Bool

inductive ScopeCall (δ : Type) where
  | scopeBegin
  | addTask (taskId : ℤ)
  | scopeEnd
  /-- The rest of the runtime, which may free, allocate and retire tasks. -/
  | elsewhere (desc : δ → LinquTaskDescriptor) (live : ℤ → Bool)

def perform (getDesc : ℤ → δ) (s : State δ) : ScopeCall δ → Option (State δ)
  | .scopeBegin => s.stack.scopeBegin.map (fun stack => { s with stack })
  | .addTask t => (s.stack.addTask t).map (fun stack => { s with stack })
  | .scopeEnd => (s.stack.scopeEnd getDesc s.desc).map
      (fun r => { s with stack := r.1, desc := r.2 })
  | .elsewhere desc live => some { s with desc, live }

def step (getDesc : ℤ → δ) (s : State δ) (c : ScopeCall δ) (e : State δ) : Prop :=
  perform getDesc s c = some e

def start (maxDepth maxTasks : ℕ) (desc : δ → LinquTaskDescriptor) (live : ℤ → Bool) : State δ :=
  ⟨FlatScopeStack.init maxDepth maxTasks,desc,live⟩

/-- Every `scope_end` after `d` open scopes has its `scope_begin`, and all
are closed at the end. -/
def nested : ℕ → List (ScopeCall δ) → Bool
  | d, [] => d == 0
  | d, .scopeBegin::l => nested (d+1) l
  | 0, .scopeEnd::_ => false
  | d+1, .scopeEnd::l => nested d l
  | d, .addTask _::l => nested d l
  | d, .elsewhere _ _::l => nested d l

/-- The tasks added while `d` inner scopes are all closed. -/
def innermost : ℕ → List (ScopeCall δ) → List ℤ
  | _, [] => []
  | d, .scopeBegin::l => innermost (d+1) l
  | d, .scopeEnd::l => innermost (d-1) l
  | d, .addTask t::l => if d = 0 then t::innermost d l else innermost d l
  | d, .elsewhere _ _::l => innermost d l

def added : List (ScopeCall δ) → List ℤ
  | [] => []
  | .addTask t::l => t::added l
  | _::l => added l

/-- The task lists of the open scopes, innermost first, and last the tasks
added outside all scopes. -/
def cutLists : List ℤ → List ℕ → List (List ℤ)
  | tasks, [] => [tasks]
  | tasks, start::rest => tasks.drop start::cutLists (tasks.take start) rest

def taskLists (st : FlatScopeStack) : List (List ℤ) :=
  cutLists st.contents.scopeTasks st.contents.scopeBegins

/-- Exactly the descriptors of the ids whose task is not freed get a token. -/
def Tokens (getDesc : ℤ → δ) (ids : List ℤ) (desc desc' : δ → LinquTaskDescriptor) : Prop :=
  ∀ x, desc' x =
    if (∃ t ∈ ids, getDesc t = x) ∧ (desc x).taskFreed = false then
      { desc x with fanoutRefcount := (desc x).fanoutRefcount+1 }
    else desc x

/-- How much `fanout_refcount` of a live task grows when scopes end. -/
def received (getDesc : ℤ → δ) (t : ℤ) : List (ScopeCall δ) → State δ → ℤ
  | [], _ => 0
  | c::l, s => match perform getDesc s c with
    | none => 0
    | some e => received getDesc t l e+match c with
      | .scopeEnd => if s.live t then ((e.desc (getDesc t)).fanoutRefcount:ℤ)-
          (s.desc (getDesc t)).fanoutRefcount else 0
      | _ => 0

/-- The stored tasks are live, and live tasks have distinct descriptors. -/
structure Apart (getDesc : ℤ → δ) (s : State δ) : Prop where
  stored : ∀ t ∈ (taskLists s.stack).flatten, s.live t = true
  distinct : ∀ t u, s.live t = true → s.live u = true → getDesc t = getDesc u → t = u

/-- The begins lie in the used part, outer ones below inner ones. -/
def Cuts : ℕ → List ℕ → Prop
  | _, [] => True
  | n, start::rest => start ≤ n ∧ Cuts start rest

theorem Cuts.mono {n m : ℕ} (hnm : n ≤ m) {begins : List ℕ} (h : Cuts n begins) :
    Cuts m begins := by
  cases begins with
  | nil => trivial
  | cons b rest => exact ⟨h.1.trans hnm,h.2⟩

theorem length_cutLists (tasks : List ℤ) (begins : List ℕ) :
    (cutLists tasks begins).length = begins.length+1 := by
  induction begins generalizing tasks with
  | nil => simp [cutLists]
  | cons b rest ih => simp [cutLists, ih]

/-- What a call does to the stack of task lists. -/
def listStep : ScopeCall δ → List (List ℤ) → List (List ℤ)
  | .scopeBegin, l => []::l
  | .addTask _, [] => []
  | .addTask t, x::l => (x++[t])::l
  | .scopeEnd, l => l.tail
  | .elsewhere _ _, l => l

def track (calls : List (ScopeCall δ)) (l : List (List ℤ)) : List (List ℤ) :=
  calls.foldl (fun l c => listStep c l) l

omit [DecidableEq δ] in
/-- A nested body adds its own tasks to the list on top. -/
theorem track_nested (body : List (ScopeCall δ)) (xs : List (List ℤ)) (x : List ℤ)
    (l : List (List ℤ)) (h : nested xs.length body = true) :
    track body (xs++x::l) = (x++innermost xs.length body)::l := by
  induction body generalizing xs x with
  | nil =>
    have hxs : xs = [] := by simpa [nested] using h
    simp [track, innermost, hxs]
  | cons c body ih =>
    cases c with
    | scopeBegin => exact ih ([]::xs) x h
    | addTask t =>
      cases xs with
      | nil =>
        have hbody := ih [] (x++[t]) (by simpa [nested] using h)
        simpa [track, listStep, innermost] using hbody
      | cons y ys =>
        have hbody := ih ((y++[t])::ys) x (by simpa [nested] using h)
        simpa [track, listStep, innermost] using hbody
    | scopeEnd =>
      cases xs with
      | nil => simp [nested] at h
      | cons y ys => exact ih ys x (by simpa [nested] using h)
    | elsewhere desc live =>
      have hbody := ih xs x (by cases xs <;> simpa [nested] using h)
      simpa [track, listStep, innermost] using hbody

structure Ready (st : FlatScopeStack) : Prop where
  sized : st.Sized
  cuts : Cuts st.contents.scopeTasks.length st.contents.scopeBegins

theorem Ready.head_le {st : FlatScopeStack} (h : Ready st) :
    ∀ b ∈ st.contents.scopeBegins.head?, b ≤ st.scopeTasksSize := by
  intro b hb
  have hcuts := h.cuts
  rw [FlatScopeStack.length_tasks h.sized] at hcuts
  cases hl : st.contents.scopeBegins with
  | nil => simp [hl] at hb
  | cons c rest =>
    rw [hl] at hcuts hb
    cases hb
    exact hcuts.1

/-- The operations on the lists, seen as a stack of task lists. -/
theorem begin_lists {st st' : LinquScopeStack} (h : st.scopeBegin = some st')
    (hc : Cuts st.scopeTasks.length st.scopeBegins) :
    Cuts st'.scopeTasks.length st'.scopeBegins ∧
      cutLists st'.scopeTasks st'.scopeBegins = []::cutLists st.scopeTasks st.scopeBegins := by
  unfold LinquScopeStack.scopeBegin at h
  split at h
  · cases h
    exact ⟨⟨le_rfl,hc⟩,by simp [cutLists]⟩
  · cases h

theorem add_lists {st st' : LinquScopeStack} {t : ℤ} (h : st.addTask t = some st')
    (hc : Cuts st.scopeTasks.length st.scopeBegins) :
    Cuts st'.scopeTasks.length st'.scopeBegins ∧ ∃ x l,
      cutLists st.scopeTasks st.scopeBegins = x::l ∧
      cutLists st'.scopeTasks st'.scopeBegins = (x++[t])::l := by
  unfold LinquScopeStack.addTask at h
  split at h
  · cases h
    refine ⟨hc.mono (by simp),?_⟩
    cases hb : st.scopeBegins with
    | nil => exact ⟨st.scopeTasks,[],by simp [cutLists]⟩
    | cons b rest =>
      rw [hb] at hc
      exact ⟨_,_,rfl,by simp [cutLists, List.drop_append_of_le_length hc.1,
        List.take_append_of_le_length hc.1]⟩
  · cases h

theorem end_lists {st st' : LinquScopeStack} {ids : List ℤ} (h : st.scopeEnd = some (ids,st'))
    (hc : Cuts st.scopeTasks.length st.scopeBegins) :
    Cuts st'.scopeTasks.length st'.scopeBegins ∧
      cutLists st.scopeTasks st.scopeBegins = ids::cutLists st'.scopeTasks st'.scopeBegins := by
  unfold LinquScopeStack.scopeEnd at h
  split at h
  · cases h
  · rename_i b rest hb
    cases h
    rw [hb] at hc ⊢
    simp only [List.length_take, min_eq_left hc.1]
    exact ⟨hc.2,rfl⟩

/-- One call acts on the top of the task lists. -/
theorem perform_lists {getDesc : ℤ → δ} {s e : State δ} {c : ScopeCall δ} (h : Ready s.stack)
    (hs : step getDesc s c e) :
    Ready e.stack ∧ taskLists e.stack = listStep c (taskLists s.stack) := by
  cases c with
  | scopeBegin =>
    obtain ⟨stack,hstack,rfl⟩ := Option.map_eq_some_iff.mp hs
    have hlist : s.stack.contents.scopeBegin = some stack.contents := by
      rw [← FlatScopeStack.scopeBegin_contents h.sized, hstack]
      rfl
    have hlists := begin_lists hlist h.cuts
    exact ⟨⟨FlatScopeStack.scopeBegin_sized h.sized hstack,hlists.1⟩,hlists.2⟩
  | addTask t =>
    obtain ⟨stack,hstack,rfl⟩ := Option.map_eq_some_iff.mp hs
    have hlist : s.stack.contents.addTask t = some stack.contents := by
      rw [← FlatScopeStack.addTask_contents h.sized, hstack]
      rfl
    obtain ⟨hcuts,x,l,hx,hl⟩ := add_lists hlist h.cuts
    refine ⟨⟨FlatScopeStack.addTask_sized h.sized hstack,hcuts⟩,?_⟩
    simp [taskLists, hx, hl, listStep]
  | scopeEnd =>
    obtain ⟨⟨stack,desc⟩,hstack,rfl⟩ := Option.map_eq_some_iff.mp hs
    have hboth := FlatScopeStack.scopeEnd_contents getDesc h.sized h.head_le s.desc
    rw [hstack] at hboth
    obtain ⟨⟨ids,st'⟩,hlist,hcontents⟩ := Option.map_eq_some_iff.mp hboth.symm
    obtain ⟨rfl,-⟩ := Prod.mk.inj hcontents
    obtain ⟨hcuts,hl⟩ := end_lists hlist h.cuts
    exact ⟨⟨FlatScopeStack.scopeEnd_sized h.sized h.head_le hstack,hcuts⟩,
      (congrArg List.tail hl).symm⟩
  | elsewhere desc live =>
    cases hs
    exact ⟨h,rfl⟩

theorem run_lists {getDesc : ℤ → δ} {s e : State δ} {calls : List (ScopeCall δ)}
    (h : Ready s.stack) (hr : Run (step getDesc) calls s e) :
    Ready e.stack ∧ taskLists e.stack = track calls (taskLists s.stack) := by
  induction calls generalizing s with
  | nil =>
    cases hr
    exact ⟨h,rfl⟩
  | cons c calls ih =>
    obtain ⟨m,hm,hr⟩ := hr
    have hstep := perform_lists h hm
    have hrest := ih hstep.1 hr
    exact ⟨hrest.1,by rw [hrest.2, hstep.2]; rfl⟩

/-- The descriptors after `scope_end`. -/
theorem end_desc {getDesc : ℤ → δ} {s e : State δ} (h : Ready s.stack)
    (hs : step getDesc s .scopeEnd e) {ids : List ℤ} {l : List (List ℤ)}
    (hl : taskLists s.stack = ids::l) :
    e.desc = ids.foldl (giveToken getDesc) s.desc ∧ e.live = s.live := by
  obtain ⟨⟨stack,desc⟩,hstack,rfl⟩ := Option.map_eq_some_iff.mp hs
  have hboth := FlatScopeStack.scopeEnd_contents getDesc h.sized h.head_le s.desc
  rw [hstack] at hboth
  obtain ⟨⟨ids',st'⟩,hlist,hcontents⟩ := Option.map_eq_some_iff.mp hboth.symm
  have hl' := (end_lists hlist h.cuts).2
  obtain ⟨rfl,-⟩ := List.cons.inj (hl.symm.trans hl')
  exact ⟨(Prod.mk.inj hcontents).2.symm,rfl⟩

/-- `scope_end` succeeds in an open scope. -/
theorem end_runs (getDesc : ℤ → δ) {s : State δ} (h : Ready s.stack)
    (hopen : 2 ≤ (taskLists s.stack).length) : ∃ e, step getDesc s .scopeEnd e := by
  have hlen := FlatScopeStack.length_begins h.sized
  rw [taskLists, length_cutLists] at hopen
  have htop : 0 ≤ s.stack.stackTop := by omega
  simp [step, perform, FlatScopeStack.scopeEnd, htop]

theorem depth_lists {st : FlatScopeStack} (h : Ready st) :
    st.depth = ((taskLists st).length:ℤ)-2 := by
  have hlen := FlatScopeStack.length_begins h.sized
  rw [taskLists, length_cutLists, FlatScopeStack.depth]
  omega

/-- The number of tasks in the current scope is the length of its list. -/
theorem tasksInCurrentScope_lists {st : FlatScopeStack} (h : Ready st) :
    st.tasksInCurrentScope =
      if st.depth < 0 then 0 else (((taskLists st).headD []).length:ℤ) := by
  have hlen := FlatScopeStack.length_begins h.sized
  have hcuts := h.cuts
  rw [FlatScopeStack.tasksInCurrentScope_contents h.sized, FlatScopeStack.depth, taskLists]
  cases hb : st.contents.scopeBegins with
  | nil =>
    rw [hb] at hlen
    have hneg : st.stackTop < 0 := by simp at hlen; omega
    simp [hneg]
  | cons b rest =>
    rw [hb] at hlen hcuts
    have hneg : ¬st.stackTop < 0 := by simp at hlen; omega
    have hle := hcuts.1
    simp [hneg, cutLists]
    omega

theorem tokens_of_nodup (getDesc : ℤ → δ) {ids : List ℤ} (hnodup : (ids.map getDesc).Nodup)
    (desc : δ → LinquTaskDescriptor) : Tokens getDesc ids desc (ids.foldl (giveToken getDesc) desc) := by
  intro x
  rw [giveTokens_apply]
  have hmem : (∃ t ∈ ids, getDesc t = x) ↔ x ∈ ids.map getDesc := by simp
  simp only [hmem]
  by_cases hx : x ∈ ids.map getDesc
  · by_cases hfreed : (desc x).taskFreed = true
    · rw [if_pos hfreed, if_neg (by simp [hfreed])]
      rfl
    · simp [hx, hfreed, List.count_eq_one_of_mem hnodup hx]
  · simp [hx, List.count_eq_zero_of_not_mem hx]

theorem count_map_apart (getDesc : ℤ → δ) (t : ℤ) (ids : List ℤ)
    (h : ∀ u ∈ ids, getDesc u = getDesc t → u = t) :
    (ids.map getDesc).count (getDesc t) = ids.count t := by
  induction ids with
  | nil => rfl
  | cons u ids ih =>
    have hrest := ih (fun v hv => h v (by simp [hv]))
    by_cases hu : u = t
    · simp [hu, hrest]
    · have hne : getDesc u ≠ getDesc t := fun he => hu (h u (by simp) he)
      simp [hu, hne, hrest]

/-- What a scope end adds to the token count of a live task. -/
theorem growth_le {getDesc : ℤ → δ} {s e : State δ} (h : Ready s.stack) (ha : Apart getDesc s)
    (hs : step getDesc s .scopeEnd e) {ids : List ℤ} {l : List (List ℤ)}
    (hl : taskLists s.stack = ids::l) {t : ℤ} (ht : s.live t = true) :
    ((e.desc (getDesc t)).fanoutRefcount:ℤ)-(s.desc (getDesc t)).fanoutRefcount ≤ ids.count t := by
  have hcount : (ids.map getDesc).count (getDesc t) = ids.count t := by
    apply count_map_apart
    intro u hu he
    have hstored : u ∈ (taskLists s.stack).flatten := by simp [hl, hu]
    exact ha.distinct u t (ha.stored u hstored) ht he
  rw [(end_desc h hs hl).1, giveTokens_apply, hcount]
  by_cases hfreed : (s.desc (getDesc t)).taskFreed <;> simp [hfreed]

/-- A task gets no more tokens than its id is stored or will be added. -/
theorem received_le {getDesc : ℤ → δ} (t : ℤ) (calls : List (ScopeCall δ)) {s : State δ}
    (h : Ready s.stack) (ha : Along (step getDesc) (Apart getDesc) calls s) :
    received getDesc t calls s ≤ ((taskLists s.stack).flatten++added calls).count t := by
  induction calls generalizing s with
  | nil => exact Int.natCast_nonneg _
  | cons c calls ih =>
    cases hs : perform getDesc s c with
    | none =>
      simp only [received, hs]
      exact Int.natCast_nonneg _
    | some e =>
      have hstep : step getDesc s c e := hs
      have hnext := perform_lists h hstep
      have hrest := ih hnext.1 (ha.2 e hstep)
      rw [hnext.2] at hrest
      cases c with
      | scopeBegin => simpa [received, hs, listStep, added] using hrest
      | addTask u =>
        obtain ⟨x,l,hl⟩ : ∃ x l, taskLists s.stack = x::l := by
          have hne := length_cutLists s.stack.contents.scopeTasks s.stack.contents.scopeBegins
          exact List.exists_cons_of_length_eq_add_one hne
        simp [listStep, hl, List.count_cons] at hrest
        simp [received, hs, hl, added, List.count_cons]
        omega
      | scopeEnd =>
        obtain ⟨ids,l,hl⟩ : ∃ x l, taskLists s.stack = x::l := by
          have hne := length_cutLists s.stack.contents.scopeTasks s.stack.contents.scopeBegins
          exact List.exists_cons_of_length_eq_add_one hne
        rw [hl] at hrest ⊢
        simp only [listStep, List.tail_cons, List.count_append] at hrest
        simp only [received, hs, added, List.flatten_cons, List.count_append]
        by_cases ht : s.live t = true
        · have hgrowth := growth_le h ha.1 hstep hl ht
          simp only [ht, if_true]
          push_cast at hrest ⊢
          omega
        · simp only [ht]
          push_cast at hrest ⊢
          simp
          omega
      | elsewhere desc live => simpa [received, hs, listStep, added] using hrest

theorem start_ready (maxDepth maxTasks : ℕ) : Ready (FlatScopeStack.init maxDepth maxTasks) :=
  ⟨FlatScopeStack.init_sized maxDepth maxTasks,by
    simp [FlatScopeStack.init_contents, LinquScopeStack.init, Cuts]⟩

theorem start_lists (maxDepth maxTasks : ℕ) :
    taskLists (FlatScopeStack.init maxDepth maxTasks) = [[]] := by
  simp [taskLists, FlatScopeStack.init_contents, LinquScopeStack.init, cutLists]

omit [DecidableEq δ] in
theorem added_append (l l' : List (ScopeCall δ)) : added (l++l') = added l++added l' := by
  induction l with
  | nil => rfl
  | cons c l ih => cases c <;> simp [added, ih]

omit [DecidableEq δ] in
/-- What is added to one scope is a part of what is added. -/
theorem innermost_sublist (d : ℕ) (body : List (ScopeCall δ)) :
    (innermost d body).Sublist (added body) := by
  induction body generalizing d with
  | nil => simp [innermost]
  | cons c body ih =>
    cases c with
    | scopeBegin => exact ih (d+1)
    | addTask t =>
      by_cases hd : d = 0
      · simpa [innermost, added, hd] using ih 0
      · simpa [innermost, added, hd] using (ih d).cons t
    | scopeEnd => exact ih (d-1)
    | elsewhere desc live => exact ih d

omit [DecidableEq δ] in
theorem stored_live {st : State δ} {c : ScopeCall δ}
    (h : ∀ t ∈ (taskLists st.stack).flatten, st.live t = true)
    (hc : ∀ t ∈ added [c], st.live t = true) :
    ∀ t ∈ (listStep c (taskLists st.stack)).flatten, st.live t = true := by
  intro t ht
  cases c with
  | scopeBegin => exact h t (by simpa [listStep] using ht)
  | addTask u =>
    cases hl : taskLists st.stack with
    | nil => simp [hl, listStep] at ht
    | cons x l =>
      simp [hl] at h
      simp [hl, listStep] at ht
      rcases ht with ht | rfl | ht
      · exact h t (.inl ht)
      · exact hc t (by simp [added])
      · exact h t (.inr ht)
  | scopeEnd =>
    cases hl : taskLists st.stack with
    | nil => simp [hl, listStep] at ht
    | cons x l =>
      simp [hl] at h
      simp [hl, listStep] at ht
      exact h t (.inr ht)
  | elsewhere desc live => exact h t (by simpa [listStep] using ht)

/-- Tasks that stay live stay apart. -/
theorem along_apart {getDesc : ℤ → δ} (calls : List (ScopeCall δ)) {s : State δ}
    (h : Ready s.stack) (ha : Apart getDesc s) (hadd : ∀ t ∈ added calls, s.live t = true)
    (hstay : ∀ desc live, .elsewhere desc live ∈ calls → live = s.live) :
    Along (step getDesc) (Apart getDesc) calls s := by
  induction calls generalizing s with
  | nil => exact ha
  | cons c calls ih =>
    refine ⟨ha,fun e he => ?_⟩
    have hnext := perform_lists h he
    have hlive : e.live = s.live := by
      cases c with
      | elsewhere desc live =>
        cases he
        exact hstay desc live (by simp)
      | scopeBegin | addTask t | scopeEnd =>
        obtain ⟨x,-,rfl⟩ := Option.map_eq_some_iff.mp he
        rfl
    rw [show c::calls = [c]++calls from rfl, added_append] at hadd
    have hstored := stored_live (c := c) ha.stored (fun t ht => hadd t (by simp [ht]))
    refine ih hnext.1 ⟨?_,?_⟩ ?_ ?_ <;> rw [hlive]
    · rwa [hnext.2]
    · exact ha.distinct
    · exact fun t ht => hadd t (by simp [ht])
    · exact fun desc live hm => hstay desc live (by simp [hm])

/-- Every `scope_end` gives one token to each unfreed task of its scope and to
no other, and leaves the stack as before the `scope_begin`; no task gets two. -/
theorem one_token_each (getDesc : ℤ → δ) (maxDepth maxTasks : ℕ)
    (desc : δ → LinquTaskDescriptor) (live : ℤ → Bool) (calls : List (ScopeCall δ))
    (hnodup : (added calls).Nodup)
    (hlive : Along (step getDesc) (Apart getDesc) calls (start maxDepth maxTasks desc live)) :
    (∀ pre body post : List (ScopeCall δ), ∀ s m : State δ,
      calls = pre++.scopeBegin::(body++.scopeEnd::post) → nested 0 body = true →
      Run (step getDesc) pre (start maxDepth maxTasks desc live) s →
      Run (step getDesc) (.scopeBegin::body) s m →
      ∃ e, step getDesc m .scopeEnd e ∧ Tokens getDesc (innermost 0 body) m.desc e.desc ∧
        e.stack.depth = s.stack.depth ∧
        e.stack.tasksInCurrentScope = s.stack.tasksInCurrentScope ∧
        taskLists e.stack = taskLists s.stack) ∧
    ∀ t, received getDesc t calls (start maxDepth maxTasks desc live) ≤ 1 := by
  have hready : Ready (start maxDepth maxTasks desc live).stack := start_ready maxDepth maxTasks
  constructor
  · intro pre body post s m hcalls hnested hpre hbody
    have hs := run_lists hready hpre
    have hm := run_lists hs.1 hbody
    have hlists : taskLists m.stack = innermost 0 body::taskLists s.stack := by
      rw [hm.2]
      exact track_nested body [] [] (taskLists s.stack) hnested
    have hopen : 2 ≤ (taskLists m.stack).length := by
      rw [hlists, List.length_cons, taskLists, length_cutLists]
      omega
    obtain ⟨e,he⟩ := end_runs getDesc hm.1 hopen
    have hend := perform_lists hm.1 he
    have hrestored : taskLists e.stack = taskLists s.stack := by
      rw [hend.2, hlists]
      rfl
    have hdepth : e.stack.depth = s.stack.depth := by
      rw [depth_lists hend.1, depth_lists hs.1, hrestored]
    have happart : Apart getDesc m := by
      apply along_runs.mp hlive (pre++.scopeBegin::body) m
      · rw [hcalls]
        exact ⟨.scopeEnd::post,by simp⟩
      · exact run_append.mpr ⟨s,hpre,hbody⟩
    have hids : (innermost 0 body).Nodup := by
      apply (innermost_sublist 0 body).nodup
      rw [hcalls, added_append, List.nodup_append] at hnodup
      have hrest := hnodup.2.1
      simp only [added, added_append, List.nodup_append] at hrest
      exact hrest.1
    have hdistinct : ((innermost 0 body).map getDesc).Nodup := by
      apply List.Nodup.map_on _ hids
      intro t ht u hu
      exact happart.distinct t u (happart.stored t (by simp [hlists, ht]))
        (happart.stored u (by simp [hlists, hu]))
    refine ⟨e,he,?_,hdepth,?_,hrestored⟩
    · rw [(end_desc hm.1 he hlists).1]
      exact tokens_of_nodup getDesc hdistinct m.desc
    · rw [tasksInCurrentScope_lists hend.1, tasksInCurrentScope_lists hs.1, hdepth, hrestored]
  · intro t
    have hle := received_le t calls hready hlive
    have hone := List.nodup_iff_count_le_one.mp hnodup t
    simp only [start, start_lists, List.flatten_cons, List.flatten_nil, List.append_nil,
      List.nil_append] at hle
    have : ((added calls).count t:ℤ) ≤ 1 := by exact_mod_cast hone
    exact hle.trans this

/-- Four live tasks of a ring of 16 slots, two of them past its end. -/
def wrappedRing : LinquTaskRing := ⟨fun _ => {},16,18,14⟩

def freed : ℤ → LinquTaskDescriptor :=
  Function.update (fun _ => {}) (wrappedRing.slot 17) { taskFreed := true }

/-- An inner scope between the tasks of an outer one. -/
def nestedScopes : List (ScopeCall ℤ) :=
  [.scopeBegin,.addTask 14,.scopeBegin,.addTask 16,.addTask 17,
    .elsewhere freed (fun t => decide (wrappedRing.Live t)),.scopeEnd,.addTask 15,.scopeEnd]

theorem nested_apart : Along (step wrappedRing.slot) (Apart wrappedRing.slot) nestedScopes
    (start 8 16 wrappedRing.descriptors (fun t => decide (wrappedRing.Live t))) := by
  have hring : wrappedRing.Windowed := by constructor <;> decide
  apply along_apart nestedScopes (start_ready 8 16)
  · constructor
    · simp [start, start_lists]
    · intro t u ht hu
      exact LinquTaskRing.slot_injective hring (by simpa [start] using ht)
        (by simpa [start] using hu)
  · decide
  · intro desc live hm
    simp only [nestedScopes, List.mem_cons, reduceCtorEq, ScopeCall.elsewhere.injEq,
      List.not_mem_nil, false_or, or_false] at hm
    exact hm.2

/-- The inner scope ends with a token for task 16 and none for the freed task
17, and the outer scope is open again with its first task. -/
theorem one_token_each_wrapped :
    (∃ m e, Run (step wrappedRing.slot) (nestedScopes.take 6)
        (start 8 16 wrappedRing.descriptors (fun t => decide (wrappedRing.Live t))) m ∧
      step wrappedRing.slot m .scopeEnd e ∧ Tokens wrappedRing.slot [16,17] m.desc e.desc ∧
      e.stack.depth = 0 ∧ e.stack.tasksInCurrentScope = 1 ∧ taskLists e.stack = [[14],[]]) ∧
    ∀ t, received wrappedRing.slot t nestedScopes
      (start 8 16 wrappedRing.descriptors (fun t => decide (wrappedRing.Live t))) ≤ 1 := by
  have hall := one_token_each wrappedRing.slot 8 16 wrappedRing.descriptors
    (fun t => decide (wrappedRing.Live t)) nestedScopes (by decide) nested_apart
  refine ⟨?_,hall.2⟩
  obtain ⟨s,hs,m,hm,hdepth,hcount,hlists⟩ : ∃ s, Run (step wrappedRing.slot) (nestedScopes.take 2)
      (start 8 16 wrappedRing.descriptors (fun t => decide (wrappedRing.Live t))) s ∧
      ∃ m, Run (step wrappedRing.slot) ((nestedScopes.take 6).drop 2) s m ∧
      s.stack.depth = 0 ∧ s.stack.tasksInCurrentScope = 1 ∧ taskLists s.stack = [[14],[]] :=
    ⟨_,⟨_,rfl,_,rfl,rfl⟩,_,⟨_,rfl,_,rfl,_,rfl,_,rfl,rfl⟩,by decide,by decide,by decide⟩
  obtain ⟨e,he,htokens,hd,hc,hl⟩ := hall.1 (nestedScopes.take 2) ((nestedScopes.take 6).drop 3)
    (nestedScopes.drop 7) s m rfl (by decide) hs hm
  exact ⟨m,e,run_append.mpr ⟨s,hs,hm⟩,he,htokens,hd.trans hdepth,hc.trans hcount,hl.trans hlists⟩

end Linqu.ScopeTokens
