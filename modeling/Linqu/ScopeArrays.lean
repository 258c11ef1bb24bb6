import Linqu.ScopeStack
import Linqu.TaskRing

/-!
# The arrays of the scope stack

All scopes share one flat array. `scopeBegins` holds, up to `stackTop`, the
index at which each open scope begins. Entries past `scopeTasksSize` and past
`stackTop` are left over from closed scopes. `contents` forgets them, and
every operation on the arrays is the operation of the same name on the lists.
-/

set_option autoImplicit false

namespace Linqu.ScopeArrays
open Linqu.ScopeStack Linqu.TaskRing

structure FlatScopeStack where
  scopeTasks : List ℤ
  scopeTasksSize : ℕ
  scopeBegins : List ℕ
  stackTop : ℤ
  maxDepth : ℕ
  deriving DecidableEq, Repr

variable {δ : Type*} [DecidableEq δ]

/-- The body of the loop of `scope_end`. `getDesc` names the descriptor of a
task and `desc` is the memory that holds the descriptors. -/
def giveToken (getDesc : ℤ → δ) (desc : δ → LinquTaskDescriptor) (taskId : ℤ) :
    δ → LinquTaskDescriptor :=
  let d := desc (getDesc taskId)
  if d.taskFreed then desc
  else Function.update desc (getDesc taskId) { d with fanoutRefcount := d.fanoutRefcount+1 }

namespace FlatScopeStack

def init (maxDepth maxTasks : ℕ) : FlatScopeStack where
  scopeTasks := List.replicate maxTasks 0
  scopeTasksSize := 0
  scopeBegins := List.replicate maxDepth 0
  stackTop := -1
  maxDepth := maxDepth

def reset (st : FlatScopeStack) : FlatScopeStack := { st with scopeTasksSize := 0, stackTop := -1 }

def scopeBegin (st : FlatScopeStack) : Option FlatScopeStack :=
  let top := st.stackTop+1
  if top < st.maxDepth then
    some { st with stackTop := top, scopeBegins := st.scopeBegins.set top.toNat st.scopeTasksSize }
  else none

def scopeEnd (getDesc : ℤ → δ) (st : FlatScopeStack) (desc : δ → LinquTaskDescriptor) :
    Option (FlatScopeStack × (δ → LinquTaskDescriptor)) :=
  if 0 ≤ st.stackTop then
    let start := st.scopeBegins.getD st.stackTop.toNat 0
    let desc := (List.range' start (st.scopeTasksSize-start)).foldl
      (fun desc i => giveToken getDesc desc (st.scopeTasks.getD i 0)) desc
    some ({ st with scopeTasksSize := start, stackTop := st.stackTop-1 },desc)
  else none

def addTask (st : FlatScopeStack) (taskId : ℤ) : Option FlatScopeStack :=
  if st.scopeTasksSize < st.scopeTasks.length then
    some { st with scopeTasks := st.scopeTasks.set st.scopeTasksSize taskId
                   scopeTasksSize := st.scopeTasksSize+1 }
  else none

def depth (st : FlatScopeStack) : ℤ := st.stackTop

def tasksInCurrentScope (st : FlatScopeStack) : ℤ :=
  if st.stackTop < 0 then 0
  else st.scopeTasksSize-st.scopeBegins.getD st.stackTop.toNat 0

/-- The used parts of the arrays. -/
def contents (st : FlatScopeStack) : LinquScopeStack where
  scopeTasks := st.scopeTasks.take st.scopeTasksSize
  scopeBegins := (st.scopeBegins.take (st.stackTop+1).toNat).reverse
  maxDepth := st.maxDepth
  maxTasks := st.scopeTasks.length

structure Sized (st : FlatScopeStack) : Prop where
  top_ge : -1 ≤ st.stackTop
  top_lt : st.stackTop < st.maxDepth
  begins : st.scopeBegins.length = st.maxDepth
  tasks : st.scopeTasksSize ≤ st.scopeTasks.length

theorem init_sized (maxDepth maxTasks : ℕ) : (init maxDepth maxTasks).Sized := by
  constructor <;> simp [init]
  omega

theorem init_contents (maxDepth maxTasks : ℕ) :
    (init maxDepth maxTasks).contents = LinquScopeStack.init maxDepth maxTasks := by
  simp [init, contents, LinquScopeStack.init]

theorem reset_contents (st : FlatScopeStack) : st.reset.contents = st.contents.reset := by
  simp [reset, contents, LinquScopeStack.reset]

section operations
variable {st : FlatScopeStack} (h : st.Sized)
include h

theorem length_begins : (st.contents.scopeBegins.length : ℤ) = st.stackTop+1 := by
  have h1 := h.top_ge
  have h2 := h.top_lt
  simp only [contents, List.length_reverse, List.length_take, h.begins]
  omega

theorem length_tasks : st.contents.scopeTasks.length = st.scopeTasksSize := by
  simp [contents, h.tasks]

theorem begins_open {n : ℕ} (hn : st.stackTop = n) :
    st.contents.scopeBegins =
      st.scopeBegins.getD n 0::(st.scopeBegins.take n).reverse := by
  have hlt : n < st.scopeBegins.length := by
    have := h.top_lt
    rw [h.begins]
    omega
  have htop : (st.stackTop+1).toNat = n+1 := by omega
  simp only [contents, htop, List.take_add_one, List.getElem?_eq_getElem hlt]
  simp [List.getElem?_eq_getElem hlt]

theorem scopeBegin_contents : st.scopeBegin.map contents = st.contents.scopeBegin := by
  have hlen := length_begins h
  have h1 := h.top_ge
  by_cases htop : st.stackTop+1 < st.maxDepth
  · obtain ⟨n,hn⟩ : ∃ n : ℕ, st.stackTop+1 = n := ⟨(st.stackTop+1).toNat,by omega⟩
    have hroom : st.contents.scopeBegins.length < st.contents.maxDepth := by
      change st.contents.scopeBegins.length < st.maxDepth
      omega
    have hlt : n < st.scopeBegins.length := by
      rw [h.begins]
      omega
    have hsucc : ((n:ℤ)+1).toNat = n+1 := by omega
    simp only [scopeBegin, if_pos htop, Option.map_some, LinquScopeStack.scopeBegin,
      if_pos hroom, length_tasks h]
    simp [contents, hn, hsucc, List.take_add_one, hlt, List.take_set_of_le le_rfl]
  · have hroom : ¬st.contents.scopeBegins.length < st.contents.maxDepth := by
      change ¬st.contents.scopeBegins.length < st.maxDepth
      omega
    simp [scopeBegin, if_neg htop, LinquScopeStack.scopeBegin, if_neg hroom]

theorem addTask_contents (t : ℤ) : (st.addTask t).map contents = st.contents.addTask t := by
  have hlen := length_tasks h
  by_cases hroom : st.scopeTasksSize < st.scopeTasks.length
  · have hroom' : st.contents.scopeTasks.length < st.contents.maxTasks := hlen ▸ hroom
    simp only [addTask, if_pos hroom, Option.map_some, LinquScopeStack.addTask, if_pos hroom']
    simp [contents, List.take_add_one, hroom, List.take_set_of_le le_rfl]
  · have hroom' : ¬st.contents.scopeTasks.length < st.contents.maxTasks := hlen ▸ hroom
    simp [addTask, hroom, LinquScopeStack.addTask, hroom']

theorem tasksInCurrentScope_contents :
    st.tasksInCurrentScope = match st.contents.scopeBegins with
      | [] => 0
      | start::_ => (st.contents.scopeTasks.length:ℤ)-start := by
  have hlen := length_begins h
  by_cases htop : st.stackTop < 0
  · have hnil : st.contents.scopeBegins = [] := by
      rw [← List.length_eq_zero_iff]
      omega
    simp [tasksInCurrentScope, htop, hnil]
  · have hn : st.stackTop = st.stackTop.toNat := by omega
    rw [begins_open h hn]
    simp [tasksInCurrentScope, htop, length_tasks h]

end operations

/-- The loop reads the used entries from `start` on, in order. -/
theorem range_entries (tasks : List ℤ) (size start : ℕ) (h : size ≤ tasks.length) :
    (List.range' start (size-start)).map (fun i => tasks.getD i 0) =
      (tasks.take size).drop start := by
  apply List.ext_getElem
  · simp
    omega
  · intro i h1 h2
    simp at h1 h2
    simp [List.getElem?_eq_getElem (show start+i < tasks.length by omega)]

theorem scopeEnd_contents (getDesc : ℤ → δ) {st : FlatScopeStack} (h : st.Sized)
    (hcut : ∀ b ∈ st.contents.scopeBegins.head?, b ≤ st.scopeTasksSize)
    (desc : δ → LinquTaskDescriptor) :
    (st.scopeEnd getDesc desc).map (fun r => (r.1.contents,r.2)) =
      st.contents.scopeEnd.map (fun r => (r.2,r.1.foldl (giveToken getDesc) desc)) := by
  have hlen := length_begins h
  by_cases htop : 0 ≤ st.stackTop
  · obtain ⟨n,hn⟩ : ∃ n : ℕ, st.stackTop = n := ⟨st.stackTop.toNat,by omega⟩
    have hbegins := begins_open h hn
    have hle := hcut (st.scopeBegins.getD n 0) (by simp [hbegins])
    have hpred : ((n:ℤ)-1+1).toNat = n := by omega
    have hfold := range_entries st.scopeTasks st.scopeTasksSize (st.scopeBegins.getD n 0) h.tasks
    simp only [scopeEnd, if_pos htop, Option.map_some, LinquScopeStack.scopeEnd, hbegins]
    simp only [hn, Int.toNat_natCast]
    rw [← List.foldl_map (f := fun i => st.scopeTasks.getD i 0), hfold]
    simp only [contents, hpred, List.take_take, min_eq_left hle]
  · have hnil : st.contents.scopeBegins = [] := by
      rw [← List.length_eq_zero_iff]
      omega
    simp [scopeEnd, htop, LinquScopeStack.scopeEnd, hnil]

theorem scopeBegin_sized {st st' : FlatScopeStack} (h : st.Sized) (hs : st.scopeBegin = some st') :
    st'.Sized := by
  simp only [scopeBegin] at hs
  split at hs
  · rename_i htop
    cases hs
    have := h.top_ge
    exact ⟨by simp; omega,htop,by simp [h.begins],h.tasks⟩
  · cases hs

theorem addTask_sized {st st' : FlatScopeStack} {t : ℤ} (h : st.Sized)
    (hs : st.addTask t = some st') : st'.Sized := by
  simp only [addTask] at hs
  split at hs
  · rename_i hroom
    cases hs
    exact ⟨h.top_ge,h.top_lt,h.begins,by simpa using hroom⟩
  · cases hs

theorem scopeEnd_sized {getDesc : ℤ → δ} {st st' : FlatScopeStack} {desc desc' : δ → LinquTaskDescriptor}
    (h : st.Sized) (hcut : ∀ b ∈ st.contents.scopeBegins.head?, b ≤ st.scopeTasksSize)
    (hs : st.scopeEnd getDesc desc = some (st',desc')) : st'.Sized := by
  simp only [scopeEnd] at hs
  split at hs
  · rename_i htop
    cases hs
    have hn : st.stackTop = st.stackTop.toNat := by omega
    have hle := hcut (st.scopeBegins.getD st.stackTop.toNat 0) (by simp [begins_open h hn])
    have := h.top_lt
    have := h.tasks
    refine ⟨?_,?_,h.begins,?_⟩ <;> simp only <;> omega
  · cases hs

end FlatScopeStack

/-- What the loop of `scope_end` does to a descriptor. -/
theorem giveTokens_apply (getDesc : ℤ → δ) (ids : List ℤ) (desc : δ → LinquTaskDescriptor)
    (x : δ) :
    ids.foldl (giveToken getDesc) desc x = { desc x with
      fanoutRefcount := (desc x).fanoutRefcount+
        if (desc x).taskFreed then 0 else (ids.map getDesc).count x } := by
  induction ids generalizing desc with
  | nil => simp
  | cons t ids ih =>
    rw [List.foldl_cons, ih]
    by_cases hfreed : (desc (getDesc t)).taskFreed
    · by_cases hx : getDesc t = x
      · subst hx
        simp [giveToken, hfreed]
      · simp [giveToken, hfreed, hx]
    · by_cases hx : getDesc t = x
      · subst hx
        simp [giveToken, hfreed]
        omega
      · simp [giveToken, hfreed, hx, Function.update_of_ne (Ne.symm hx)]

end Linqu.ScopeArrays
