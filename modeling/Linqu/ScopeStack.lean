import Mathlib.Tactic

/-!
# The scope stack

Task ids of all open scopes lie in one flat array, cut by the index at which
each open scope begins. `scopeTasks` is the used part of that array and
`scopeBegins` the cuts, innermost first; `stack_top_` is one less than their
number.
-/

set_option autoImplicit false

namespace Linqu.ScopeStack

structure LinquScopeStack where
  scopeTasks : List ℤ
  scopeBegins : List ℕ
  maxDepth : ℕ
  maxTasks : ℕ
  deriving DecidableEq, Repr

namespace LinquScopeStack

def init (maxDepth maxTasks : ℕ) : LinquScopeStack := ⟨[],[],maxDepth,maxTasks⟩

def reset (st : LinquScopeStack) : LinquScopeStack :=
  { st with scopeTasks := [], scopeBegins := [] }

def depth (st : LinquScopeStack) : ℤ := st.scopeBegins.length-1

def scopeBegin (st : LinquScopeStack) : Option LinquScopeStack :=
  if st.scopeBegins.length < st.maxDepth then
    some { st with scopeBegins := st.scopeTasks.length::st.scopeBegins }
  else none

/-- The ids of the innermost scope, which each get a token, and the stack
without it. -/
def scopeEnd (st : LinquScopeStack) : Option (List ℤ × LinquScopeStack) :=
  match st.scopeBegins with
  | [] => none
  | start::rest => some (st.scopeTasks.drop start,
      { st with scopeTasks := st.scopeTasks.take start, scopeBegins := rest })

def addTask (st : LinquScopeStack) (taskId : ℤ) : Option LinquScopeStack :=
  if st.scopeTasks.length < st.maxTasks then
    some { st with scopeTasks := st.scopeTasks++[taskId] }
  else none

end LinquScopeStack
end Linqu.ScopeStack
