import Mathlib.Tactic

/-!
# Types of the orchestration API

Pointers of the C interface that may be null are `Option`; an array with its
length is a list.
-/

set_option autoImplicit false

namespace Linqu.OrchestrationApi

structure LinquCoordinate where
  l6Idx : UInt8 := 0
  l5Idx : UInt8 := 0
  l4Idx : UInt8 := 0
  l3Idx : UInt16 := 0
  l2Idx : UInt16 := 0
  l1Idx : UInt8 := 0
  l0Idx : UInt16 := 0
  deriving DecidableEq, Repr

inductive LinquParamType where
  | input
  | output
  | inout
  | scalar
  deriving DecidableEq, Repr

def LinquParamType.reads : LinquParamType → Bool
  | .input => true
  | .inout => true
  | _ => false

def LinquParamType.writes : LinquParamType → Bool
  | .output => true
  | .inout => true
  | _ => false

structure LinquParam where
  type : LinquParamType
  handle : UInt64
  scalarValue : UInt64
  deriving DecidableEq, Repr

def linquMakeInput (h : UInt64) : LinquParam := ⟨.input,h,0⟩
def linquMakeOutput (h : UInt64) : LinquParam := ⟨.output,h,0⟩
def linquMakeInout (h : UInt64) : LinquParam := ⟨.inout,h,0⟩
def linquMakeScalar (v : UInt64) : LinquParam := ⟨.scalar,0,v⟩

/-- A `none` kernel stands for the kernel of the group. -/
structure LinquSubTaskSpec where
  target : LinquCoordinate
  kernelSo : Option String
  privateParams : List LinquParam
  deriving DecidableEq, Repr

end Linqu.OrchestrationApi
