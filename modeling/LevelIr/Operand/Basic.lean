import LevelIr.Id
import LevelIr.Operand.Kind

/-!
# Operands

An operand is a value together with what a listing has to know about it: its kind, whether
memory stands behind it, whether it is a pointer of the source program, and, for the address of
an element, the base and the subscripts.

Main definitions:

* `Subscript`: an integer constant or a named value that selects an element;
* `Operand`: a classified operand;
* `Reference`: an operand at a level of indirection.
-/

namespace LevelIr

/-- A subscript in the address of an element: a named value, or else an integer constant. -/
structure Subscript where
  /-- The value of the subscript. -/
  value : ValueId
  /-- Whether memory stands behind the value. -/
  memory : Bool
  /-- Whether the value is a pointer of the source program. -/
  pointer : Bool
  /-- Whether the value has a name. -/
  named : Bool
  /-- Whether the value is a parameter. -/
  formal : Bool
  deriving DecidableEq, Inhabited, Repr

/-- The address of an element: what it starts from, and the subscripts that lead to it. -/
structure ElementAddress where
  /-- The value that the address starts from. -/
  base : ValueId
  /-- The subscripts, outermost first. -/
  subscripts : List Subscript
  deriving DecidableEq, Inhabited, Repr

/-- A classified operand. -/
structure Operand where
  /-- The value, unless the operand stands for no value. -/
  value : Option ValueId
  /-- The category. -/
  kind : Operand.Kind
  /-- Whether the value is the address of a global variable or of a stack slot. -/
  memory : Bool
  /-- Whether the value is a pointer of the source program. -/
  pointer : Bool
  /-- Whether the value had a name when it was classified. -/
  named : Bool
  /-- Whether the value is a parameter. -/
  formal : Bool
  /-- The parts of the address of an element, for operands of that kind. -/
  address : Option ElementAddress
  /-- The version of the slot, for the slots made by versioning. -/
  version : Option Nat
  deriving DecidableEq, Inhabited, Repr

namespace Operand

/-- The operand that stands for no value. -/
def absent : Operand where
  value := none
  kind := .null
  memory := false
  pointer := false
  named := false
  formal := false
  address := none
  version := none

/-- Whether the operand stands for no value. -/
def isAbsent (operand : Operand) : Bool := operand.kind == .null

/-- A subscript as an operand of its own. -/
def ofSubscript (subscript : Subscript) : Operand where
  value := some subscript.value
  kind := if subscript.named then .named else .constantInt
  memory := subscript.memory
  pointer := subscript.pointer
  named := subscript.named
  formal := subscript.formal
  address := none
  version := none

/-- The subscripts of an operand; only the address of an element has any. -/
def subscripts (operand : Operand) : List Subscript :=
  (operand.address.map ElementAddress.subscripts).getD []

/-- The values that an operand mentions, with repetitions: its own value and the values that an
element address is made of. -/
def mentions (operand : Operand) : List ValueId :=
  operand.value.toList ++ (operand.address.map ElementAddress.base).toList ++
    operand.subscripts.map Subscript.value

@[simp]
theorem mentions_absent : absent.mentions = [] := rfl

end Operand

/-- An operand at a level of indirection. Level zero is the value of the operand, and each
further level is one access to memory. -/
structure Reference where
  /-- The operand. -/
  operand : Operand
  /-- The level of indirection. -/
  level : Int
  deriving DecidableEq, Inhabited, Repr

namespace Reference

/-- The value of the operand. -/
def value (reference : Reference) : Option ValueId := reference.operand.value

/-- The reference to no value. -/
def absent : Reference := ⟨.absent, 0⟩

end Reference

end LevelIr
