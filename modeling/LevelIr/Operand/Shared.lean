import LevelIr.Operand.OfValue
import LevelIr.Pass
import LevelIr.Slot.Basic

/-!
# Shared operands

The parameters of a function occur in its body and at its calls. Their operands are classified
once and then shared, so that both places agree on them. All other values are classified where
they occur, and slots made by versioning carry their version.

Main definitions:

* `Shared`: the operands that are shared;
* `Operand.resolve`: the operand of a value in a statement;
* `Reference.resolve`: the same, at a level of indirection.
-/

namespace LevelIr

/-- The operands that have been classified once and for all, by value. -/
abbrev Shared := Table ValueId Operand

namespace Shared

/-- The shared operand of a value, classified on first use. -/
def operand (p : Program) (v : ValueId) : Pass Shared Operand := do
  match (← get).get? v with
  | some operand => return operand
  | none =>
    let operand ← Operand.ofValue p v
    modify (·.insert v operand)
    return operand

end Shared

namespace Operand

/-- The operand of a value that is to occur in a statement; some values cannot. -/
def supported (p : Program) (v : ValueId) : Except Fault Operand := do
  let value ← p.value v
  let operand ← ofValue p v
  if operand.kind = .unsupported then throw (.unsupportedOperand v value.type)
  return operand

/-- The operand of a value in a statement: the shared one of a parameter, and for any other
value one of its own with the version of the slot that it is. -/
def resolve (p : Program) (slots : Slots) (v : ValueId) : Pass Shared Operand := do
  let value ← p.value v
  if value.origin.isArgument then
    match (← get).get? v with
    | some operand => return operand
    | none =>
      let operand ← supported p v
      modify (·.insert v operand)
      return operand
  else
    return { ← supported p v with version := slots.version? v }

end Operand

namespace Reference

variable (p : Program) (slots : Slots)

/-- A reference to a value at a level of indirection. -/
def resolve (level : Int) (v : ValueId) : Pass Shared Reference := do
  return ⟨← Operand.resolve p slots v, level⟩

/-- References to the values themselves. -/
def resolveAll (values : List ValueId) : Pass Shared (List Reference) :=
  values.mapM (resolve p slots 0)

/-- References to an address, whose contents are meant, and to further values themselves. -/
def resolveAddressed : List ValueId → Pass Shared (List Reference)
  | [] => pure []
  | address :: values => do
    let first ← resolve p slots 1 address
    return first :: (← resolveAll p slots values)

end Reference

end LevelIr
