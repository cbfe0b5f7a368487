import LevelIr.Operand.Basic
import LevelIr.Program.Basic

/-!
# Classifying operands

A value is classified by its own shape alone: first by whether it has a name, then by whether it
is an operator, and otherwise by its origin. The subscripts of an element address have to be
integer constants or named registers, so classification never goes deeper than one level.

Main definitions:

* `Program.operator?`: the operator that a value applies, with its operands;
* `Operand.ofValue`: the operand of a value.
-/

namespace LevelIr

namespace Program

variable (p : Program)

/-- The operator that a value applies and the operands it applies it to: a value can be a
constant expression or the result of an instruction. -/
def operator? (value : Value) : Except Fault (Option (Operator × List ValueId)) :=
  match value.origin with
  | .expression operator operands => .ok (some (operator, operands))
  | .result i => do
    let inst ← p.inst i
    return (Operator.ofOpcode? inst.opcode).map fun operator => (operator, inst.valueOperands)
  | _ => .ok none

end Program

namespace Operand

/-- The kind of the operands that apply an operator. -/
def Kind.ofOperator : Operator → Kind
  | .getElementPtr => .element
  | .addrSpaceCast => .addressSpaceCast
  | .bitCast => .bitcast
  | .ptrToInt => .pointerToInt
  | .zext => .zeroExtend
  | .fneg | .fadd | .fsub | .fmul | .fdiv | .frem => .floatMath

/-- The kind of the operands of a value that has no name and applies no operator. -/
def Kind.ofOrigin : Origin → Kind
  | .blockAddress _ _ => .blockAddress
  | .aggregate _ => .aggregate
  | .null => .constantNull
  | .token => .token
  | .undefined => .undefined
  | .integer _ => .constantInt
  | .float _ => .constantFloat
  | .globalVariable | .function _ => .globalValue
  | .noCfi _ => .noCfi
  | .argument _ _ | .result _ | .expression _ _ | .metadata | .inlineAsm => .unsupported

/-- The kind of the operands of a value. -/
def Kind.ofValue (value : Value) (operator : Option (Operator × List ValueId)) : Kind :=
  if value.isNamed then .named
  else match operator with
    | some (operator, _) => .ofOperator operator
    | none => .ofOrigin value.origin

variable (p : Program)

/-- A subscript of the element address `address`. -/
def subscript (address index : ValueId) : Except Fault Subscript := do
  let value ← p.value index
  if value.origin.isInteger || (!value.origin.isConstant && value.isNamed) then
    return {
      value := index
      memory := ← p.isMemory value
      pointer := value.type.isSourcePointer
      named := value.isNamed
      formal := value.origin.isArgument }
  else
    throw (.unsupportedIndex address index value.type)

/-- The element address `address` with the given operands: a base, then subscripts. -/
def elementAddress (address : ValueId) : List ValueId → Except Fault ElementAddress
  | [] => .error (.defect (.noBase address))
  | base :: indices => do return ⟨base, ← indices.mapM (subscript p address)⟩

/-- The parts of the operand of `v` if it is the address of an element. -/
def address? (v : ValueId) (kind : Kind) (operator : Option (Operator × List ValueId)) :
    Except Fault (Option ElementAddress) :=
  match kind, operator with
  | .element, some (_, operands) => some <$> elementAddress p v operands
  | _, _ => .ok none

/-- The operand of a value. -/
def ofValue (v : ValueId) : Except Fault Operand := do
  let value ← p.value v
  let operator ← p.operator? value
  let kind := Kind.ofValue value operator
  let address ← address? p v kind operator
  return {
    value := some v
    kind
    memory := ← p.isMemory value
    pointer := value.type.isSourcePointer
    named := value.isNamed
    formal := value.origin.isArgument
    address
    version := none }

end Operand

end LevelIr
