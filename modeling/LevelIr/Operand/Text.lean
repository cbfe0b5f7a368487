import LevelIr.Binary64.Text
import LevelIr.Operand.OfValue

/-!
# The text of operands

Operands are written the way a source program would: a name, a constant, `base[index]` for the
address of an element, `operator (operand, ..)` for the other operators. The base and the
operands are values in turn, so their text is that of their own operands.

A program that was assembled from existing values has no operand that is written in terms of
itself, but replacing an operand can make one. The recursion is therefore bounded by the number
of values: a chain of operands longer than that repeats a value.

Main definitions:

* `Operand.text`: the text of an operand;
* `Reference.text`: the text of an operand with its marks of indirection.
-/

namespace LevelIr

namespace Subscript

/-- The text of a subscript. -/
def text (p : Program) (subscript : Subscript) : Except Fault String :=
  if subscript.named then p.label subscript.value
  else do
    match (← p.value subscript.value).origin with
    | .integer value => return toString value
    | _ => throw (.defect (.notInteger subscript.value))

end Subscript

namespace Operand

variable (p : Program)

/-- The text of an element address, given how to write values. -/
def addressText (write : ValueId → Except Fault String) (address : ElementAddress) :
    Except Fault String := do
  let base ← write address.base
  let subscripts ← address.subscripts.mapM (Subscript.text p)
  return base ++ String.join (subscripts.map fun text => "[" ++ text ++ "]")

/-- The text of an operator applied to its operands, given how to write values. -/
def operatorText (write : ValueId → Except Fault String) (v : ValueId) : Except Fault String := do
  match ← p.operator? (← p.value v) with
  | none => throw (.defect (.notOperator v))
  | some (operator, operands) =>
    let texts ← operands.mapM write
    return operator.mnemonic ++ " (" ++ ", ".intercalate texts ++ ")"

/-- The text of an operand, given how to write values. -/
def textWith (write : ValueId → Except Fault String) (operand : Operand) :
    Except Fault String :=
  match operand.value with
  | none => .ok ""
  | some v =>
    match operand.kind with
    | .null => .ok ""
    | .named | .globalValue => p.label v
    | .element => (operand.address.map (addressText p write)).getD (.ok "")
    | .addressSpaceCast | .bitcast | .pointerToInt | .zeroExtend | .floatMath =>
      operatorText p write v
    | .constantInt => do
      match (← p.value v).origin with
      | .integer value => return toString value
      | _ => throw (.defect (.notInteger v))
    | .constantFloat => do
      match (← p.value v).origin with
      | .float value => return value.text
      | _ => throw (.defect (.notFloat v))
    | .constantNull => .ok "nullptr"
    | .undefined => .ok "undef"
    | .blockAddress => do
      match (← p.value v).origin with
      | .blockAddress _ block => return (← p.block block).name
      | _ => throw (.defect (.notBlockAddress v))
    | .aggregate | .token | .noCfi => .error (.noText operand.kind)
    | .unsupported => do throw (.unsupportedOperand v (← p.value v).type)

/-- The text of a value, through a chain of at most `depth` operands. -/
def valueText : Nat → ValueId → Except Fault String
  | 0, v => .error (.cyclicOperand v)
  | depth + 1, v => do textWith p (valueText depth) (← ofValue p v)

/-- The text of an operand. -/
def text (operand : Operand) : Except Fault String :=
  textWith p (valueText p (p.values.size + 1)) operand

/-- The marks of a level of indirection: a star for each access to memory, and an ampersand for
each level below zero. -/
def marks (level : Int) : String :=
  String.ofList (List.replicate level.natAbs (if level < 0 then '&' else '*'))

/-- The text of an operand at a level of indirection. -/
def textAt (level : Int) (operand : Operand) : Except Fault String := do
  return marks level ++ (← operand.text p)

end Operand

/-- The text of a reference. -/
def Reference.text (p : Program) (reference : Reference) : Except Fault String :=
  reference.operand.textAt p reference.level

end LevelIr
