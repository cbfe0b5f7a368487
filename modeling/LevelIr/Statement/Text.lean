import LevelIr.Operand.Text
import LevelIr.Statement.Basic

/-!
# The text of statements

Loads and stores are written as assignments with a star for each level of indirection, as in
`t = *a` and `*b = t`. All other statements name what they do, after the result if there is one;
statements that end a block have no result to show.
-/

namespace LevelIr

namespace Statement

variable (p : Program)

/-- Texts with a comma and a blank between them. -/
def commas (texts : List String) : String := ", ".intercalate texts

/-- The name of a block. -/
def blockName (b : BlockId) : Except Fault String := do
  return (← p.block b).name

/-- The text of what is called. -/
def calleeText : Callee → Except Fault String
  | .direct f _ => do return (← p.function f).name
  | .indirect target => target.text p

/-- The text of a statement without its result, given the texts of its operands. -/
def actionText (action : Action) (operands : List String) : Except Fault String :=
  match action, operands with
  | .load, _ | .store, _ => .ok (commas operands)
  | .alloca allocated, _ => .ok ("alloca " ++ allocated.text)
  | .binary operation, [lhs, rhs] => .ok (lhs ++ " " ++ operation.symbol ++ " " ++ rhs)
  | .compare (some predicate), [lhs, rhs] => .ok (lhs ++ " " ++ predicate.symbol ++ " " ++ rhs)
  | .negate, _ => .ok ("-" ++ commas operands)
  | .convert conversion type, _ =>
    .ok (conversion.mnemonic ++ " " ++ commas operands ++ " to " ++ type.text)
  | .phi incoming, _ => do
    let parts ← (operands.zip incoming).mapM fun (value, block) => do
      return "[" ++ value ++ ", " ++ (← blockName p block) ++ "]"
    return "phi " ++ commas parts
  | .call callee, _ | .invoke callee _ _, _ | .callBranch callee _ _, _ => do
    return action.mnemonic ++ " " ++ (← calleeText p callee) ++ "(" ++ commas operands ++ ")"
  | .ret, _ => .ok (match operands.head? with
    | none | some "" => "return"
    | some value => "return " ++ value)
  | .branch _ targets, _ => do
    return "br " ++ commas (operands ++ (← targets.mapM (blockName p)))
  | .switch default cases, _ => do
    let default ← default.toList.mapM fun block => do
      return "default: " ++ (← blockName p block)
    let cases ← cases.mapM fun (value, block) => do
      return toString value ++ ": " ++ (← blockName p block)
    return "switch " ++ commas (operands ++ default ++ cases)
  | .indirectBranch destinations, _ => do
    return "indirectbr " ++ commas (operands ++ (← destinations.mapM (blockName p)))
  | _, [] => .ok action.mnemonic
  | _, _ => .ok (action.mnemonic ++ " " ++ commas operands)

/-- Whether the text of a statement shows its result. -/
def showsResult : Action → Bool
  | .ret | .branch _ _ | .switch _ _ | .indirectBranch _ => false
  | _ => true

/-- The text of a statement. -/
def text (s : Statement) : Except Fault String := do
  let operands ← s.operands.mapM (Reference.text p)
  let result ← s.result.mapM (Reference.text p)
  let text ← actionText p s.action operands
  return match result with
    | some lhs => if showsResult s.action then lhs ++ " = " ++ text else text
    | none => text

end Statement

end LevelIr
