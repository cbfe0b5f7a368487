import LevelIr.Listing.Basic
import LevelIr.Listing.Taint
import LevelIr.Workspace

/-!
# Listing a program

A program is listed function by function, block by block and instruction by instruction.
Instructions that only serve debugging, and those that carry further metadata, are passed over.
Before an instruction is classified, the registers that it touches get their display names. A call
of a function with a body is preceded by one statement for each parameter, which hands over the
argument.

If pointers are to be discarded, the statements that depend on pointers of the source program are
left out of each function once all its blocks have been classified: a phi can read a value of a
later block.

Main definitions:

* `Workspace.transcribeInst`: the statements of an instruction;
* `Workspace.transcribe`: the listing of a program.
-/

namespace LevelIr

/-- What a statement returns, if it returns a value. -/
def Statement.returned? (s : Statement) : Option Reference :=
  if s.action = .ret then s.operands.head?.filter (!·.operand.isAbsent) else none

/-- The statements of the blocks of a function, in layout order. -/
abbrev Body := List (BlockId × List Statement)

namespace Body

variable (body : Body)

/-- All statements, in order. -/
def statements : List Statement := body.flatMap Prod.snd

/-- What is left of a body without the statements that depend on pointers. -/
def withoutPointers : Body :=
  let taint := Taint.of body.statements
  body.map fun (block, statements) => (block, taint.untainted statements)

/-- What a body returns: the operand of its last return that has one. -/
def returned? : Option Reference := (body.statements.filterMap Statement.returned?).getLast?

end Body

namespace Listing

variable (l : Listing)

/-- Adds the blocks of a function with their statements. -/
def addBlocks (f : FunctionId) (body : Body) : Listing :=
  body.foldl
    (fun l (block, statements) => (l.addBlock ⟨f, block⟩).pushAll ⟨f, block⟩ statements) l

/-- Adds a function with its body. -/
def addBody (f : FunctionId) (body : Body) : Listing :=
  let l := (l.addFunction f).addBlocks f body
  match body.returned? with
  | some reference => l.setReturned f reference
  | none => l

end Listing

namespace Workspace

/-- The statement that hands the argument `actual` of a call to the parameter `formal`. -/
def bindArgument (call : Statement) (formal : ValueId) (actual : Reference) :
    Pass Workspace Statement := do
  nameValue formal
  return .bindArgument call.source (← sharedOperand formal) actual call.line

/-- The statements that hand over the arguments of a call, one for each parameter that has an
argument. -/
def bindArguments (call : Statement) : Pass Workspace (List Statement) :=
  match call.action with
  | .call (.direct f formals) => do
    let function ← (← get).program.function f
    if formals.length ≠ call.operands.length then
      report (.argumentCount call.source call.operands.length function.name formals.length)
    (formals.zip call.operands).mapM fun (formal, actual) => bindArgument call formal actual
  | _ => return []

/-- The statements of an instruction. -/
def transcribeInst (i : InstId) : Pass Workspace (List Statement) := do
  let inst ← (← get).program.inst i
  if inst.isSkipped then return []
  nameRegisters inst
  let statement ← toStatement i
  report (.classified i statement.action.mnemonic)
  return (← bindArguments statement) ++ [statement]

/-- The statements of a block. -/
def transcribeBlock (b : BlockId) : Pass Workspace (BlockId × List Statement) := do
  let block ← (← get).program.block b
  return (b, (← block.insts.mapM transcribeInst).flatten)

/-- The body of a function, as far as it is listed. -/
def transcribeBody (discard : Bool) (f : FunctionId) : Pass Workspace Body := do
  let function ← (← get).program.function f
  let found : Body ← function.blocks.mapM transcribeBlock
  let body := if discard then found.withoutPointers else found
  report (.functionListed function.name (body.statements.countP (!·.binding))
    (body.statements.countP (·.binding)) (found.statements.length - body.statements.length))
  return body

/-- Adds a function to a listing. -/
def transcribeFunction (discard : Bool) (l : Listing) (f : FunctionId) :
    Pass Workspace Listing :=
  return l.addBody f (← transcribeBody discard f)

/-- The listing of a program, with or without what depends on pointers of the source program. -/
def transcribe (discard : Bool) : Pass Workspace Listing := do
  let functions := (← get).program.listedFunctions
  let l ← functions.foldlM (transcribeFunction discard) {}
  report (.programListed l.functions.length l.blocks.length l.size)
  return l

end Workspace

end LevelIr
