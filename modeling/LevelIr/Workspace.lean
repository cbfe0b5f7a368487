import LevelIr.Event
import LevelIr.Names
import LevelIr.Operand.Shared
import LevelIr.Statement.OfInst

/-!
# The workspace of the passes

Passes that list a program work on the program itself, on a context that remembers shared
operands, slots and names, and on a log. A context may be used for several runs; what it
remembers then carries over.

Values are remembered by their number. A context that is used with two programs therefore mixes
up values of one number.
-/

namespace LevelIr

/-- What passes remember from one run to the next. -/
structure Context where
  /-- The shared operands. -/
  shared : Shared := {}
  /-- The slots made by versioning. -/
  slots : Slots := {}
  /-- The display names given so far. -/
  names : Names := {}
  deriving DecidableEq, Inhabited, Repr

/-- What passes work on. -/
structure Workspace where
  /-- The program. -/
  program : Program
  /-- What is remembered from one run to the next. -/
  context : Context := {}
  /-- The events reported so far, oldest first. -/
  log : List Event := []
  deriving DecidableEq, Inhabited, Repr

namespace Workspace

/-- Reports an event. -/
def report (event : Event) : Pass Workspace Unit :=
  modify fun w => { w with log := w.log ++ [event] }

/-- Gives a value its display name. -/
def nameValue (v : ValueId) : Pass Workspace Unit := do
  let w ← get
  let (names, program) ← w.context.names.assign w.program v
  set { w with program, context := { w.context with names } }

/-- Gives the registers that an instruction touches their display names: those that it reads, in
order, and then its result. -/
def nameRegisters (inst : Inst) : Pass Workspace Unit :=
  (inst.valueOperands ++ inst.result.toList).forM nameValue

/-- Runs a pass on the shared operands. -/
def onShared {α : Type} (pass : Pass Shared α) : Pass Workspace α :=
  pass.within (fun w => w.context.shared) fun shared w =>
    { w with context := { w.context with shared } }

/-- The statement of an instruction. -/
def toStatement (i : InstId) : Pass Workspace Statement := do
  let w ← get
  onShared (Statement.ofInst w.program w.context.slots i)

/-- The shared operand of a value. -/
def sharedOperand (v : ValueId) : Pass Workspace Operand := do
  let w ← get
  onShared (Shared.operand w.program v)

end Workspace

end LevelIr
