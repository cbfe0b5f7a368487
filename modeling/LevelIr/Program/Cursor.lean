import LevelIr.Program.Edit

/-!
# Writing instructions at a place

A cursor is a place to write to: the end of a block, with the line of the source program that
new instructions get. Each kind of instruction has a function that lays out its operands.

The functions that answer with a value fail with `Fault.noResult` if the instruction has no
result because its type is `void`; the instruction has been added to the block even then.
-/

namespace LevelIr

/-- A place to write instructions to. -/
structure Cursor where
  /-- The block at whose end instructions are added. -/
  block : BlockId
  /-- The line given to instructions that have none. -/
  line : Option Nat := none
  deriving DecidableEq, Inhabited, Repr

namespace Cursor

variable (c : Cursor)

/-- Adds an instruction. -/
def push (draft : Draft) : StateM Program (InstId × Option ValueId) :=
  Program.placeLast c.block { draft with line := draft.line.or c.line }

/-- Adds an instruction without result. -/
def perform (draft : Draft) : StateM Program InstId := do
  return (← c.push draft).1

/-- Adds an instruction that must have a result. -/
def define (draft : Draft) : Pass Program ValueId := do
  let (inst, result) ← c.push draft
  match result with
  | some value => return value
  | none => throw (.noResult inst)

/-- The type of a value that the program has. -/
def typeOf (v : ValueId) : Pass Program Ty := do
  return (← (← get).value v).type

/-! ### Memory -/

/-- Reserves a stack slot. -/
def alloca (allocated : Ty) (name : String) : Pass Program ValueId :=
  c.define { opcode := .alloca, type := .pointer allocated, name }

/-- Reads memory. What is read has the type pointed to, or is a byte if the address has no
pointer type. -/
def load (address : ValueId) (name : String) : Pass Program ValueId := do
  let type := (← typeOf address).pointee?.getD (.int 8)
  c.define { opcode := .load, operands := [.value address], type, name }

/-- Writes memory. -/
def store (value address : ValueId) : StateM Program InstId :=
  c.perform { opcode := .store, operands := [.value value, .value address] }

/-- Computes the address of an element. -/
def elementAddress (type : Ty) (base : ValueId) (indices : List ValueId) (name : String) :
    Pass Program ValueId :=
  c.define { opcode := .getElementPtr, operands := (base :: indices).map .value, type, name }

/-! ### Arithmetic, casts and comparisons -/

/-- Combines two values of one type. -/
def binary (opcode : Opcode) (lhs rhs : ValueId) (name : String) : Pass Program ValueId := do
  let type ← typeOf lhs
  c.define { opcode, operands := [.value lhs, .value rhs], type, name }

/-- Negates a floating-point number. -/
def negate (value : ValueId) (name : String) : Pass Program ValueId := do
  let type ← typeOf value
  c.define { opcode := .fneg, operands := [.value value], type, name }

/-- Converts a value to a type. -/
def cast (opcode : Opcode) (value : ValueId) (type : Ty) (name : String) : Pass Program ValueId :=
  c.define { opcode, operands := [.value value], type, name }

/-- Compares two values. -/
def compare (opcode : Opcode) (predicate : Predicate) (lhs rhs : ValueId) (name : String) :
    Pass Program ValueId :=
  c.define
    { opcode, operands := [.value lhs, .value rhs], type := .int 1, name
      predicate := some predicate }

/-- Chooses a value by the block that control comes from. -/
def phi (type : Ty) (incoming : List (ValueId × BlockId)) (name : String) : Pass Program ValueId :=
  c.define
    { opcode := .phi, operands := incoming.flatMap fun (v, b) => [.value v, .block b], type, name }

/-- Chooses one of two values by a condition. -/
def select (condition whenTrue whenFalse : ValueId) (name : String) : Pass Program ValueId := do
  let type ← typeOf whenTrue
  c.define
    { opcode := .select, operands := [.value condition, .value whenTrue, .value whenFalse]
      type, name }

/-- Takes a part out of an aggregate. -/
def extractValue (aggregate : ValueId) (indices : List Nat) (type : Ty) (name : String) :
    Pass Program ValueId :=
  c.define { opcode := .extractValue, operands := [.value aggregate], type, name, indices }

/-! ### Calls -/

/-- Calls through a value. -/
def callThrough (callee : ValueId) (result : Ty) (arguments : List ValueId) (name : String) :
    StateM Program (InstId × Option ValueId) :=
  c.push
    { opcode := .call, operands := arguments.map .value ++ [.value callee], type := result, name }

/-- Calls a function. -/
def call (callee : FunctionId) (arguments : List ValueId) (name : String) :
    Pass Program (InstId × Option ValueId) := do
  let p ← get
  let function ← p.function callee
  c.callThrough function.value (p.resultType callee) arguments name

/-- Calls a function that only serves debugging. -/
def debugCall (callee : FunctionId) : Pass Program InstId := do
  let function ← (← get).function callee
  let metadata ← Program.addMetadata
  c.perform
    { opcode := .call, operands := [.value metadata, .value function.value], debug := true }

/-! ### Terminators -/

/-- Returns from the function. -/
def ret (value : Option ValueId) : StateM Program InstId :=
  c.perform { opcode := .ret, operands := value.toList.map .value }

/-- Goes on at a block. -/
def branch (target : BlockId) : StateM Program InstId :=
  c.perform { opcode := .br, operands := [.block target] }

/-- Goes on at one of two blocks by a condition. -/
def branchIf (condition : ValueId) (whenTrue whenFalse : BlockId) : StateM Program InstId :=
  c.perform
    { opcode := .br, operands := [.value condition, .block whenFalse, .block whenTrue] }

/-- Goes on at the block of the case that equals a value, or at the default. -/
def switch (value : ValueId) (default : BlockId) (cases : List (ValueId × BlockId)) :
    StateM Program InstId :=
  c.perform
    { opcode := .switch
      operands := .value value :: .block default ::
        cases.flatMap fun (v, b) => [.value v, .block b] }

/-- Marks a place that control never reaches. -/
def unreachable : StateM Program InstId :=
  c.perform { opcode := .unreachable }

end Cursor

end LevelIr
