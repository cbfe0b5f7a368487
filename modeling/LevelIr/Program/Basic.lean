import LevelIr.Binary64.Basic
import LevelIr.Fault
import LevelIr.Opcode

/-!
# Input programs

A program is made of values, instructions, blocks and functions, each kept in a list of its own
and referred to by its number there. An instruction belongs to one block and a block to one
function; a value is an argument, the result of an instruction, a global or a constant.

Main definitions:

* `Value`, `Inst`, `Block`, `Function`: the parts of a program;
* `Program`: the program;
* `Program.value`, `Program.inst`, `Program.block`, `Program.function`: look-ups, which fail on
  a handle that the program does not have.
-/

namespace LevelIr

/-- How a value comes about. -/
inductive Origin where
  /-- The parameter of a function at a position. -/
  | argument (function : FunctionId) (position : Nat)
  /-- The result of an instruction. -/
  | result (inst : InstId)
  /-- The address of a global variable. -/
  | globalVariable
  /-- The address of a function. -/
  | function (function : FunctionId)
  /-- An integer constant. -/
  | integer (value : Int)
  /-- A floating-point constant. -/
  | float (value : Binary64)
  /-- A null pointer. -/
  | null
  /-- An undefined value. -/
  | undefined
  /-- A constant array, vector or record. -/
  | aggregate (elements : List ValueId)
  /-- The empty token. -/
  | token
  /-- The address of a function, exempt from control-flow checks. -/
  | noCfi (target : ValueId)
  /-- The address of a block. -/
  | blockAddress (function : FunctionId) (block : BlockId)
  /-- An operator applied to constants. -/
  | expression (operator : Operator) (operands : List ValueId)
  /-- A metadata node. -/
  | metadata
  /-- A piece of inline assembly. -/
  | inlineAsm
  deriving DecidableEq, Inhabited, Repr

namespace Origin

/-- Whether a value of this origin is a constant. -/
def isConstant : Origin → Bool
  | argument _ _ | result _ | metadata | inlineAsm => false
  | _ => true

/-- Whether a value of this origin is a global variable or a function. -/
def isGlobal : Origin → Bool
  | globalVariable | function _ => true
  | _ => false

/-- Whether a value of this origin is a parameter of a function. -/
def isArgument : Origin → Bool
  | argument _ _ => true
  | _ => false

/-- Whether a value of this origin is an integer constant. -/
def isInteger : Origin → Bool
  | integer _ => true
  | _ => false

end Origin

/-- A value of the program. -/
structure Value where
  /-- The type of the value. -/
  type : Ty
  /-- The name of the value; the empty text stands for none. -/
  name : String
  /-- How the value comes about. -/
  origin : Origin
  deriving DecidableEq, Inhabited, Repr

namespace Value

/-- Whether the value has a name. -/
def isNamed (value : Value) : Bool := value.name != ""

/-- The name of the value, if it has one. -/
def name? (value : Value) : Option String := if value.isNamed then some value.name else none

end Value

/-- An operand of an instruction: a value or a block. -/
inductive Arg where
  | value (value : ValueId)
  | block (block : BlockId)
  deriving DecidableEq, Inhabited, Repr

namespace Arg

/-- The value of an operand that is one. -/
def value? : Arg → Option ValueId
  | value v => some v
  | block _ => none

/-- The block of an operand that is one. -/
def block? : Arg → Option BlockId
  | block b => some b
  | value _ => none

end Arg

/-- An instruction that has not been placed in a block yet. Operands stand in a fixed order:
the stored value before the address, arguments before the callee, the condition of a branch
before its false and then its true destination, the scrutinee of a switch before its default and
its pairs of case and destination, and the incoming values of a phi each before its block. -/
structure Draft where
  /-- What the instruction does. -/
  opcode : Opcode
  /-- The operands. -/
  operands : List Arg := []
  /-- The type of the result; `void` if there is none. -/
  type : Ty := .void
  /-- The name of the result. -/
  name : String := ""
  /-- The predicate of a comparison. -/
  predicate : Option Predicate := none
  /-- The constant positions of an access to an aggregate. -/
  indices : List Nat := []
  /-- The line of the source program. -/
  line : Option Nat := none
  /-- Whether the instruction only serves debugging. -/
  debug : Bool := false
  deriving DecidableEq, Inhabited, Repr

/-- An instruction of the program. -/
structure Inst where
  /-- What the instruction does. -/
  opcode : Opcode
  /-- The operands, in the order of `Draft`. -/
  operands : List Arg
  /-- The value that the instruction defines. -/
  result : Option ValueId
  /-- The type of the result; `void` if there is none. -/
  type : Ty
  /-- The predicate of a comparison. -/
  predicate : Option Predicate
  /-- The constant positions of an access to an aggregate. -/
  indices : List Nat
  /-- The line of the source program. -/
  line : Option Nat
  /-- Whether the instruction only serves debugging. -/
  debug : Bool
  /-- Whether the instruction carries metadata other than its line. -/
  metadata : Bool
  /-- The block that holds the instruction. -/
  block : BlockId
  deriving DecidableEq, Inhabited, Repr

namespace Inst

/-- The values among the operands, in order. -/
def valueOperands (inst : Inst) : List ValueId := inst.operands.filterMap Arg.value?

/-- The blocks among the operands, in order. -/
def blockOperands (inst : Inst) : List BlockId := inst.operands.filterMap Arg.block?

/-- Whether the instruction is passed over by every listing. -/
def isSkipped (inst : Inst) : Bool := inst.debug || inst.metadata

end Inst

/-- A block: a sequence of instructions. -/
structure Block where
  /-- The name of the block. -/
  name : String
  /-- The function that holds the block. -/
  function : FunctionId
  /-- The instructions, in order. -/
  insts : List InstId
  deriving DecidableEq, Inhabited, Repr

/-- A function; without blocks it is only declared. -/
structure Function where
  /-- The name of the function. -/
  name : String
  /-- The address of the function as a value. -/
  value : ValueId
  /-- The parameters, in order. -/
  params : List ValueId
  /-- The blocks, in layout order. -/
  blocks : List BlockId
  /-- The source file, if it is known. -/
  file : Option String
  deriving DecidableEq, Inhabited, Repr

namespace Function

/-- Whether the function is one of the compiler's own, known by its name. -/
def isIntrinsic (function : Function) : Bool :=
  "llvm.".toList.isPrefixOf function.name.toList

/-- Whether the function is only declared. -/
def isDeclaration (function : Function) : Bool := function.blocks.isEmpty

end Function

/-- An input program. -/
structure Program where
  /-- The name of the program. -/
  name : String
  /-- The values, by number. -/
  values : Array Value := #[]
  /-- The instructions, by number. -/
  insts : Array Inst := #[]
  /-- The blocks, by number. -/
  blocks : Array Block := #[]
  /-- The functions, by number. -/
  functions : Array Function := #[]
  /-- The global variables, in the order in which they were added. -/
  globals : List ValueId := []
  deriving DecidableEq, Inhabited, Repr

namespace Program

variable (p : Program)

/-! ### Look-ups -/

/-- The value with a handle, if there is one. -/
def value? (value : ValueId) : Option Value := p.values[value.index]?

/-- The instruction with a handle, if there is one. -/
def inst? (inst : InstId) : Option Inst := p.insts[inst.index]?

/-- The block with a handle, if there is one. -/
def block? (block : BlockId) : Option Block := p.blocks[block.index]?

/-- The function with a handle, if there is one. -/
def function? (function : FunctionId) : Option Function := p.functions[function.index]?

/-- What an optional look-up found, or the fault that there is no such entry. -/
def found {α : Type} : Option α → Except Fault α
  | some entry => .ok entry
  | none => .error .noSuchEntry

/-- The value with a handle. -/
def value (value : ValueId) : Except Fault Value := found (p.value? value)

/-- The instruction with a handle. -/
def inst (inst : InstId) : Except Fault Inst := found (p.inst? inst)

/-- The block with a handle. -/
def block (block : BlockId) : Except Fault Block := found (p.block? block)

/-- The function with a handle. -/
def function (function : FunctionId) : Except Fault Function := found (p.function? function)

theorem value_eq_ok_iff {v : ValueId} {entry : Value} :
    p.value v = .ok entry ↔ p.value? v = some entry := by
  unfold value found
  split <;> simp_all

theorem inst_eq_ok_iff {i : InstId} {entry : Inst} :
    p.inst i = .ok entry ↔ p.inst? i = some entry := by
  unfold inst found
  split <;> simp_all

theorem block_eq_ok_iff {b : BlockId} {entry : Block} :
    p.block b = .ok entry ↔ p.block? b = some entry := by
  unfold block found
  split <;> simp_all

theorem function_eq_ok_iff {f : FunctionId} {entry : Function} :
    p.function f = .ok entry ↔ p.function? f = some entry := by
  unfold function found
  split <;> simp_all

/-! ### Parts of a program -/

/-- The handles of the functions, in order. -/
def functionIds : List FunctionId := (List.range p.functions.size).map FunctionId.mk

/-- The functions that are listed: those with a body that are not the compiler's own. -/
def listedFunctions : List FunctionId :=
  p.functionIds.filter fun f =>
    (p.function? f).any fun function => !function.isDeclaration && !function.isIntrinsic

/-- The instruction that defines a value, if one does. -/
def makerOf? (v : ValueId) : Option InstId :=
  match (p.value? v).map Value.origin with
  | some (.result inst) => some inst
  | _ => none

/-- The function that holds an instruction. -/
def functionOf (i : InstId) : Except Fault FunctionId := do
  let inst ← p.inst i
  let block ← p.block inst.block
  return block.function

/-- The name of a value, or the text of its handle if it has none. -/
def label (v : ValueId) : Except Fault String := do
  let value ← p.value v
  return value.name?.getD v.text

/-- The type of what a function returns. -/
def resultType (f : FunctionId) : Ty :=
  match (do (← p.value? (← p.function? f).value).type.pointee?) with
  | some (.function result _) => result
  | _ => .void

/-- Whether memory stands behind a value: it is the address of a global variable or of a stack
slot. -/
def isMemory (value : Value) : Except Fault Bool :=
  match value.origin with
  | .globalVariable => .ok true
  | .result i => do return (← p.inst i).opcode == .alloca
  | _ => .ok false

end Program

end LevelIr
