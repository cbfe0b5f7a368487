import LevelIr.Program.Basic

/-!
# Calls and control flow

What an instruction calls and with which arguments, and which blocks follow each other.
-/

namespace LevelIr

namespace Inst

/-- The value operands of an instruction without its last operand: the arguments of a call. -/
def arguments (inst : Inst) : List ValueId := inst.operands.dropLast.filterMap Arg.value?

/-- The value at the place of the callee of a call. -/
def calleeOperand? (inst : Inst) : Option ValueId := inst.operands.getLast?.bind Arg.value?

/-- The blocks named by an instruction that ends its block, each once and in order. -/
def successors (inst : Inst) : List BlockId :=
  if inst.opcode.isTerminator then inst.blockOperands.eraseDups else []

end Inst

namespace Program

variable (p : Program)

/-- The function that a call-like instruction is known to call. -/
def directCallee? (inst : Inst) : Option FunctionId :=
  if inst.opcode.isCall then
    match inst.calleeOperand?.bind p.value? |>.map Value.origin with
    | some (.function f) => some f
    | _ => none
  else none

/-- The instruction that ends a block: its last one, if that is a terminator. -/
def terminator? (b : BlockId) : Option InstId := do
  let last ← (← p.block? b).insts.getLast?
  if (← p.inst? last).opcode.isTerminator then some last else none

/-- Whether control can pass from one block to another. -/
def isEdge (source target : BlockId) : Bool :=
  ((p.terminator? source).bind p.inst?).any fun inst => inst.successors.contains target

/-- The blocks from which control can pass to a block, in the layout order of its function. -/
def predecessors (b : BlockId) : Except Fault (List BlockId) := do
  let function ← p.function (← p.block b).function
  return function.blocks.filter fun source => p.isEdge source b

end Program

end LevelIr
