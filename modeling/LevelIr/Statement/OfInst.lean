import LevelIr.Operand.Shared
import LevelIr.Program.Flow
import LevelIr.Statement.Basic

/-!
# From instructions to statements

Every instruction has exactly one statement. Most instructions read all their value operands as
they are; loads, stores and atomic accesses read or write one level below an address, and calls,
returns and switches have operands that are no data.

The operands of a statement are looked up in order: first the result, then the operands as they
are listed. Looking up a parameter shares its operand, also if the statement fails later on.

Main definition: `Statement.ofInst`.
-/

namespace LevelIr

namespace Action

/-- The action of an instruction whose statement reads all value operands as they are. -/
def ofPlain (inst : Inst) : Action :=
  match inst.opcode with
  | .getElementPtr => .elementAddress
  | .fneg => .negate
  | .add | .fadd => .binary .add
  | .sub | .fsub => .binary .sub
  | .mul | .fmul => .binary .mul
  | .udiv | .sdiv | .fdiv => .binary .div
  | .urem | .srem | .frem => .binary .rem
  | .shl => .binary .shl
  | .lshr => .binary .lshr
  | .ashr => .binary .ashr
  | .and => .binary .and
  | .or => .binary .or
  | .xor => .binary .xor
  | .extractElement => .extractElement
  | .insertElement => .insertElement
  | .shuffleVector => .shuffleVector
  | .extractValue => .extractValue inst.indices
  | .insertValue => .insertValue inst.indices
  | .trunc | .fpTrunc => .convert .trunc inst.type
  | .zext => .convert .zext inst.type
  | .sext => .convert .sext inst.type
  | .fpExt => .convert .fpExt inst.type
  | .fpToUnsigned | .fpToSigned => .convert .fpToInt inst.type
  | .unsignedToFp | .signedToFp => .convert .intToFp inst.type
  | .ptrToInt => .convert .ptrToInt inst.type
  | .intToPtr => .convert .intToPtr inst.type
  | .bitCast => .convert .bitcast inst.type
  | .addrSpaceCast => .convert .addrSpaceCast inst.type
  | .icmp | .fcmp => .compare inst.predicate
  | .phi => .phi inst.blockOperands
  | .select => .select
  | .freeze => .freeze
  | .vaArg => .variadicArgument
  | .landingPad => .landingPad
  | .catchPad => .catchPad
  | .cleanupPad => .cleanupPad
  | .resume => .resume
  | .catchSwitch => .catchSwitch
  | .catchRet => .catchReturn
  | .cleanupRet => .cleanupReturn
  | .br =>
    if inst.valueOperands.isEmpty then .branch false inst.blockOperands
    else .branch true inst.blockOperands.reverse
  | .indirectBr => .indirectBranch inst.blockOperands
  | _ => .other

end Action

namespace Statement

variable (p : Program) (slots : Slots)

/-- The value operand of an instruction at a position among its value operands. -/
def valueOperand (i : InstId) (inst : Inst) (position : Nat) : Except Fault ValueId :=
  match inst.valueOperands[position]? with
  | some v => .ok v
  | none => .error (.defect (.noValueOperand i position))

/-- What a call-like instruction calls. -/
def callee (i : InstId) (inst : Inst) : Pass Shared Callee :=
  match p.directCallee? inst with
  | some f => do
    let function ← p.function f
    return .direct f (if function.isDeclaration then [] else function.params)
  | none =>
    match inst.calleeOperand? with
    | some v => do return .indirect (← Reference.resolve p slots 0 v)
    | none => throw (.defect (.noCallee i))

/-- The cases of a switch: pairs of an integer constant and a block. -/
def switchCases (i : InstId) : List Arg → Except Fault (List (Int × BlockId))
  | [] => .ok []
  | .value v :: .block b :: rest => do
    match (← p.value v).origin with
    | .integer n => return (n, b) :: (← switchCases i rest)
    | _ => throw (.defect (.caseNotInteger i v))
  | _ => .error (.defect (.malformedCases i))

/-- The action and the references of an instruction, given the reference to its result. -/
def form (i : InstId) (inst : Inst) (result : Option Reference) :
    Pass Shared (Action × List Reference × Option Reference) :=
  match inst.opcode with
  | .alloca => return (.alloca (inst.type.pointee?.getD .void), [], result)
  | .fence => return (.fence, [], result)
  | .unreachable => return (.unreachable, [], result)
  | .load => do
    let address ← valueOperand i inst 0
    return (.load, [← Reference.resolve p slots 1 address], result)
  | .store => do
    let stored ← valueOperand i inst 0
    let address ← valueOperand i inst 1
    let operand ← Reference.resolve p slots 0 stored
    let target ← Reference.resolve p slots 1 address
    return (.store, [operand], some target)
  | .atomicCmpXchg => do
    return (.compareExchange, ← Reference.resolveAddressed p slots inst.valueOperands, result)
  | .atomicRmw => do
    return (.atomicModify, ← Reference.resolveAddressed p slots inst.valueOperands, result)
  | .call => do
    let callee ← callee p slots i inst
    return (.call callee, ← Reference.resolveAll p slots inst.arguments, result)
  | .invoke => do
    let callee ← callee p slots i inst
    let arguments ← Reference.resolveAll p slots inst.arguments
    let blocks := inst.blockOperands
    return (.invoke callee blocks[0]? blocks[1]?, arguments, result)
  | .callBr => do
    let callee ← callee p slots i inst
    let arguments ← Reference.resolveAll p slots inst.arguments
    let blocks := inst.blockOperands
    return (.callBranch callee blocks[0]? (blocks.drop 1), arguments, result)
  | .ret =>
    match inst.valueOperands with
    | [] => return (.ret, [.absent], result)
    | v :: _ => do return (.ret, [← Reference.resolve p slots 0 v], result)
  | .switch => do
    let scrutinee ← valueOperand i inst 0
    let cases ← switchCases p i (inst.operands.drop 2)
    let operand ← Reference.resolve p slots 0 scrutinee
    return (.switch (inst.operands[1]?.bind Arg.block?) cases, [operand], result)
  | _ => do
    return (.ofPlain inst, ← Reference.resolveAll p slots inst.valueOperands, result)

/-- The statement of an instruction. -/
def ofInst (i : InstId) : Pass Shared Statement := do
  let inst ← p.inst i
  let result ← inst.result.mapM (Reference.resolve p slots 0)
  let (action, operands, result) ← form p slots i inst result
  return make action i operands result inst.line

end Statement

end LevelIr
