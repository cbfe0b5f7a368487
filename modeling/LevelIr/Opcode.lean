/-!
# Operation codes

The instruction set of the input program, the predicates of its comparisons, and the operators
that can stand inside an operand without an instruction of their own.

Main definitions:

* `Opcode`: the operation codes, with `Opcode.isTerminator` and `Opcode.isCall`;
* `Predicate`: the comparison predicates, with `Predicate.symbol`;
* `Operator`: the operators of constant expressions, with `Operator.mnemonic`.

Each type has a list `all` of its members in a fixed order, and a spelling `name` by which
`ofName?` finds a member again.
-/

namespace LevelIr

/-- The operation of an instruction. -/
inductive Opcode where
  | alloca
  | load
  | store
  | fence
  | atomicCmpXchg
  | atomicRmw
  | getElementPtr
  | fneg
  | add
  | fadd
  | sub
  | fsub
  | mul
  | fmul
  | udiv
  | sdiv
  | fdiv
  | urem
  | srem
  | frem
  | shl
  | lshr
  | ashr
  | and
  | or
  | xor
  | extractElement
  | insertElement
  | shuffleVector
  | extractValue
  | insertValue
  | trunc
  | zext
  | sext
  | fpTrunc
  | fpExt
  | fpToUnsigned
  | fpToSigned
  | unsignedToFp
  | signedToFp
  | ptrToInt
  | intToPtr
  | bitCast
  | addrSpaceCast
  | icmp
  | fcmp
  | phi
  | select
  | freeze
  | call
  | vaArg
  | landingPad
  | catchPad
  | cleanupPad
  | ret
  | br
  | switch
  | indirectBr
  | invoke
  | callBr
  | resume
  | catchSwitch
  | catchRet
  | cleanupRet
  | unreachable
  | userOp
  deriving DecidableEq, Inhabited, Repr

namespace Opcode

/-- Every operation code, in order. -/
def all : List Opcode :=
  [.alloca, .load, .store, .fence, .atomicCmpXchg, .atomicRmw, .getElementPtr, .fneg,
    .add, .fadd, .sub, .fsub, .mul, .fmul, .udiv, .sdiv, .fdiv, .urem, .srem, .frem, .shl,
    .lshr, .ashr, .and, .or, .xor, .extractElement, .insertElement, .shuffleVector,
    .extractValue, .insertValue, .trunc, .zext, .sext, .fpTrunc, .fpExt, .fpToUnsigned,
    .fpToSigned, .unsignedToFp, .signedToFp, .ptrToInt, .intToPtr, .bitCast,
    .addrSpaceCast, .icmp, .fcmp, .phi, .select, .freeze, .call, .vaArg, .landingPad,
    .catchPad, .cleanupPad, .ret, .br, .switch, .indirectBr, .invoke, .callBr, .resume,
    .catchSwitch, .catchRet, .cleanupRet, .unreachable, .userOp]

/-- The spelling of an operation code. -/
def name : Opcode → String
  | alloca => "Alloca"
  | load => "Load"
  | store => "Store"
  | fence => "Fence"
  | atomicCmpXchg => "AtomicCmpXchg"
  | atomicRmw => "AtomicRmw"
  | getElementPtr => "GetElementPtr"
  | fneg => "FNeg"
  | add => "Add"
  | fadd => "FAdd"
  | sub => "Sub"
  | fsub => "FSub"
  | mul => "Mul"
  | fmul => "FMul"
  | udiv => "UDiv"
  | sdiv => "SDiv"
  | fdiv => "FDiv"
  | urem => "URem"
  | srem => "SRem"
  | frem => "FRem"
  | shl => "Shl"
  | lshr => "LShr"
  | ashr => "AShr"
  | and => "And"
  | or => "Or"
  | xor => "Xor"
  | extractElement => "ExtractElement"
  | insertElement => "InsertElement"
  | shuffleVector => "ShuffleVector"
  | extractValue => "ExtractValue"
  | insertValue => "InsertValue"
  | trunc => "Trunc"
  | zext => "ZExt"
  | sext => "SExt"
  | fpTrunc => "FPTrunc"
  | fpExt => "FPExt"
  | fpToUnsigned => "FPToUI"
  | fpToSigned => "FPToSI"
  | unsignedToFp => "UIToFP"
  | signedToFp => "SIToFP"
  | ptrToInt => "PtrToInt"
  | intToPtr => "IntToPtr"
  | bitCast => "BitCast"
  | addrSpaceCast => "AddrSpaceCast"
  | icmp => "ICmp"
  | fcmp => "FCmp"
  | phi => "Phi"
  | select => "Select"
  | freeze => "Freeze"
  | call => "Call"
  | vaArg => "VAArg"
  | landingPad => "LandingPad"
  | catchPad => "CatchPad"
  | cleanupPad => "CleanupPad"
  | ret => "Return"
  | br => "Br"
  | switch => "Switch"
  | indirectBr => "IndirectBr"
  | invoke => "Invoke"
  | callBr => "CallBr"
  | resume => "Resume"
  | catchSwitch => "CatchSwitch"
  | catchRet => "CatchRet"
  | cleanupRet => "CleanupRet"
  | unreachable => "Unreachable"
  | userOp => "UserOp"

/-- The operation code with the given spelling. -/
def ofName? (name : String) : Option Opcode :=
  all.find? (·.name == name)

/-- Whether an instruction of this kind ends a block. -/
def isTerminator : Opcode → Bool
  | ret | br | switch | indirectBr | invoke | callBr | resume | catchSwitch | catchRet
  | cleanupRet | unreachable => true
  | _ => false

/-- Whether an instruction of this kind calls a function, its last operand being the callee. -/
def isCall : Opcode → Bool
  | call | invoke | callBr => true
  | _ => false

theorem mem_all (opcode : Opcode) : opcode ∈ all := by
  cases opcode <;> decide

end Opcode

/-- The predicate of a comparison. -/
inductive Predicate where
  | eq | ne | ugt | uge | ult | ule | sgt | sge | slt | sle
  | oeq | one | ogt | oge | olt | ole | ueq | une
  deriving DecidableEq, Inhabited, Repr

namespace Predicate

/-- Every predicate, in order. -/
def all : List Predicate :=
  [.eq, .ne, .ugt, .uge, .ult, .ule, .sgt, .sge, .slt, .sle,
    .oeq, .one, .ogt, .oge, .olt, .ole, .ueq, .une]

/-- The spelling of a predicate. -/
def name : Predicate → String
  | eq => "Eq"
  | ne => "Ne"
  | ugt => "Ugt"
  | uge => "Uge"
  | ult => "Ult"
  | ule => "Ule"
  | sgt => "Sgt"
  | sge => "Sge"
  | slt => "Slt"
  | sle => "Sle"
  | oeq => "Oeq"
  | one => "One"
  | ogt => "Ogt"
  | oge => "Oge"
  | olt => "Olt"
  | ole => "Ole"
  | ueq => "Ueq"
  | une => "Une"

/-- The predicate with the given spelling. -/
def ofName? (name : String) : Option Predicate :=
  all.find? (·.name == name)

/-- The symbol of a predicate in a listing; signedness and order are not shown. -/
def symbol : Predicate → String
  | eq | oeq | ueq => "=="
  | ne | one | une => "!="
  | ugt | sgt | ogt => ">"
  | uge | sge | oge => ">="
  | ult | slt | olt => "<"
  | ule | sle | ole => "<="

theorem mem_all (predicate : Predicate) : predicate ∈ all := by
  cases predicate <;> decide

end Predicate

/-- An operator that can be applied inside an operand: element address, cast or floating-point
arithmetic. -/
inductive Operator where
  | getElementPtr
  | addrSpaceCast
  | bitCast
  | ptrToInt
  | zext
  | fneg
  | fadd
  | fsub
  | fmul
  | fdiv
  | frem
  deriving DecidableEq, Inhabited, Repr

namespace Operator

/-- Every operator, in order. -/
def all : List Operator :=
  [.getElementPtr, .addrSpaceCast, .bitCast, .ptrToInt, .zext, .fneg, .fadd, .fsub, .fmul,
    .fdiv, .frem]

/-- The operation code of the instruction that applies this operator. -/
def opcode : Operator → Opcode
  | getElementPtr => .getElementPtr
  | addrSpaceCast => .addrSpaceCast
  | bitCast => .bitCast
  | ptrToInt => .ptrToInt
  | zext => .zext
  | fneg => .fneg
  | fadd => .fadd
  | fsub => .fsub
  | fmul => .fmul
  | fdiv => .fdiv
  | frem => .frem

/-- The spelling of an operator, that of its operation code. -/
def name (operator : Operator) : String := operator.opcode.name

/-- The operator with the given spelling. -/
def ofName? (name : String) : Option Operator :=
  all.find? (·.name == name)

/-- The operator that an instruction with the given operation code applies, if any. -/
def ofOpcode? (opcode : Opcode) : Option Operator :=
  all.find? (·.opcode == opcode)

/-- How an operator is written in a listing. -/
def mnemonic : Operator → String
  | getElementPtr => "getelementptr"
  | addrSpaceCast => "addrspacecast"
  | bitCast => "bitcast"
  | ptrToInt => "ptrtoint"
  | zext => "zext"
  | fneg => "fneg"
  | fadd => "fadd"
  | fsub => "fsub"
  | fmul => "fmul"
  | fdiv => "fdiv"
  | frem => "frem"

theorem mem_all (operator : Operator) : operator ∈ all := by
  cases operator <;> decide

@[simp]
theorem ofOpcode?_opcode (operator : Operator) : ofOpcode? operator.opcode = some operator := by
  cases operator <;> rfl

end Operator

end LevelIr
