import LevelIr.Opcode
import LevelIr.Operand.Basic
import LevelIr.Ty

/-!
# Statements

A statement is an instruction in uniform form: what it does, the references that it reads, and
the reference that it defines. A load reads one level below its address and a store writes one
level below its target, so that addresses and contents are told apart by their levels alone.

Main definitions:

* `Callee`: what a call calls;
* `Action`: what a statement does, with `Action.mnemonic`;
* `Statement`: the statement;
* `Statement.reads`, `Statement.defined?`: the references read and the value defined.
-/

namespace LevelIr

/-- An arithmetic operation on two operands; signedness and precision are not told apart, except
for shifts to the right. -/
inductive Arithmetic where
  | add | sub | mul | div | rem | shl | lshr | ashr | and | or | xor
  deriving DecidableEq, Inhabited, Repr

namespace Arithmetic

/-- The symbol of an operation. -/
def symbol : Arithmetic → String
  | add => "+"
  | sub => "-"
  | mul => "*"
  | div => "/"
  | rem => "%"
  | shl => "<<"
  | lshr => ">>"
  | ashr => ">>>"
  | and => "&"
  | or => "|"
  | xor => "^"

/-- The name of an operation. -/
def name : Arithmetic → String
  | add => "Add"
  | sub => "Sub"
  | mul => "Mul"
  | div => "Div"
  | rem => "Rem"
  | shl => "Shl"
  | lshr => "Lshr"
  | ashr => "Ashr"
  | and => "And"
  | or => "Or"
  | xor => "Xor"

end Arithmetic

/-- A change of type. -/
inductive Conversion where
  | trunc | zext | sext | fpExt | fpToInt | intToFp | ptrToInt | intToPtr | bitcast
  | addrSpaceCast
  deriving DecidableEq, Inhabited, Repr

/-- How a conversion is written. -/
def Conversion.mnemonic : Conversion → String
  | trunc => "trunc"
  | zext => "zext"
  | sext => "sext"
  | fpExt => "fpext"
  | fpToInt => "fptoint"
  | intToFp => "inttofp"
  | ptrToInt => "ptrtoint"
  | intToPtr => "inttoptr"
  | bitcast => "bitcast"
  | addrSpaceCast => "addrspacecast"

/-- What a call calls. -/
inductive Callee where
  /-- A known function; its parameters are listed if it has a body. -/
  | direct (function : FunctionId) (formals : List ValueId)
  /-- Whatever a value points to. -/
  | indirect (target : Reference)
  deriving DecidableEq, Inhabited, Repr

namespace Callee

/-- The function that is called, if it is known. -/
def function? : Callee → Option FunctionId
  | direct function _ => some function
  | indirect _ => none

/-- The parameters of the function that is called, if they are known. -/
def formals : Callee → List ValueId
  | direct _ formals => formals
  | indirect _ => []

/-- The operand that a call goes through. -/
def target? : Callee → Option Reference
  | direct _ _ => none
  | indirect target => some target

end Callee

/-- What a statement does. -/
inductive Action where
  /-- Reserves a stack slot. -/
  | alloca (allocated : Ty)
  /-- Sets the result to what is read. -/
  | load
  /-- Writes what is read to the target. -/
  | store
  | fence
  | compareExchange
  | atomicModify
  /-- Computes the address of an element. -/
  | elementAddress
  | negate
  | binary (operation : Arithmetic)
  | extractElement
  | insertElement
  | shuffleVector
  | extractValue (indices : List Nat)
  | insertValue (indices : List Nat)
  /-- Changes the type. -/
  | convert (conversion : Conversion) (type : Ty)
  | compare (predicate : Option Predicate)
  /-- Chooses an operand by the block that control comes from. -/
  | phi (incoming : List BlockId)
  | select
  | freeze
  | call (callee : Callee)
  | variadicArgument
  | invoke (callee : Callee) (normal exception : Option BlockId)
  | callBranch (callee : Callee) (default : Option BlockId) (indirect : List BlockId)
  | landingPad
  | catchPad
  | cleanupPad
  | resume
  | catchSwitch
  | catchReturn
  | cleanupReturn
  | ret
  /-- Goes on at the first target, or at the second one if the condition is false. -/
  | branch (conditional : Bool) (targets : List BlockId)
  | switch (default : Option BlockId) (cases : List (Int × BlockId))
  | indirectBranch (destinations : List BlockId)
  | unreachable
  | other
  deriving DecidableEq, Inhabited, Repr

namespace Action

/-- How an action is called in a listing. -/
def mnemonic : Action → String
  | alloca _ => "alloca"
  | load => "load"
  | store => "store"
  | fence => "fence"
  | compareExchange => "cmpxchg"
  | atomicModify => "atomicrmw"
  | elementAddress => "getelementptr"
  | negate => "fneg"
  | binary _ => "binary"
  | extractElement => "extractelement"
  | insertElement => "insertelement"
  | shuffleVector => "shufflevector"
  | extractValue _ => "extractvalue"
  | insertValue _ => "insertvalue"
  | convert conversion _ => conversion.mnemonic
  | compare _ => "compare"
  | phi _ => "phi"
  | select => "select"
  | freeze => "freeze"
  | call _ => "call"
  | variadicArgument => "va_arg"
  | invoke _ _ _ => "invoke"
  | callBranch _ _ _ => "callbr"
  | landingPad => "landingpad"
  | catchPad => "catchpad"
  | cleanupPad => "cleanuppad"
  | resume => "resume"
  | catchSwitch => "catchswitch"
  | catchReturn => "catchret"
  | cleanupReturn => "cleanupret"
  | ret => "return"
  | branch _ _ => "branch"
  | switch _ _ => "switch"
  | indirectBranch _ => "indirectbr"
  | unreachable => "unreachable"
  | other => "other"

/-- What a call-like action calls. -/
def callee? : Action → Option Callee
  | call callee => some callee
  | invoke callee _ _ => some callee
  | callBranch callee _ _ => some callee
  | _ => none

end Action

/-- A statement of a listing. -/
structure Statement where
  /-- What the statement does. -/
  action : Action
  /-- The instruction that the statement was made from. -/
  source : InstId
  /-- The references that the statement reads. -/
  operands : List Reference
  /-- The reference that the statement defines; for a store, the place that it writes to. -/
  result : Option Reference
  /-- Whether an operand or the result is a pointer of the source program. -/
  pointer : Bool
  /-- The line of the source program. -/
  line : Option Nat
  /-- Whether walks over a block pass over the statement. -/
  ignored : Bool
  /-- Whether the statement hands an argument of a call to a parameter. -/
  binding : Bool
  deriving DecidableEq, Inhabited, Repr

namespace Statement

/-- Whether an operand or the result among these is a pointer of the source program. -/
def touchesPointer (operands : List Reference) (result : Option Reference) : Bool :=
  (operands ++ result.toList).any fun reference => reference.operand.pointer

/-- A statement made from an instruction. -/
def make (action : Action) (source : InstId) (operands : List Reference)
    (result : Option Reference) (line : Option Nat) : Statement where
  action
  source
  operands
  result
  pointer := touchesPointer operands result
  line
  ignored := false
  binding := false

/-- The statement that hands the argument `actual` of a call to the parameter `formal`. -/
def bindArgument (call : InstId) (formal : Operand) (actual : Reference) (line : Option Nat) :
    Statement :=
  { make .load call [actual] (some ⟨formal, 0⟩) line with binding := true }

variable (s : Statement)

/-- Whether this is a load. -/
def isLoad : Bool := s.action == .load

/-- Whether this is a store. -/
def isStore : Bool := s.action == .store

/-- Whether this is a plain call. -/
def isCall : Bool :=
  match s.action with
  | .call _ => true
  | _ => false

/-- Whether this is a phi. -/
def isPhi : Bool :=
  match s.action with
  | .phi _ => true
  | _ => false

/-- What the statement calls, if it is call-like. -/
def callee? : Option Callee := s.action.callee?

/-- The place that a store writes to. -/
def target? : Option Reference := if s.isStore then s.result else none

/-- The references that the statement reads as data: its operands, and the place that a store
writes to, whose address has to be known. -/
def reads : List Reference := s.operands ++ s.target?.toList

/-- All references whose operands the statement uses: what it reads, and the value that an
indirect call goes through. -/
def uses : List Reference := s.reads ++ (s.callee?.bind Callee.target?).toList

/-- The value that the statement defines; a store defines none. -/
def defined? : Option ValueId := if s.isStore then none else s.result.bind Reference.value

/-- Whether the statement touches a pointer of the source program, as its references stand. -/
def refreshPointer : Statement := { s with pointer := touchesPointer s.operands s.result }

end Statement

end LevelIr
