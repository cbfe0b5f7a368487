/-!
# Kinds of operands

The closed set of categories into which the operands of a listing fall.
-/

namespace LevelIr

namespace Operand

/-- The category of an operand. -/
inductive Kind where
  /-- A value with a name. -/
  | named
  /-- An integer constant. -/
  | constantInt
  /-- A floating-point constant. -/
  | constantFloat
  /-- A null pointer. -/
  | constantNull
  /-- An undefined value. -/
  | undefined
  /-- A global variable or a function, without a name. -/
  | globalValue
  /-- The address of an element. -/
  | element
  /-- A cast between address spaces. -/
  | addressSpaceCast
  /-- A change of type that keeps the bits. -/
  | bitcast
  /-- A pointer taken as an integer. -/
  | pointerToInt
  /-- A widening with zero bits. -/
  | zeroExtend
  /-- Floating-point arithmetic. -/
  | floatMath
  /-- The address of a block. -/
  | blockAddress
  /-- A constant array, vector or record; it has no text. -/
  | aggregate
  /-- The empty token; it has no text. -/
  | token
  /-- A function address exempt from control-flow checks; it has no text. -/
  | noCfi
  /-- A value that cannot be an operand. -/
  | unsupported
  /-- No value, as in a return from a function without result. -/
  | null
  deriving DecidableEq, Inhabited, Repr

namespace Kind

/-- The name of a kind in messages. -/
def name : Kind → String
  | named => "variable"
  | constantInt => "constant int"
  | constantFloat => "constant float"
  | constantNull => "constant pointer null"
  | undefined => "undef"
  | globalValue => "global value"
  | element => "getelementptr expression"
  | addressSpaceCast => "addrspacecast expression"
  | bitcast => "bitcast expression"
  | pointerToInt => "ptrtoint expression"
  | zeroExtend => "zext expression"
  | floatMath => "floating-point expression"
  | blockAddress => "block address"
  | aggregate => "constant aggregate"
  | token => "token constant"
  | noCfi => "no_cfi value"
  | unsupported => "unsupported"
  | null => "null"

/-- Whether operands of this kind have a text. -/
def hasText : Kind → Bool
  | aggregate | token | noCfi | unsupported => false
  | _ => true

end Kind

end Operand

end LevelIr
