import LevelIr.Memory
import LevelIr.Operand.Kind
import LevelIr.Ty

/-!
# Faults

Everything that can go wrong, by cause, with the wording of each message in one place.

Main definitions:

* `Defect`: an input program that breaks a rule of its instruction set, or a listing that does
  not belong to the program it is read with;
* `Fault`: a reason for a failure;
* `Fault.message`: its text.
-/

namespace LevelIr

/-- A rule of the instruction set that an input program breaks. -/
inductive Defect where
  /-- An instruction lacks the value operand at a position. -/
  | noValueOperand (inst : InstId) (position : Nat)
  /-- A call has no callee. -/
  | noCallee (inst : InstId)
  /-- A case of a switch is no integer constant. -/
  | caseNotInteger (inst : InstId) (value : ValueId)
  /-- The cases of a switch are not pairs of a value and a block. -/
  | malformedCases (inst : InstId)
  /-- An element address has nothing to start from. -/
  | noBase (value : ValueId)
  /-- An operand was classified as an operator but its value is none. -/
  | notOperator (value : ValueId)
  /-- An operand was classified as an integer but its value is none. -/
  | notInteger (value : ValueId)
  /-- An operand was classified as a floating-point number but its value is none. -/
  | notFloat (value : ValueId)
  /-- An operand was classified as the address of a block but its value is none. -/
  | notBlockAddress (value : ValueId)
  /-- A load to be versioned has no result. -/
  | loadWithoutResult (inst : InstId)
  deriving DecidableEq, Repr

/-- The text of a defect. -/
def Defect.text : Defect → String
  | noValueOperand inst position => inst.text ++ " has no value operand " ++ toString position
  | noCallee inst => inst.text ++ " has no callee operand"
  | caseNotInteger inst value =>
    inst.text ++ ": switch case " ++ value.text ++ " is not an integer constant"
  | malformedCases inst => inst.text ++ ": malformed switch case list"
  | noBase value => "getelementptr " ++ value.text ++ " has no base operand"
  | notOperator value => value.text ++ " is classified as an operator but is not one"
  | notInteger value => value.text ++ " is not an integer constant"
  | notFloat value => value.text ++ " is not a float constant"
  | notBlockAddress value => value.text ++ " is not a block address"
  | loadWithoutResult inst => "load before " ++ inst.text ++ " has no result"

/-- What a position in a listing counts. -/
inductive Region where
  | function
  | block
  | statement
  | blockStatement
  deriving DecidableEq, Repr

/-- The name of a region in messages. -/
def Region.text : Region → String
  | function => "function"
  | block => "basic block"
  | statement => "instruction"
  | blockStatement => "block instruction"

/-- A reason for a failure. -/
inductive Fault where
  /-- A value that cannot be an operand. -/
  | unsupportedOperand (value : ValueId) (type : Ty)
  /-- A subscript that is neither an integer constant nor a named register. -/
  | unsupportedIndex (address index : ValueId) (type : Ty)
  /-- An operand that has no text. -/
  | noText (kind : Operand.Kind)
  /-- An oracle that names a read as what defines the memory of a load. -/
  | inconsistentOracle (access : Access) (load : InstId)
  /-- A position that a listing does not have. -/
  | outOfBounds (region : Region) (index length : Nat)
  /-- Versioning was asked for without an oracle. -/
  | missingOracle
  /-- A broken rule of the instruction set. -/
  | defect (defect : Defect)
  /-- A handle or an operand position that the program does not have. -/
  | noSuchEntry
  /-- An instruction that was to have a result but has none. -/
  | noResult (inst : InstId)
  /-- An operand that is written in terms of itself. -/
  | cyclicOperand (value : ValueId)
  deriving DecidableEq, Repr

/-- The text of a fault. -/
def Fault.message : Fault → String
  | unsupportedOperand value type =>
    "Unsupported operand: " ++ value.text ++ " of type " ++ type.text
  | unsupportedIndex address index type =>
    "Unsupported GEP index in " ++ address.text ++ ": " ++ index.text ++ " (" ++ type.text ++
      ") is a constant but not an integer"
  | noText kind => "Operand of kind " ++ kind.name ++ " cannot be rendered"
  | inconsistentOracle access load =>
    "Memory dependence oracle returned " ++ access.text ++ " for load InstId(" ++
      toString load.index ++ ")"
  | outOfBounds region index length =>
    region.text ++ " index " ++ toString index ++ " out of bounds (len " ++ toString length ++ ")"
  | missingOracle => "SSA versioning is enabled but no memory dependence oracle was supplied"
  | defect d => "Internal error: " ++ d.text
  | noSuchEntry => "index out of bounds"
  | noResult inst => inst.text ++ " produces no value"
  | cyclicOperand value => "Operand " ++ value.text ++ " is written in terms of itself"

end LevelIr
