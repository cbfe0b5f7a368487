/-!
# Types of the input program

A type is a scalar, a pointer, an array, a vector, a structure or a function type. Pointers
carry what they point to: the passes tell a pointer of the source program from the address of
a variable by looking one level below a value's type.

Main definitions:

* `Ty`: the types;
* `braced`: a text in braces;
* `Ty.text`: the text of a type, as it appears in listings and messages;
* `Ty.contained`: the types directly contained in one.
-/

namespace LevelIr

/-! ### Braces -/

@[simp] abbrev openBrace : Char := '\x7b'

@[simp] abbrev closeBrace : Char := '\x7d'

/-- A text in braces. -/
def braced (text : String) : String := openBrace.toString ++ text ++ closeBrace.toString

@[simp] theorem toList_braced (text : String) :
    (braced text).toList = openBrace :: (text.toList ++ [closeBrace]) := by
  simp [braced]

/-! ### Types -/

/-- A type of the input program. -/
inductive Ty where
  /-- No value at all. -/
  | void
  /-- An integer of the given width in bits. -/
  | int (bits : Nat)
  /-- A 32-bit floating-point number. -/
  | float
  /-- A 64-bit floating-point number. -/
  | double
  /-- The address of a value of the given type. -/
  | pointer (pointee : Ty)
  /-- A sequence of values in memory. -/
  | array (length : Nat) (element : Ty)
  /-- A sequence of values in a register. -/
  | vector (length : Nat) (element : Ty)
  /-- A record. -/
  | struct (fields : List Ty)
  /-- A function from parameters to a result. -/
  | function (result : Ty) (params : List Ty)
  /-- The type of block labels. -/
  | label
  /-- The type of tokens. -/
  | token
  /-- The type of metadata. -/
  | metadata
  deriving Inhabited, Repr

namespace Ty

/-! ### Equality -/

mutual

/-- Whether two types are the same. -/
def same : Ty → Ty → Bool
  | void, void => true
  | int m, int n => m == n
  | float, float => true
  | double, double => true
  | pointer a, pointer b => same a b
  | array m a, array n b => m == n && same a b
  | vector m a, vector n b => m == n && same a b
  | struct fields, struct others => sameAll fields others
  | function a params, function b others => same a b && sameAll params others
  | label, label => true
  | token, token => true
  | metadata, metadata => true
  | _, _ => false

/-- Whether two lists of types are the same. -/
def sameAll : List Ty → List Ty → Bool
  | [], [] => true
  | a :: types, b :: others => same a b && sameAll types others
  | _, _ => false

end

mutual

theorem same_iff : ∀ (a b : Ty), same a b = true ↔ a = b
  | void, b => by cases b <;> simp [same]
  | int _, b => by cases b <;> simp [same]
  | float, b => by cases b <;> simp [same]
  | double, b => by cases b <;> simp [same]
  | pointer a, b => by cases b <;> simp [same, same_iff a]
  | array _ a, b => by cases b <;> simp [same, same_iff a]
  | vector _ a, b => by cases b <;> simp [same, same_iff a]
  | struct fields, b => by cases b <;> simp [same, sameAll_iff fields]
  | function a params, b => by cases b <;> simp [same, same_iff a, sameAll_iff params]
  | label, b => by cases b <;> simp [same]
  | token, b => by cases b <;> simp [same]
  | metadata, b => by cases b <;> simp [same]

theorem sameAll_iff : ∀ (types others : List Ty), sameAll types others = true ↔ types = others
  | [], others => by cases others <;> simp [sameAll]
  | a :: types, others => by cases others <;> simp [sameAll, same_iff a, sameAll_iff types]

end

instance : DecidableEq Ty := fun a b => decidable_of_iff _ (same_iff a b)

/-! ### Text -/

mutual

/-- The text of a type. Pointers and functions are written after what they are made of, so
`i8 (i32)*` is a pointer to a function. -/
def text : Ty → String
  | void => "void"
  | int bits => "i" ++ toString bits
  | float => "float"
  | double => "double"
  | pointer pointee => pointee.text ++ "*"
  | array length element => "[" ++ toString length ++ " x " ++ element.text ++ "]"
  | vector length element => "<" ++ toString length ++ " x " ++ element.text ++ ">"
  | struct fields => braced (texts fields)
  | function result params => result.text ++ " (" ++ texts params ++ ")"
  | label => "label"
  | token => "token"
  | metadata => "metadata"

/-- The texts of several types, with a comma and a blank between them. -/
def texts : List Ty → String
  | [] => ""
  | [type] => type.text
  | type :: next :: rest => type.text ++ ", " ++ texts (next :: rest)

end

/-! ### Parts -/

/-- Whether this is a pointer type. -/
def isPointer : Ty → Bool
  | pointer _ => true
  | _ => false

/-- Whether this is the type of no value. -/
def isVoid : Ty → Bool
  | void => true
  | _ => false

/-- What a pointer type points to. -/
def pointee? : Ty → Option Ty
  | pointer pointee => some pointee
  | _ => none

/-- The types directly contained in this one; a function type contains its result type and
then its parameter types. -/
def contained : Ty → List Ty
  | pointer pointee => [pointee]
  | array _ element => [element]
  | vector _ element => [element]
  | struct fields => fields
  | function result params => result :: params
  | _ => []

/-- Whether a value of this type is a pointer in the source program. A variable of the source
program is held as the address of its contents, so a pointer of the source program shows as a
type whose first contained type is itself a pointer. -/
def isSourcePointer (type : Ty) : Bool :=
  type.contained.head?.any isPointer

theorem isVoid_iff {type : Ty} : type.isVoid = true ↔ type = void := by
  cases type <;> simp [isVoid]

theorem isPointer_iff {type : Ty} : type.isPointer = true ↔ ∃ pointee, type = pointer pointee := by
  cases type <;> simp [isPointer]

@[simp]
theorem pointee?_pointer (type : Ty) : (pointer type).pointee? = some type := rfl

end Ty

end LevelIr
