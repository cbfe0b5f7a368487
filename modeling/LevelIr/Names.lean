import LevelIr.Program.Edit

/-!
# Display names

Every register that a statement touches gets a name that is its own in the whole program: a
parameter is called after its function, and an unnamed result gets the next temporary name of its
function. A value is named at most once.

Main definition: `Names.assign`.
-/

namespace LevelIr

/-- The names given so far. -/
structure Names where
  /-- The values that were given a name, the most recent first. -/
  renamed : List ValueId := []
  /-- The number of the next temporary. -/
  next : Nat := 0
  deriving DecidableEq, Inhabited, Repr

namespace Names

/-- The display name of a parameter: its own name, or its position, and the function. -/
def formalName (value : Value) (position : Nat) (function : Function) : String :=
  value.name?.getD ("arg" ++ toString position) ++ "_" ++ function.name

/-- The display name of an unnamed result: a number, and the function. -/
def temporaryName (number : Nat) (function : Function) : String :=
  "t" ++ toString number ++ "_" ++ function.name

/-- Gives a value its display name, if it is a parameter or the unnamed result of an instruction
and has not been given one before. -/
def assign (names : Names) (p : Program) (v : ValueId) : Except Fault (Names × Program) := do
  let value ← p.value v
  if v ∈ names.renamed then return (names, p)
  match value.origin with
  | .argument f position =>
    let function ← p.function f
    return ({ names with renamed := v :: names.renamed },
      p.setName v (formalName value position function))
  | .result i =>
    if value.isNamed then return (names, p)
    let function ← p.function (← p.functionOf i)
    return ({ renamed := v :: names.renamed, next := names.next + 1 },
      p.setName v (temporaryName names.next function))
  | _ => return (names, p)

end Names

end LevelIr
