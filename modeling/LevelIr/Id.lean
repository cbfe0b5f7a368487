/-!
# Handles

Values, instructions, blocks and functions of a program are numbered from zero in the order in
which they are made. A handle is such a number, with its own type for each kind of thing.
-/

namespace LevelIr

/-- The handle of a value. -/
structure ValueId where
  /-- The number of the value in its program. -/
  index : Nat
  deriving DecidableEq, Inhabited, Repr

/-- The handle of an instruction. -/
structure InstId where
  /-- The number of the instruction in its program. -/
  index : Nat
  deriving DecidableEq, Inhabited, Repr

/-- The handle of a block. -/
structure BlockId where
  /-- The number of the block in its program. -/
  index : Nat
  deriving DecidableEq, Inhabited, Repr

/-- The handle of a function. -/
structure FunctionId where
  /-- The number of the function in its program. -/
  index : Nat
  deriving DecidableEq, Inhabited, Repr

/-- The text of a value handle, which stands for the name of a value that has none. -/
def ValueId.text (value : ValueId) : String := "v" ++ toString value.index

/-- The text of an instruction handle. -/
def InstId.text (inst : InstId) : String := "inst" ++ toString inst.index

end LevelIr
