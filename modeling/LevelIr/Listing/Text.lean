import LevelIr.Listing.Basic
import LevelIr.Program.Flow
import LevelIr.Statement.Text

/-!
# The text of listings

Each function has a headline with its source file, if that is known, and a rule. Each block has a
line with its number, its name and the blocks from which control comes, then one line for each
statement that is not ignored, and an empty line.
-/

namespace LevelIr

namespace Listing

variable (p : Program) (l : Listing)

/-- The texts of the statements at a place that are not ignored. -/
def linesAt (place : Place) : Except Fault (List String) := do
  (← l.liveOf place).mapM fun n => do (← l.statement n).text p

/-- The headline of a function. -/
def headline (f : FunctionId) : Except Fault String := do
  let function ← p.function f
  let file := match function.file with
    | some file => "[" ++ file ++ "] "
    | none => ""
  return file ++ "Function: " ++ function.name ++ "\n" ++
    String.ofList (List.replicate 37 '-') ++ "\n"

/-- The text of a block. -/
def blockText (place : Place) : Except Fault String := do
  let predecessors ← (← p.predecessors place.block).mapM (Statement.blockName p)
  let number ← l.blockNumber place.block
  let name ← Statement.blockName p place.block
  let lines ← l.linesAt p place
  return "Basic block " ++ toString number ++ ": " ++ name ++ " (Predecessors: [" ++
    Statement.commas predecessors ++ "])\n" ++ String.join (lines.map (· ++ "\n")) ++ "\n"

/-- The text of blocks that follow a block of the function `current`; a headline stands wherever
the function changes. -/
def blocksText (current : Option FunctionId) : List Place → Except Fault String
  | [] => .ok ""
  | place :: rest => do
    let head ← if current = some place.function then pure "" else headline p place.function
    let block ← l.blockText p place
    return head ++ block ++ (← blocksText (some place.function) rest)

/-- The text of a listing. -/
def text : Except Fault String := l.blocksText p none l.blocks

end Listing

end LevelIr
