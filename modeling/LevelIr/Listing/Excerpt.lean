import LevelIr.Listing.Basic
import LevelIr.Workspace

/-!
# Listing single blocks

A listing can be made block by block, on demand. Such an excerpt holds only loads and stores that
touch pointers of the source program, calls, element addresses, bit casts, returns and phis, and
no statements that hand over arguments.

If an instruction fails, the statements before it have been added all the same.

Main definition: `Excerpt.add`.
-/

namespace LevelIr

namespace Excerpt

/-- Whether instructions of this kind belong to an excerpt. -/
def covers : Opcode → Bool
  | .load | .store | .call | .getElementPtr | .bitCast | .ret | .phi => true
  | _ => false

/-- The statement of an instruction, if it belongs to an excerpt. -/
def statement? (i : InstId) : Pass Workspace (Option Statement) := do
  let inst ← (← get).program.inst i
  if inst.isSkipped || !covers inst.opcode then return none
  Workspace.nameRegisters inst
  let statement ← Workspace.toStatement i
  if (statement.isLoad || statement.isStore) && !statement.pointer then return none
  return some statement

/-- Adds the statement of an instruction to an excerpt; answers how many were added. -/
def addInst (place : Place) (i : InstId) : Pass (Listing × Workspace) Nat := do
  match ← (statement? i).within Prod.snd fun w state => (state.1, w) with
  | some statement =>
    modify fun (l, w) => (l.push place statement, w)
    return 1
  | none => return 0

/-- Adds a block to an excerpt; answers how many statements were added. -/
def add (place : Place) : Pass (Listing × Workspace) Nat := do
  modify fun (l, w) => ((l.addFunction place.function).addBlock place, w)
  let block ← (← get).2.program.block place.block
  block.insts.foldlM (fun count i => do return count + (← addInst place i)) 0

end Excerpt

end LevelIr
