import LevelIr.Memory
import LevelIr.Workspace

/-!
# Versioning of memory

A load of a global variable or of a stack slot reads a state of memory, which an oracle knows by
the number of the access that made it. Versioning gives each such state a slot of its own, called
after the function, the storage and the number, and lets the load read that slot instead. The slot
is filled right before the first load that needs it.

Only the loads that the function had before are versioned: those that fill slots read the storage
itself.

Main definitions:

* `Versioning.slotName`: the name of a slot;
* `Versioning.fill`: makes a slot and fills it;
* `Versioning.load`: versions one load;
* `Workspace.versionFunction`, `Workspace.versionProgram`: version all loads.
-/

namespace LevelIr

namespace Versioning

/-- The name of the slot for a version of a storage in a function. -/
def slotName (function storage : String) (version : Nat) : String :=
  function ++ "_" ++ storage ++ "_" ++ toString version

/-- Places an instruction right before a load and answers its result. -/
def defineBefore (load : InstId) (draft : Draft) : Pass Program ValueId := do
  let (_, result) ← Program.placeBefore load draft
  match result with
  | some v => return v
  | none => throw (.defect (.loadWithoutResult load))

/-- Makes a slot and fills it, right before a load: reads the storage, reserves the slot and
writes to it what was read. -/
def fill (load : InstId) (storage : ValueId) (name : String) : Pass Program ValueId := do
  let inst ← (← get).inst load
  let content ← defineBefore load
    { opcode := .load, operands := [.value storage], type := inst.type, line := inst.line }
  let slot ← defineBefore load { opcode := .alloca, type := .pointer inst.type, name }
  let _ ← Program.placeBefore load
    { opcode := .store, operands := [.value content, .value slot], line := inst.line }
  return slot

/-- Runs a pass on the program, beside the slots. -/
def onProgram {α : Type} (pass : Pass Program α) : Pass (Program × Slots) α :=
  pass.within Prod.fst fun p state => (p, state.2)

/-- The slot with a name, made before a load if there is none yet. -/
def slotFor (load : InstId) (storage : ValueId) (name : String) (version : Nat) :
    Pass (Program × Slots) ValueId := do
  match (← get).2.slot? name with
  | some slot => return slot
  | none =>
    let slot ← onProgram (fill load storage name)
    modify fun (p, slots) => (p, slots.remember name slot version)
    return slot

/-- The storage that a load reads, if it is to be versioned: memory that is no slot itself. -/
def storage? (p : Program) (slots : Slots) (inst : Inst) : Except Fault (Option ValueId) :=
  match inst.operands.head?.bind Arg.value? with
  | none => .ok none
  | some v => do
    let memory ← p.isMemory (← p.value v)
    return if memory && !slots.isSlot v then some v else none

/-- Versions a load of a function; answers whether there was anything to do. -/
def load (function : Function) (oracle : Oracle) (i : InstId) :
    Pass (Program × Slots) Bool := do
  let (p, slots) ← get
  match ← storage? p slots (← p.inst i) with
  | none => return false
  | some storage =>
    match (oracle i).version? with
    | none => throw (.inconsistentOracle (oracle i) i)
    | some version =>
      let name := slotName function.name (← p.label storage) version
      let slot ← slotFor i storage name version
      onProgram (Program.replaceOperand i 0 (.value slot))
      return true

/-- Versions loads of a function; answers how many of them read a slot now. -/
def loads (function : Function) (oracle : Oracle) (insts : List InstId) :
    Pass (Program × Slots) Nat :=
  insts.foldlM (fun count i => do return count + (← load function oracle i).toNat) 0

end Versioning

/-- The loads of a function, in layout order. -/
def Program.loadsOf (p : Program) (function : Function) : List InstId :=
  (function.blocks.flatMap fun b => ((p.block? b).map Block.insts).getD []).filter fun i =>
    (p.inst? i).any (·.opcode = .load)

namespace Workspace

/-- Versions the loads of a function; answers how many of them read a slot now. -/
def versionFunction (oracle : Oracle) (f : FunctionId) : Pass Workspace Nat := do
  let p := (← get).program
  let function ← p.function f
  let count ← (Versioning.loads function oracle (p.loadsOf function)).within
    (fun w => (w.program, w.context.slots))
    fun (program, slots) w => { w with program, context := { w.context with slots } }
  report (.functionVersioned function.name count)
  return count

/-- Versions the loads of all functions that are listed; answers how many of them read a slot
now. -/
def versionProgram (oracle : Oracle) : Pass Workspace Nat := do
  (← get).program.listedFunctions.foldlM
    (fun count f => do return count + (← versionFunction oracle f)) 0

end Workspace

end LevelIr
