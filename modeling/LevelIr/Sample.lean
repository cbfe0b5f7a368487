import LevelIr.Program.Cursor

/-!
# Sample programs

Small programs that show what the passes do: a chain of stores and loads, a call with arguments,
repeated reads of a global variable, and straight-line programs made from a list of steps.
-/

namespace LevelIr

/-- A sample program with the function and the block that the samples are about. -/
structure Sample where
  /-- The program. -/
  program : Program
  /-- The main function. -/
  main : FunctionId
  /-- The entry block of the main function. -/
  entry : BlockId
  deriving Inhabited, Repr

namespace Sample

/-- The program written by a script, with what the script answers. -/
def write {α : Type} (name : String) (script : Pass Program α) : Except Fault (α × Program) :=
  match script.outcome { name } with
  | (.ok answer, p) => .ok (answer, p)
  | (.error fault, _) => .error fault

/-- A constant goes through one variable into another. -/
def chain : Except Fault Sample := do
  let ((main, entry), program) ← write "chain" do
    let main ← Program.addFunction "main" .void []
    modify (Program.setFile main "chain.c")
    let entry ← Program.addBlock main "entry"
    let five ← Program.addInteger 32 5
    let first : Cursor := { block := entry, line := some 3 }
    let second : Cursor := { block := entry, line := some 4 }
    let a ← first.alloca (.int 32) "a"
    let _ ← first.store five a
    let t ← second.load a "t"
    let b ← second.alloca (.int 32) "b"
    let _ ← second.store t b
    return (main, entry)
  return { program, main, entry }

/-- Constants, one for each number below `count`. -/
def constantsBelow (count : Nat) : StateM Program (List ValueId) :=
  (List.range count).mapM fun (n : Nat) => Program.addInteger 32 n

/-- A call that passes constants for `count` parameters; answers the function that is called and
the call too. -/
def callOf (count : Nat) : Except Fault (Sample × FunctionId × InstId) := do
  let ((main, entry, callee, call), program) ← write "calls" do
    let params := (List.range count).map fun (n : Nat) => ("p" ++ toString n, Ty.int 32)
    let callee ← Program.addFunction "callee" .void params
    let body : Cursor := { block := ← Program.addBlock callee "entry" }
    let _ ← body.ret none
    let main ← Program.addFunction "main" .void []
    let entry ← Program.addBlock main "entry"
    let arguments ← constantsBelow count
    let c : Cursor := { block := entry }
    let x ← c.alloca (.int 32) "x"
    let (call, _) ← c.call callee arguments ""
    let v ← c.load x "v"
    let _ ← c.store v x
    let _ ← c.ret none
    return (main, entry, callee, call)
  return ({ program, main, entry }, callee, call)

/-- Two reads of a global variable, of which the second goes into a local one; answers the two
reads too. -/
def readsOfGlobal : Except Fault (Sample × InstId × InstId) := do
  let ((main, entry, first, second), program) ← write "globals" do
    let g ← Program.addGlobal "g" (.int 32)
    let main ← Program.addFunction "main" .void []
    let entry ← Program.addBlock main "entry"
    let c : Cursor := { block := entry }
    let slot ← c.alloca (.int 32) "local"
    let x ← c.load g "x"
    let y ← c.load g "y"
    let _ ← c.store y slot
    let _ ← c.ret none
    let first ← Program.found ((← get).makerOf? x)
    let second ← Program.found ((← get).makerOf? y)
    return (main, entry, first, second)
  return ({ program, main, entry }, first, second)

/-! ### Straight-line programs -/

/-- A step of a straight-line program. A step refers to variables, pointers and loaded values by
number, counted round and round among those there are; a step that has none to refer to does
nothing. -/
inductive Step where
  /-- A new variable. -/
  | newVariable
  /-- A new pointer to a variable. -/
  | newPointer (target : Nat)
  /-- A constant goes into a variable. -/
  | setVariable (slot : Nat) (value : Int)
  /-- A variable is read. -/
  | readVariable (slot : Nat)
  /-- A constant goes where a pointer points to. -/
  | setThrough (pointer : Nat) (value : Int)
  /-- A value that was read goes into a variable. -/
  | writeBack (value slot : Nat)
  /-- Two values that were read are passed to a function. -/
  | passOn (first second : Nat)
  deriving DecidableEq, Inhabited, Repr

/-- What a straight-line program has to refer to. -/
structure Stock where
  /-- The variables. -/
  slots : List ValueId
  /-- The pointers. -/
  pointers : List ValueId
  /-- The values that were read. -/
  loaded : List ValueId

/-- An element of a list by number, counted round and round. -/
def pick? (values : List ValueId) (n : Nat) : Option ValueId := values[n % values.length]?

/-- Writes a step. -/
def writeStep (c : Cursor) (sink : FunctionId) (stock : Stock) : Step → Pass Program Stock
  | .newVariable => do
    let slot ← c.alloca (.int 32) ("s" ++ toString stock.slots.length)
    return { stock with slots := stock.slots ++ [slot] }
  | .newPointer target =>
    match pick? stock.slots target with
    | none => return stock
    | some slot => do
      let pointer ← c.alloca (.pointer (.int 32)) ("p" ++ toString stock.pointers.length)
      let _ ← c.store slot pointer
      return { stock with pointers := stock.pointers ++ [pointer] }
  | .setVariable slot value =>
    match pick? stock.slots slot with
    | none => return stock
    | some slot => do
      let constant ← Program.addInteger 32 value
      let _ ← c.store constant slot
      return stock
  | .readVariable slot =>
    match pick? stock.slots slot with
    | none => return stock
    | some slot => do
      let v ← c.load slot ""
      return { stock with loaded := stock.loaded ++ [v] }
  | .setThrough pointer value =>
    match pick? stock.pointers pointer with
    | none => return stock
    | some pointer => do
      let address ← c.load pointer ""
      let constant ← Program.addInteger 32 value
      let _ ← c.store constant address
      return stock
  | .writeBack value slot =>
    match pick? stock.loaded value, pick? stock.slots slot with
    | some value, some slot => do
      let _ ← c.store value slot
      return stock
    | _, _ => return stock
  | .passOn first second =>
    match pick? stock.loaded first, pick? stock.loaded second with
    | some first, some second => do
      let _ ← c.call sink [first, second] ""
      return stock
    | _, _ => return stock

/-- The straight-line program of a list of steps; its calls go to a function of two parameters. -/
def ofSteps (steps : List Step) : Except Fault Sample := do
  let ((main, entry), program) ← write "generated" do
    let sink ← Program.addFunction "sink" .void [("a", .int 32), ("b", .int 32)]
    let body : Cursor := { block := ← Program.addBlock sink "entry" }
    let _ ← body.ret none
    let main ← Program.addFunction "main" .void []
    let entry ← Program.addBlock main "entry"
    let c : Cursor := { block := entry }
    let slot ← c.alloca (.int 32) "s0"
    let _ ← steps.foldlM (writeStep c sink) ⟨[slot], [], []⟩
    let _ ← c.ret none
    return (main, entry)
  return { program, main, entry }

end Sample

end LevelIr
