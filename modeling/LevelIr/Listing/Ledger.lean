import LevelIr.Listing.Excerpt
import LevelIr.Listing.Forward
import LevelIr.Listing.Transcribe

/-!
# Listings kept in tables

A ledger keeps a listing in tables: the statements by number, the numbers at each place, and the
numbers of the blocks. A statement that is filed carries its number, and two counters give out the
numbers of statements and of blocks. Nothing ties the tables to each other but the operations, each
of which brings every table up to date that it concerns.

A ledger is made as a listing is: of a whole program, block by block, or by forwarding.

Main definitions:

* `Ledger`: the tables;
* `Ledger.addFunction`, `Ledger.addBlock`, `Ledger.push`: building a ledger;
* `Ledger.statement`, `Ledger.numbersOf`, `Ledger.blockNumber`, `Ledger.setIgnored`: what can be
  asked of it and marked in it;
* `Ledger.transcribe`, `Ledger.excerpt`, `Ledger.forward`: the ledger of a program, of single
  blocks, and after forwarding.
-/

namespace LevelIr

/-- A statement under its number. -/
structure Filed where
  /-- The number. -/
  number : Nat
  /-- The statement. -/
  statement : Statement
  deriving DecidableEq, Inhabited, Repr

/-- The tables of a listing. -/
structure Ledger where
  /-- The functions, in order. -/
  functions : List FunctionId := []
  /-- The blocks, in order. -/
  blocks : List Place := []
  /-- The numbers at each place. -/
  lists : Table Place (List Nat) := {}
  /-- The statements, by number. -/
  filed : Table Nat Filed := {}
  /-- The numbers of the blocks. -/
  blockNumbers : Table BlockId Nat := {}
  /-- What each function returns. -/
  returns : Table FunctionId Reference := {}
  /-- The number of the next statement. -/
  nextNumber : Nat := 0
  /-- The number of the next block. -/
  nextBlock : Nat := 0
  deriving DecidableEq, Inhabited, Repr

namespace Ledger

variable (d : Ledger)

/-! ### Building -/

/-- The list of a place, empty if there is none yet. -/
def listAt (place : Place) : List Nat := (d.lists.get? place).getD []

/-- Adds a function, unless it is there already. -/
def addFunction (f : FunctionId) : Ledger :=
  if f ∈ d.functions then d else { d with functions := d.functions ++ [f] }

/-- Adds a block under the next number, unless it has a number already. Its place gets a list. -/
def addBlock (place : Place) : Ledger :=
  match d.blockNumbers.get? place.block with
  | some _ => d
  | none => { d with
      blocks := d.blocks ++ [place]
      lists := d.lists.insert place (d.listAt place)
      blockNumbers := d.blockNumbers.insert place.block d.nextBlock
      nextBlock := d.nextBlock + 1 }

/-- Files a statement under the next number, which is put at the end of the list of its place. -/
def push (place : Place) (statement : Statement) : Ledger :=
  { d with
    lists := d.lists.insert place (d.listAt place ++ [d.nextNumber])
    filed := d.filed.insert d.nextNumber ⟨d.nextNumber, statement⟩
    nextNumber := d.nextNumber + 1 }

/-- Files statements in order. -/
def pushAll (place : Place) (statements : List Statement) : Ledger :=
  statements.foldl (fun d statement => d.push place statement) d

/-- Records what a function returns. -/
def setReturned (f : FunctionId) (reference : Reference) : Ledger :=
  { d with returns := d.returns.insert f reference }

/-! ### Queries -/

/-- The statements at a place, in order. -/
def statementsAt (place : Place) : List Statement :=
  (d.listAt place).filterMap fun n => (d.filed.get? n).map Filed.statement

/-- The number of a block. -/
def blockNumber (block : BlockId) : Except Fault Nat :=
  match d.blockNumbers.get? block with
  | some n => .ok n
  | none => .error (.outOfBounds .block block.index d.blockNumbers.size)

/-- The statement with a number. -/
def statement (n : Nat) : Except Fault Filed :=
  match d.filed.get? n with
  | some filed => .ok filed
  | none => .error (.outOfBounds .statement n d.filed.size)

/-- The numbers at a place that has a list of them. -/
def numbersOf (place : Place) : Except Fault (List Nat) :=
  match d.lists.get? place with
  | some numbers => .ok numbers
  | none => .error (.outOfBounds .block place.block.index d.lists.size)

/-- Marks a statement as one that walks over its block pass over, or takes the mark back. -/
def setIgnored (n : Nat) (ignored : Bool) : Except Fault Ledger :=
  match d.filed.get? n with
  | some filed => .ok { d with
      filed := d.filed.insert n { filed with statement := { filed.statement with ignored } } }
  | none => .error (.outOfBounds .statement n d.filed.size)

/-! ### The ledger of a program -/

/-- Files a statement of a function; if it returns a value, that is recorded first. -/
def file (place : Place) (d : Ledger) (s : Statement) : Ledger :=
  match s.returned? with
  | some reference => (d.setReturned place.function reference).push place s
  | none => d.push place s

/-- Adds a function with its body. -/
def addBody (f : FunctionId) (body : Body) : Ledger :=
  body.foldl (fun d part => part.2.foldl (file ⟨f, part.1⟩) (d.addBlock ⟨f, part.1⟩))
    (d.addFunction f)

/-- The ledger of a program, with or without what depends on pointers of the source program. -/
def transcribe (discard : Bool) : Pass Workspace Ledger := do
  let functions := (← get).program.listedFunctions
  let d ← functions.foldlM
    (fun (d : Ledger) f => return d.addBody f (← Workspace.transcribeBody discard f)) {}
  Workspace.report (.programListed d.functions.length d.nextBlock d.nextNumber)
  return d

/-! ### The ledger of single blocks -/

/-- Files the statement of an instruction, if it belongs to an excerpt; answers how many were
filed. -/
def excerptInst (place : Place) (i : InstId) : Pass (Ledger × Workspace) Nat := do
  match ← (Excerpt.statement? i).within Prod.snd fun w state => (state.1, w) with
  | some statement =>
    modify fun state => (state.1.push place statement, state.2)
    return 1
  | none => return 0

/-- Adds a block to the ledger of an excerpt; answers how many statements were filed. -/
def excerpt (place : Place) : Pass (Ledger × Workspace) Nat := do
  modify fun state => ((state.1.addFunction place.function).addBlock place, state.2)
  let block ← (← get).2.program.block place.block
  block.insts.foldlM (fun count i => do return count + (← excerptInst place i)) 0

/-! ### Forwarding -/

/-- How often the listed blocks of a function use a value. -/
def mentionCount (f : FunctionId) (v : ValueId) : Nat :=
  ((d.blocks.filter (·.function = f)).flatMap fun place =>
    (d.statementsAt place).flatMap fun s => s.uses.flatMap (·.operand.mentions)).count v

/-- The ledger after forwarding, numbered anew. -/
def forward (reach : Int) : Ledger :=
  let functions := d.functions.foldl addFunction {}
  let out := d.blocks.foldl
    (fun (out : Ledger) place => (out.addBlock place).pushAll place
      (Forward.block (d.mentionCount place.function) reach (d.statementsAt place))) functions
  { out with returns := d.returns }

end Ledger

end LevelIr
