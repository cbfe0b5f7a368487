import LevelIr.Fault
import LevelIr.Statement.Basic
import LevelIr.Table

/-!
# Listings

A listing is a program in uniform statements. Statements are numbered from zero in the order in
which they are added, whatever block they belong to, and blocks are numbered from zero in the
order in which they are first met.

A block is listed under the function with which it was first met. Statements that are added under
another function belong to a place of their own, which is not among the listed blocks.

Main definitions:

* `Place`: a block of a function;
* `Listing`: the listing;
* `Listing.addFunction`, `Listing.addBlock`, `Listing.push`: building a listing;
* `Listing.numbersAt`, `Listing.statementsAt`: the statements at a place;
* `Listing.statement`, `Listing.numbersOf` and the other queries, which fail on a position that
  the listing does not have.
-/

namespace LevelIr

/-- A block of a function. -/
structure Place where
  /-- The function. -/
  function : FunctionId
  /-- The block. -/
  block : BlockId
  deriving DecidableEq, Inhabited, Repr

/-- A statement and the place where it stands. -/
structure Entry where
  /-- The place. -/
  place : Place
  /-- The statement. -/
  statement : Statement
  deriving DecidableEq, Inhabited, Repr

/-- A listing of a program. -/
structure Listing where
  /-- The functions, in order. -/
  functions : List FunctionId := []
  /-- The blocks, in order. -/
  blocks : List Place := []
  /-- The statements, by number. -/
  entries : Array Entry := #[]
  /-- What each function returns. -/
  returns : Table FunctionId Reference := {}
  deriving DecidableEq, Inhabited, Repr

namespace Listing

variable (l : Listing)

/-! ### Building -/

/-- Adds a function, unless it is there already. -/
def addFunction (f : FunctionId) : Listing :=
  if f ∈ l.functions then l else { l with functions := l.functions ++ [f] }

/-- Adds a block, unless it is listed already under this or another function. -/
def addBlock (place : Place) : Listing :=
  if l.blocks.any (·.block = place.block) then l else { l with blocks := l.blocks ++ [place] }

/-- Adds a statement under the next number. -/
def push (place : Place) (statement : Statement) : Listing :=
  { l with entries := l.entries.push ⟨place, statement⟩ }

/-- Adds statements in order. -/
def pushAll (place : Place) (statements : List Statement) : Listing :=
  statements.foldl (fun l statement => l.push place statement) l

/-- Records what a function returns. -/
def setReturned (f : FunctionId) (reference : Reference) : Listing :=
  { l with returns := l.returns.insert f reference }

/-! ### Views -/

/-- The number of statements. -/
def size : Nat := l.entries.size

/-- The statements, by number. -/
def statements : List Statement := l.entries.toList.map Entry.statement

/-- The places that have a list of statements: the listed blocks, and the other places at which
statements stand. -/
def places : List Place := (l.blocks ++ l.entries.toList.map Entry.place).eraseDups

/-- The numbers of the statements at a place, in order. -/
def numbersAt (place : Place) : List Nat :=
  (List.range l.entries.size).filter fun n => l.entries[n]?.any (·.place = place)

/-- The statements at a place, in order. -/
def statementsAt (place : Place) : List Statement :=
  (l.entries.toList.filter (·.place = place)).map Entry.statement

/-- What a function returns, if it returns a value. -/
def returned? (f : FunctionId) : Option Reference := l.returns.get? f

/-- Whether there is a statement with a number that is not ignored. -/
def isLive (n : Nat) : Bool := l.entries[n]?.any fun entry => !entry.statement.ignored

/-- All numbers, highest first. -/
def numbersReversed : List Nat := (List.range l.entries.size).reverse

/-! ### Queries -/

/-- The function at a position. -/
def functionAt (index : Nat) : Except Fault FunctionId :=
  match l.functions[index]? with
  | some f => .ok f
  | none => .error (.outOfBounds .function index l.functions.length)

/-- The number of a block. -/
def blockNumber (block : BlockId) : Except Fault Nat :=
  match l.blocks.findIdx? (·.block = block) with
  | some n => .ok n
  | none => .error (.outOfBounds .block block.index l.blocks.length)

/-- The statement with a number. -/
def statement (n : Nat) : Except Fault Statement :=
  match l.entries[n]? with
  | some entry => .ok entry.statement
  | none => .error (.outOfBounds .statement n l.entries.size)

/-- Marks a statement as one that walks over its block pass over, or takes the mark back. -/
def setIgnored (n : Nat) (ignored : Bool) : Except Fault Listing :=
  if n < l.entries.size then
    .ok { l with entries := l.entries.modify n fun entry =>
      { entry with statement := { entry.statement with ignored } } }
  else .error (.outOfBounds .statement n l.entries.size)

/-- The numbers of the statements at a place that has a list of them. -/
def numbersOf (place : Place) : Except Fault (List Nat) :=
  if place ∈ l.places then .ok (l.numbersAt place)
  else .error (.outOfBounds .block place.block.index l.places.length)

/-- The number at a position in the list of a place. -/
def numberAt (place : Place) (position : Nat) : Except Fault Nat := do
  let numbers ← l.numbersOf place
  match numbers[position]? with
  | some n => return n
  | none => throw (.outOfBounds .blockStatement position numbers.length)

/-- The numbers of the statements at a place that are not ignored. -/
def liveOf (place : Place) : Except Fault (List Nat) := do
  return (← l.numbersOf place).filter l.isLive

/-- The names of what the statements do, by number. -/
def mnemonics : List String := l.statements.map (·.action.mnemonic)

/-! ### What building changes -/

@[simp]
theorem size_push (place : Place) (statement : Statement) :
    (l.push place statement).size = l.size + 1 := by
  simp [size, push]

theorem statements_push (place : Place) (statement : Statement) :
    (l.push place statement).statements = l.statements ++ [statement] := by
  simp [statements, push]

theorem statementsAt_push (place other : Place) (statement : Statement) :
    (l.push place statement).statementsAt other =
      l.statementsAt other ++ if place = other then [statement] else [] := by
  by_cases h : place = other <;> simp [statementsAt, push, List.filter_append, h]

theorem statementsAt_pushAll (place other : Place) (statements : List Statement) :
    (l.pushAll place statements).statementsAt other =
      l.statementsAt other ++ if place = other then statements else [] := by
  induction statements generalizing l with
  | nil => simp [pushAll]
  | cons s rest ih =>
    have hstep : l.pushAll place (s :: rest) = (l.push place s).pushAll place rest := rfl
    rw [hstep, ih, statementsAt_push]
    by_cases h : place = other <;> simp [h]

@[simp]
theorem size_pushAll (place : Place) (statements : List Statement) :
    (l.pushAll place statements).size = l.size + statements.length := by
  induction statements generalizing l with
  | nil => simp [pushAll]
  | cons s rest ih =>
    have hstep : l.pushAll place (s :: rest) = (l.push place s).pushAll place rest := rfl
    rw [hstep, ih, size_push, List.length_cons]
    omega

end Listing

end LevelIr
