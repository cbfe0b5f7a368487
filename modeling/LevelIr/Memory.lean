import LevelIr.Id
import LevelIr.Ty

/-!
# Memory accesses

A memory-dependence oracle tells which access defines the memory that a load reads. Every
access has a number; the number of the defining access is the version of the loaded memory.
-/

namespace LevelIr

/-- An access to memory, with its number. -/
inductive Access where
  /-- A write, or the state of memory on entry. -/
  | definition (id : Nat)
  /-- A point where the definitions of several predecessors meet. -/
  | merge (id : Nat)
  /-- A read, which never defines the memory that a load reads. -/
  | use (id : Nat)
  deriving DecidableEq, Inhabited, Repr

namespace Access

/-- The version that an access gives to the memory it defines. -/
def version? : Access → Option Nat
  | definition id => some id
  | merge id => some id
  | use _ => none

/-- The number of an access. -/
def id : Access → Nat
  | definition id | merge id | use id => id

/-- What an access is called in a message. -/
def label : Access → String
  | definition _ => "Def"
  | merge _ => "Phi"
  | use _ => "Use"

/-- The text of an access in a message. -/
def text (access : Access) : String :=
  access.label ++ " " ++ braced (" id: " ++ toString access.id ++ " ")

end Access

/-- A memory-dependence oracle: the access that defines what each load reads. -/
abbrev Oracle := InstId → Access

namespace Oracle

/-- The oracle given by a list of answers, of which the last one for a load counts. A load that
is not listed reads the state of memory on entry, which has number zero. -/
def ofList (answers : List (InstId × Access)) : Oracle :=
  fun load => (answers.reverse.lookup load).getD (.definition 0)

theorem ofList_nil (load : InstId) : ofList [] load = .definition 0 := rfl

end Oracle

end LevelIr
