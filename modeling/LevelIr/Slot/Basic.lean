import LevelIr.Id
import LevelIr.Table

/-!
# Versioned slots

Versioning introduces a stack slot for each state of memory that a load reads. The table of
slots remembers them: the slot of each name, and the version of each slot.
-/

namespace LevelIr

/-- The slots made so far. -/
structure Slots where
  /-- The slot with a name. -/
  byName : Table String ValueId := {}
  /-- The version of a slot. -/
  versions : Table ValueId Nat := {}
  deriving DecidableEq, Inhabited, Repr

namespace Slots

variable (slots : Slots)

/-- The slot with a name. -/
def slot? (name : String) : Option ValueId := slots.byName.get? name

/-- The version of a slot; other values have none. -/
def version? (v : ValueId) : Option Nat := slots.versions.get? v

/-- Whether a value is a slot. -/
def isSlot (v : ValueId) : Bool := slots.versions.contains v

/-- The number of names that have a slot. -/
def size : Nat := slots.byName.size

/-- Remembers a new slot. -/
def remember (name : String) (slot : ValueId) (version : Nat) : Slots :=
  { byName := slots.byName.insert name slot, versions := slots.versions.insert slot version }

@[simp]
theorem slot?_remember (name other : String) (slot : ValueId) (version : Nat) :
    (slots.remember name slot version).slot? other =
      if other = name then some slot else slots.slot? other :=
  Table.get?_insert _ _ _ _

@[simp]
theorem version?_remember (name : String) (slot v : ValueId) (version : Nat) :
    (slots.remember name slot version).version? v =
      if v = slot then some version else slots.version? v :=
  Table.get?_insert _ _ _ _

theorem isSlot_eq_isSome (v : ValueId) : slots.isSlot v = (slots.version? v).isSome := rfl

theorem isSlot_remember (name : String) (slot v : ValueId) (version : Nat) :
    (slots.remember name slot version).isSlot v = true ↔ v = slot ∨ slots.isSlot v = true := by
  rw [isSlot_eq_isSome, isSlot_eq_isSome, version?_remember]
  by_cases h : v = slot
  · simp [h]
  · simp [h]

end Slots

end LevelIr
