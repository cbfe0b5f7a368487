/-!
# Finite tables

A table holds at most one entry for each key. Its entries are kept in a list, the most recent
first, so that a table is a plain value that can be compared and computed with.
-/

namespace LevelIr

/-- A table of entries by key. -/
structure Table (κ β : Type) where
  /-- The entries. -/
  entries : List (κ × β) := []
  /-- No key occurs twice. -/
  nodup : (entries.map Prod.fst).Nodup := by exact List.nodup_nil
  deriving DecidableEq, Repr

namespace Table

variable {κ β : Type} [DecidableEq κ]

instance : Inhabited (Table κ β) := ⟨{}⟩

/-- The entry for a key. -/
def get? (table : Table κ β) (key : κ) : Option β := table.entries.lookup key

/-- Whether there is an entry for a key. -/
def contains (table : Table κ β) (key : κ) : Bool := (table.get? key).isSome

/-- Sets the entry for a key, in place of the one it had. -/
def insert (table : Table κ β) (key : κ) (entry : β) : Table κ β where
  entries := (key, entry) :: table.entries.filter fun old => old.1 != key
  nodup := by
    rw [List.map_cons, List.nodup_cons]
    refine ⟨fun hkey => ?_, table.nodup.sublist (List.filter_sublist.map _)⟩
    obtain ⟨old, hold, heq⟩ := List.mem_map.1 hkey
    exact bne_iff_ne.1 (List.mem_filter.1 hold).2 heq

/-- The number of entries. -/
def size (table : Table κ β) : Nat := table.entries.length

/-- The keys that have an entry. -/
def keys (table : Table κ β) : List κ := table.entries.map Prod.fst

@[simp]
theorem get?_empty (key : κ) : ({} : Table κ β).get? key = none := rfl

theorem lookup_filter_ne {key other : κ} (h : other ≠ key) (entries : List (κ × β)) :
    (entries.filter fun old => old.1 != key).lookup other = entries.lookup other := by
  induction entries with
  | nil => rfl
  | cons old rest ih =>
    by_cases hk : old.1 = key
    · have hne : (other == old.1) = false := by
        rw [hk]
        exact beq_false_of_ne h
      obtain ⟨k, e⟩ := old
      have hdrop : (k != key) = false := by simpa using hk
      simp only [List.filter_cons, hdrop, List.lookup_cons]
      simp only at hne
      simp [hne, ih]
    · obtain ⟨k, e⟩ := old
      have hkeep : (k != key) = true := by simpa using hk
      simp only [List.filter_cons, hkeep, if_true, List.lookup_cons, ih]

@[simp]
theorem get?_insert (table : Table κ β) (key other : κ) (entry : β) :
    (table.insert key entry).get? other = if other = key then some entry else table.get? other := by
  unfold get? insert
  simp only [List.lookup_cons]
  by_cases h : other = key
  · simp [h]
  · rw [beq_false_of_ne h]
    simp only [h, if_false]
    exact lookup_filter_ne h table.entries

theorem mem_keys {table : Table κ β} {key : κ} :
    key ∈ table.keys ↔ (table.get? key).isSome = true := by
  rw [keys, get?, List.lookup_isSome_iff, List.mem_map]
  refine exists_congr fun old => and_congr_right fun _ => ?_
  rw [beq_iff_eq, eq_comm]

/-- The last entry counts. -/
theorem insert_insert (table : Table κ β) (key : κ) (first last : β) :
    (table.insert key first).insert key last = table.insert key last := by
  simp [insert]

end Table

end LevelIr
