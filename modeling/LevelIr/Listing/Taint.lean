import LevelIr.Statement.Basic

/-!
# Statements that depend on pointers

A listing can leave out the statements that touch a pointer of the source program. What such a
statement defines is then missing, so every statement that reads it is left out too, and so on;
a call that is left out takes along the statements that hand over its arguments.

`Taint.of` computes what is missing in the end, by leaving out statements in rounds until a round
finds no more of them. A round works on the statements that are left, so there are at most as many
rounds as statements.

Main definitions:

* `Taint`: the values and calls that are missing;
* `Taint.spoils`: whether a statement has to be left out;
* `Taint.of`: the values and calls that are missing from a list of statements in the end.
-/

namespace LevelIr

/-- What is missing from a listing. -/
structure Taint where
  /-- The values whose definitions are left out. -/
  values : List ValueId := []
  /-- The calls that are left out. -/
  calls : List InstId := []
  deriving DecidableEq, Inhabited, Repr

namespace Taint

variable (taint : Taint)

/-- Whether a statement has to be left out: it touches a pointer of the source program, reads a
value that is missing, or hands over an argument of a call that is missing. -/
def spoils (s : Statement) : Bool :=
  s.pointer || s.reads.any (fun r => r.value.any (· ∈ taint.values)) ||
    (s.binding && s.source ∈ taint.calls)

/-- What is missing once a statement is left out too. -/
def leaveOut (s : Statement) : Taint where
  values := s.defined?.toList ++ taint.values
  calls := if s.isCall then s.source :: taint.calls else taint.calls

/-- What is missing in the end, if the given statements are left. -/
def spread (taint : Taint) (left : List Statement) : Taint :=
  if _h : ∃ s ∈ left, taint.spoils s then
    spread ((left.filter taint.spoils).foldl leaveOut taint) (left.filter (!taint.spoils ·))
  else taint
termination_by left.length
decreasing_by
  obtain ⟨s, hs, spoiled⟩ := _h
  simp only [List.unattach_filter, List.unattach_attach]
  refine List.length_filter_lt_length_iff_exists.mpr ⟨s, hs, ?_⟩
  simp [spoiled]

/-- What is missing from a list of statements in the end. -/
def of (statements : List Statement) : Taint := spread {} statements

/-- The statements that are left in the end. -/
def untainted (statements : List Statement) : List Statement :=
  statements.filter (!taint.spoils ·)

end Taint

end LevelIr
