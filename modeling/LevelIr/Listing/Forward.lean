import LevelIr.Event
import LevelIr.Listing.Basic

/-!
# Forwarding loads to stores

Where a store uses a value that a load of the same block has read, and nothing else uses that
value, the store can refer to the source of the load directly, one or more levels deeper, and the
load is dropped: `t = *a; *b = t` becomes `*b = *a`, and `p = *q; *p = 5` becomes `**q = 5`.

If the store uses the value at level `t`, and the load sets it at level `d` from its source at
level `r`, the store refers to the source at level `t - d + r`. This level has to lie between zero
and a given reach. Statements that hand over arguments are never dropped, nor are loads that read
or define a versioned slot.

Main definitions:

* `Listing.mentionCount`: how often a function uses a value;
* `Forward.producer?`, `Forward.replacement?`: the load behind a value, and what replaces it;
* `Forward.block`: the statements of a block after forwarding;
* `Listing.forward`: the listing after forwarding, numbered anew.
-/

namespace LevelIr

/-- How often the listed blocks of a function use a value. -/
def Listing.mentionCount (l : Listing) (f : FunctionId) (v : ValueId) : Nat :=
  ((l.blocks.filter (·.function = f)).flatMap fun place =>
    (l.statementsAt place).flatMap fun s => s.uses.flatMap (·.operand.mentions)).count v

namespace Forward

/-- The reach that is used if none is given. -/
def defaultReach : Int := 2

/-- Whether a statement is a load that sets a value, and is not ignored. -/
def produces (v : ValueId) (s : Statement) : Bool :=
  s.isLoad && !s.ignored && s.result.bind Reference.value == some v

/-- The last load that sets a value, out of the statements before, the last one first. -/
def producer? (v : ValueId) (done : List Statement) : Option Statement :=
  done.find? (produces v)

variable (uses : ValueId → Nat) (reach : Int)

/-- What replaces a use of the value `v` at the given level, if the given load sets `v` and can be
dropped. -/
def replacement? (v : ValueId) (level : Int) (load : Statement) : Option Reference :=
  match load.operands.head?, load.result with
  | some source, some result =>
    let distance := level - result.level + source.level
    if !load.binding ∧ 0 ≤ distance ∧ distance ≤ reach ∧ source.operand.version = none ∧
        result.operand.version = none ∧ uses v = 1 then
      some ⟨source.operand, distance⟩
    else none
  | _, _ => none

/-- A reference of a store, with what replaces it, and the statements before the store, without
the load that is dropped for it. -/
def redirect (done : List Statement) (reference : Reference) : Reference × List Statement :=
  match reference.value with
  | none => (reference, done)
  | some v =>
    match (producer? v done).bind (replacement? uses reach v reference.level) with
    | some replacement => (replacement, done.eraseP (produces v))
    | none => (reference, done)

/-- As `redirect`, for a reference that may be missing. -/
def redirect? (done : List Statement) : Option Reference → Option Reference × List Statement
  | some reference =>
    let (reference, done) := redirect uses reach done reference
    (some reference, done)
  | none => (none, done)

/-- As `redirect`, for the first of several references. -/
def redirectFirst (done : List Statement) : List Reference → List Reference × List Statement
  | reference :: rest =>
    let (reference, done) := redirect uses reach done reference
    (reference :: rest, done)
  | [] => ([], done)

/-- Adds a statement to those before it. For a store, first what it stores and then where to is
replaced. -/
def step (done : List Statement) (s : Statement) : List Statement :=
  if s.isStore && !s.ignored then
    let (operands, done) := redirectFirst uses reach done s.operands
    let (result, done) := redirect? uses reach done s.result
    { s with operands, result }.refreshPointer :: done
  else s :: done

/-- The statements of a block after forwarding. -/
def block (statements : List Statement) : List Statement :=
  (statements.foldl (step uses reach) []).reverse

end Forward

namespace Listing

variable (l : Listing) (reach : Int)

/-- The statements of a listed block after forwarding. -/
def forwardedAt (place : Place) : List Statement :=
  Forward.block (l.mentionCount place.function) reach (l.statementsAt place)

/-- The listing after forwarding, numbered anew. Statements outside the listed blocks are left
out. -/
def forward : Listing :=
  l.blocks.foldl
    (fun out place => (out.addBlock place).pushAll place (l.forwardedAt reach place))
    { functions := l.functions, returns := l.returns }

/-- What is reported of forwarding. -/
def forwardReport : Event :=
  let before := (l.blocks.flatMap l.statementsAt).length
  let after := (l.forward reach).size
  .forwarded (before - after) l.size after

end Listing

end LevelIr
