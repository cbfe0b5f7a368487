import LevelIr.Id

/-!
# The log

Passes report what they do as events. An event carries its numbers and names; its wording is in
one place.
-/

namespace LevelIr

/-- How much an event matters. -/
inductive Severity where
  | trace
  | debug
  | warn
  deriving DecidableEq, Repr

/-- The name of a severity. -/
def Severity.name : Severity → String
  | trace => "TRACE"
  | debug => "DEBUG"
  | warn => "WARN"

/-- Something a pass reports. -/
inductive Event where
  /-- An instruction was classified. -/
  | classified (inst : InstId) (mnemonic : String)
  /-- A call passes another number of arguments than its function has parameters. -/
  | argumentCount (call : InstId) (arguments : Nat) (function : String) (params : Nat)
  /-- A function was listed. -/
  | functionListed (name : String) (statements bindings discarded : Nat)
  /-- A program was listed. -/
  | programListed (functions blocks statements : Nat)
  /-- The loads of a function were versioned. -/
  | functionVersioned (name : String) (loads : Nat)
  /-- The loads of a program were versioned. -/
  | programVersioned (loads : Nat)
  /-- The loads of a listing were forwarded to stores. -/
  | forwarded (folded before after : Nat)
  deriving DecidableEq, Repr

namespace Event

/-- How much an event matters. -/
def severity : Event → Severity
  | classified _ _ => .trace
  | argumentCount _ _ _ _ => .warn
  | _ => .debug

/-- The wording of an event. -/
def message : Event → String
  | classified inst mnemonic => inst.text ++ " -> " ++ mnemonic
  | argumentCount call arguments function params =>
    "call " ++ call.text ++ " passes " ++ toString arguments ++ " arguments to " ++ function ++
      " with " ++ toString params ++ " parameters"
  | functionListed name statements bindings discarded =>
    "IR build: " ++ name ++ ": " ++ toString statements ++ " instructions, " ++
      toString bindings ++ " argument bindings, " ++ toString discarded ++ " discarded"
  | programListed functions blocks statements =>
    "IR build: " ++ toString functions ++ " functions, " ++ toString blocks ++ " blocks, " ++
      toString statements ++ " instructions"
  | functionVersioned name loads =>
    "SSA versioning: " ++ toString loads ++ " loads rewritten in " ++ name
  | programVersioned loads =>
    "SSA versioning: " ++ toString loads ++ " loads rewritten in total"
  | forwarded folded before after =>
    "Indirection forwarding: " ++ toString folded ++ " loads folded, " ++ toString before ++
      " -> " ++ toString after ++ " instructions"

/-- The line of an event in a log. -/
def text (event : Event) : String := event.severity.name ++ " " ++ event.message

end Event

end LevelIr
