import LevelIr.Fault

/-!
# Passes

A pass reads and changes a state and either answers or fails. What a pass has changed before it
fails stays changed: the outcome is returned beside the new state.
-/

namespace LevelIr

/-- A computation on states of type `σ` that may fail; the state reached is kept either way. -/
abbrev Pass (σ α : Type) := ExceptT Fault (StateM σ) α

namespace Pass

variable {σ τ α : Type}

/-- Runs a pass from a state: its outcome, and the state that it reaches. -/
def outcome (pass : Pass σ α) (state : σ) : Except Fault α × σ := (ExceptT.run pass).run state

/-- Runs a pass on a part of a larger state. -/
def within (view : τ → σ) (update : σ → τ → τ) (pass : Pass σ α) : Pass τ α :=
  ExceptT.mk fun state =>
    let (answer, part) := pass.outcome (view state)
    (answer, update part state)

theorem outcome_pure (a : α) (state : σ) : outcome (pure a : Pass σ α) state = (.ok a, state) := rfl

theorem outcome_throw (fault : Fault) (state : σ) :
    outcome (throw fault : Pass σ α) state = (.error fault, state) := rfl

theorem outcome_bind {β : Type} (pass : Pass σ α) (next : α → Pass σ β) (state : σ) :
    outcome (pass >>= next) state =
      match outcome pass state with
      | (.ok a, reached) => outcome (next a) reached
      | (.error fault, reached) => (.error fault, reached) := by
  simp only [outcome, bind, ExceptT.bind, ExceptT.mk, ExceptT.run, StateT.run, StateT.bind]
  generalize (pass : StateM σ (Except Fault α)) state = reached
  obtain ⟨answer, reached⟩ := reached
  cases answer <;> rfl

theorem outcome_within (view : τ → σ) (update : σ → τ → τ) (pass : Pass σ α) (state : τ) :
    outcome (within view update pass) state =
      ((outcome pass (view state)).1, update (outcome pass (view state)).2 state) := rfl

end Pass

end LevelIr
