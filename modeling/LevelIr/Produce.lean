import LevelIr.Listing.Transcribe
import LevelIr.Slot.Versioning

/-!
# Producing a listing

The whole way from a program to its listing: versioning if it is wanted, and then transcription.

Main definition: `Workspace.produce`.
-/

namespace LevelIr

/-- What is wanted of a listing. -/
structure Settings where
  /-- Whether loads of memory are versioned first. -/
  versioning : Bool := false
  /-- Whether what depends on pointers of the source program is left out. -/
  discardPointers : Bool := false
  deriving DecidableEq, Inhabited, Repr

namespace Workspace

/-- Versions the loads of a program if that is wanted, for which an oracle is needed. -/
def versionIfWanted (settings : Settings) (oracle : Option Oracle) : Pass Workspace Unit :=
  if settings.versioning then
    match oracle with
    | none => throw .missingOracle
    | some oracle => do
      report (.programVersioned (← versionProgram oracle))
  else return ()

/-- The listing of a program, after versioning if that is wanted. -/
def produce (settings : Settings) (oracle : Option Oracle) : Pass Workspace Listing := do
  versionIfWanted settings oracle
  transcribe settings.discardPointers

end Workspace

end LevelIr
