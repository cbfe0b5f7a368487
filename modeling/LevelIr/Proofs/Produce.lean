import LevelIr.Produce
import LevelIr.Proofs.Slot.Kept
import LevelIr.Proofs.Workspace

/-!
# Programs and workspaces that the passes meet

Versioning places new loads, slots and stores, and lets loads read other operands: it edits the
program.  So a program that was put together by edits is still one after any number of runs, and
the shared operands of a workspace stay sound.

* `Workspace.Reused` : the workspaces that a fresh one can become by listing, versioning and
  editing its program.
* `Listing.Produced` : the listings that a fresh workspace gives.
* `Workspace.Reused.coherent`, `Workspace.Reused.sound` : what holds in every such workspace.
-/

namespace LevelIr

theorem Versioning.keptByEdits_edits (p : Program) : KeptByEdits (Program.Edits p) where
  placed anchor draft _ _ h := h.trans (Program.edits_apply (.before anchor draft) rfl)
  replaced i operand _ _ h := h.trans (Program.edits_apply (.operand i 0 operand) rfl)

namespace Workspace

/-- A workspace that versioning and listing leave behind. -/
structure Evolves (w later : Workspace) : Prop where
  /-- The program was edited. -/
  edits : Program.Edits w.program later.program
  /-- The shared operands are still sound. -/
  shared : Shared.Grows w.context.shared later.context.shared

instance : IsPreorder Workspace Evolves where
  refl _ := ⟨.refl, id⟩
  trans _ _ _ hab hbc := ⟨hab.edits.trans hbc.edits, hbc.shared ∘ hab.shared⟩

theorem Continues.evolves {w later : Workspace} (h : w.Continues later) : w.Evolves later :=
  ⟨h.edits, h.shared⟩

theorem evolves_report (event : Event) : Pass.Keeps Evolves (report event) :=
  fun w => (keeps_report event w).evolves

/-- Versioning edits the program, and leaves the shared operands as they are. -/
theorem Versions.evolves {w later : Workspace}
    (h : Versions (Program.Edits w.program) w later) : w.Evolves later :=
  ⟨h.program, h.shared ▸ id⟩

theorem evolves_versionFunction (oracle : Oracle) (f : FunctionId) :
    Pass.Keeps Evolves (versionFunction oracle f) := fun w =>
  ((Versioning.keptByEdits_edits w.program).versionFunction oracle f
    ⟨.refl, rfl, rfl⟩).reached.evolves

theorem evolves_versionProgram (oracle : Oracle) : Pass.Keeps Evolves (versionProgram oracle) :=
  fun w => ((Versioning.keptByEdits_edits w.program).versionProgram oracle .refl).reached.evolves

theorem evolves_versionIfWanted (settings : Settings) (oracle : Option Oracle) :
    Pass.Keeps Evolves (versionIfWanted settings oracle) := by
  unfold versionIfWanted
  split
  · cases oracle with
    | none => exact Pass.keeps_throw _
    | some oracle => exact (evolves_versionProgram oracle).bind fun _ => evolves_report _
  · exact Pass.keeps_pure _

/-- The same operands are shared. -/
def SharesAlike (w later : Workspace) : Prop := later.context.shared = w.context.shared

instance : IsPreorder Workspace SharesAlike where
  refl _ := rfl
  trans _ _ _ hab hbc := hbc.trans hab

theorem sharesAlike_report (event : Event) : Pass.Keeps SharesAlike (report event) := fun _ => rfl

/-- Versioning shares no operands. -/
theorem sharesAlike_versionIfWanted (settings : Settings) (oracle : Option Oracle) :
    Pass.Keeps SharesAlike (versionIfWanted settings oracle) := by
  unfold versionIfWanted
  split
  · cases oracle with
    | none => exact Pass.keeps_throw _
    | some oracle =>
      have hversion : Pass.Keeps SharesAlike (versionProgram oracle) := fun w =>
        ((Versioning.keptByEdits_edits w.program).versionProgram oracle .refl).reached.shared
      exact hversion.bind fun _ => sharesAlike_report _
  · exact Pass.keeps_pure _

theorem evolves_transcribe (discard : Bool) : Pass.Keeps Evolves (transcribe discard) :=
  fun w => (keeps_transcribe discard w).evolves

theorem evolves_produce (settings : Settings) (oracle : Option Oracle) :
    Pass.Keeps Evolves (produce settings oracle) :=
  (evolves_versionIfWanted settings oracle).bind fun _ => evolves_transcribe _

/-- The workspaces that a fresh one can become: its program may be edited, versioned and listed
any number of times, and it does not matter which of the runs fail. -/
inductive Reused : Workspace → Prop where
  /-- A program with a fresh context. -/
  | fresh {p : Program} (h : p.Assembled) : Reused { program := p }
  /-- The program is edited. -/
  | edited {w : Workspace} {q : Program} (h : Reused w) (he : Program.Edits w.program q) :
      Reused { w with program := q }
  /-- The program is listed. -/
  | listed {w : Workspace} (h : Reused w) (discard : Bool) :
      Reused ((transcribe discard).outcome w).2
  /-- The program is listed, after versioning if that is wanted. -/
  | produced {w : Workspace} (h : Reused w) (settings : Settings) (oracle : Option Oracle) :
      Reused ((produce settings oracle).outcome w).2

namespace Reused

variable {w : Workspace}

theorem assembled (h : w.Reused) : w.program.Assembled := by
  induction h with
  | fresh h => exact h
  | edited _ he ih => exact ih.edits he
  | @listed w _ discard ih => exact ih.edits (evolves_transcribe discard w).edits
  | @produced w _ settings oracle ih => exact ih.edits (evolves_produce settings oracle w).edits

theorem coherent (h : w.Reused) : w.program.Coherent := h.assembled.coherent

theorem sound (h : w.Reused) : w.context.shared.Sound := by
  induction h with
  | fresh _ => exact Shared.sound_empty
  | edited _ _ ih => exact ih
  | @listed w _ discard ih => exact (evolves_transcribe discard w).shared ih
  | @produced w _ settings oracle ih => exact (evolves_produce settings oracle w).shared ih

end Reused

end Workspace

/-- The listings that a program with a fresh context gives, whatever is wanted of them. -/
inductive Listing.Produced : Listing → Prop where
  /-- The listing after versioning, if that is wanted. -/
  | simplified {p : Program} {l : Listing} {later : Workspace} (settings : Settings)
      (oracle : Option Oracle) (hp : p.Assembled)
      (h : (Workspace.produce settings oracle).outcome { program := p } = (.ok l, later)) :
      Produced l
  /-- The listing of the program as it is. -/
  | built {p : Program} {l : Listing} {later : Workspace} (discard : Bool) (hp : p.Assembled)
      (h : (Workspace.transcribe discard).outcome { program := p } = (.ok l, later)) :
      Produced l

/-- Every listing is made by listing a program in a workspace that shares no operands yet. -/
theorem Listing.Produced.exists_transcribe {l : Listing} (h : l.Produced) :
    ∃ w later discard, w.program.Assembled ∧ w.context.shared = {} ∧
      (Workspace.transcribe discard).outcome w = (.ok l, later) := by
  cases h with
  | @built p _ later discard hp h => exact ⟨{ program := p }, later, discard, hp, rfl, h⟩
  | simplified settings oracle hp h =>
    obtain ⟨_, w, hversion, htranscribe⟩ := Pass.outcome_bind_ok.1 h
    have hevolves := (Workspace.evolves_versionIfWanted settings oracle).of_outcome hversion
    have hshared := (Workspace.sharesAlike_versionIfWanted settings oracle).of_outcome hversion
    exact ⟨w, _, settings.discardPointers, hp.edits hevolves.edits, hshared, htranscribe⟩

/-- The listing of a program with a fresh context; it is empty if the program cannot be listed. -/
def Program.listing (p : Program) : Listing :=
  match ((Workspace.transcribe false).outcome { program := p }).1 with
  | .ok l => l
  | .error _ => {}

theorem Program.outcome_listing {p : Program}
    (h : ((Workspace.transcribe false).outcome { program := p }).1.isOk = true) :
    ∃ later, (Workspace.transcribe false).outcome { program := p } = (.ok p.listing, later) := by
  obtain ⟨l, later, hl⟩ := Pass.exists_outcome_of_isOk h
  have hlisting : p.listing = l := by rw [Program.listing, hl]
  exact ⟨later, hlisting ▸ hl⟩

theorem Program.produced_listing {p : Program} (hp : p.Assembled)
    (h : ((Workspace.transcribe false).outcome { program := p }).1.isOk = true) :
    p.listing.Produced := by
  obtain ⟨later, hl⟩ := outcome_listing h
  exact .built false hp hl

end LevelIr
