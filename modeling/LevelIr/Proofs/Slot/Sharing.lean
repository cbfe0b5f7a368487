import LevelIr.Proofs.Slot.Versioned
import LevelIr.Proofs.Text

/-!
# Which loads share a slot

A slot is found by its name, which is put together from the name of the function, the label of the
storage and the number of the version.  The number can be read off the name, since no number holds
the character that stands before it (`Versioning.slotName_eq_iff`).  What stands before that can be
split in several ways: the function `f` with the storage `g_x` and the function `f_g` with the
storage `x` ask for slots of the same names, and one of them then reads a slot of the other
(`Workspace.versionProgram_colliding`).

* `Workspace.versionProgram_slot_eq_iff` : two loads that were versioned read the same slot just if
  their versions are the same and the name of the function and the label of the storage read the
  same together.
-/

namespace LevelIr

/-! ### Names of slots -/

namespace Versioning

/-- **What the name of a slot tells**: the version, and the function and the storage together. -/
theorem slotName_eq_iff {f f' label label' : String} {k k' : Nat} :
    slotName f label k = slotName f' label' k' ↔
      k = k' ∧ f ++ "_" ++ label = f' ++ "_" ++ label' := by
  have hlist (f label : String) (k : Nat) : (slotName f label k).toList =
      (f ++ "_" ++ label).toList ++ '_' :: (toString k).toList := by
    simp [slotName, String.toList_append]
  rw [← String.toList_inj, hlist, hlist,
    append_cons_inj_of_not_mem (not_mem_toString k) (not_mem_toString k'), String.toList_inj,
    String.toList_inj, toString_inj, and_comm]

end Versioning

namespace Workspace

open Versioning

variable {oracle : Oracle} {w later : Workspace} {n : Nat}

/-- What a load of a function has asked for, if versioning has let it read a slot. -/
theorem exists_request_of_versionProgram (hp : w.program.Coherent) {made : List Filling}
    (hprogress : Progress oracle w.program w.context.slots (jobs w.program) made later.program
      later.context.slots) {f : FunctionId} {function : Function}
    (hf : w.program.function? f = some function) {i : InstId} (hi : i ∈ w.program.layout function)
    {storage slot : ValueId} (hload : Redirected w.program later.program i storage slot) :
    ∃ version label, (oracle i).version? = some version ∧ w.program.label storage = .ok label ∧
      later.context.slots.slot? (slotName function.name label version) = some slot := by
  obtain ⟨job, hjob, r, rfl, hr, rfl, hslot⟩ := hprogress.exists_request hload
  obtain ⟨label, hlabel, hname⟩ := hr.name
  rw [hname, function_of_mem_jobs hp hjob hf hi] at hslot
  exact ⟨r.version, label, hr.version, hlabel, hslot⟩

/-- **Which loads share a slot**, after a program was versioned with no slots at first. -/
theorem versionProgram_slot_eq_iff (hp : w.program.Assembled) (hempty : w.context.slots = {})
    (h : (versionProgram oracle).outcome w = (.ok n, later)) {f g : FunctionId}
    {function function' : Function} (hf : w.program.function? f = some function)
    (hg : w.program.function? g = some function') {i j : InstId}
    (hi : i ∈ w.program.layout function) (hj : j ∈ w.program.layout function')
    {storage storage' slot slot' : ValueId}
    (hload : Redirected w.program later.program i storage slot)
    (hload' : Redirected w.program later.program j storage' slot') :
    ∃ version version' label label',
      (oracle i).version? = some version ∧ (oracle j).version? = some version' ∧
      w.program.label storage = .ok label ∧ w.program.label storage' = .ok label' ∧
      (slot = slot' ↔ version = version' ∧
        function.name ++ "_" ++ label = function'.name ++ "_" ++ label') ∧
      (function.name = function'.name → (slot = slot' ↔ version = version' ∧ label = label')) := by
  have hcoherent := hp.coherent
  obtain ⟨made, hprogress⟩ := progress_of_versionProgram hcoherent h
  obtain ⟨version, label, hversion, hlabel, hslot⟩ :=
    exists_request_of_versionProgram hcoherent hprogress hf hi hload
  obtain ⟨version', label', hversion', hlabel', hslot'⟩ :=
    exists_request_of_versionProgram hcoherent hprogress hg hj hload'
  rw [hempty] at hprogress
  have hiff := (hprogress.slot_eq_iff hslot hslot').trans slotName_eq_iff
  refine ⟨version, version', label, label', hversion, hversion', hlabel, hlabel', hiff, ?_⟩
  intro hname
  rw [hiff, hname, String.append_right_inj]

/-- Two functions with a load each.  What the name of the first one lacks, the name of its storage
has. -/
def colliding : Program := .ofEdits "colliding"
  [.global "g_x" (.int 32),
    .global "x" (.int 32),
    .function "f" .void [],
    .block ⟨0⟩ "entry",
    .last ⟨0⟩ { opcode := .load, operands := [.value ⟨0⟩], type := .int 32 },
    .last ⟨0⟩ { opcode := .ret },
    .function "f_g" .void [],
    .block ⟨1⟩ "entry",
    .last ⟨1⟩ { opcode := .load, operands := [.value ⟨1⟩], type := .int 32 },
    .last ⟨1⟩ { opcode := .ret }]

/-- What versioning makes of them, with one version for all loads. -/
def collidingLater : Workspace :=
  ((versionProgram fun _ => .definition 0).outcome { program := colliding }).2

theorem outcome_colliding :
    (versionProgram fun _ => .definition 0).outcome { program := colliding } =
      (.ok 2, collidingLater) := by
  unfold collidingLater
  exact Pass.outcome_eq_of_fst (by decide +kernel)

theorem versionProgram_slot_eq_iff_colliding :
    (versionProgram fun _ => .definition 0).outcome { program := colliding } =
        (.ok 2, collidingLater) ∧
      Redirected colliding collidingLater.program ⟨0⟩ ⟨0⟩ ⟨7⟩ ∧
      Redirected colliding collidingLater.program ⟨2⟩ ⟨1⟩ ⟨7⟩ ∧
      ∃ label label', colliding.label ⟨0⟩ = .ok label ∧ colliding.label ⟨1⟩ = .ok label' ∧
        "f" ++ "_" ++ label = "f_g" ++ "_" ++ label' := by
  have hf : colliding.function? ⟨0⟩ =
      some { name := "f", value := ⟨2⟩, params := [], blocks := [⟨0⟩], file := none } := by
    decide +kernel
  have hg : colliding.function? ⟨1⟩ =
      some { name := "f_g", value := ⟨4⟩, params := [], blocks := [⟨1⟩], file := none } := by
    decide +kernel
  have hload : Redirected colliding collidingLater.program ⟨0⟩ ⟨0⟩ ⟨7⟩ := by decide +kernel
  have hload' : Redirected colliding collidingLater.program ⟨2⟩ ⟨1⟩ ⟨7⟩ := by decide +kernel
  obtain ⟨_, _, label, label', -, -, hlabel, hlabel', hiff, -⟩ :=
    versionProgram_slot_eq_iff (Program.assembled_ofEdits _ _) rfl outcome_colliding hf hg
      (by decide +kernel) (by decide +kernel) hload hload'
  exact ⟨outcome_colliding, hload, hload', label, label', hlabel, hlabel', (hiff.1 rfl).2⟩

/-- **Loads of two functions share a slot.**  The functions have different names, and the loads read
different storages. -/
theorem versionProgram_colliding :
    colliding.Assembled ∧ colliding.functions.toList.map Function.name = ["f", "f_g"] ∧
      (colliding.function? ⟨0⟩).map colliding.layout = some [⟨0⟩, ⟨1⟩] ∧
      (colliding.function? ⟨1⟩).map colliding.layout = some [⟨2⟩, ⟨3⟩] ∧
      (versionProgram fun _ => .definition 0).outcome { program := colliding } =
        (.ok 2, collidingLater) ∧
      ∃ slot, Redirected colliding collidingLater.program ⟨0⟩ ⟨0⟩ slot ∧
        Redirected colliding collidingLater.program ⟨2⟩ ⟨1⟩ slot := by
  refine ⟨Program.assembled_ofEdits _ _, by decide +kernel, by decide +kernel, by decide +kernel,
    outcome_colliding, ⟨7⟩, ?_⟩
  decide +kernel

end Workspace

end LevelIr
