import LevelIr.Proofs.Faults
import LevelIr.Proofs.Pass.Meets

/-!
# What versioning keeps

All that versioning does to a program is to place instructions before loads and to let loads read
other operands.  What these two edits keep is therefore kept by versioning as a whole, also if it
fails half-way, and the names and the shared operands of a workspace are not touched at all.
Versioning classifies no operands, so its faults are ordinary.

* `Versioning.KeptByEdits` : what the two edits keep.
* `Versioning.KeptByEdits.loads` : it is kept while loads are versioned.
* `Workspace.Versions`, `Versioning.KeptByEdits.versionProgram` : what versioning a program leaves
  behind.
-/

namespace LevelIr

/-! ### Edits -/

namespace Program

/-- Whether an instruction is a load. -/
def isLoad (p : Program) (i : InstId) : Bool := (p.inst? i).any (·.opcode = .load)

theorem isLoad_iff {p : Program} {i : InstId} :
    p.isLoad i = true ↔ ∃ inst, p.inst? i = some inst ∧ inst.opcode = .load := by
  simp [isLoad, Option.any_eq_true]

theorem ordinary_placeBefore (p : Program) (anchor : InstId) (draft : Draft) :
    Ordinary ((placeBefore anchor draft).outcome p).1 := by
  unfold placeBefore
  rw [Pass.outcome_bind, Pass.outcome_get]
  simp only
  rw [Pass.outcome_bind, Pass.outcome_lift]
  cases hinst : p.inst anchor with
  | error fault => exact ordinary_error (p.ordinary_inst anchor fault hinst)
  | ok inst => exact ordinary_ok _

theorem ordinary_replaceOperand (p : Program) (i : InstId) (position : Nat) (operand : Arg) :
    Ordinary ((replaceOperand i position operand).outcome p).1 := by
  unfold replaceOperand
  rw [Pass.outcome_bind, Pass.outcome_get]
  simp only
  rw [Pass.outcome_bind, Pass.outcome_lift]
  cases hinst : p.inst i with
  | error fault => exact ordinary_error (p.ordinary_inst i fault hinst)
  | ok inst =>
    simp only
    split
    · exact ordinary_ok _
    · exact ordinary_error rfl

end Program

/-! ### Single loads -/

namespace Versioning

/-- What holds of a program stays so if a load, a stack slot or a store is placed before another
instruction, and if the first operand of a load is replaced. -/
structure KeptByEdits (I : Program → Prop) : Prop where
  placed : ∀ anchor draft p, draft.opcode ∈ [.load, .alloca, .store] → I p →
    I ((Program.placeBefore anchor draft).outcome p).2
  replaced : ∀ i operand p, p.isLoad i = true → I p →
    I ((Program.replaceOperand i 0 operand).outcome p).2

/-- The pass keeps `I`, whether it ends well or not, and its faults are ordinary. -/
abbrev Keeping {σ α : Type} (I : σ → Prop) : Pass σ α → σ → Prop :=
  Pass.Meets (fun _ t => I t) fun fault t => I t ∧ fault.ordinary = true

theorem Keeping.reached {σ α : Type} {I : σ → Prop} {pass : Pass σ α} {s : σ}
    (h : Keeping I pass s) : I (pass.outcome s).2 :=
  Pass.Meets.reached h (fun _ _ ht => ht) fun _ _ ht => ht.1

/-- Loads stay loads. -/
theorem keptByEdits_isLoad (insts : List InstId) :
    KeptByEdits fun p => ∀ i ∈ insts, p.isLoad i = true where
  placed anchor draft p _ hp := by
    intro i hi
    obtain ⟨inst, hinst, hopcode⟩ := Program.isLoad_iff.1 (hp i hi)
    rcases p.placeBefore_state anchor draft with h | ⟨_, -, h⟩
    · rw [h]
      exact hp i hi
    · rw [h]
      exact Program.isLoad_iff.2 ⟨inst, Program.inst?_placed_of_some hinst, hopcode⟩
  replaced j operand p _ hp := by
    intro i hi
    rcases p.replaceOperand_outcome j 0 operand with h | h
    · rw [h]
      exact hp i hi
    · rw [h]
      obtain ⟨inst, hinst, hopcode⟩ := Program.isLoad_iff.1 (hp i hi)
      rw [Program.inst?] at hinst
      simp only [Program.isLoad, Program.inst?, Array.getElem?_modify, hinst]
      split
      · exact decide_eq_true hopcode
      · exact decide_eq_true hopcode

namespace KeptByEdits

variable {I : Program → Prop} {p : Program} {state : Program × Slots}

theorem keeping_of_outcome {α : Type} {pass : Pass Program α} (h : I (pass.outcome p).2)
    (hfaults : Ordinary (pass.outcome p).1) : Keeping I pass p := by
  constructor
  · intro a t ht
    rwa [ht] at h
  · intro fault t ht
    rw [ht] at h hfaults
    exact ⟨h, hfaults fault rfl⟩

variable (h : KeptByEdits I)

include h

theorem and {J : Program → Prop} (h' : KeptByEdits J) : KeptByEdits fun p => I p ∧ J p where
  placed anchor draft p hopcode hp :=
    ⟨h.placed anchor draft p hopcode hp.1, h'.placed anchor draft p hopcode hp.2⟩
  replaced i operand p hload hp :=
    ⟨h.replaced i operand p hload hp.1, h'.replaced i operand p hload hp.2⟩

theorem placeBefore (anchor : InstId) {draft : Draft}
    (hopcode : draft.opcode ∈ [.load, .alloca, .store]) (hp : I p) :
    Keeping I (Program.placeBefore anchor draft) p :=
  keeping_of_outcome (h.placed anchor draft p hopcode hp) (p.ordinary_placeBefore anchor draft)

theorem replaceOperand {i : InstId} (hload : p.isLoad i = true) (operand : Arg) (hp : I p) :
    Keeping I (Program.replaceOperand i 0 operand) p :=
  keeping_of_outcome (h.replaced i operand p hload hp) (p.ordinary_replaceOperand i 0 operand)

theorem defineBefore (i : InstId) {draft : Draft}
    (hopcode : draft.opcode ∈ [.load, .alloca, .store]) (hp : I p) :
    Keeping I (defineBefore i draft) p := by
  refine (h.placeBefore i hopcode hp).bind fun placed q hq => ?_
  obtain ⟨_, result⟩ := placed
  cases result with
  | none => exact Pass.meets_throw ⟨hq, rfl⟩
  | some v => exact Pass.meets_pure hq

theorem fill (i : InstId) (storage : ValueId) (name : String) (hp : I p) :
    Keeping I (fill i storage name) p :=
  Pass.meets_get_bind <| Pass.meets_lift_bind
    (fun fault hfault => ⟨hp, p.ordinary_inst i fault hfault⟩) fun _ _ =>
      (h.defineBefore i (by simp) hp).bind fun _ _ hread =>
        (h.defineBefore i (by simp) hread).bind fun _ _ hslot =>
          (h.placeBefore i (by simp) hslot).bind fun _ _ hwritten => Pass.meets_pure hwritten

omit h in
theorem onProgram {α : Type} {pass : Pass Program α} (hpass : Keeping I pass state.1) :
    Keeping (fun state => I state.1) (onProgram pass) state :=
  hpass.within (fun _ _ hq => hq) fun _ _ hq => hq

theorem slotFor (i : InstId) (storage : ValueId) (name : String) (version : Nat)
    (hp : I state.1) : Keeping (fun state => I state.1) (slotFor i storage name version) state := by
  refine Pass.meets_get_bind ?_
  split
  · exact Pass.meets_pure hp
  · exact (onProgram (h.fill i storage name hp)).bind fun slot later hlater =>
      (Pass.meets_modify (Q := fun _ state => I state.1) hlater).bind fun _ _ hlast =>
        Pass.meets_pure hlast

theorem load (function : Function) (oracle : Oracle) {i : InstId}
    (hload : ∀ q, I q → q.isLoad i = true) (hp : I state.1) :
    Keeping (fun state => I state.1) (load function oracle i) state := by
  obtain ⟨p, slots⟩ := state
  refine Pass.meets_get_bind <| Pass.meets_lift_bind
    (fun fault hfault => ⟨hp, p.ordinary_inst i fault hfault⟩) fun inst _ => Pass.meets_lift_bind
    (fun fault hfault => ⟨hp, ordinary_storage? p slots inst fault hfault⟩) fun storage _ => ?_
  cases storage with
  | none => exact Pass.meets_pure hp
  | some storage =>
    dsimp only
    split
    · exact Pass.meets_throw ⟨hp, rfl⟩
    · refine Pass.meets_lift_bind
        (fun fault hfault => ⟨hp, p.ordinary_label storage fault hfault⟩) fun label _ => ?_
      refine Pass.Meets.bind (h.slotFor i storage _ _ hp) fun slot later hlater => ?_
      exact (onProgram (h.replaceOperand (hload later.1 hlater) (.value slot) hlater)).bind
        fun _ _ hlast => Pass.meets_pure hlast

theorem loads (function : Function) (oracle : Oracle) {insts : List InstId}
    (hloads : ∀ i ∈ insts, state.1.isLoad i = true) (hp : I state.1) :
    Keeping (fun state => I state.1) (loads function oracle insts) state :=
  -- nothing is asked of the count that the loop carries
  (Pass.meets_foldlM (I := fun state => I state.1 ∧ ∀ i ∈ insts, state.1.isLoad i = true)
    (P := fun _ => True) (fun _ i hi _ hp _ => ((h.and (keptByEdits_isLoad insts)).load function
      oracle (fun _ hq => hq.2 i hi) hp).bind fun _ _ hq => Pass.meets_pure ⟨hq, trivial⟩)
        ⟨hp, hloads⟩ trivial).imp (fun _ _ hq => hq.1.1) fun _ _ hq => ⟨hq.1.1, hq.2⟩

end KeptByEdits

end Versioning

/-! ### Programs -/

namespace Workspace

/-- What versioning leaves behind: `I` holds of the program, and the shared operands and the names
are the same. -/
structure Versions (I : Program → Prop) (w later : Workspace) : Prop where
  program : I later.program
  shared : later.context.shared = w.context.shared
  names : later.context.names = w.context.names

end Workspace

namespace Versioning.KeptByEdits

open Workspace (Versions)

variable {I : Program → Prop} (h : KeptByEdits I) {w : Workspace}

include h

theorem versionFunction (oracle : Oracle) (f : FunctionId) {u : Workspace} (hu : Versions I w u) :
    Keeping (Versions I w) (Workspace.versionFunction oracle f) u := by
  refine Pass.meets_get_bind <| Pass.meets_lift_bind
    (fun fault hfault => ⟨hu, u.program.ordinary_function f fault hfault⟩) fun function _ => ?_
  have hloads : Keeping (fun state => I state.1)
      (Versioning.loads function oracle (u.program.loadsOf function))
      (u.program, u.context.slots) :=
    h.loads function oracle (fun _ hi => List.of_mem_filter hi) hu.program
  refine Pass.Meets.bind (Q := fun _ => Versions I w) ?_ fun count later hlater => ?_
  · refine Pass.Meets.within (Q := fun _ state => I state.1) hloads ?_ ?_
    · exact fun _ _ hq => ⟨hq, hu.shared, hu.names⟩
    · exact fun _ _ hq => ⟨⟨hq.1, hu.shared, hu.names⟩, hq.2⟩
  · exact (Pass.meets_modify (Q := fun _ => Versions I w)
      ⟨hlater.program, hlater.shared, hlater.names⟩).bind fun _ _ hlast => Pass.meets_pure hlast

/-- **What the two edits keep is kept by versioning a program**, whether it ends well or not, and
its faults are ordinary. -/
theorem versionProgram (oracle : Oracle) (hw : I w.program) :
    Keeping (Versions I w) (Workspace.versionProgram oracle) w :=
  Pass.meets_get_bind <| (Pass.meets_foldlM (P := fun _ => True) (fun _ f _ _ hu _ =>
    (h.versionFunction oracle f hu).bind fun _ _ hlater => Pass.meets_pure ⟨hlater, trivial⟩)
      ⟨hw, rfl, rfl⟩ trivial).imp (fun _ _ hlater => hlater.1) fun _ _ hlater => hlater

end Versioning.KeptByEdits

end LevelIr
