import LevelIr.Listing.Transcribe
import LevelIr.Proofs.Program.Coherent
import LevelIr.Proofs.Statement.OfInst

/-!
# What listing a program leaves behind

Listing a program gives names to registers and shares operands of parameters; the program stays
the same otherwise, also if the listing fails half-way.

* `Program.nameless` : the program without its names; two programs with the same one have the same
  instructions, blocks and functions, and values that differ in their names only.
* `Workspace.KeptByParts`, `Workspace.KeptBySteps` : a relation that is kept by each part, or by
  each single step, of a listing, and so by the whole.
* `Workspace.KeptByParts.exists_of_transcribeInst` : what happens for a single instruction.
* `Workspace.Continues` : a workspace that is left behind by listing: its program was edited, but
  only in its names, its slots are the same, and its shared operands are still sound.
* `Workspace.keeps_transcribe` : listing a program leaves such a workspace behind.
-/

namespace LevelIr

/-! ### Programs up to names -/

namespace Program

/-- The program without the names of its values. -/
def nameless (p : Program) : Program :=
  { p with values := p.values.map fun value => { value with name := "" } }

section Nameless

variable {p q : Program}

theorem insts_of_nameless (h : p.nameless = q.nameless) : p.insts = q.insts := by
  have hinsts : p.nameless.insts = q.nameless.insts := by rw [h]
  exact hinsts

theorem blocks_of_nameless (h : p.nameless = q.nameless) : p.blocks = q.blocks := by
  have hblocks : p.nameless.blocks = q.nameless.blocks := by rw [h]
  exact hblocks

theorem functions_of_nameless (h : p.nameless = q.nameless) : p.functions = q.functions := by
  have hfunctions : p.nameless.functions = q.nameless.functions := by rw [h]
  exact hfunctions

theorem inst?_of_nameless (h : p.nameless = q.nameless) (i : InstId) : p.inst? i = q.inst? i := by
  rw [inst?, inst?, insts_of_nameless h]

theorem block?_of_nameless (h : p.nameless = q.nameless) (b : BlockId) :
    p.block? b = q.block? b := by
  rw [block?, block?, blocks_of_nameless h]

theorem function?_of_nameless (h : p.nameless = q.nameless) (f : FunctionId) :
    p.function? f = q.function? f := by
  rw [function?, function?, functions_of_nameless h]

theorem origin_of_nameless (h : p.nameless = q.nameless) (v : ValueId) :
    (p.value? v).map Value.origin = (q.value? v).map Value.origin := by
  have hvalue : (p.nameless.value? v).map Value.origin =
      (q.nameless.value? v).map Value.origin := by rw [h]
  simpa [nameless, value?, Function.comp_def] using hvalue

theorem listedFunctions_of_nameless (h : p.nameless = q.nameless) :
    p.listedFunctions = q.listedFunctions := by
  unfold listedFunctions functionIds
  rw [functions_of_nameless h]
  refine List.filter_congr fun f _ => ?_
  rw [function?_of_nameless h]

theorem directCallee?_of_nameless (h : p.nameless = q.nameless) (inst : Inst) :
    p.directCallee? inst = q.directCallee? inst := by
  have horigin : (inst.calleeOperand?.bind p.value?).map Value.origin =
      (inst.calleeOperand?.bind q.value?).map Value.origin := by
    cases inst.calleeOperand? with
    | none => rfl
    | some v => exact origin_of_nameless h v
  unfold directCallee?
  rw [horigin]

end Nameless

theorem nameless_setName (v : ValueId) (name : String) (p : Program) :
    (setName v name p).nameless = p.nameless := by
  have hvalues : (p.values.modify v.index fun value => { value with name }).map
      (fun value => ({ value with name := "" } : Value)) =
      p.values.map fun value => { value with name := "" } := by
    apply Array.ext_getElem?
    intro i
    simp only [Array.getElem?_map, Array.getElem?_modify]
    split
    · rw [Option.map_map]
      rfl
    · rfl
  simp only [nameless, setName, hvalues]

end Program

theorem Names.assign_ok {names later : Names} {p q : Program} {v : ValueId}
    (h : names.assign p v = .ok (later, q)) : q = p ∨ ∃ name, q = p.setName v name := by
  unfold Names.assign at h
  obtain ⟨value, -, h⟩ := Pass.bind_eq_ok.1 h
  split at h
  · cases h
    exact .inl rfl
  split at h
  · obtain ⟨function, -, h⟩ := Pass.bind_eq_ok.1 h
    cases h
    exact .inr ⟨_, rfl⟩
  · split at h
    · cases h
      exact .inl rfl
    · obtain ⟨f, -, h⟩ := Pass.bind_eq_ok.1 h
      obtain ⟨function, -, h⟩ := Pass.bind_eq_ok.1 h
      cases h
      exact .inr ⟨_, rfl⟩
  · cases h
    exact .inl rfl

namespace Workspace

/-! ### Outcomes of the steps -/

theorem outcome_nameValue (w : Workspace) (v : ValueId) :
    (nameValue v).outcome w =
      match w.context.names.assign w.program v with
      | .ok (names, program) =>
        (.ok (), { w with program, context := { w.context with names } })
      | .error fault => (.error fault, w) := by
  unfold nameValue
  rw [Pass.outcome_bind, Pass.outcome_get]
  simp only
  rw [Pass.outcome_bind, Pass.outcome_lift]
  cases w.context.names.assign w.program v <;> rfl

theorem outcome_onShared {α : Type} (pass : Pass Shared α) (w : Workspace) :
    (onShared pass).outcome w = ((pass.outcome w.context.shared).1,
      { w with context := { w.context with shared := (pass.outcome w.context.shared).2 } }) :=
  rfl

theorem outcome_toStatement (i : InstId) (w : Workspace) : (toStatement i).outcome w =
    (onShared (Statement.ofInst w.program w.context.slots i)).outcome w := by
  rw [toStatement, Pass.outcome_bind, Pass.outcome_get]

theorem outcome_sharedOperand (v : ValueId) (w : Workspace) : (sharedOperand v).outcome w =
    (onShared (Shared.operand w.program v)).outcome w := by
  rw [sharedOperand, Pass.outcome_bind, Pass.outcome_get]

/-! ### What listing keeps -/

/-- The relation `R` is kept by the parts that listing an instruction is made of.  A parameter is
named before its operand is shared, so the two are one part. -/
structure KeptByParts (R : Workspace → Workspace → Prop) : Prop where
  report : ∀ event, Pass.Keeps R (report event)
  nameValue : ∀ v, Pass.Keeps R (nameValue v)
  toStatement : ∀ i, Pass.Keeps R (toStatement i)
  bindArgument : ∀ call formal actual, Pass.Keeps R (bindArgument call formal actual)

namespace KeptByParts

variable {R : Workspace → Workspace → Prop} [IsPreorder Workspace R] (h : KeptByParts R)

include h

theorem nameRegisters (inst : Inst) : Pass.Keeps R (nameRegisters inst) :=
  Pass.keeps_forM h.nameValue _

theorem bindArguments (call : Statement) : Pass.Keeps R (bindArguments call) := by
  unfold Workspace.bindArguments
  split
  next f formals _ =>
    have hbind := Pass.keeps_mapM
      (fun pair : ValueId × Reference => h.bindArgument call pair.1 pair.2)
      (formals.zip call.operands)
    refine Pass.keeps_get.bind fun w => (Pass.keeps_lift _).bind fun function => ?_
    -- a call with too few or too many arguments is reported
    by_cases hlength : formals.length ≠ call.operands.length
    · simp only [if_pos hlength]
      exact (h.report _).bind fun _ => hbind
    · simp only [if_neg hlength]
      exact hbind
  next => exact Pass.keeps_pure _

theorem transcribeInst (i : InstId) : Pass.Keeps R (transcribeInst i) := by
  refine Pass.keeps_get.bind fun w => (Pass.keeps_lift _).bind fun inst => ?_
  split
  · exact Pass.keeps_pure _
  · exact (h.nameRegisters inst).bind fun _ => (h.toStatement i).bind fun statement =>
      (h.report _).bind fun _ => (h.bindArguments statement).bind fun _ => Pass.keeps_pure _

/-- The arguments of a call of a known function are handed over one after another. -/
theorem exists_of_bindArguments {call : Statement} {bindings : List Statement}
    {w later : Workspace} (hb : (Workspace.bindArguments call).outcome w = (.ok bindings, later)) :
    (∃ f formals w₁, call.action = .call (.direct f formals) ∧ R w w₁ ∧
      Pass.outcome ((formals.zip call.operands).mapM fun pair =>
        Workspace.bindArgument call pair.1 pair.2) w₁ = (.ok bindings, later)) ∨
      ((∀ f formals, call.action ≠ .call (.direct f formals)) ∧ bindings = []) := by
  unfold Workspace.bindArguments at hb
  split at hb
  · rename_i f formals haction
    obtain ⟨_, _, hget, hb⟩ := Pass.outcome_bind_ok.1 hb
    cases hget
    obtain ⟨function, _, hfunction, hb⟩ := Pass.outcome_bind_ok.1 hb
    obtain ⟨-, rfl⟩ := Pass.outcome_lift_ok.1 hfunction
    split at hb
    · obtain ⟨_, w₁, hreport, hb⟩ := Pass.outcome_bind_ok.1 hb
      exact .inl ⟨f, formals, w₁, haction, (h.report _).of_outcome hreport, hb⟩
    · exact .inl ⟨f, formals, w, haction, refl_of R w, hb⟩
  · rename_i hnone
    cases hb
    exact .inr ⟨hnone, rfl⟩

omit [IsPreorder Workspace R] in
/-- An instruction is passed over, or its registers are named, its statement is made and its
arguments are handed over. -/
theorem exists_of_transcribeInst {i : InstId} {ss : List Statement} {w later : Workspace}
    (hi : (Workspace.transcribeInst i).outcome w = (.ok ss, later)) :
    ∃ inst, w.program.inst? i = some inst ∧ ((inst.isSkipped = true ∧ ss = []) ∨
      (inst.isSkipped = false ∧ ∃ w₁ w₂ w₃ s bindings,
        (Workspace.nameRegisters inst).outcome w = (.ok (), w₁) ∧
        (Workspace.toStatement i).outcome w₁ = (.ok s, w₂) ∧ R w₂ w₃ ∧
        (Workspace.bindArguments s).outcome w₃ = (.ok bindings, later) ∧
        ss = bindings ++ [s])) := by
  obtain ⟨_, _, hget, hi⟩ := Pass.outcome_bind_ok.1 hi
  cases hget
  obtain ⟨inst, _, hfound, hi⟩ := Pass.outcome_bind_ok.1 hi
  obtain ⟨hinst, rfl⟩ := Pass.outcome_lift_ok.1 hfound
  refine ⟨inst, (Program.inst_eq_ok_iff _).1 hinst, ?_⟩
  split at hi
  · rename_i hskipped
    cases hi
    exact .inl ⟨hskipped, rfl⟩
  · rename_i hskipped
    obtain ⟨_, w₁, hnames, hi⟩ := Pass.outcome_bind_ok.1 hi
    obtain ⟨s, w₂, hs, hi⟩ := Pass.outcome_bind_ok.1 hi
    obtain ⟨_, w₃, hreport, hi⟩ := Pass.outcome_bind_ok.1 hi
    obtain ⟨bindings, _, hbindings, hi⟩ := Pass.outcome_bind_ok.1 hi
    cases hi
    exact .inr ⟨Bool.eq_false_iff.2 hskipped, w₁, w₂, w₃, s, bindings, hnames, hs,
      (h.report _).of_outcome hreport, hbindings, rfl⟩

theorem transcribeBlock (b : BlockId) : Pass.Keeps R (transcribeBlock b) :=
  Pass.keeps_get.bind fun _ => (Pass.keeps_lift _).bind fun block =>
    (Pass.keeps_mapM h.transcribeInst block.insts).bind fun _ => Pass.keeps_pure _

theorem transcribeBody (discard : Bool) (f : FunctionId) :
    Pass.Keeps R (transcribeBody discard f) :=
  Pass.keeps_get.bind fun _ => (Pass.keeps_lift _).bind fun function =>
    (Pass.keeps_mapM h.transcribeBlock function.blocks).bind fun _ =>
      (h.report _).bind fun _ => Pass.keeps_pure _

theorem transcribeFunction (discard : Bool) (l : Listing) (f : FunctionId) :
    Pass.Keeps R (transcribeFunction discard l f) :=
  (h.transcribeBody discard f).bind fun _ => Pass.keeps_pure _

/-- What every part keeps is kept by listing a program, whether it ends well or not. -/
theorem transcribe (discard : Bool) : Pass.Keeps R (transcribe discard) :=
  Pass.keeps_get.bind fun _ =>
    (Pass.keeps_foldlM (h.transcribeFunction discard) _ _).bind fun _ =>
      (h.report _).bind fun _ => Pass.keeps_pure _

end KeptByParts

/-- The relation `R` is kept by the steps that listing a program is made of, in whatever order they
come. -/
structure KeptBySteps (R : Workspace → Workspace → Prop) : Prop where
  report : ∀ event, Pass.Keeps R (report event)
  nameValue : ∀ v, Pass.Keeps R (nameValue v)
  toStatement : ∀ i, Pass.Keeps R (toStatement i)
  sharedOperand : ∀ v, Pass.Keeps R (sharedOperand v)

theorem KeptBySteps.parts {R : Workspace → Workspace → Prop} [IsPreorder Workspace R]
    (h : KeptBySteps R) : KeptByParts R where
  report := h.report
  nameValue := h.nameValue
  toStatement := h.toStatement
  bindArgument _ formal _ :=
    (h.nameValue formal).bind fun _ => (h.sharedOperand formal).bind fun _ => Pass.keeps_pure _

/-! ### What listing leaves behind -/

/-- A workspace that listing leaves behind. -/
structure Continues (w later : Workspace) : Prop where
  /-- The program was edited, -/
  edits : Program.Edits w.program later.program
  /-- but only in its names. -/
  nameless : later.program.nameless = w.program.nameless
  /-- The slots are the same. -/
  slots : later.context.slots = w.context.slots
  /-- The shared operands are still sound. -/
  shared : Shared.Grows w.context.shared later.context.shared

instance : IsPreorder Workspace Continues where
  refl _ := ⟨.refl, rfl, rfl, id⟩
  trans _ _ _ hab hbc :=
    ⟨hab.edits.trans hbc.edits, hbc.nameless.trans hab.nameless, hbc.slots.trans hab.slots,
      hbc.shared ∘ hab.shared⟩

theorem keeps_report (event : Event) : Pass.Keeps Continues (report event) :=
  Pass.keeps_modify fun _ => ⟨.refl, rfl, rfl, id⟩

theorem keeps_nameValue (v : ValueId) : Pass.Keeps Continues (nameValue v) := by
  intro w
  rw [outcome_nameValue]
  -- a name that cannot be found leaves the workspace as it is
  cases h : w.context.names.assign w.program v with
  | error fault => exact refl_of Continues w
  | ok assigned =>
    obtain ⟨names, q⟩ := assigned
    rcases Names.assign_ok h with rfl | ⟨name, rfl⟩
    · exact ⟨.refl, rfl, rfl, id⟩
    · exact ⟨Program.edits_apply (.name v name) rfl, Program.nameless_setName v name _, rfl, id⟩

theorem keeps_onShared {α : Type} {pass : Pass Shared α} (h : Pass.Keeps Shared.Grows pass) :
    Pass.Keeps Continues (onShared pass) :=
  h.within fun _ _ hgrows => ⟨.refl, rfl, rfl, hgrows⟩

theorem keeps_toStatement (i : InstId) : Pass.Keeps Continues (toStatement i) :=
  Pass.keeps_get.bind fun _ => keeps_onShared (Statement.keeps_ofInst i)

theorem keeps_sharedOperand (v : ValueId) : Pass.Keeps Continues (sharedOperand v) :=
  Pass.keeps_get.bind fun w =>
    keeps_onShared fun _ hs => (Shared.operand_sound w.program v hs).1

theorem keptBySteps_continues : KeptBySteps Continues where
  report := keeps_report
  nameValue := keeps_nameValue
  toStatement := keeps_toStatement
  sharedOperand := keeps_sharedOperand

theorem keeps_nameRegisters (inst : Inst) : Pass.Keeps Continues (nameRegisters inst) :=
  keptBySteps_continues.parts.nameRegisters inst

theorem keeps_bindArgument (call : Statement) (formal : ValueId) (actual : Reference) :
    Pass.Keeps Continues (bindArgument call formal actual) :=
  keptBySteps_continues.parts.bindArgument call formal actual

theorem keeps_transcribeInst (i : InstId) : Pass.Keeps Continues (transcribeInst i) :=
  keptBySteps_continues.parts.transcribeInst i

/-- **Listing a program changes only the names in it**, whether it ends well or not. -/
theorem keeps_transcribe (discard : Bool) : Pass.Keeps Continues (transcribe discard) :=
  keptBySteps_continues.parts.transcribe discard

end Workspace

end LevelIr
