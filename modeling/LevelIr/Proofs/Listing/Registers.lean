import LevelIr.Proofs.Listing.SharedOperands
import LevelIr.Proofs.Listing.Unlisted
import LevelIr.Proofs.Pass.Meets
import LevelIr.Proofs.Program.Origins
import LevelIr.Proofs.Slot.Step

/-!
# Registers can always be operands

A parameter or a result without a name cannot be classified, or is taken for the operator that it
applies.  This never happens in a listing: the registers that an instruction touches are named
before its statement is made, and so is a parameter before it is handed an argument.  What is shared
from one call to the next is therefore right as well, whether the calls end well or not, and if a
call fails because a value cannot be an operand, then that value is no register.

* `Operand.Fits` : the operand of a value, and of a register one that was classified by its name.
* `Workspace.Ready` : the operands that are shared fit, and whatever was named has a name.
* `Workspace.meets_transcribe`, `Excerpt.meets_add` : listings and excerpts keep that so, and their
  operands fit.
* `Session.Sound` : what all calls keep that ask for no single operand and stay in one context.
* `Session.registers_named` : what holds of all listings of a session, and of its failures.
-/

namespace LevelIr

/-! ### Operands -/

namespace Operand

variable {p q : Program} {v : ValueId} {operand : Operand}

/-- The operand stands for a value of the program, and if that is a register, then it was classified
as a value with a name. -/
def Fits (p : Program) (v : ValueId) (operand : Operand) : Prop :=
  ∃ origin, p.origin? v = some origin ∧ operand.value = some v ∧
    (origin.isAttached = true → operand.kind = .named ∧ operand.named = true)

theorem Fits.value (h : operand.Fits p v) : operand.value = some v := by
  obtain ⟨-, -, hvalue, -⟩ := h
  exact hvalue

theorem Fits.mono (h : operand.Fits p v)
    (hpq : ∀ v origin, p.origin? v = some origin → q.origin? v = some origin) :
    operand.Fits q v := by
  obtain ⟨origin, horigin, hfits⟩ := h
  exact ⟨origin, hpq v origin horigin, hfits⟩

/-- Names do not matter for what fits. -/
theorem fits_of_nameless (h : q.nameless = p.nameless) : Fits q = Fits p := by
  funext v operand
  have horigin : q.origin? v = p.origin? v := Program.origin_of_nameless h v
  rw [Fits, Fits, horigin]

theorem fits_of_ofValue (hv : p.RegisterNamed v) (h : ofValue p v = .ok operand) :
    operand.Fits p v := by
  obtain ⟨value, operator, hvalue, -, hfound, hkind, hnamed⟩ := exists_of_ofValue h
  refine ⟨value.origin, Program.origin?_eq_some_iff.2 ⟨value, hvalue, rfl⟩, hfound, ?_⟩
  intro hregister
  have hname : value.isNamed = true := hv value hvalue hregister
  have hof : Kind.ofValue value operator = .named := by
    unfold Kind.ofValue
    rw [if_pos hname]
  exact ⟨hkind.trans hof, hnamed.trans hname⟩

end Operand

theorem Program.registerNamed_of_isNamed {p : Program} {v : ValueId} (h : p.isNamed v = true) :
    p.RegisterNamed v := by
  intro value hvalue _
  rwa [isNamed, hvalue, Option.any_some] at h

/-- An operand that is found for a value is shared, unless the value shares one already. -/
theorem Shared.meets_shareOnce {Q : ValueId → Operand → Prop} {F : Fault → Prop} {shared : Shared}
    {v : ValueId} {found : Except Fault Operand} (hs : shared.All Q)
    (hok : ∀ operand, found = .ok operand → Q v operand)
    (herror : ∀ fault, found = .error fault → F fault) :
    Pass.Meets (fun operand later => Shared.All Q later ∧ Q v operand)
      (fun fault later => Shared.All Q later ∧ F fault) (shareOnce v found) shared := by
  refine Pass.meets_get_bind ?_
  split
  · rename_i operand hget
    exact Pass.meets_pure ⟨hs, hs v operand hget⟩
  · refine Pass.meets_lift_bind (fun fault hfault => ⟨hs, herror fault hfault⟩)
      fun operand hoperand => ?_
    have hv := hok operand hoperand
    exact (Pass.meets_modify (Q := fun _ later => Shared.All Q later) (hs.insert hv)).bind
      fun _ _ hlater => Pass.meets_pure ⟨hlater, hv⟩

namespace Operand

variable {p : Program} {shared : Shared}

/-- The operand of a value in a statement fits if a register has a name; a parameter without one is
never shared. -/
theorem meets_resolve (slots : Slots) (v : ValueId) (hs : shared.All (Fits p)) :
    Pass.Meets
      (fun operand later => Shared.All (Fits p) later ∧ (p.RegisterNamed v → operand.Fits p v))
      (fun fault later => Shared.All (Fits p) later ∧ (p.RegisterNamed v → p.Explains fault))
      (resolve p slots v) shared := by
  refine Pass.meets_lift_bind (fun fault hfault => ⟨hs, fun _ =>
    p.explains_of_ordinary (p.ordinary_value v fault hfault)⟩) fun value hvalue => ?_
  have hexplains (fault : Fault) (hfault : supported p v = .error fault) (hv : p.RegisterNamed v) :
      p.Explains fault := explains_of_supported hv hfault
  split
  · -- a parameter is shared, so it has to fit whether or not it is known to have a name
    rename_i hargument
    have hparam : p.isParameter v = true := by
      rw [Program.isParameter, (Program.value_eq_ok_iff p).1 hvalue]
      exact hargument
    have hfits (operand : Operand) (h : supported p v = .ok operand) : operand.Fits p v :=
      fits_of_ofValue (Program.registerNamed_of_isNamed (isNamed_of_supported hparam h))
        (ofValue_of_supported h)
    exact (Shared.meets_shareOnce hs hfits hexplains).imp
      (fun _ _ h => ⟨h.1, fun _ => h.2⟩) fun _ _ h => h
  · refine Pass.meets_lift_bind (fun fault hfault => ⟨hs, hexplains fault hfault⟩)
      fun operand hoperand => Pass.meets_pure ⟨hs, fun hv => ?_⟩
    -- the version that a slot is given does not matter for what fits
    have hfits : operand.Fits p v := fits_of_ofValue hv (ofValue_of_supported hoperand)
    exact hfits

end Operand

/-! ### Statements -/

/-- All operands of the statement fit. -/
def Statement.Fits (p : Program) (s : Statement) : Prop :=
  ∀ r ∈ s.references, ∀ v, r.value = some v → r.operand.Fits p v

theorem Statement.Fits.mono {p q : Program} {s : Statement} (h : s.Fits p)
    (hpq : ∀ v origin, p.origin? v = some origin → q.origin? v = some origin) : s.Fits q :=
  fun r hr v hv => (h r hr v hv).mono hpq

theorem Statement.fits_of_nameless {p q : Program} (h : q.nameless = p.nameless) :
    Statement.Fits q = Statement.Fits p := by
  funext s
  rw [Statement.Fits, Statement.Fits, Operand.fits_of_nameless h]

/-- The statement of an instruction whose registers have names. -/
theorem Statement.meets_ofInst {p : Program} (slots : Slots) {shared : Shared} {i : InstId}
    (hs : shared.All (Operand.Fits p))
    (hnamed : ∀ inst, p.inst? i = some inst → ∀ v ∈ inst.touched, p.RegisterNamed v) :
    Pass.Meets (fun s later => Shared.All (Operand.Fits p) later ∧ s.Fits p)
      (fun fault later => Shared.All (Operand.Fits p) later ∧ p.Explains fault)
      (ofInst p slots i) shared := by
  -- the table and the faults by the congruence, the operands by what the statement cites
  have hkept := ofInst_congrFor (Pass.CongruenceFor.meets (Shared.All (Operand.Fits p)) p.Explains)
    (fun _ => p.explains_of_ordinary) rfl i (fun inst hinst v hv s hs =>
      (Operand.meets_resolve slots v hs).imp (fun _ _ h => h.1)
        fun _ _ h => ⟨h.1, h.2 (hnamed inst hinst v hv)⟩) shared hs
  refine ⟨fun s later hlater => ⟨hkept.ok s later hlater, ?_⟩, hkept.error⟩
  have hyields (v : ValueId) : Pass.Yields (Shared.All (Operand.Fits p))
      (fun operand => p.RegisterNamed v → operand.Fits p v) (Operand.resolve p slots v) :=
    fun _ operand t hs ht => ((Operand.meets_resolve slots v hs).ok operand t ht).symm
  obtain ⟨⟨inst, hinst, hcites⟩, -⟩ := yields_ofInst hyields i hs hlater
  intro r hr v hv
  rcases hcites.of_mem_references hr with rfl | ⟨u, hu, hfits⟩
  · cases hv
  · have hfits := hfits (hnamed inst hinst u hu)
    obtain rfl : u = v := Option.some.inj (hfits.value.symm.trans hv)
    exact hfits

theorem Statement.references_bindArgument (call : InstId) (formal : Operand) (actual : Reference)
    (line : Option Nat) :
    (Statement.bindArgument call formal actual line).references = [actual, ⟨formal, 0⟩] := rfl

/-! ### Listings -/

namespace Workspace

/-- What is known between the steps of a listing of the program `p`: the operands that are shared
fit, and whatever was named has a name. -/
structure Ready (p : Program) (w : Workspace) : Prop where
  nameless : w.program.nameless = p.nameless
  shared : w.context.shared.All (Operand.Fits p)
  renamed : ∀ v ∈ w.context.names.renamed, w.program.isNamed v = true

/-- A fault that the program explains, in a workspace that is still ready. -/
def Fails (p : Program) (fault : Fault) (w : Workspace) : Prop :=
  w.Ready p ∧ w.program.Explains fault

variable {p : Program} {w : Workspace} {v : ValueId}

theorem Ready.fails (hw : w.Ready p) {fault : Fault} (h : fault.ordinary = true) :
    Fails p fault w :=
  ⟨hw, w.program.explains_of_ordinary h⟩

/-- A register that is settled has a name. -/
theorem Ready.registerNamed_of_settled (hw : w.Ready p)
    (h : w.context.names.Settled w.program v) : w.program.RegisterNamed v := by
  rcases h with hrenamed | hopen
  · exact Program.registerNamed_of_isNamed (hw.renamed v hrenamed)
  · exact fun value hvalue => (hopen value hvalue).2

theorem meets_report (event : Event) (hw : w.Ready p) :
    Pass.Meets (fun _ => Ready p) (Fails p) (report event) w :=
  Pass.meets_modify ⟨hw.nameless, hw.shared, hw.renamed⟩

theorem meets_nameValue (v : ValueId) (hw : w.Ready p) :
    Pass.Meets (fun _ later => later.Ready p ∧ later.program.RegisterNamed v) (Fails p)
      (nameValue v) w := by
  have hready (u : Unit) (later : Workspace) (h : (nameValue v).outcome w = (.ok u, later)) :
      later.Ready p := by
    rw [outcome_nameValue] at h
    cases hassign : w.context.names.assign w.program v with
    | error fault =>
      rw [hassign] at h
      cases h
    | ok assigned =>
      obtain ⟨names, q⟩ := assigned
      rw [hassign] at h
      cases h
      obtain ⟨value, hvalue, ⟨-, rfl, rfl⟩ | ⟨-, -, name, hname, hrenamed, rfl⟩⟩ :=
        Names.assign_cases hassign
      · exact ⟨hw.nameless, hw.shared, hw.renamed⟩
      · refine ⟨(Program.nameless_setName v name _).trans hw.nameless, hw.shared, fun u hu => ?_⟩
        refine (Program.isNamed_setName hname _).2 ?_
        rcases List.mem_cons.1 (hrenamed ▸ hu) with rfl | hu
        · exact .inr ⟨rfl, by rw [hvalue]; rfl⟩
        · exact .inl (hw.renamed u hu)
  constructor
  · intro u later h
    have hlater := hready u later h
    exact ⟨hlater, hlater.registerNamed_of_settled (nameValue_ok h).2.1⟩
  · intro fault later h
    obtain ⟨rfl, hassign⟩ := nameValue_error h
    exact hw.fails (Names.ordinary_assign _ _ v fault hassign)

theorem meets_nameRegisters (inst : Inst) (hw : w.Ready p) :
    Pass.Meets (fun _ later => later.Ready p ∧ ∀ v ∈ inst.touched, later.program.RegisterNamed v)
      (Fails p) (nameRegisters inst) w := by
  have hforM : Pass.Meets (fun _ => Ready p) (Fails p) (nameRegisters inst) w :=
    Pass.meets_forM (fun v _ _ hw => (meets_nameValue v hw).imp (fun _ _ h => h.1)
      fun _ _ h => h) hw
  refine ⟨fun u later h => ?_, hforM.error⟩
  have hlater := hforM.ok u later h
  exact ⟨hlater, fun v hv => hlater.registerNamed_of_settled (settled_of_nameRegisters h v hv)⟩

/-- A pass on the shared operands. -/
theorem Ready.meets_onShared (hw : w.Ready p) {α : Type} {P : α → Prop} {pass : Pass Shared α}
    (h : Pass.Meets (fun a later => Shared.All (Operand.Fits w.program) later ∧ P a)
      (fun fault later => Shared.All (Operand.Fits w.program) later ∧ w.program.Explains fault)
      pass w.context.shared) :
    Pass.Meets (fun a later => later.Ready p ∧ P a) (Fails p) (onShared pass) w := by
  rw [Operand.fits_of_nameless hw.nameless] at h
  refine Pass.Meets.within h ?_ ?_
  · exact fun a shared ha => ⟨⟨hw.nameless, ha.1, hw.renamed⟩, ha.2⟩
  · exact fun fault shared hfault => ⟨⟨hw.nameless, hfault.1, hw.renamed⟩, hfault.2⟩

theorem Ready.shared_fits (hw : w.Ready p) :
    w.context.shared.All (Operand.Fits w.program) := by
  rw [Operand.fits_of_nameless hw.nameless]
  exact hw.shared

theorem meets_toStatement {i : InstId} (hw : w.Ready p)
    (hnamed : ∀ inst, w.program.inst? i = some inst →
      ∀ v ∈ inst.touched, w.program.RegisterNamed v) :
    Pass.Meets (fun s later => later.Ready p ∧ s.Fits p) (Fails p) (toStatement i) w := by
  refine Pass.meets_get_bind (hw.meets_onShared ?_)
  have h := Statement.meets_ofInst w.context.slots hw.shared_fits hnamed
  rwa [Statement.fits_of_nameless hw.nameless] at h

/-- The registers of an instruction are named, and then its statement is made. -/
theorem meets_named_bind {α : Type} {Q : α → Workspace → Prop} {i : InstId} {inst : Inst}
    {next : Statement → Pass Workspace α} (hinst : p.inst? i = some inst) (hw : w.Ready p)
    (h : ∀ s later, later.Ready p → s.Fits p → Pass.Meets Q (Fails p) (next s) later) :
    Pass.Meets Q (Fails p) (nameRegisters inst >>= fun _ => toStatement i >>= next) w := by
  refine (meets_nameRegisters inst hw).bind fun _ u ⟨hu, hnamed⟩ => ?_
  refine (meets_toStatement hu fun other hother => ?_).bind fun s later ⟨hlater, hs⟩ =>
    h s later hlater hs
  rw [Program.inst?_of_nameless hu.nameless, hinst] at hother
  cases hother
  exact hnamed

theorem meets_bindArgument (call : Statement) (formal : ValueId) {actual : Reference}
    (hactual : ∀ v, actual.value = some v → actual.operand.Fits p v) (hw : w.Ready p) :
    Pass.Meets (fun s later => later.Ready p ∧ s.Fits p) (Fails p)
      (bindArgument call formal actual) w := by
  refine (meets_nameValue formal hw).bind fun _ u ⟨hu, hformal⟩ => ?_
  have hoperand : Pass.Meets (fun operand later => later.Ready p ∧ operand.Fits u.program formal)
      (Fails p) (sharedOperand formal) u :=
    Pass.meets_get_bind (hu.meets_onShared (Shared.meets_shareOnce hu.shared_fits
      (fun _ h => Operand.fits_of_ofValue hformal h)
      fun _ h => Operand.explains_of_ofValue hformal h))
  refine hoperand.bind fun operand later ⟨hlater, hfits⟩ => Pass.meets_pure ⟨hlater, ?_⟩
  rw [Operand.fits_of_nameless hu.nameless] at hfits
  intro r hr v hv
  rw [Statement.references_bindArgument] at hr
  rcases List.mem_pair.1 hr with rfl | rfl
  · exact hactual v hv
  · obtain rfl : formal = v := Option.some.inj (hfits.value.symm.trans hv)
    exact hfits

theorem meets_bindArguments {call : Statement} (hcall : call.Fits p) (hw : w.Ready p) :
    Pass.Meets (fun bindings later => later.Ready p ∧ ∀ s ∈ bindings, s.Fits p) (Fails p)
      (bindArguments call) w := by
  unfold bindArguments
  split
  · rename_i f formals _
    have hbind {u : Workspace} (hu : u.Ready p) :
        Pass.Meets (fun bindings later => later.Ready p ∧ ∀ s ∈ bindings, s.Fits p) (Fails p)
          ((formals.zip call.operands).mapM fun pair => bindArgument call pair.1 pair.2) u :=
      Pass.meets_mapM (fun pair hpair _ hw => meets_bindArgument call pair.1
        (hcall pair.2 (call.mem_references_of_mem_operands (List.of_mem_zip hpair).2)) hw) hu
    refine Pass.meets_get_bind <| Pass.meets_lift_bind
      (fun fault hfault => hw.fails (w.program.ordinary_function f fault hfault))
      fun function _ => ?_
    split
    · exact (meets_report _ hw).bind fun _ _ hu => hbind hu
    · exact hbind hw
  · exact Pass.meets_pure ⟨hw, by simp⟩

theorem meets_transcribeInst (i : InstId) (hw : w.Ready p) :
    Pass.Meets (fun ss later => later.Ready p ∧ ∀ s ∈ ss, s.Fits p) (Fails p)
      (transcribeInst i) w := by
  refine Pass.meets_get_bind <| Pass.meets_lift_bind
    (fun fault hfault => hw.fails (w.program.ordinary_inst i fault hfault)) fun inst hinst => ?_
  rw [Program.inst_eq_ok_iff, Program.inst?_of_nameless hw.nameless] at hinst
  split
  · exact Pass.meets_pure ⟨hw, by simp⟩
  · refine meets_named_bind hinst hw fun s u hu hs => ?_
    refine (meets_report _ hu).bind fun _ u' hu' => ?_
    refine (meets_bindArguments hs hu').bind fun bindings _ ⟨hlater, hbindings⟩ => ?_
    exact Pass.meets_pure ⟨hlater,
      List.forall_mem_append.2 ⟨hbindings, List.forall_mem_singleton.2 hs⟩⟩

theorem meets_transcribeBlock (b : BlockId) (hw : w.Ready p) :
    Pass.Meets (fun part later => later.Ready p ∧ ∀ s ∈ part.2, s.Fits p) (Fails p)
      (transcribeBlock b) w := by
  refine Pass.meets_get_bind <| Pass.meets_lift_bind
    (fun fault hfault => hw.fails (w.program.ordinary_block b fault hfault)) fun block _ => ?_
  refine (Pass.meets_mapM (fun i _ _ hw => meets_transcribeInst i hw) hw).bind
    fun groups later ⟨hlater, hgroups⟩ => Pass.meets_pure ⟨hlater, fun s hs => ?_⟩
  obtain ⟨group, hgroup, hs⟩ := List.mem_flatten.1 hs
  exact hgroups group hgroup s hs

theorem meets_transcribeBody (discard : Bool) (f : FunctionId) (hw : w.Ready p) :
    Pass.Meets (fun body later => later.Ready p ∧ ∀ s ∈ body.statements, s.Fits p) (Fails p)
      (transcribeBody discard f) w := by
  refine Pass.meets_get_bind <| Pass.meets_lift_bind
    (fun fault hfault => hw.fails (w.program.ordinary_function f fault hfault)) fun function _ => ?_
  refine (Pass.meets_mapM (fun b _ _ hw => meets_transcribeBlock b hw) hw).bind
    fun body u ⟨hu, hbody⟩ => ?_
  refine (meets_report _ hu).bind fun _ later hlater => Pass.meets_pure ⟨hlater, fun s hs => ?_⟩
  obtain ⟨part, hpart, hs⟩ := List.mem_flatMap.1 hs
  obtain ⟨all, hall, hsub, -⟩ := Body.exists_of_mem_listed hpart
  exact hbody (part.1, all) hall s (hsub.subset hs)

theorem meets_transcribeFunction (discard : Bool) {l : Listing} (f : FunctionId)
    (hl : ∀ s ∈ l.statements, s.Fits p) (hw : w.Ready p) :
    Pass.Meets (fun l' later => later.Ready p ∧ ∀ s ∈ l'.statements, s.Fits p) (Fails p)
      (transcribeFunction discard l f) w := by
  refine (meets_transcribeBody discard f hw).bind fun body later ⟨hlater, hbody⟩ =>
    Pass.meets_pure ⟨hlater, ?_⟩
  rw [Listing.statements_addBody]
  exact List.forall_mem_append.2 ⟨hl, hbody⟩

/-- **The operands of a listing fit**, and if a program cannot be listed, then it explains why. -/
theorem meets_transcribe (discard : Bool) (hw : w.Ready p) :
    Pass.Meets (fun l later => later.Ready p ∧ ∀ s ∈ l.statements, s.Fits p) (Fails p)
      (transcribe discard) w := by
  refine Pass.meets_get_bind ?_
  refine (Pass.meets_foldlM (P := fun l : Listing => ∀ s ∈ l.statements, s.Fits p)
    (fun l f _ _ hw hl => meets_transcribeFunction discard f hl hw) hw
    (fun s hs => by cases hs)).bind fun l u ⟨hu, hl⟩ => ?_
  exact (meets_report _ hu).bind fun _ later hlater => Pass.meets_pure ⟨hlater, hl⟩

end Workspace

/-! ### Excerpts -/

namespace Excerpt

open Workspace (Ready Fails)

variable {p : Program} {w : Workspace} {state : Listing × Workspace}

theorem meets_statement? (i : InstId) (hw : w.Ready p) :
    Pass.Meets (fun found later => later.Ready p ∧ ∀ s ∈ found, s.Fits p) (Fails p)
      (statement? i) w := by
  refine Pass.meets_get_bind <| Pass.meets_lift_bind
    (fun fault hfault => hw.fails (w.program.ordinary_inst i fault hfault)) fun inst hinst => ?_
  rw [Program.inst_eq_ok_iff, Program.inst?_of_nameless hw.nameless] at hinst
  split
  · exact Pass.meets_pure ⟨hw, by simp⟩
  · refine Workspace.meets_named_bind hinst hw fun s later hlater hs => ?_
    split
    · exact Pass.meets_pure ⟨hlater, by simp⟩
    · exact Pass.meets_pure ⟨hlater, fun t ht => Option.mem_some.1 ht ▸ hs⟩

/-- The workspace is ready, and the operands of the excerpt fit. -/
def Fits (p : Program) (state : Listing × Workspace) : Prop :=
  state.2.Ready p ∧ ∀ s ∈ state.1.statements, s.Fits p

theorem meets_addInst (place : Place) (i : InstId) (h : Fits p state) :
    Pass.Meets (fun _ => Fits p) (fun fault later => Fits p later ∧ later.2.program.Explains fault)
      (addInst place i) state := by
  refine Pass.Meets.bind (Q := fun found later => Fits p later ∧ ∀ s ∈ found, s.Fits p) ?_
    fun found later ⟨hlater, hfound⟩ => ?_
  · refine Pass.Meets.within (meets_statement? i h.1) ?_ ?_
    · exact fun found w hw => ⟨⟨hw.1, h.2⟩, hw.2⟩
    · exact fun fault w hw => ⟨⟨hw.1, h.2⟩, hw.2⟩
  · cases found with
    | none => exact Pass.meets_pure hlater
    | some s =>
      refine (Pass.meets_modify (Q := fun _ => Fits p) ⟨hlater.1, ?_⟩).bind fun _ _ hlast =>
        Pass.meets_pure hlast
      rw [Listing.statements_push]
      exact List.forall_mem_append.2 ⟨hlater.2, List.forall_mem_singleton.2 (hfound s rfl)⟩

/-- **The operands of an excerpt fit**, also if a block cannot be added to its end; then the program
explains why. -/
theorem meets_add (place : Place) (h : Fits p state) :
    Pass.Meets (fun _ => Fits p) (fun fault later => Fits p later ∧ later.2.program.Explains fault)
      (add place) state := by
  refine (Pass.meets_modify (Q := fun _ => Fits p) ⟨h.1, ?_⟩).bind fun _ later hlater => ?_
  · rw [Listing.statements, Listing.entries_addBlock, Listing.entries_addFunction]
    exact h.2
  · refine Pass.meets_get_bind <| Pass.meets_lift_bind
      (fun fault hfault => ⟨hlater, later.2.program.explains_of_ordinary
        (later.2.program.ordinary_block place.block fault hfault)⟩) fun block _ => ?_
    exact (Pass.meets_foldlM (P := fun _ => True) (fun _ i _ _ hstate _ =>
      (meets_addInst place i hstate).bind fun _ _ hnext => Pass.meets_pure ⟨hnext, trivial⟩)
        hlater trivial).imp (fun _ _ hlast => hlast.1) fun _ _ hlast => hlast

end Excerpt

/-! ### Versioning -/

/-- The values of `p` are in `q` as well. -/
def Program.KeepsValues (p q : Program) : Prop :=
  ∀ v value, p.value? v = some value → q.value? v = some value

/-- The values of a program stay as they are while instructions are placed and operands are
replaced. -/
theorem Program.keptByEdits_keepsValues (p : Program) : Versioning.KeptByEdits p.KeepsValues where
  placed anchor draft q _ hq := by
    intro v value hv
    rcases placeBefore_state q anchor draft with h | ⟨inst, -, h⟩
    · rw [h]
      exact hq v value hv
    · rw [h]
      exact value?_placed_of_some (hq v value hv)
  replaced i operand q _ hq := by
    intro v value hv
    rcases replaceOperand_outcome q i 0 operand with h | h
    · rw [h]
      exact hq v value hv
    · rw [h]
      exact hq v value hv

/-! ### Sessions -/

namespace Session

/-- What holds after every call: the workspace is ready, and all operands fit. -/
structure Sound (session : Session) : Prop where
  ready : session.workspace.Ready session.program
  fits : ∀ l ∈ session.listings, ∀ s ∈ l.statements, s.Fits session.program

variable {session : Session}

/-- Names were given to registers. -/
theorem Sound.named (h : session.Sound) {w : Workspace} (hw : w.Ready session.program) :
    Sound { session with workspace := w } where
  ready := ⟨rfl, (Operand.fits_of_nameless hw.nameless).symm ▸ hw.shared, hw.renamed⟩
  fits l hl := by
    rw [program, Statement.fits_of_nameless hw.nameless]
    exact h.fits l hl

/-- Listings were added or changed. -/
theorem Sound.listed (h : session.Sound) {listings : List Listing}
    (hfits : ∀ l ∈ listings, l ∈ session.listings ∨ ∀ s ∈ l.statements, s.Fits session.program) :
    Sound { session with listings } where
  ready := h.ready
  fits l hl := by
    rcases hfits l hl with hold | hnew
    · exact h.fits l hold
    · exact hnew

theorem Sound.append (h : session.Sound) {l : Listing}
    (hl : ∀ s ∈ l.statements, s.Fits session.program) :
    Sound { session with listings := session.listings ++ [l] } := by
  refine h.listed fun k hk => ?_
  rcases List.mem_append.1 hk with hk | hk
  · exact .inl hk
  · exact .inr (List.mem_singleton.1 hk ▸ hl)

/-- Values were added to the program. -/
theorem Sound.versioned (h : session.Sound) {w : Workspace}
    (hw : Workspace.Versions session.program.KeepsValues session.workspace w) :
    Sound { session with workspace := w } := by
  have horigin : ∀ v origin, session.program.origin? v = some origin →
      w.program.origin? v = some origin := by
    intro v origin hv
    obtain ⟨value, hvalue, horigin⟩ := Program.origin?_eq_some_iff.1 hv
    exact Program.origin?_eq_some_iff.2 ⟨value, hw.program v value hvalue, horigin⟩
  refine ⟨⟨rfl, fun v operand hv => ?_, fun v hv => ?_⟩, fun l hl s hs => ?_⟩
  · rw [hw.shared] at hv
    exact (h.ready.shared v operand hv).mono horigin
  · rw [hw.names] at hv
    obtain ⟨value, hvalue, hname⟩ := (Option.any_eq_true _ _).1 (h.ready.renamed v hv)
    exact (Option.any_eq_true _ _).2 ⟨value, hw.program v value hvalue, hname⟩
  · exact (h.fits l hl s hs).mono horigin

/-- Versioning leaves a sound session behind, and fails for ordinary reasons. -/
theorem Sound.version (h : session.Sound) {α : Type} {pass : Pass Workspace α}
    (hpass : Versioning.Keeping (Workspace.Versions session.program.KeepsValues session.workspace)
      pass session.workspace) :
    Pass.Meets (fun _ => Sound) (fun fault later => later.Sound ∧ later.program.Explains fault)
      (do let _ ← onWorkspace pass) session := by
  refine Pass.Meets.bind (Q := fun _ => Sound) ?_ fun _ later hlater => Pass.meets_pure hlater
  refine Pass.Meets.within hpass ?_ ?_
  · exact fun _ w hw => h.versioned hw
  · exact fun fault w hw => ⟨h.versioned hw.1, w.program.explains_of_ordinary hw.2⟩

/-- Every call leaves a sound session behind, and if it fails, then the program explains why. -/
theorem Sound.call (h : session.Sound) {c : Call} (hplain : c.isPlain = true) :
    Pass.Meets (fun _ => Sound) (fun fault later => later.Sound ∧ later.program.Explains fault)
      (call c) session := by
  have hvalues := session.program.keptByEdits_keepsValues
  rcases c with (discard | _ | ⟨n, place⟩ | v) | ⟨oracle, f⟩ | oracle | ⟨shared, names⟩
  case request.transcribe =>
    refine Pass.Meets.bind (Q := fun l later => later.Sound ∧
      ∀ s ∈ l.statements, s.Fits later.program) ?_ fun l later ⟨hlater, hl⟩ => ?_
    · refine Pass.Meets.within (Workspace.meets_transcribe discard h.ready) ?_ ?_
      · rintro l w ⟨hw, hl⟩
        refine ⟨h.named hw, ?_⟩
        rwa [program, Statement.fits_of_nameless hw.nameless]
      · exact fun fault w hw => ⟨h.named hw.1, hw.2⟩
    · exact Pass.meets_modify (hlater.append hl)
  case request.beginExcerpt => exact Pass.meets_modify (h.append fun s hs => by cases hs)
  case request.addBlock =>
    refine Pass.meets_get_bind ?_
    split
    · rename_i l hl
      -- also what a failing call has added to the excerpt stays there
      have hset {state : Listing × Workspace} (hstate : Excerpt.Fits session.program state) :
          Sound { workspace := state.2, listings := session.listings.set n state.1 } := by
        refine (h.named hstate.1).listed fun k hk => ?_
        rcases List.mem_or_eq_of_mem_set hk with hk | rfl
        · exact .inl hk
        · right
          rw [program, Statement.fits_of_nameless hstate.1.nameless]
          exact hstate.2
      have hstart : Excerpt.Fits session.program (l, session.workspace) :=
        ⟨h.ready, h.fits l (List.mem_of_getElem? hl)⟩
      refine Pass.Meets.bind (Q := fun _ => Sound) ?_ fun _ later hlater => Pass.meets_pure hlater
      refine Pass.Meets.within (Excerpt.meets_add place hstart) ?_ ?_
      · exact fun _ state hstate => hset hstate
      · exact fun fault state hstate => ⟨hset hstate.1, hstate.2⟩
    · exact Pass.meets_pure h
  case versionFunction =>
    exact h.version (hvalues.versionFunction oracle f ⟨fun _ _ hv => hv, rfl, rfl⟩)
  case versionProgram => exact h.version (hvalues.versionProgram oracle fun _ _ hv => hv)
  all_goals cases hplain

/-- The later session is sound if the earlier one is. -/
def StaysSound (session later : Session) : Prop := session.Sound → later.Sound

instance : IsPreorder Session StaysSound where
  refl _ h := h
  trans _ _ _ hab hbc h := hbc (hab h)

theorem Sound.calls (h : session.Sound) {list : List Call} (hplain : ∀ c ∈ list, c.isPlain = true) :
    (session.calls list).Sound := by
  have hkept : ∀ c ∈ list, Pass.Keeps StaysSound (Session.call c) := fun c hc _ hsound =>
    (hsound.call (hplain c hc)).reached (fun _ _ hlater => hlater) fun _ _ hlater => hlater.1
  exact kept_calls hkept session h

theorem sound_fresh (p : Program) : Sound (fresh p []) where
  ready := ⟨rfl, Shared.all_empty _, fun _ hv => by cases hv⟩
  fits _ hl := by cases hl

/-- **Registers can always be operands.**  After any calls that started with a fresh context,
stayed in it and asked for no operand directly, whether they ended well or not, every value that a
statement of a listing refers to, as an operand, as its result, as the place that a store writes to
or as what an indirect call goes through, is a value of the program, and if it is a register, then
its operand is that of a value with a name.  If another such call fails because a value cannot be an
operand, then that is a metadata node or a piece of inline assembly without a name; if it fails
because of a subscript, then that is one of a constant element address without a name. -/
theorem registers_named (p : Program) (front : List Call) {c : Call}
    (hfront : ∀ earlier ∈ front, earlier.isPlain = true) (hc : c.isPlain = true) :
    let session := (fresh p []).calls front
    (∀ l ∈ session.listings, ∀ s ∈ l.statements, ∀ r ∈ s.references, ∀ v, r.value = some v →
      ∃ value, session.program.value? v = some value ∧
        (value.origin.isAttached = true → r.operand.kind = .named ∧ r.operand.named = true)) ∧
    ∀ fault later, (call c).outcome session = (.error fault, later) →
      later.program.Explains fault := by
  intro session
  have hsound : session.Sound := (sound_fresh p).calls hfront
  refine ⟨fun l hl s hs r hr v hv => ?_,
    fun fault later h => ((hsound.call hc).error fault later h).2⟩
  obtain ⟨origin, horigin, -, hnamed⟩ := hsound.fits l hl s hs r hr v hv
  obtain ⟨value, hvalue, rfl⟩ := Program.origin?_eq_some_iff.1 horigin
  exact ⟨value, hvalue, hnamed⟩

/-- A function with three blocks, which return its parameter with other bits, a metadata node, and
an element whose subscript is undefined. -/
def mixed : Program := .ofEdits "mixed"
  [.global "cells" (.int 32), .value .metadata "" .metadata, .value (.int 32) "" .undefined,
    .value (.pointer (.int 32)) "" (.expression .getElementPtr [⟨0⟩, ⟨2⟩]),
    .function "main" (.int 32) [("", .int 32)], .block ⟨0⟩ "cast", .block ⟨0⟩ "note",
    .block ⟨0⟩ "cell",
    .last ⟨0⟩ { opcode := .bitCast, operands := [.value ⟨5⟩], type := .int 32 },
    .last ⟨0⟩ { opcode := .ret, operands := [.value ⟨6⟩] },
    .last ⟨1⟩ { opcode := .ret, operands := [.value ⟨1⟩] },
    .last ⟨2⟩ { opcode := .ret, operands := [.value ⟨3⟩] }]

/-- The first block of that function has been added to an excerpt. -/
def mixedSession : Session :=
  (fresh mixed []).calls [.request .beginExcerpt, .request (.addBlock 0 ⟨⟨0⟩, ⟨0⟩⟩)]

theorem registers_named_mixed :
    (∀ v ∈ [⟨5⟩, ⟨6⟩], ∃ l ∈ mixedSession.listings, ∃ s ∈ l.statements, ∃ r ∈ s.references,
      r.value = some v ∧ mixedSession.program.isRegister v = true ∧ r.operand.kind = .named ∧
        r.operand.named = true) ∧
    (∃ later, (call (.request (.addBlock 0 ⟨⟨0⟩, ⟨1⟩⟩))).outcome mixedSession =
        (.error (.unsupportedOperand ⟨1⟩ .metadata), later) ∧
      later.program.Explains (.unsupportedOperand ⟨1⟩ .metadata)) ∧
    ∃ later, (call (.request (.addBlock 0 ⟨⟨0⟩, ⟨2⟩⟩))).outcome mixedSession =
        (.error (.unsupportedIndex ⟨3⟩ ⟨2⟩ (.int 32)), later) ∧
      later.program.Explains (.unsupportedIndex ⟨3⟩ ⟨2⟩ (.int 32)) := by
  have hnamed {c : Call} := registers_named mixed (c := c)
    [.request .beginExcerpt, .request (.addBlock 0 ⟨⟨0⟩, ⟨0⟩⟩)] (by simp [Call.isPlain])
  have hfails {c : Call} {fault : Fault} (hc : c.isPlain = true)
      (h : ((call c).outcome mixedSession).1 = .error fault) :
      ∃ later, (call c).outcome mixedSession = (.error fault, later) ∧
        later.program.Explains fault :=
    ⟨_, Prod.ext h rfl, (hnamed hc).2 fault _ (Prod.ext h rfl)⟩
  refine ⟨fun v hv => ?_, hfails rfl (by decide +kernel), hfails rfl (by decide +kernel)⟩
  have hregister : ∀ v ∈ [⟨5⟩, ⟨6⟩], mixedSession.program.isRegister v = true := by decide +kernel
  have hlisted : ∀ v ∈ [⟨5⟩, ⟨6⟩], (mixedSession.listings.any fun l => l.statements.any fun s =>
      s.references.any fun r => r.value = some v) = true := by decide +kernel
  obtain ⟨l, hl, hs⟩ := List.any_eq_true.1 (hlisted v hv)
  obtain ⟨s, hs, hr⟩ := List.any_eq_true.1 hs
  obtain ⟨r, hr, hvalue⟩ := List.any_eq_true.1 hr
  obtain ⟨value, hfound, hkind⟩ :=
    (hnamed (c := .request .beginExcerpt) rfl).1 l hl s hs r hr v (of_decide_eq_true hvalue)
  have hattached : value.origin.isAttached = true := by
    obtain ⟨other, hother, hattached⟩ := (Option.any_eq_true _ _).1 (hregister v hv)
    obtain rfl : value = other := Option.some.inj (hfound.symm.trans hother)
    exact hattached
  exact ⟨l, hl, s, hs, r, hr, of_decide_eq_true hvalue, hregister v hv, hkind hattached⟩

end Session

end LevelIr
