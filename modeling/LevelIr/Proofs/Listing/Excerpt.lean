import LevelIr.Listing.Excerpt
import LevelIr.Proofs.Listing.Rebuild
import LevelIr.Proofs.Listing.Transcript

/-!
# Excerpts of a listing

An excerpt passes over many instructions, so it names fewer registers than a listing of the whole
program does, in another order, and shares other operands.  In a fresh context this makes no
difference.  When a statement is made, all registers that its instruction touches have names, and
what is shared are the operands of parameters with names.  So the statement is the one that the
instruction has in the program where all registers have names (`Program.statementOf`), whatever
came before it.

* `Workspace.Tidy` : what holds of every workspace on the way from a fresh one.
* `Workspace.yields_statement_bind` : the statement of an instruction is the one that it has if all
  registers have names.
* `Workspace.walks_exactTranscript` : so it is with all statements of a listing.
* `Excerpt.eq_filter_transcribe` : an excerpt has the statements of the whole listing, but for those
  that do not belong to it.
-/

namespace LevelIr

/-! ### Names for all registers -/

namespace Program

/-- The program with a name for every register. -/
def registersNamed (p : Program) : Program :=
  { p with values := p.values.map fun value =>
      if value.origin.isAttached then { value with name := "_" } else value }

variable (p : Program)

theorem value?_registersNamed (v : ValueId) : p.registersNamed.value? v =
    (p.value? v).map fun value =>
      if value.origin.isAttached then { value with name := "_" } else value := by
  simp [registersNamed, value?]

theorem nameless_registersNamed : p.registersNamed.nameless = p.nameless := by
  have hvalues : p.registersNamed.values.map (fun value => ({ value with name := "" } : Value)) =
      p.values.map fun value => { value with name := "" } := by
    rw [registersNamed, Array.map_map]
    refine Array.map_congr_left fun value _ => ?_
    simp only [Function.comp_apply]
    split <;> rfl
  simp only [nameless, hvalues]
  rfl

theorem isNamed_registersNamed (v : ValueId) :
    p.registersNamed.isNamed v = (p.isNamed v || p.isRegister v) := by
  rw [isNamed, value?_registersNamed, isNamed, isRegister]
  cases p.value? v with
  | none => rfl
  | some value => by_cases h : value.origin.isAttached = true <;> simp [h, Value.isNamed]

theorem isRegister_registersNamed (v : ValueId) :
    p.registersNamed.isRegister v = p.isRegister v :=
  isRegister_of_nameless p.nameless_registersNamed v

theorem namesMore_registersNamed : p.NamesMore p.registersNamed where
  nameless := p.nameless_registersNamed
  named v hv := by simp [isNamed_registersNamed, hv]
  register v hv := by simpa [isNamed_registersNamed] using hv

/-- The statement of an instruction, if all registers have names. -/
def statementOf (slots : Slots) (i : InstId) : Except Fault Statement :=
  ((Statement.ofInst p.registersNamed slots i).outcome {}).1

/-- The statements of an instruction: none if it is passed over, and otherwise those that hand over
its arguments, and the one that it has if all registers have names. -/
def ExactTranscript (slots : Slots) (i : InstId) (statements : List Statement) : Prop :=
  ∃ inst, p.inst? i = some inst ∧
    ((inst.isSkipped = true ∧ statements = []) ∨
      (inst.isSkipped = false ∧ ∃ bindings s, p.Transcript i inst bindings s ∧
        p.statementOf slots i = .ok s ∧ statements = bindings ++ [s]))

end Program

/-! ### Operands -/

theorem Operand.supported_of_isNamed {p : Program} {v : ValueId} {value : Value}
    (hv : p.value? v = some value) (hnamed : value.isNamed = true) :
    supported p v = ofValue p v := by
  have hvalue : p.value v = .ok value := (Program.value_eq_ok_iff p).2 hv
  unfold supported
  rw [hvalue]
  cases hoperand : ofValue p v with
  | error fault => rfl
  | ok operand =>
    have hkind : operand.kind ≠ .unsupported := by
      unfold ofValue at hoperand
      obtain ⟨value', hvalue', hoperand⟩ := Pass.bind_eq_ok.1 hoperand
      obtain rfl : value = value' := Except.ok.inj (hvalue.symm.trans hvalue')
      obtain ⟨operator, -, hoperand⟩ := Pass.bind_eq_ok.1 hoperand
      obtain ⟨address, -, hoperand⟩ := Pass.bind_eq_ok.1 hoperand
      obtain ⟨memory, -, hoperand⟩ := Pass.bind_eq_ok.1 hoperand
      cases hoperand
      simp [Kind.ofValue, hnamed]
    simp only [bind, Except.bind, if_neg hkind]
    rfl

namespace Shared

/-- The shared operands are those that their values have in `p`. -/
def Canonical (p : Program) (shared : Shared) : Prop :=
  ∀ v operand, shared.get? v = some operand → Operand.ofValue p v = .ok operand

section Canonical

variable {p : Program} {s t : Shared} {v : ValueId} {operand : Operand}
  {found : Except Fault Operand}

theorem canonical_empty (p : Program) : Canonical p {} := by
  intro v operand h
  cases h

theorem Canonical.insert (hs : s.Canonical p) (h : Operand.ofValue p v = .ok operand) :
    Canonical p (Table.insert s v operand) := by
  intro u other hu
  rw [Table.get?_insert] at hu
  split at hu
  · rename_i e
    cases hu
    rw [e, h]
  · exact hs u other hu

theorem Canonical.shareOnce_ok (hs : s.Canonical p)
    (h : ∀ operand, found = .ok operand → Operand.ofValue p v = .ok operand)
    (ht : (shareOnce v found).outcome s = (.ok operand, t)) :
    Operand.ofValue p v = .ok operand ∧ t.Canonical p := by
  cases hget : s.get? v with
  | some other =>
    rw [shareOnce_of_some hget] at ht
    cases ht
    exact ⟨hs v operand hget, hs⟩
  | none =>
    rw [shareOnce_of_none hget] at ht
    cases found with
    | error fault => cases ht
    | ok other =>
      cases ht
      exact ⟨h operand rfl, hs.insert (h operand rfl)⟩

theorem Canonical.shareOnce (hs : s.Canonical p) (h : Operand.ofValue p v = .ok operand) :
    ∃ t, (shareOnce v (Operand.ofValue p v)).outcome s = (.ok operand, t) ∧ t.Canonical p := by
  cases hget : s.get? v with
  | some other =>
    obtain rfl : operand = other := Except.ok.inj (h.symm.trans (hs v other hget))
    exact ⟨s, shareOnce_of_some hget, hs⟩
  | none =>
    refine ⟨Table.insert s v operand, ?_, hs.insert h⟩
    rw [shareOnce_of_none hget, h]

/-- Both tables have the operands of `p`, if any. -/
def BothCanonical (p : Program) (s t : Shared) : Prop := s.Canonical p ∧ t.Canonical p

theorem simulates_shareOnce_ofValue
    (h : ∀ operand, found = .ok operand → Operand.ofValue p v = .ok operand) :
    Pass.Simulates (BothCanonical p) Eq (shareOnce v found)
      (shareOnce v (Operand.ofValue p v)) := by
  rintro s u operand t ⟨hs, hu⟩ ht
  obtain ⟨hvalue, ht⟩ := hs.shareOnce_ok h ht
  obtain ⟨u', hu', hcanonical⟩ := hu.shareOnce hvalue
  exact ⟨operand, u', hu', rfl, ht, hcanonical⟩

end Canonical

end Shared

/-- The operand of a value in a statement is the one that it has in the program `q` with more names,
unless `q` has a name for this value where `p` has none. -/
theorem Operand.simulates_resolve_named {p q : Program} {slots : Slots} {v : ValueId}
    (h : p.NamesMore q) (hv : q.isNamed v = true → p.isNamed v = true)
    (hregister : q.isRegister v = true → q.isNamed v = true) :
    Pass.Simulates (Shared.BothCanonical q) Eq (resolve p slots v) (resolve q slots v) := by
  refine Pass.Simulates.bind
    (A := fun value other => other.origin = value.origin ∧ q.value? v = some other)
    (Pass.simulates_lift fun value hvalue => ?_) ?_
  · obtain ⟨name, hq⟩ :=
      Program.value?_of_nameless h.nameless ((Program.value_eq_ok_iff p).1 hvalue)
    exact ⟨_, (Program.value_eq_ok_iff q).2 hq, rfl, hq⟩
  · rintro value other ⟨horigin, hother⟩
    rw [horigin]
    split
    · rename_i hargument
      have hnamed : other.isNamed = true := by
        have hattached : q.isRegister v = true := by
          rw [Program.isRegister, hother, Option.any_some, horigin]
          cases hvalue : value.origin <;> simp_all [Origin.isArgument, Origin.isAttached]
        simpa [Program.isNamed, hother] using hregister hattached
      have hsupported := supported_of_isNamed hother hnamed
      rw [hsupported]
      exact Shared.simulates_shareOnce_ofValue fun operand hoperand =>
        hsupported ▸ supported_of_namesMore h hv hoperand
    · refine Pass.Simulates.bind (A := Eq) (Pass.simulates_lift fun operand hoperand => ?_) ?_
      · exact ⟨operand, supported_of_namesMore h hv hoperand, rfl⟩
      · rintro operand _ rfl
        exact Pass.simulates_pure rfl

/-! ### Workspaces on the way from a fresh one -/

namespace Workspace

/-- A workspace on the way from a fresh one with the program `p`. -/
structure Tidy (p : Program) (slots : Slots) (w : Workspace) : Prop where
  slots : w.context.slots = slots
  /-- Some registers have names. -/
  names : w.program.NamesMore p.registersNamed
  /-- Values that were given a name have one. -/
  renamed : ∀ v ∈ w.context.names.renamed, w.program.isNamed v = true
  /-- What is shared are operands of registers with names. -/
  shared : w.context.shared.Canonical p.registersNamed

section Tidy

variable {p : Program} {slots : Slots} {w later : Workspace}

theorem tidy_fresh (p : Program) (slots : Slots) :
    Tidy p slots { program := p, context := { slots } } where
  slots := rfl
  names := p.namesMore_registersNamed
  renamed _ hv := by cases hv
  shared := Shared.canonical_empty _

theorem Tidy.nameless (h : Tidy p slots w) : w.program.nameless = p.nameless :=
  h.names.nameless.symm.trans p.nameless_registersNamed

theorem Tidy.log (h : Tidy p slots w) (log : List Event) : Tidy p slots { w with log } :=
  ⟨h.slots, h.names, h.renamed, h.shared⟩

/-- A register that is settled has a name. -/
theorem Tidy.isNamed_of_settled (h : Tidy p slots w) {v : ValueId}
    (hv : w.context.names.Settled w.program v) :
    p.registersNamed.isNamed v = true → w.program.isNamed v = true := by
  intro hnamed
  rcases hv with hv | hv
  · exact h.renamed v hv
  rcases h.names.register v hnamed with hnamed | hregister
  · exact hnamed
  · cases hvalue : w.program.value? v with
    | none => simp [Program.isRegister, hvalue] at hregister
    | some value =>
      rw [Program.isRegister, hvalue, Option.any_some] at hregister
      rw [Program.isNamed, hvalue]
      exact (hv value hvalue).2 hregister

theorem tidy_nameValue (v : ValueId) :
    Pass.Yields (Tidy p slots) (fun _ => True) (nameValue v) := by
  intro w _ later hw h
  refine ⟨trivial, ?_⟩
  rw [outcome_nameValue] at h
  cases hassign : w.context.names.assign w.program v with
  | error fault =>
    rw [hassign] at h
    cases h
  | ok assigned =>
    obtain ⟨names, q⟩ := assigned
    rw [hassign] at h
    cases h
    obtain ⟨value, hvalue, ⟨-, rfl, rfl⟩ | ⟨-, hregister, name, hname, hrenamed, rfl⟩⟩ :=
      Names.assign_cases hassign
    · exact hw
    · have hmore := Program.namesMore_setName hname hvalue hregister
      have hnamed : (w.program.setName v name).isNamed v = true :=
        (Program.isNamed_setName hname _).2 (.inr ⟨rfl, by rw [hvalue]; rfl⟩)
      refine ⟨hw.slots, ⟨hw.names.nameless.trans hmore.nameless.symm, ?_, ?_⟩, ?_, hw.shared⟩
      · intro u hu
        rcases (Program.isNamed_setName hname _).1 hu with hu | ⟨rfl, -⟩
        · exact hw.names.named u hu
        · rw [Program.isNamed_registersNamed, ← Program.isRegister_of_nameless hw.nameless,
            Program.isRegister, hvalue, Option.any_some, hregister, Bool.or_true]
      · intro u hu
        rw [Program.isRegister_of_nameless hmore.nameless]
        exact (hw.names.register u hu).imp_left (hmore.named u)
      · intro u hu
        rw [hrenamed] at hu
        rcases List.mem_cons.1 hu with rfl | hu
        · exact hnamed
        · exact hmore.named u (hw.renamed u hu)

/-- A pass on the shared operands that can be compared with one on canonical ones. -/
theorem Tidy.onShared {α : Type} {x y : Pass Shared α} {a : α} (hw : Tidy p slots w)
    (hxy : Pass.Simulates (Shared.BothCanonical p.registersNamed) Eq x y)
    (h : (onShared x).outcome w = (.ok a, later)) :
    (y.outcome {}).1 = .ok a ∧ Tidy p slots later := by
  rw [outcome_onShared] at h
  obtain ⟨hanswer, rfl⟩ := Prod.mk.inj h
  obtain ⟨_, t, hy, rfl, hcanonical, -⟩ :=
    hxy ⟨hw.shared, Shared.canonical_empty _⟩ (Prod.ext hanswer rfl)
  exact ⟨by rw [hy], hw.slots, hw.names, hw.renamed, hcanonical⟩

/-- The statement of an instruction is the one that it has if all registers have names. -/
theorem Tidy.toStatement (hw : Tidy p slots w) {i : InstId} {s : Statement}
    (hsettled : ∀ inst, w.program.inst? i = some inst → ∀ v ∈ inst.touched,
      w.context.names.Settled w.program v)
    (h : (toStatement i).outcome w = (.ok s, later)) :
    p.statementOf slots i = .ok s ∧ Tidy p slots later := by
  obtain ⟨_, _, hget, h⟩ := Pass.outcome_bind_ok.1 h
  cases hget
  rw [hw.slots] at h
  refine hw.onShared ?_ h
  refine Statement.ofInst_congr (Pass.Congruence.simulates _) hw.names.nameless i
    fun inst hinst v hv => ?_
  refine Operand.simulates_resolve_named hw.names
    (hw.isNamed_of_settled (hsettled inst hinst v hv)) fun hregister => ?_
  rw [Program.isRegister_registersNamed] at hregister
  rw [Program.isNamed_registersNamed, hregister, Bool.or_true]

theorem Tidy.sharedOperand (hw : Tidy p slots w) {v : ValueId} {operand : Operand}
    (hsettled : w.context.names.Settled w.program v)
    (h : (sharedOperand v).outcome w = (.ok operand, later)) : Tidy p slots later := by
  obtain ⟨_, _, hget, h⟩ := Pass.outcome_bind_ok.1 h
  cases hget
  exact (hw.onShared (Shared.simulates_shareOnce_ofValue fun operand =>
    Operand.ofValue_of_namesMore hw.names (hw.isNamed_of_settled hsettled)) h).2

theorem yields_statement_bind {α : Type} {Q : α → Prop} {i : InstId} {inst : Inst}
    {next : Statement → Pass Workspace α} (hinst : p.inst? i = some inst)
    (hnext : ∀ s, p.statementOf slots i = .ok s → Pass.Yields (Tidy p slots) Q (next s)) :
    Pass.Yields (Tidy p slots) Q
      (nameRegisters inst >>= fun _ => Workspace.toStatement i >>= next) := by
  intro w a later hw h
  obtain ⟨_, w₁, hnames, h⟩ := Pass.outcome_bind_ok.1 h
  obtain ⟨s, w₂, hs, h⟩ := Pass.outcome_bind_ok.1 h
  have hw₁ := (Pass.yields_forM tidy_nameValue _ hw hnames).2
  have hsettled : ∀ inst', w₁.program.inst? i = some inst' → ∀ v ∈ inst'.touched,
      w₁.context.names.Settled w₁.program v := by
    intro inst' hinst'
    rw [Program.inst?_of_nameless hw₁.nameless, hinst] at hinst'
    cases hinst'
    exact settled_of_nameRegisters hnames
  obtain ⟨hstatement, hw₂⟩ := hw₁.toStatement hsettled hs
  exact hnext s hstatement hw₂ h

theorem yields_report (event : Event) :
    Pass.Yields (Tidy p slots) (fun _ => True) (report event) := by
  intro w _ later hw h
  cases h
  exact ⟨trivial, hw.log _⟩

theorem yields_bindArgument (call : Statement) (formal : ValueId) (actual : Reference) :
    Pass.Yields (Tidy p slots) (fun b => b.binding = true) (bindArgument call formal actual) := by
  intro w b later hw h
  obtain ⟨_, w₁, hname, h⟩ := Pass.outcome_bind_ok.1 h
  obtain ⟨operand, w₂, hoperand, h⟩ := Pass.outcome_bind_ok.1 h
  cases h
  have hw₁ := (tidy_nameValue formal hw hname).2
  exact ⟨rfl, hw₁.sharedOperand (nameValue_ok hname).2.1 hoperand⟩

theorem yields_bindArguments (call : Statement) :
    Pass.Yields (Tidy p slots) (fun bindings => ∀ b ∈ bindings, b.binding = true)
      (bindArguments call) := by
  unfold bindArguments
  split
  · rename_i f formals _
    have hbindings := Pass.yields_mapM_mem (I := Tidy p slots)
      (fun pair : ValueId × Reference => yields_bindArgument call pair.1 pair.2)
      (formals.zip call.operands)
    refine Pass.yields_get_bind fun w hw => ?_
    refine (Pass.yields_lift (Q := fun _ => True) fun _ _ => trivial).bind fun function _ => ?_
    split
    · exact (yields_report _).bind fun _ _ => hbindings
    · exact hbindings
  · exact Pass.yields_pure (by simp)

theorem Tidy.views (h : Tidy p slots w) : w.Views p :=
  ⟨h.nameless, fun v operand hv => Operand.value_ofValue (h.shared v operand hv)⟩

/-- The last statement of an instruction is the one that it has if all registers have names. -/
theorem yields_transcribeInst (i : InstId) :
    Pass.Yields (Tidy p slots) (fun statements => ∀ inst, p.inst? i = some inst →
      inst.isSkipped = false → ∃ bindings s, p.statementOf slots i = .ok s ∧
        statements = bindings ++ [s]) (transcribeInst i) := by
  refine Pass.yields_get_bind fun w hw => ?_
  refine (Pass.yields_lift (Q := fun inst => p.inst? i = some inst) fun inst hinst => ?_).bind
    fun inst hinst => ?_
  · rwa [Program.inst_eq_ok_iff, Program.inst?_of_nameless hw.nameless] at hinst
  split
  · rename_i hskipped
    refine Pass.yields_pure fun inst' hinst' hlisted => ?_
    obtain rfl : inst = inst' := Option.some.inj (hinst.symm.trans hinst')
    exact absurd (hskipped.symm.trans hlisted) Bool.noConfusion
  · exact yields_statement_bind hinst fun s hs => (yields_report _).bind fun _ _ =>
      (yields_bindArguments s).bind fun bindings _ =>
        Pass.yields_pure fun _ _ _ => ⟨bindings, s, hs, rfl⟩

/-- In a context that was fresh at first, an instruction has just such statements. -/
theorem walks_exactTranscript (p : Program) (slots : Slots) :
    Walks p (Tidy p slots) (p.ExactTranscript slots) where
  nameless _ hw := hw.nameless
  log _ log hw := hw.log log
  inst i w statements later hw h := by
    obtain ⟨hexact, hlater⟩ := yields_transcribeInst i hw h
    refine ⟨?_, hlater⟩
    obtain ⟨inst, hinst, hskipped | ⟨hlisted, bindings, s, htranscript, rfl⟩⟩ :=
      transcribeInst_ok hw.views h
    · exact ⟨inst, hinst, .inl hskipped⟩
    · obtain ⟨bindings', s', hs, heq⟩ := hexact inst hinst hlisted
      obtain rfl : s = s' := by simpa using congrArg List.getLast? heq
      exact ⟨inst, hinst, .inr ⟨hlisted, bindings, s, htranscript, hs, rfl⟩⟩

end Tidy

end Workspace

/-! ### Excerpts -/

/-- Whether a statement of a listing belongs to an excerpt: it hands over no argument, comes from an
instruction of a kind that excerpts cover, and touches a pointer of the source program if it is a
load or a store. -/
def Excerpt.admits (p : Program) (s : Statement) : Bool :=
  !s.binding && (p.inst? s.source).any (fun inst => covers inst.opcode) &&
    !((s.isLoad || s.isStore) && !s.pointer)

namespace Program

variable (p : Program) (slots : Slots)

/-- What an excerpt has of an instruction. -/
def excerpt (i : InstId) : List Statement :=
  if (p.inst? i).any (fun inst => !inst.isSkipped) then
    (p.statementOf slots i).toOption.toList.filter (Excerpt.admits p)
  else []

variable {p slots} {i : InstId} {s : Statement}

theorem statementOf_ok (h : p.statementOf slots i = .ok s) : s.source = i ∧ s.binding = false := by
  obtain ⟨inst, -, htranscribes⟩ :=
    Statement.ofInst_ok Shared.sound_empty (Pass.outcome_eq_of_fst h)
  exact ⟨htranscribes.source, htranscribes.binding⟩

theorem excerpt_of_skipped {inst : Inst} (hinst : p.inst? i = some inst)
    (hskipped : inst.isSkipped = true) : p.excerpt slots i = [] := by
  simp [excerpt, hinst, hskipped]

theorem excerpt_of_not_covers {inst : Inst} (hinst : p.inst? i = some inst)
    (hcovers : Excerpt.covers inst.opcode = false) : p.excerpt slots i = [] := by
  unfold excerpt
  split
  · cases hs : p.statementOf slots i with
    | error fault => rfl
    | ok s =>
      obtain ⟨hsource, -⟩ := statementOf_ok hs
      simp [Except.toOption, Excerpt.admits, hsource, hinst, hcovers]
  · rfl

theorem excerpt_of_ok {inst : Inst} (hinst : p.inst? i = some inst)
    (hskipped : inst.isSkipped = false) (hs : p.statementOf slots i = .ok s) :
    p.excerpt slots i = [s].filter (Excerpt.admits p) := by
  simp [excerpt, hinst, hskipped, hs, Except.toOption]

end Program

namespace Workspace

variable {p : Program} {slots : Slots}

/-- The statements of an instruction that belong to an excerpt. -/
theorem walks_excerpt (p : Program) (slots : Slots) :
    Walks p (Tidy p slots) fun i statements =>
      statements.filter (Excerpt.admits p) = p.excerpt slots i := by
  refine (walks_exactTranscript p slots).imp ?_
  rintro i statements ⟨inst, hinst, ⟨hskipped, rfl⟩ | ⟨hlisted, bindings, s, htranscript, hs, rfl⟩⟩
  · exact (Program.excerpt_of_skipped hinst hskipped).symm
  · have hnone : bindings.filter (Excerpt.admits p) = [] := by
      refine List.filter_eq_nil_iff.2 fun b hb => ?_
      obtain ⟨k, hk⟩ := List.mem_iff_getElem?.1 hb
      obtain ⟨formal, operand, actual, -, -, -, rfl⟩ := htranscript.binding k b hk
      simp [Excerpt.admits, Statement.bindArgument]
    rw [List.filter_append, hnone, List.nil_append, Program.excerpt_of_ok hinst hlisted hs]

end Workspace

namespace Excerpt

variable {p : Program} {slots : Slots}

theorem yields_statement? (i : InstId) :
    Pass.Yields (Workspace.Tidy p slots) (fun found => found.toList = p.excerpt slots i)
      (statement? i) := by
  refine Pass.yields_get_bind fun w hw => ?_
  refine (Pass.yields_lift (Q := fun inst => p.inst? i = some inst) fun inst hinst => ?_).bind
    fun inst hinst => ?_
  · rwa [Program.inst_eq_ok_iff, Program.inst?_of_nameless hw.nameless] at hinst
  split
  · rename_i hout
    refine Pass.yields_pure (Eq.symm ?_)
    rcases Bool.or_eq_true_iff.1 hout with hskipped | hcovers
    · exact Program.excerpt_of_skipped hinst hskipped
    · exact Program.excerpt_of_not_covers hinst (by simpa using hcovers)
  · rename_i hin
    obtain ⟨hskipped, hcovers⟩ : inst.isSkipped = false ∧ covers inst.opcode = true := by
      simpa using hin
    refine Workspace.yields_statement_bind hinst fun s hs => ?_
    obtain ⟨hsource, hbinding⟩ := Program.statementOf_ok hs
    have hadmits : admits p s = !((s.isLoad || s.isStore) && !s.pointer) := by
      simp [admits, hsource, hbinding, hinst, hcovers]
    rw [Program.excerpt_of_ok hinst hskipped hs]
    split
    · rename_i hplain
      have hout : ¬admits p s = true := by simp [hadmits, hplain]
      rw [List.filter_cons_of_neg hout]
      exact Pass.yields_pure rfl
    · rename_i hpointer
      have hin : admits p s = true := by simp [hadmits, hpointer]
      rw [List.filter_cons_of_pos hin]
      exact Pass.yields_pure rfl

section Add

variable {x x' : Listing} {w w' : Workspace} {place : Place} {count : Nat}

theorem addInst_ok {i : InstId} (hw : w.Tidy p slots)
    (h : (addInst place i).outcome (x, w) = (.ok count, x', w')) :
    x' = x.pushAll place (p.excerpt slots i) ∧ w'.Tidy p slots := by
  obtain ⟨found, state, hfound, h⟩ := Pass.outcome_bind_ok.1 h
  rw [Pass.outcome_within] at hfound
  obtain ⟨hanswer, rfl⟩ := Prod.mk.inj hfound
  obtain ⟨hexcerpt, hlater⟩ := yields_statement? i hw (Pass.outcome_eq_of_fst hanswer)
  rw [← hexcerpt]
  cases found with
  | none =>
    cases h
    exact ⟨rfl, hlater⟩
  | some s =>
    obtain ⟨_, _, hpush, h⟩ := Pass.outcome_bind_ok.1 h
    cases hpush
    cases h
    exact ⟨rfl, hlater⟩

theorem foldlM_addInst_ok {insts : List InstId} {start : Nat} (hw : w.Tidy p slots)
    (h : Pass.outcome (insts.foldlM (fun count i => do return count + (← addInst place i)) start)
      (x, w) = (.ok count, x', w')) :
    x' = x.pushAll place (insts.flatMap (p.excerpt slots)) ∧ w'.Tidy p slots := by
  induction insts generalizing start x w with
  | nil =>
    cases h
    exact ⟨rfl, hw⟩
  | cons i insts ih =>
    rw [List.foldlM_cons] at h
    obtain ⟨next, ⟨x₁, w₁⟩, hi, h⟩ := Pass.outcome_bind_ok.1 h
    obtain ⟨added, ⟨x₂, w₂⟩, hi, hpure⟩ := Pass.outcome_bind_ok.1 hi
    cases hpure
    obtain ⟨rfl, hw₁⟩ := addInst_ok hw hi
    obtain ⟨rfl, hw'⟩ := ih hw₁ h
    refine ⟨?_, hw'⟩
    rw [List.flatMap_cons, Listing.pushAll, Listing.pushAll, Listing.pushAll, List.foldl_append]

theorem add_ok (hw : w.Tidy p slots) (h : (add place).outcome (x, w) = (.ok count, x', w')) :
    (∀ other, x'.statementsAt other = x.statementsAt other ++
        if place = other then (p.instsOf place.block).flatMap (p.excerpt slots) else []) ∧
      w'.Tidy p slots := by
  obtain ⟨_, _, hadd, h⟩ := Pass.outcome_bind_ok.1 h
  cases hadd
  obtain ⟨_, _, hget, h⟩ := Pass.outcome_bind_ok.1 h
  cases hget
  obtain ⟨block, _, hfound, h⟩ := Pass.outcome_bind_ok.1 h
  obtain ⟨hblock, rfl⟩ := Pass.outcome_lift_ok.1 hfound
  rw [Program.block_eq_ok_iff, Program.block?_of_nameless hw.nameless] at hblock
  obtain ⟨rfl, hw'⟩ := foldlM_addInst_ok hw h
  refine ⟨fun other => ?_, hw'⟩
  have hstart : ((x.addFunction place.function).addBlock place).statementsAt other =
      x.statementsAt other := by
    unfold Listing.statementsAt
    rw [Listing.entries_addBlock]
    unfold Listing.addFunction
    split <;> rfl
  rw [Listing.statementsAt_pushAll, hstart, Program.instsOf, hblock]
  rfl

theorem mapM_add_ok {places : List Place} {counts : List Nat} (hw : w.Tidy p slots)
    (h : (places.mapM add).outcome (x, w) = (.ok counts, x', w')) (other : Place) :
    x'.statementsAt other = x.statementsAt other ++ places.flatMap fun place =>
      if place = other then (p.instsOf place.block).flatMap (p.excerpt slots) else [] := by
  induction places generalizing x w counts with
  | nil =>
    cases h
    exact (List.append_nil _).symm
  | cons place places ih =>
    rw [List.mapM_cons] at h
    obtain ⟨count, ⟨x₁, w₁⟩, hplace, h⟩ := Pass.outcome_bind_ok.1 h
    obtain ⟨counts, ⟨x₂, w₂⟩, hplaces, h⟩ := Pass.outcome_bind_ok.1 h
    cases h
    obtain ⟨hx₁, hw₁⟩ := add_ok hw hplace
    rw [ih hw₁ hplaces, hx₁, List.flatMap_cons, List.append_assoc]

end Add

end Excerpt

/-! ### The statements of a listing that belong to an excerpt -/

theorem flatMap_eq_of_forall₂ {α β γ : Type} {f : α → List γ} {g : β → List γ} {xs : List α}
    {ys : List β} (h : List.Forall₂ (fun x y => g y = f x) xs ys) :
    ys.flatMap g = xs.flatMap f := by
  induction h with
  | nil => rfl
  | cons hxy _ ih => rw [List.flatMap_cons, List.flatMap_cons, hxy, ih]

theorem Program.Walked.filter_statementsAt {p : Program} {keep : Statement → Bool}
    {g : InstId → List Statement} {bodies : List (FunctionId × Body)}
    (h : p.Walked (fun i statements => statements.filter keep = g i) bodies) (place : Place) :
    ((Body.allParts bodies).flatMap fun part => if part.1 = place then part.2 else []).filter keep =
      p.listedPlaces.flatMap fun other =>
        if other = place then (p.instsOf other.block).flatMap g else [] := by
  rw [Body.allParts, List.flatMap_assoc, List.filter_flatMap, Program.listedPlaces,
    List.flatMap_assoc]
  refine flatMap_eq_of_forall₂ (h.imp ?_)
  rintro f ⟨_, body⟩ ⟨rfl, hbody⟩
  rw [Body.parts, List.flatMap_map, List.filter_flatMap, List.flatMap_map]
  refine flatMap_eq_of_forall₂ (hbody.imp ?_)
  rintro b ⟨_, _⟩ ⟨rfl, lists, hlists, rfl⟩
  split
  · rw [← List.flatMap_id', List.filter_flatMap]
    exact flatMap_eq_of_forall₂ hlists
  · rfl

/-- **An excerpt agrees with the whole listing.**  If both are made in contexts that are fresh but
for the slots, and the excerpt goes through the listed blocks in order, then it has at each place
just the statements of the listing that belong to an excerpt, in the same order. -/
theorem Excerpt.eq_filter_transcribe {p : Program} {slots : Slots} {l x : Listing}
    {counts : List Nat} {w w' : Workspace}
    (hl : (Workspace.transcribe false).outcome { program := p, context := { slots } } = (.ok l, w))
    (hx : (p.listedPlaces.mapM add).outcome ({}, { program := p, context := { slots } }) =
      (.ok counts, x, w')) (place : Place) :
    x.statementsAt place = (l.statementsAt place).filter (admits p) := by
  have hfresh := Workspace.tidy_fresh p slots
  obtain ⟨⟨bodies, hbodies, rfl⟩, -⟩ := (Workspace.walks_excerpt p slots).transcribe false hfresh hl
  have hlisted : (bodies.map fun function => (function.1, function.2.listed false)) = bodies :=
    List.map_id' bodies
  have hempty (place : Place) : Listing.statementsAt {} place = [] := rfl
  rw [mapM_add_ok hfresh hx, hlisted, Listing.statementsAt_addBodies, Listing.statementsAt_addParts,
    hempty, List.nil_append, List.nil_append, hbodies.filter_statementsAt]

/-- A function that keeps its pointer in a slot, adds up numbers and calls itself; an excerpt has
four of its instructions. -/
def Excerpt.mixed : Program := .ofEdits "mixed"
  [.function "walk" (.int 32) [("n", .pointer (.pointer (.int 32))), ("depth", .int 32)],
    .block ⟨0⟩ "entry",
    .last ⟨0⟩ { opcode := .alloca, type := .pointer (.pointer (.int 32)), line := some 1 },
    .last ⟨0⟩ { opcode := .add, operands := [.value ⟨2⟩, .value ⟨2⟩], type := .int 32 },
    .last ⟨0⟩ { opcode := .load, operands := [.value ⟨1⟩], type := .pointer (.int 32) },
    .last ⟨0⟩ { opcode := .store, operands := [.value ⟨5⟩, .value ⟨3⟩] },
    .last ⟨0⟩ { opcode := .load, operands := [.value ⟨5⟩], type := .int 32, line := some 2 },
    .last ⟨0⟩ { opcode := .call, operands := [.value ⟨3⟩, .value ⟨4⟩, .value ⟨0⟩],
                type := .int 32, line := some 3 },
    .last ⟨0⟩ { opcode := .fence, debug := true },
    .last ⟨0⟩ { opcode := .ret, operands := [.value ⟨7⟩] }]

/-- The slot of the function. -/
def Excerpt.mixedSlots : Slots := Slots.remember {} "walk_n_1" ⟨3⟩ 1

theorem Excerpt.eq_filter_transcribe_mixed :
    ∃ l x w w', (Workspace.transcribe false).outcome
        { program := mixed, context := { slots := mixedSlots } } = (.ok l, w) ∧
      (mixed.listedPlaces.mapM add).outcome
        ({}, { program := mixed, context := { slots := mixedSlots } }) = (.ok [4], x, w') ∧
      ∀ place, x.statementsAt place = (l.statementsAt place).filter (admits mixed) := by
  have hlisted : ((Workspace.transcribe false).outcome
      { program := mixed, context := { slots := mixedSlots } }).1.isOk = true := by decide +kernel
  have hadded : ((mixed.listedPlaces.mapM add).outcome
      ({}, { program := mixed, context := { slots := mixedSlots } })).1 = .ok [4] := by
    decide +kernel
  obtain ⟨l, w, hl⟩ := Pass.exists_outcome_of_isOk hlisted
  obtain ⟨⟨x, w'⟩, hx⟩ : ∃ state, (mixed.listedPlaces.mapM add).outcome
      ({}, { program := mixed, context := { slots := mixedSlots } }) = (.ok [4], state) :=
    ⟨_, Pass.outcome_eq_of_fst hadded⟩
  exact ⟨l, x, w, w', hl, hx, eq_filter_transcribe hl hx⟩

end LevelIr
