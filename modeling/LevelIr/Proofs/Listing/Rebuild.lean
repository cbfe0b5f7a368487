import LevelIr.Proofs.Pass.Repeats
import LevelIr.Proofs.Statement.Congruence

/-!
# Listing a program again

A listing names registers and shares operands as it goes.  A second run finds more names and more
shared operands than the first one did at the same place, and still it lists the same: a value is
named before it is first looked at, and from then on neither its name nor its shared operand
changes.

This is so for every program and every context, also for a context that does not belong to the
program, and also if the listing fails: what a failed run has named and shared makes no difference
to the statements before the one that failed, and that one fails for the same reason.

* `Workspace.Remembers` : what the passes leave behind: names that more registers have, and operands
  that more values share.
* `Workspace.repeats_toStatement` : the statement of an instruction whose values are settled stays
  the same.
* `Workspace.transcribe_again` : listing a program again changes nothing.
-/

namespace LevelIr

/-! ### Shared operands -/

namespace Shared

/-- The operands of `s` are shared in `t`, too. -/
def Included (s t : Shared) : Prop := ∀ v operand, s.get? v = some operand → t.get? v = some operand

instance : IsPreorder Shared Included where
  refl _ _ _ h := h
  trans _ _ _ hab hbc v operand h := hbc v operand (hab v operand h)

theorem included_insert {s : Shared} {v : ValueId} (h : s.get? v = none) (operand : Operand) :
    s.Included (Table.insert s v operand) := by
  intro u other hu
  rw [Table.get?_insert, if_neg, hu]
  rintro rfl
  rw [h] at hu
  cases hu

/-- The operand that a value shares.  If it shares none, it shares the given one from then on.  This
is how `Shared.operand` finds its answer, and `Operand.resolve` that of a parameter. -/
def shareOnce (v : ValueId) (found : Except Fault Operand) : Pass Shared Operand := do
  match (← get).get? v with
  | some operand => return operand
  | none =>
    let operand ← found
    modify (·.insert v operand)
    return operand

theorem operand_eq_shareOnce (p : Program) (v : ValueId) :
    operand p v = shareOnce v (Operand.ofValue p v) :=
  rfl

section Recall

variable {s t : Shared} {v : ValueId} {operand : Operand} {found : Except Fault Operand}

theorem shareOnce_of_some (h : s.get? v = some operand) :
    (shareOnce v found).outcome s = (.ok operand, s) := by
  unfold shareOnce
  rw [Pass.outcome_bind, Pass.outcome_get]
  simp only [h]
  rfl

theorem shareOnce_of_none (h : s.get? v = none) :
    (shareOnce v found).outcome s = (found, match found with
      | .ok operand => Table.insert s v operand
      | .error _ => s) := by
  unfold shareOnce
  rw [Pass.outcome_bind, Pass.outcome_get]
  simp only [h]
  cases found <;> rfl

theorem shareOnce_ok (h : (shareOnce v found).outcome s = (.ok operand, t)) :
    s.Included t ∧ t.get? v = some operand := by
  cases hs : s.get? v with
  | some other =>
    rw [shareOnce_of_some hs] at h
    cases h
    exact ⟨refl_of Included s, hs⟩
  | none =>
    rw [shareOnce_of_none hs] at h
    cases found with
    | error fault => cases h
    | ok other =>
      cases h
      exact ⟨included_insert hs operand, by simp⟩

theorem shareOnce_error {fault : Fault} (h : (shareOnce v found).outcome s = (.error fault, t)) :
    t = s := by
  cases hs : s.get? v with
  | some other =>
    rw [shareOnce_of_some hs] at h
    cases h
  | none =>
    rw [shareOnce_of_none hs] at h
    cases found with
    | error fault => cases h; rfl
    | ok other => cases h

theorem repeats_shareOnce (v : ValueId) (found : Except Fault Operand) (s : Shared) :
    Pass.Repeats id Included (shareOnce v found) s := by
  refine ⟨?_, fun operand t ht u hu => ?_, fun fault t ht u hu => ?_⟩
  · obtain ⟨answer, t, ht⟩ : ∃ answer t, (shareOnce v found).outcome s = (answer, t) := ⟨_, _, rfl⟩
    rw [ht]
    cases answer with
    | ok operand => exact (shareOnce_ok ht).1
    | error fault => exact shareOnce_error ht ▸ refl_of Included s
  · exact ⟨u, shareOnce_of_some (hu v operand (shareOnce_ok ht).2), rfl⟩
  · obtain rfl := shareOnce_error ht
    obtain rfl : u = t := hu
    exact ⟨u, ht, rfl⟩

/-- It does not matter how an operand would be found if the value shares one. -/
theorem simulates_shareOnce {other : Except Fault Operand}
    (h : ∀ operand, found = .ok operand → other = .ok operand) :
    Pass.Simulates Eq Eq (shareOnce v found) (shareOnce v other) := by
  rintro s _ operand t rfl ht
  refine ⟨operand, t, ?_, rfl, rfl⟩
  cases hs : s.get? v with
  | some shared => rwa [shareOnce_of_some hs] at ht ⊢
  | none =>
    rw [shareOnce_of_none hs] at ht ⊢
    cases found with
    | error fault => cases ht
    | ok first =>
      rw [h first rfl]
      exact ht

end Recall

end Shared

namespace Operand

variable {p q : Program} {slots : Slots} {v : ValueId}

theorem repeats_resolve (p : Program) (slots : Slots) (v : ValueId) (s : Shared) :
    Pass.Repeats id Shared.Included (resolve p slots v) s := by
  refine (Pass.repeats_lift _).bind fun value t _ => ?_
  split
  · exact Shared.repeats_shareOnce v (supported p v) t
  · exact (Pass.repeats_lift _).bind fun _ _ _ => Pass.repeats_pure _

/-- The operand of a value in a statement is the same if more registers have names, unless the
value is one of these registers itself. -/
theorem simulates_resolve (h : p.NamesMore q) (hv : q.isNamed v = true → p.isNamed v = true) :
    Pass.Simulates Eq Eq (resolve p slots v) (resolve q slots v) := by
  refine Pass.Simulates.bind (A := fun value other => other.origin = value.origin)
    (Pass.simulates_lift fun value hvalue => ?_) fun value other horigin => ?_
  · obtain ⟨name, hq⟩ :=
      Program.value?_of_nameless h.nameless ((Program.value_eq_ok_iff p).1 hvalue)
    exact ⟨_, (Program.value_eq_ok_iff q).2 hq, rfl⟩
  · rw [horigin]
    split
    · exact Shared.simulates_shareOnce fun operand => supported_of_namesMore h hv
    · refine Pass.Simulates.bind (A := Eq) (Pass.simulates_lift fun operand hoperand => ?_) ?_
      · exact ⟨operand, supported_of_namesMore h hv hoperand, rfl⟩
      · rintro operand _ rfl
        exact Pass.simulates_pure rfl

end Operand

/-! ### What is left behind -/

namespace Workspace

/-- What matters of a workspace: all but its log. -/
def core (w : Workspace) : Program × Context := (w.program, w.context)

/-- What the passes leave behind of a program and a context. -/
structure Remembers (old new : Program × Context) : Prop where
  /-- More registers have names. -/
  names : old.1.NamesMore new.1
  /-- The slots are the same. -/
  slots : new.2.slots = old.2.slots
  /-- What is settled stays so, and gets no name. -/
  settled : ∀ v, old.2.names.Settled old.1 v →
    new.2.names.Settled new.1 v ∧ (new.1.isNamed v = true → old.1.isNamed v = true)
  /-- More values share their operands. -/
  shared : old.2.shared.Included new.2.shared

instance : IsPreorder (Program × Context) Remembers where
  refl old := ⟨old.1.namesMore_refl, rfl, fun _ h => ⟨h, id⟩, fun _ _ h => h⟩
  trans _ _ _ hab hbc :=
    { names := hab.names.trans hbc.names
      slots := hbc.slots.trans hab.slots
      settled := fun v hv => by
        obtain ⟨hb, hnamed⟩ := hab.settled v hv
        obtain ⟨hc, hnamed'⟩ := hbc.settled v hb
        exact ⟨hc, hnamed ∘ hnamed'⟩
      shared := trans_of Shared.Included hab.shared hbc.shared }

theorem Remembers.nameless {w u : Workspace} (h : Remembers w.core u.core) :
    u.program.nameless = w.program.nameless :=
  h.names.nameless

theorem repeats_report (event : Event) (w : Workspace) :
    Pass.Repeats core Remembers (report event) w :=
  ⟨refl_of Remembers _, fun _ _ ht u _ => by cases ht; exact ⟨_, rfl, rfl⟩,
    fun _ _ ht => by cases ht⟩

/-! ### Names -/

section Names

variable {w later : Workspace} {v : ValueId}

/-- A value that is settled stays so if another value is named. -/
theorem remembers_setName {names : Names} {value : Value} {name : String}
    (hname : name ≠ "") (hv : w.program.value? v = some value)
    (hregister : value.origin.isAttached = true) (hopen : ¬w.context.names.Settled w.program v)
    (hrenamed : names.renamed = v :: w.context.names.renamed) :
    Remembers w.core (w.program.setName v name, { w.context with names }) where
  names := Program.namesMore_setName hname hv hregister
  slots := rfl
  settled u hu := by
    have hne : u ≠ v := by
      rintro rfl
      exact hopen hu
    constructor
    · rcases hu with hu | hu
      · exact .inl (hrenamed ▸ List.mem_cons_of_mem v hu)
      · refine .inr fun value' hvalue' => hu value' ?_
        rwa [Program.value?_setName, if_neg hne] at hvalue'
    · intro hnamed
      rcases (Program.isNamed_setName hname _).1 hnamed with hnamed | ⟨he, -⟩
      · exact hnamed
      · exact absurd he hne
  shared := refl_of Shared.Included _

/-- Naming a value settles it. -/
theorem nameValue_ok (h : (nameValue v).outcome w = (.ok (), later)) :
    Remembers w.core later.core ∧ later.context.names.Settled later.program v ∧
      ∃ value, later.program.value? v = some value := by
  rw [outcome_nameValue] at h
  cases hassign : w.context.names.assign w.program v with
  | error fault =>
    rw [hassign] at h
    cases h
  | ok assigned =>
    obtain ⟨names, q⟩ := assigned
    rw [hassign] at h
    cases h
    obtain ⟨value, hvalue, ⟨hsettled, rfl, rfl⟩ | ⟨hopen, hregister, name, hname, hrenamed, rfl⟩⟩ :=
      Names.assign_cases hassign
    · exact ⟨refl_of Remembers _, hsettled, value, hvalue⟩
    · refine ⟨remembers_setName hname hvalue hregister hopen hrenamed,
        .inl (hrenamed ▸ List.mem_cons_self), ?_⟩
      rw [Program.value?_setName, if_pos rfl, hvalue]
      exact ⟨_, rfl⟩

theorem nameValue_error {fault : Fault} (h : (nameValue v).outcome w = (.error fault, later)) :
    later = w ∧ w.context.names.assign w.program v = .error fault := by
  rw [outcome_nameValue] at h
  cases hassign : w.context.names.assign w.program v with
  | error fault =>
    rw [hassign] at h
    cases h
    exact ⟨rfl, rfl⟩
  | ok assigned =>
    rw [hassign] at h
    cases h

theorem repeats_nameValue (v : ValueId) (w : Workspace) :
    Pass.Repeats core Remembers (nameValue v) w := by
  refine ⟨?_, fun a t ht u hu => ?_, fun fault t ht u hu => ?_⟩
  · obtain ⟨answer, t, ht⟩ : ∃ answer t, (nameValue v).outcome w = (answer, t) := ⟨_, _, rfl⟩
    rw [ht]
    cases answer with
    | ok a => exact (nameValue_ok ht).1
    | error fault => exact (nameValue_error ht).1 ▸ refl_of Remembers _
  · obtain ⟨-, hsettled, value, hvalue⟩ := nameValue_ok ht
    obtain ⟨name, hu'⟩ := Program.value?_of_nameless hu.names.nameless hvalue
    have hassign : u.context.names.assign u.program v = .ok (u.context.names, u.program) :=
      Names.assign_of_settled (hu.settled v hsettled).1 hu'
    refine ⟨u, ?_, rfl⟩
    rw [outcome_nameValue, hassign]
  · obtain ⟨rfl, hassign⟩ := nameValue_error ht
    obtain ⟨hprogram, hcontext⟩ := Prod.mk.inj hu
    refine ⟨u, ?_, rfl⟩
    rw [outcome_nameValue, hprogram, hcontext, hassign]

theorem repeats_nameRegisters (inst : Inst) (w : Workspace) :
    Pass.Repeats core Remembers (nameRegisters inst) w :=
  Pass.repeats_forM repeats_nameValue _ w

/-- All values that an instruction touches are settled once they have been named. -/
theorem settled_of_nameRegisters {inst : Inst}
    (h : (nameRegisters inst).outcome w = (.ok (), later)) :
    ∀ v ∈ inst.touched, later.context.names.Settled later.program v := by
  have hforM {values : List ValueId} {w : Workspace}
      (h : (values.forM nameValue).outcome w = (.ok (), later)) :
      ∀ v ∈ values, later.context.names.Settled later.program v := by
    induction values generalizing w with
    | nil => simp
    | cons u values ih =>
      obtain ⟨_, w₁, hu, hrest⟩ := Pass.outcome_bind_ok.1 h
      intro v hv
      rcases List.mem_cons.1 hv with rfl | hv
      · have hlater := (Pass.repeats_forM repeats_nameValue values w₁).of_outcome hrest
        exact (hlater.settled v (nameValue_ok hu).2.1).1
      · exact ih hrest v hv
  exact hforM h

end Names

/-! ### Statements -/

section Statements

variable {w : Workspace}

theorem remembers_shared {shared : Shared} (h : w.context.shared.Included shared) :
    Remembers w.core (w.program, { w.context with shared }) :=
  ⟨w.program.namesMore_refl, rfl, fun _ hv => ⟨hv, id⟩, h⟩

/-- A pass on the shared operands repeats itself if it does so for the program as it is, and if more
names do not change its answers. -/
theorem repeats_onShared {α : Type} {f : Program → Slots → Pass Shared α}
    (h : Pass.Repeats id Shared.Included (f w.program w.context.slots) w.context.shared)
    (hnames : ∀ u : Workspace, Remembers w.core u.core →
      Pass.Simulates Eq Eq (f w.program w.context.slots) (f u.program u.context.slots)) :
    Pass.Repeats core Remembers
      (get >>= fun w => onShared (f w.program w.context.slots)) w := by
  have hrun (u : Workspace) :
      Pass.outcome (get >>= fun w => onShared (f w.program w.context.slots)) u =
        (onShared (f u.program u.context.slots)).outcome u := by
    rw [Pass.outcome_bind, Pass.outcome_get]
  have hlater := remembers_shared h.later
  refine ⟨?_, fun a t ht u hu => ?_, fun fault t ht u hu => ?_⟩
  · rw [hrun]
    exact hlater
  · rw [hrun, outcome_onShared] at ht
    obtain ⟨hanswer, rfl⟩ := Prod.mk.inj ht
    -- the operands that were shared on the way are all found in `u`
    obtain ⟨shared, hsame, rfl⟩ := h.again a _ (Prod.ext hanswer rfl) u.context.shared hu.shared
    obtain ⟨_, _, hu', rfl, rfl⟩ := hnames u (trans_of Remembers hlater hu) rfl hsame
    refine ⟨u, ?_, rfl⟩
    rw [hrun, outcome_onShared, hu']
    rfl
  · rw [hrun, outcome_onShared] at ht
    obtain ⟨hanswer, rfl⟩ := Prod.mk.inj ht
    obtain ⟨hprogram, hcontext⟩ := Prod.mk.inj hu
    obtain ⟨shared, hsame, rfl⟩ :=
      h.fails fault _ (Prod.ext hanswer rfl) u.context.shared (congrArg Context.shared hcontext)
    have hf : f u.program u.context.slots = f w.program w.context.slots := by
      rw [hprogram, hcontext]
    refine ⟨u, ?_, rfl⟩
    rw [hrun, outcome_onShared, hf, hsame]
    rfl

/-- The statement of an instruction whose values are settled stays the same. -/
theorem repeats_toStatement {i : InstId}
    (h : ∀ inst, w.program.inst? i = some inst → ∀ v ∈ inst.touched,
      w.context.names.Settled w.program v) :
    Pass.Repeats core Remembers (toStatement i) w := by
  refine repeats_onShared (f := fun p slots => Statement.ofInst p slots i) ?_ fun u hu => ?_
  · exact Statement.ofInst_congr (Pass.Congruence.repeats id Shared.Included) rfl i
      (fun _ _ v _ => Operand.repeats_resolve w.program w.context.slots v) _
  · have hslots : u.context.slots = w.context.slots := hu.slots
    rw [hslots]
    exact Statement.ofInst_congr (Pass.Congruence.simulates Eq) hu.nameless i
      fun inst hinst v hv =>
        Operand.simulates_resolve hu.names (hu.settled v (h inst hinst v hv)).2

theorem repeats_sharedOperand {v : ValueId} (h : w.context.names.Settled w.program v) :
    Pass.Repeats core Remembers (sharedOperand v) w := by
  refine repeats_onShared (f := fun p _ => Shared.operand p v) ?_ fun u hu => ?_
  · exact Shared.repeats_shareOnce v _ _
  · exact Shared.simulates_shareOnce fun operand =>
      Operand.ofValue_of_namesMore hu.names (hu.settled v h).2

end Statements

/-! ### Listings -/

theorem repeats_bindArgument (call : Statement) (formal : ValueId) (actual : Reference)
    (w : Workspace) : Pass.Repeats core Remembers (bindArgument call formal actual) w :=
  (repeats_nameValue formal w).bind fun _ _ ht =>
    (repeats_sharedOperand (nameValue_ok ht).2.1).bind fun _ _ _ => Pass.repeats_pure _

theorem repeats_bindArguments (call : Statement) (w : Workspace) :
    Pass.Repeats core Remembers (bindArguments call) w := by
  unfold bindArguments
  split
  · rename_i f formals _
    have hbindings := Pass.repeats_mapM
      (fun pair : ValueId × Reference => repeats_bindArgument call pair.1 pair.2)
      (formals.zip call.operands)
    refine Pass.Repeats.get_bind ?_ fun u hu => ?_
    · refine (Pass.repeats_lift _).bind fun function t _ => ?_
      split
      · exact (repeats_report _ t).bind fun _ t' _ => hbindings t'
      · exact hbindings t
    · rw [Program.function_of_nameless hu.nameless]
  · exact Pass.repeats_pure _

theorem repeats_transcribeInst (i : InstId) (w : Workspace) :
    Pass.Repeats core Remembers (transcribeInst i) w := by
  refine Pass.Repeats.get_bind ?_ fun u hu => ?_
  · refine (Pass.repeats_lift _).bind fun inst t hlift => ?_
    obtain ⟨hinst, rfl⟩ := Pass.outcome_lift_ok.1 hlift
    split
    · exact Pass.repeats_pure _
    · refine (repeats_nameRegisters inst w).bind fun _ w₁ hnames => ?_
      have hw₁ := (repeats_nameRegisters inst w).of_outcome hnames
      have hsettled : ∀ inst, w₁.program.inst? i = some inst → ∀ v ∈ inst.touched,
          w₁.context.names.Settled w₁.program v := by
        intro inst' hinst'
        rw [Program.inst_eq_ok_iff, ← Program.inst?_of_nameless hw₁.nameless] at hinst
        obtain rfl : inst = inst' := Option.some.inj (hinst.symm.trans hinst')
        exact settled_of_nameRegisters hnames
      exact (repeats_toStatement hsettled).bind fun s w₂ _ => (repeats_report _ w₂).bind
        fun _ w₃ _ => (repeats_bindArguments s w₃).bind fun _ _ _ => Pass.repeats_pure _
  · rw [Program.inst_of_nameless hu.nameless]

theorem repeats_transcribeBlock (b : BlockId) (w : Workspace) :
    Pass.Repeats core Remembers (transcribeBlock b) w := by
  refine Pass.Repeats.get_bind ?_ fun u hu => ?_
  · exact (Pass.repeats_lift _).bind fun block t _ =>
      (Pass.repeats_mapM repeats_transcribeInst block.insts t).bind fun _ _ _ =>
        Pass.repeats_pure _
  · rw [Program.block_of_nameless hu.nameless]

theorem repeats_transcribeBody (discard : Bool) (f : FunctionId) (w : Workspace) :
    Pass.Repeats core Remembers (transcribeBody discard f) w := by
  refine Pass.Repeats.get_bind ?_ fun u hu => ?_
  · exact (Pass.repeats_lift _).bind fun function t _ =>
      (Pass.repeats_mapM repeats_transcribeBlock function.blocks t).bind fun _ t' _ =>
        (repeats_report _ t').bind fun _ _ _ => Pass.repeats_pure _
  · rw [Program.function_of_nameless hu.nameless]

theorem repeats_transcribeFunction (discard : Bool) (l : Listing) (f : FunctionId)
    (w : Workspace) : Pass.Repeats core Remembers (transcribeFunction discard l f) w :=
  (repeats_transcribeBody discard f w).bind fun _ _ _ => Pass.repeats_pure _

theorem repeats_transcribe (discard : Bool) (w : Workspace) :
    Pass.Repeats core Remembers (transcribe discard) w := by
  refine Pass.Repeats.get_bind ?_ fun u hu => ?_
  · exact (Pass.repeats_foldlM (repeats_transcribeFunction discard) _ {} w).bind fun _ t _ =>
      (repeats_report _ t).bind fun _ _ _ => Pass.repeats_pure _
  · rw [Program.listedFunctions_of_nameless hu.nameless]

/-- **Listing a program again changes nothing.**  Whatever the program and its context are, and
whether the listing ends well or not: a second run gives the same listing or the same fault, and
leaves the program and the context as the first one left them. -/
theorem transcribe_again (w : Workspace) (discard : Bool) :
    ∃ later, (transcribe discard).outcome ((transcribe discard).outcome w).2 =
        (((transcribe discard).outcome w).1, later) ∧
      later.program = ((transcribe discard).outcome w).2.program ∧
      later.context = ((transcribe discard).outcome w).2.context := by
  obtain ⟨later, hagain, hcore⟩ := (repeats_transcribe discard w).rerun
  obtain ⟨hprogram, hcontext⟩ := Prod.mk.inj hcore
  exact ⟨later, hagain, hprogram, hcontext⟩

end Workspace

end LevelIr
