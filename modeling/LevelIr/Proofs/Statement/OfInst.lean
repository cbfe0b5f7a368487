import LevelIr.Proofs.Pass
import LevelIr.Statement.OfInst

/-!
# The shape of statements

What is known of the statement of an instruction, whatever the program: the levels of its
references, the values they refer to, and what it defines.

* `Shared.Sound` : every shared operand is that of its value.
* `Statement.Regular` : the shape of the statements of a listing: a load reads one level below its
  source and defines a value, a store reads a value and writes one level below its target, and the
  pointer flag says what the references say.
* `Statement.Transcribes` : what the statement of an instruction says of it.
* `Statement.ofInst_ok` : a statement that is made from an instruction says just that.
* `Statement.mentions` : the values that a statement mentions.
-/

namespace LevelIr

/-! ### Shared operands -/

namespace Shared

/-- Every shared operand is that of its value. -/
def Sound (shared : Shared) : Prop :=
  ∀ v operand, shared.get? v = some operand → operand.value = some v

theorem sound_empty : Sound {} := by
  intro v operand h
  cases h

theorem Sound.insert {shared : Shared} (h : shared.Sound) {v : ValueId} {operand : Operand}
    (hv : operand.value = some v) : Sound (Table.insert shared v operand) := by
  intro w other hw
  rw [Table.get?_insert] at hw
  split at hw
  · rename_i e
    cases hw
    rw [e, hv]
  · exact h w other hw

/-- Sharing more operands leaves them sound. -/
def Grows (shared later : Shared) : Prop := shared.Sound → later.Sound

instance : IsPreorder Shared Grows where
  refl _ h := h
  trans _ _ _ hab hbc h := hbc (hab h)

end Shared

namespace Operand

theorem value_ofValue {p : Program} {v : ValueId} {operand : Operand}
    (h : ofValue p v = .ok operand) : operand.value = some v := by
  unfold ofValue at h
  obtain ⟨value, -, h⟩ := Pass.bind_eq_ok.1 h
  obtain ⟨operator, -, h⟩ := Pass.bind_eq_ok.1 h
  obtain ⟨address, -, h⟩ := Pass.bind_eq_ok.1 h
  obtain ⟨memory, -, h⟩ := Pass.bind_eq_ok.1 h
  cases h
  rfl

theorem value_supported {p : Program} {v : ValueId} {operand : Operand}
    (h : supported p v = .ok operand) : operand.value = some v := by
  unfold supported at h
  obtain ⟨value, -, h⟩ := Pass.bind_eq_ok.1 h
  obtain ⟨found, hfound, h⟩ := Pass.bind_eq_ok.1 h
  split at h
  · cases h
  · cases h
    exact value_ofValue hfound

/-- The operand of a value refers to that value, and only sound operands are shared for it. -/
theorem resolve_sound (p : Program) (slots : Slots) (v : ValueId) {s : Shared} (hs : s.Sound) :
    (Pass.outcome (resolve p slots v) s).2.Sound ∧
      ∀ operand, (Pass.outcome (resolve p slots v) s).1 = .ok operand →
        operand.value = some v := by
  unfold resolve
  rw [Pass.outcome_bind, Pass.outcome_lift]
  cases p.value v with
  | error fault => exact ⟨hs, fun _ h => by cases h⟩
  | ok value =>
    simp only
    split
    · rw [Pass.outcome_bind, Pass.outcome_get]
      simp only
      split
      · -- a parameter whose operand is shared already
        rename_i operand hget
        refine ⟨hs, ?_⟩
        intro other h
        cases h
        exact hs v operand hget
      · rw [Pass.outcome_bind, Pass.outcome_lift]
        cases hsup : supported p v with
        | error fault => exact ⟨hs, fun _ h => by cases h⟩
        | ok operand =>
          have hv := value_supported hsup
          refine ⟨hs.insert hv, ?_⟩
          intro other h
          cases h
          exact hv
    · rw [Pass.outcome_bind, Pass.outcome_lift]
      cases hsup : supported p v with
      | error fault => exact ⟨hs, fun _ h => by cases h⟩
      | ok operand =>
        have hv := value_supported hsup
        refine ⟨hs, ?_⟩
        intro other h
        cases h
        exact hv

end Operand

theorem Shared.operand_sound (p : Program) (v : ValueId) {s : Shared} (hs : s.Sound) :
    (Pass.outcome (Shared.operand p v) s).2.Sound ∧
      ∀ operand, (Pass.outcome (Shared.operand p v) s).1 = .ok operand →
        operand.value = some v := by
  unfold Shared.operand
  rw [Pass.outcome_bind, Pass.outcome_get]
  simp only
  split
  · rename_i operand hget
    refine ⟨hs, ?_⟩
    intro other h
    cases h
    exact hs v operand hget
  · rw [Pass.outcome_bind, Pass.outcome_lift]
    cases hof : Operand.ofValue p v with
    | error fault => exact ⟨hs, fun _ h => by cases h⟩
    | ok operand =>
      have hv := Operand.value_ofValue hof
      refine ⟨hs.insert hv, ?_⟩
      intro other h
      cases h
      exact hv

/-! ### References -/

namespace Reference

variable (p : Program) (slots : Slots)

/-- A reference to the given value at the given level. -/
def IsAt (level : Int) (v : ValueId) (r : Reference) : Prop := r.level = level ∧ r.value = some v

theorem keeps_resolve (level : Int) (v : ValueId) :
    Pass.Keeps Shared.Grows (resolve p slots level v) := by
  refine Pass.Keeps.bind (fun s hs => ?_) fun operand => Pass.keeps_pure _
  exact (Operand.resolve_sound p slots v hs).1

theorem resolve_ok {level : Int} {v : ValueId} {r : Reference} {s t : Shared} (hs : s.Sound)
    (h : Pass.outcome (resolve p slots level v) s = (.ok r, t)) : r.IsAt level v := by
  obtain ⟨operand, u, ho, h⟩ := Pass.outcome_bind_ok.1 h
  cases h
  refine ⟨rfl, (Operand.resolve_sound p slots v hs).2 operand ?_⟩
  rw [ho]

theorem keeps_resolveAll (values : List ValueId) :
    Pass.Keeps Shared.Grows (resolveAll p slots values) :=
  Pass.keeps_mapM (keeps_resolve p slots 0) values

theorem resolveAll_ok {values : List ValueId} {rs : List Reference} {s t : Shared} (hs : s.Sound)
    (h : Pass.outcome (resolveAll p slots values) s = (.ok rs, t)) :
    List.Forall₂ (IsAt 0) values rs := by
  refine (Pass.outcome_mapM_ok (keeps_resolve p slots 0) h).imp ?_
  rintro v r ⟨u, u', hu, hr, -⟩
  exact resolve_ok p slots (hu hs) hr

theorem keeps_resolveAddressed (values : List ValueId) :
    Pass.Keeps Shared.Grows (resolveAddressed p slots values) := by
  cases values with
  | nil => exact Pass.keeps_pure _
  | cons v values =>
    exact (keeps_resolve p slots 1 v).bind fun r =>
      (keeps_resolveAll p slots values).bind fun rs => Pass.keeps_pure _

end Reference

/-! ### Statements -/

theorem Action.ofPlain_ne (inst : Inst) :
    ofPlain inst ≠ .load ∧ ofPlain inst ≠ .store ∧ ∀ callee, ofPlain inst ≠ .call callee := by
  unfold ofPlain
  cases inst.opcode
  case br => by_cases h : inst.valueOperands = [] <;> simp [h]
  all_goals simp

namespace Statement

/-- The shape of the statements of a listing. -/
structure Regular (s : Statement) : Prop where
  /-- The pointer flag says what the references say. -/
  pointer : s.pointer = touchesPointer s.operands s.result
  /-- A load reads one level below its source; an argument is handed over as it is. -/
  load : s.isLoad = true →
    ∃ source v, s.operands = [source] ∧ source.IsAt (if s.binding then 0 else 1) v
  /-- A store reads a value and writes one level below its target. -/
  store : s.isStore = true → ∃ stored target v w, s.operands = [stored] ∧ s.result = some target ∧
    stored.IsAt 0 v ∧ target.IsAt 1 w
  /-- Any other statement defines a value. -/
  result : s.isStore = false → ∀ r, s.result = some r → ∃ v, r.IsAt 0 v

variable (p : Program) (slots : Slots)

/-- What is known of the action and the references of an instruction. -/
structure Formed (inst : Inst) (result : Option Reference) (action : Action)
    (operands : List Reference) (written : Option Reference) : Prop where
  load : action = .load → ∃ source v, operands = [source] ∧ source.IsAt 1 v
  store : action = .store → ∃ stored target v w, operands = [stored] ∧ written = some target ∧
    stored.IsAt 0 v ∧ target.IsAt 1 w
  result : action ≠ .store → written = result
  call : ∀ f formals, action = .call (.direct f formals) → inst.opcode = .call ∧
    p.directCallee? inst = some f ∧ List.Forall₂ (Reference.IsAt 0) inst.arguments operands ∧
    ∃ function, p.function? f = some function ∧
      formals = if function.isDeclaration then [] else function.params
  direct : inst.opcode = .call → ∀ f, p.directCallee? inst = some f →
    ∃ formals, action = .call (.direct f formals)

theorem keeps_callee (i : InstId) (inst : Inst) :
    Pass.Keeps Shared.Grows (callee p slots i inst) := by
  unfold callee
  split
  · exact (Pass.keeps_lift _).bind fun function => Pass.keeps_pure _
  · split
    · exact (Reference.keeps_resolve p slots 0 _).bind fun r => Pass.keeps_pure _
    · exact Pass.keeps_throw _

theorem callee_ok {i : InstId} {inst : Inst} {target : Callee} {s t : Shared}
    (h : Pass.outcome (callee p slots i inst) s = (.ok target, t)) :
    match p.directCallee? inst with
    | some f => ∃ function, p.function? f = some function ∧
        target = .direct f (if function.isDeclaration then [] else function.params)
    | none => ∃ r, target = .indirect r := by
  unfold callee at h
  cases hf : p.directCallee? inst with
  | some f =>
    rw [hf] at h
    obtain ⟨function, u, hfun, h⟩ := Pass.outcome_bind_ok.1 h
    cases h
    exact ⟨function, (Program.function_eq_ok_iff p).1 (Pass.outcome_lift_ok.1 hfun).1, rfl⟩
  | none =>
    rw [hf] at h
    dsimp only at h
    split at h
    · obtain ⟨r, u, -, h⟩ := Pass.outcome_bind_ok.1 h
      cases h
      exact ⟨r, rfl⟩
    · cases h

variable {p slots}

theorem Formed.plain {inst : Inst} {result : Option Reference} {action : Action}
    {operands : List Reference} (hload : action ≠ .load) (hstore : action ≠ .store)
    (haction : ∀ callee, action ≠ .call callee) (hcall : inst.opcode ≠ .call) :
    Formed p inst result action operands result where
  load h := absurd h hload
  store h := absurd h hstore
  result _ := rfl
  call _ _ h := absurd h (haction _)
  direct h := absurd h hcall

theorem form_ok {i : InstId} {inst : Inst} {result written : Option Reference} {action : Action}
    {operands : List Reference} {s t : Shared} (hs : s.Sound)
    (h : Pass.outcome (form p slots i inst result) s = (.ok (action, operands, written), t)) :
    Formed p inst result action operands written := by
  unfold form at h
  split at h
  -- allocas, fences and unreachable places read nothing
  case h_1 hop | h_2 hop | h_3 hop =>
    cases h
    exact Formed.plain (by simp) (by simp) (by simp) (by simp [hop])
  -- loads
  case h_4 hop =>
    obtain ⟨address, s₁, hv, h⟩ := Pass.outcome_bind_ok.1 h
    obtain ⟨-, rfl⟩ := Pass.outcome_lift_ok.1 hv
    obtain ⟨source, s₂, hr, h⟩ := Pass.outcome_bind_ok.1 h
    cases h
    exact
      { load := fun _ => ⟨source, address, rfl, Reference.resolve_ok p slots hs hr⟩
        store := by simp
        result := fun _ => rfl
        call := by simp
        direct := by simp [hop] }
  -- stores
  case h_5 hop =>
    obtain ⟨stored, s₁, hv, h⟩ := Pass.outcome_bind_ok.1 h
    obtain ⟨-, rfl⟩ := Pass.outcome_lift_ok.1 hv
    obtain ⟨address, s₂, hv, h⟩ := Pass.outcome_bind_ok.1 h
    obtain ⟨-, rfl⟩ := Pass.outcome_lift_ok.1 hv
    obtain ⟨operand, s₃, hr, h⟩ := Pass.outcome_bind_ok.1 h
    obtain ⟨target, s₄, ht, h⟩ := Pass.outcome_bind_ok.1 h
    cases h
    have hs₃ : s₃.Sound := (Reference.keeps_resolve p slots 0 stored).of_outcome hr hs
    exact
      { load := by simp
        store := fun _ => ⟨operand, target, stored, address, rfl, rfl,
          Reference.resolve_ok p slots hs hr, Reference.resolve_ok p slots hs₃ ht⟩
        result := fun hne => absurd rfl hne
        call := by simp
        direct := by simp [hop] }
  -- atomic accesses
  case h_6 hop | h_7 hop =>
    obtain ⟨rs, s₁, -, h⟩ := Pass.outcome_bind_ok.1 h
    cases h
    exact Formed.plain (by simp) (by simp) (by simp) (by simp [hop])
  -- plain calls; the callee comes before the arguments
  case h_8 hop =>
    obtain ⟨target, s₁, hc, h⟩ := Pass.outcome_bind_ok.1 h
    obtain ⟨rs, s₂, hr, h⟩ := Pass.outcome_bind_ok.1 h
    cases h
    have hs₁ : s₁.Sound := (keeps_callee p slots i inst).of_outcome hc hs
    have hargs := Reference.resolveAll_ok p slots hs₁ hr
    have hcallee := callee_ok p slots hc
    refine
      { load := by simp
        store := by simp
        result := fun _ => rfl
        call := fun f formals e => ?_
        direct := fun _ f hf => ?_ }
    · cases e
      split at hcallee
      · rename_i g hg
        obtain ⟨function, hfun, e⟩ := hcallee
        cases e
        exact ⟨hop, hg, hargs, function, hfun, rfl⟩
      · obtain ⟨r, e⟩ := hcallee
        cases e
    · rw [hf] at hcallee
      obtain ⟨function, -, rfl⟩ := hcallee
      exact ⟨_, rfl⟩
  -- calls that end a block
  case h_9 hop | h_10 hop =>
    obtain ⟨target, s₁, -, h⟩ := Pass.outcome_bind_ok.1 h
    obtain ⟨rs, s₂, -, h⟩ := Pass.outcome_bind_ok.1 h
    cases h
    exact Formed.plain (by simp) (by simp) (by simp) (by simp [hop])
  -- returns and switches
  case h_11 hop =>
    split at h
    · cases h
      exact Formed.plain (by simp) (by simp) (by simp) (by simp [hop])
    · obtain ⟨r, s₁, -, h⟩ := Pass.outcome_bind_ok.1 h
      cases h
      exact Formed.plain (by simp) (by simp) (by simp) (by simp [hop])
  case h_12 hop =>
    obtain ⟨scrutinee, s₁, -, h⟩ := Pass.outcome_bind_ok.1 h
    obtain ⟨cases', s₂, -, h⟩ := Pass.outcome_bind_ok.1 h
    obtain ⟨operand, s₃, -, h⟩ := Pass.outcome_bind_ok.1 h
    cases h
    exact Formed.plain (by simp) (by simp) (by simp) (by simp [hop])
  -- all other instructions
  case h_13 hop =>
    obtain ⟨rs, s₁, -, h⟩ := Pass.outcome_bind_ok.1 h
    cases h
    obtain ⟨hload, hstore, hcall⟩ := Action.ofPlain_ne inst
    exact Formed.plain hload hstore hcall (by assumption)

theorem keeps_form (i : InstId) (inst : Inst) (result : Option Reference) :
    Pass.Keeps Shared.Grows (form p slots i inst result) := by
  have hone (level v) := Reference.keeps_resolve p slots level v
  have hall (values) := Reference.keeps_resolveAll p slots values
  have haddressed (values) := Reference.keeps_resolveAddressed p slots values
  have hcallee := keeps_callee p slots i inst
  unfold form
  split
  case h_1 | h_2 | h_3 => exact Pass.keeps_pure _
  case h_4 => exact (Pass.keeps_lift _).bind fun v => (hone 1 v).bind fun r => Pass.keeps_pure _
  case h_5 =>
    exact (Pass.keeps_lift _).bind fun v => (Pass.keeps_lift _).bind fun a =>
      (hone 0 v).bind fun r => (hone 1 a).bind fun t => Pass.keeps_pure _
  case h_6 | h_7 => exact (haddressed _).bind fun rs => Pass.keeps_pure _
  case h_8 | h_9 | h_10 => exact hcallee.bind fun c => (hall _).bind fun rs => Pass.keeps_pure _
  case h_11 =>
    split
    · exact Pass.keeps_pure _
    · exact (hone 0 _).bind fun r => Pass.keeps_pure _
  case h_12 =>
    exact (Pass.keeps_lift _).bind fun v => (Pass.keeps_lift _).bind fun cases =>
      (hone 0 v).bind fun r => Pass.keeps_pure _
  case h_13 => exact (hall _).bind fun rs => Pass.keeps_pure _

theorem keeps_ofInst (i : InstId) : Pass.Keeps Shared.Grows (ofInst p slots i) :=
  (Pass.keeps_lift _).bind fun _ =>
    (Pass.keeps_optionMapM (Reference.keeps_resolve p slots 0) _).bind fun _ =>
      (keeps_form i _ _).bind fun _ => Pass.keeps_pure _

/-- The statement `s` says what the instruction `i`, which is `inst`, does. -/
structure Transcribes (p : Program) (i : InstId) (inst : Inst) (s : Statement) : Prop where
  source : s.source = i
  line : s.line = inst.line
  binding : s.binding = false
  ignored : s.ignored = false
  regular : s.Regular
  /-- It defines the result of the instruction. -/
  defined : s.isStore = false → s.defined? = inst.result
  /-- It calls a known function only if the instruction does, with the same arguments. -/
  call : ∀ f formals, s.action = .call (.direct f formals) → inst.opcode = .call ∧
    p.directCallee? inst = some f ∧ List.Forall₂ (Reference.IsAt 0) inst.arguments s.operands ∧
    ∃ function, p.function? f = some function ∧
      formals = if function.isDeclaration then [] else function.params
  /-- It calls a known function if the instruction does. -/
  direct : inst.opcode = .call → ∀ f, p.directCallee? inst = some f →
    ∃ formals, s.action = .call (.direct f formals)

theorem optionMapM_resolve_ok {result : Option ValueId} {written : Option Reference} {s t : Shared}
    (hs : s.Sound)
    (h : Pass.outcome (result.mapM (Reference.resolve p slots 0)) s = (.ok written, t)) :
    written.bind Reference.value = result ∧ ∀ r, written = some r → ∃ v, r.IsAt 0 v := by
  cases result with
  | none =>
    cases h
    exact ⟨rfl, fun _ e => by cases e⟩
  | some v =>
    obtain ⟨r, u, hr, h⟩ := Pass.outcome_bind_ok.1 h
    cases h
    have hat := Reference.resolve_ok p slots hs hr
    exact ⟨hat.2, fun _ e => by cases e; exact ⟨v, hat⟩⟩

theorem ofInst_ok {i : InstId} {s : Statement} {before after : Shared} (hs : before.Sound)
    (h : Pass.outcome (ofInst p slots i) before = (.ok s, after)) :
    ∃ inst, p.inst? i = some inst ∧ Transcribes p i inst s := by
  obtain ⟨inst, s₁, hfound, h⟩ := Pass.outcome_bind_ok.1 h
  obtain ⟨hinst, rfl⟩ := Pass.outcome_lift_ok.1 hfound
  obtain ⟨result, s₂, hresult, h⟩ := Pass.outcome_bind_ok.1 h
  obtain ⟨⟨action, operands, written⟩, s₃, hform, h⟩ := Pass.outcome_bind_ok.1 h
  cases h
  have hs₂ : s₂.Sound :=
    (Pass.keeps_optionMapM (Reference.keeps_resolve p slots 0) _).of_outcome hresult hs
  have hformed := form_ok hs₂ hform
  obtain ⟨hvalue, hlevel⟩ := optionMapM_resolve_ok hs hresult
  have hstore : (make action i operands written inst.line).isStore = false → action ≠ .store := by
    rintro h rfl
    cases h
  refine ⟨inst, (Program.inst_eq_ok_iff p).1 hinst, rfl, rfl, rfl, rfl, ⟨rfl, ?_, ?_, ?_⟩, ?_,
    hformed.call, hformed.direct⟩
  · intro h
    exact hformed.load (by simpa [isLoad, make] using h)
  · intro h
    exact hformed.store (by simpa [isStore, make] using h)
  · intro h r hr
    exact hlevel r ((hformed.result (hstore h)).symm.trans hr)
  · intro h
    rw [defined?, h, ← hvalue]
    exact congrArg (Option.bind · Reference.value) (hformed.result (hstore h))

end Statement

/-- The values that a statement mentions, with repetitions. -/
def Statement.mentions (s : Statement) : List ValueId := s.uses.flatMap (·.operand.mentions)

theorem Statement.mem_mentions {s : Statement} {r : Reference} (hr : r ∈ s.reads) {v : ValueId}
    (hv : r.value = some v) : v ∈ s.mentions := by
  refine List.mem_flatMap.2 ⟨r, List.mem_append_left _ hr, ?_⟩
  have hvalue : r.operand.value = some v := hv
  simp [Operand.mentions, hvalue]

end LevelIr
