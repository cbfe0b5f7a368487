import LevelIr.Operand.OfValue
import LevelIr.Proofs.Program.Operations

/-!
# Operands come before operators

A value that applies an operator is made after the values it is applied to, and its handle is the
larger one.  This stays so whatever is done to the program, as long as no operand is replaced by
hand: versioning replaces operands of loads, which apply no operator.

* `Program.AppliesTo` : a value applies an operator to operands.
* `Program.Edit.brings`, `Program.origin?_edit_cases` : the values that an edit adds.
* `Program.Ordered` : operands have smaller handles than the operators that are applied to them.
* `Program.Ordered.edit` : what an edit has to satisfy to keep it so.
* `Program.MadeBy.ordered` : it holds of every program that is made without replacing operands.
-/

namespace LevelIr

theorem Operator.ofOpcode?_eq_some_iff {opcode : Opcode} {operator : Operator} :
    ofOpcode? opcode = some operator ↔ opcode = operator.opcode := by
  constructor
  · intro h
    have hfound := List.find?_some (p := fun operator : Operator => operator.opcode == opcode) h
    exact (beq_iff_eq.1 hfound).symm
  · rintro rfl
    exact ofOpcode?_opcode operator

theorem Inst.mem_valueOperands {inst : Inst} {u : ValueId} :
    u ∈ inst.valueOperands ↔ Arg.value u ∈ inst.operands := by
  rw [Inst.valueOperands, List.mem_filterMap]
  constructor
  · rintro ⟨arg, harg, hvalue⟩
    cases arg with
    | value v =>
      cases hvalue
      exact harg
    | block b => cases hvalue
  · intro h
    exact ⟨.value u, h, rfl⟩

namespace Program

/-! ### Operators -/

/-- The value `v` applies an operator to operands: it is a constant expression, or the result of an
instruction. -/
inductive AppliesTo (p : Program) (v : ValueId) (operator : Operator) : List ValueId → Prop where
  | expression {operands : List ValueId} (h : p.origin? v = some (.expression operator operands)) :
      AppliesTo p v operator operands
  | result {i : InstId} {inst : Inst} (h : p.origin? v = some (.result i))
      (hinst : p.inst? i = some inst) (hopcode : inst.opcode = operator.opcode) :
      AppliesTo p v operator inst.valueOperands

variable {p q : Program}

/-! ### What an edit adds -/

/-- Whether an edit can add a value that comes about in some way. -/
def Edit.brings (p : Program) (origin : Origin) : Edit → Prop
  | value _ _ new => origin = new
  | global _ _ => origin = .globalVariable
  | function _ _ _ => origin = .function ⟨p.functions.size⟩ ∨
    ∃ position, origin = .argument ⟨p.functions.size⟩ position
  | last _ _ | before _ _ => origin = .result ⟨p.insts.size⟩
  | file _ _ | block _ _ | operand _ _ _ | name _ _ | metadata _ _ => False

/-- The instruction that an edit places. -/
def Edit.draft? : Edit → Option Draft
  | last _ draft | before _ draft => some draft
  | _ => none

theorem origin?_append_cases {new : Array Value} {v : ValueId} {origin : Origin}
    (hq : q.values = p.values ++ new) (h : q.origin? v = some origin) :
    p.origin? v = some origin ∨
      p.values.size ≤ v.index ∧ ∃ value ∈ new, origin = value.origin := by
  obtain ⟨value, hvalue, rfl⟩ := origin?_eq_some_iff.1 h
  rw [value?, hq] at hvalue
  by_cases hv : v.index < p.values.size
  · rw [Array.getElem?_append_left hv] at hvalue
    exact .inl (origin?_eq_some_iff.2 ⟨value, hvalue, rfl⟩)
  · rw [Array.getElem?_append_right (Nat.le_of_not_lt hv)] at hvalue
    exact .inr ⟨Nat.le_of_not_lt hv, value, Array.mem_of_getElem? hvalue, rfl⟩

theorem origin?_placed_cases {b : BlockId} {change : List InstId → List InstId} {draft : Draft}
    {v : ValueId} {origin : Origin} (h : (p.placed b change draft).origin? v = some origin) :
    p.origin? v = some origin ∨ p.values.size ≤ v.index ∧ origin = .result ⟨p.insts.size⟩ := by
  obtain ⟨value, hvalue, rfl⟩ := origin?_eq_some_iff.1 h
  rw [value?_placed] at hvalue
  split at hvalue
  · rename_i hv
    cases hvalue
    exact .inr ⟨Nat.le_of_eq hv.2.symm, rfl⟩
  · exact .inl (origin?_eq_some_iff.2 ⟨value, hvalue, rfl⟩)

/-- A value of an edited program was there before, or the edit brings it. -/
theorem origin?_edit_cases (edit : Edit) {v : ValueId} {origin : Origin}
    (h : (edit.apply p).origin? v = some origin) :
    p.origin? v = some origin ∨ p.values.size ≤ v.index ∧ edit.brings p origin := by
  cases edit with
  | value | global =>
    refine (origin?_append_cases (Array.push_eq_append ..) h).imp id (And.imp id ?_)
    rintro ⟨value, hvalue, rfl⟩
    rw [Array.mem_singleton.1 hvalue]
    rfl
  | function name result params =>
    change ((addFunction name result params).run p).2.origin? v = some origin at h
    rw [addFunction_run] at h
    refine (origin?_append_cases rfl h).imp id (And.imp id ?_)
    rintro ⟨value, hvalue, rfl⟩
    rcases Array.mem_append.1 hvalue with hvalue | hvalue
    · rw [Array.mem_singleton.1 hvalue]
      exact .inl rfl
    · obtain ⟨j, hj, rfl⟩ := List.mem_mapIdx.1 (List.mem_toArray.1 hvalue)
      exact .inr ⟨_, rfl⟩
  | file | block | metadata => exact .inl h
  | last b draft =>
    change ((placeLast b draft).run p).2.origin? v = some origin at h
    rw [placeLast_state] at h
    exact origin?_placed_cases h
  | before anchor draft =>
    change ((placeBefore anchor draft).outcome p).2.origin? v = some origin at h
    rcases placeBefore_state p anchor draft with hsame | ⟨inst, -, hplaced⟩
    · rw [hsame] at h
      exact .inl h
    · rw [hplaced] at h
      exact origin?_placed_cases h
  | operand i position new =>
    change ((replaceOperand i position new).outcome p).2.origin? v = some origin at h
    rcases replaceOperand_outcome p i position new with hsame | hsame <;> rw [hsame] at h <;>
      exact .inl h
  | name u name =>
    change (setName u name p).origin? v = some origin at h
    rw [origin?_setName] at h
    exact .inl h

/-- An instruction of an edited program was there before, with other operands at most if the edit
replaces one of them, or it is the one that the edit places. -/
def Edit.AccountsFor (p : Program) (edit : Edit) (i : InstId) (inst : Inst) : Prop :=
  (∃ old, p.inst? i = some old ∧ inst.opcode = old.opcode ∧
      (inst.operands = old.operands ∨ ∃ position new, edit = .operand i position new)) ∨
    i = ⟨p.insts.size⟩ ∧ ∃ draft, edit.draft? = some draft ∧ inst.opcode = draft.opcode ∧
      inst.operands = draft.operands

section AccountsFor

variable {edit : Edit} {i : InstId} {inst : Inst}

theorem accountsFor_of_insts (hq : q.insts = p.insts) (h : q.inst? i = some inst) :
    edit.AccountsFor p i inst := by
  rw [inst?, hq] at h
  exact .inl ⟨inst, h, rfl, .inl rfl⟩

theorem accountsFor_of_placed {b : BlockId} {change : List InstId → List InstId} {draft : Draft}
    (hdraft : edit.draft? = some draft) (h : (p.placed b change draft).inst? i = some inst) :
    edit.AccountsFor p i inst := by
  rcases inst?_placed_cases h with ⟨hi, rfl⟩ | h
  · exact .inr ⟨hi, draft, hdraft, rfl, rfl⟩
  · exact .inl ⟨inst, h, rfl, .inl rfl⟩

theorem accountsFor_of_modify {j : InstId} {change : Inst → Inst}
    (h : ({ p with insts := p.insts.modify j.index change } : Program).inst? i = some inst)
    (hopcode : ∀ inst, (change inst).opcode = inst.opcode)
    (hoperands : (∀ inst, (change inst).operands = inst.operands) ∨
      ∃ position new, edit = .operand j position new) : edit.AccountsFor p i inst := by
  rw [inst?, Array.getElem?_modify] at h
  split at h
  · rename_i hj
    obtain rfl : j = i := congrArg InstId.mk hj
    obtain ⟨old, hold, rfl⟩ := Option.map_eq_some_iff.1 h
    exact .inl ⟨old, hold, hopcode old, hoperands.imp (fun heq => heq old) id⟩
  · exact .inl ⟨inst, h, rfl, .inl rfl⟩

theorem accountsFor_edit (edit : Edit) (h : (edit.apply p).inst? i = some inst) :
    edit.AccountsFor p i inst := by
  cases edit with
  | value | global | file | block | name => exact accountsFor_of_insts rfl h
  | function name result params =>
    change ((addFunction name result params).run p).2.inst? i = some inst at h
    rw [addFunction_run] at h
    exact accountsFor_of_insts rfl h
  | last b draft =>
    change ((placeLast b draft).run p).2.inst? i = some inst at h
    rw [placeLast_state] at h
    exact accountsFor_of_placed rfl h
  | before anchor draft =>
    change ((placeBefore anchor draft).outcome p).2.inst? i = some inst at h
    rcases placeBefore_state p anchor draft with hstate | ⟨_, -, hstate⟩ <;> rw [hstate] at h
    · exact accountsFor_of_insts rfl h
    · exact accountsFor_of_placed rfl h
  | operand j position new =>
    change ((replaceOperand j position new).outcome p).2.inst? i = some inst at h
    rcases replaceOperand_outcome p j position new with hstate | hstate <;> rw [hstate] at h
    · exact accountsFor_of_insts rfl h
    · exact accountsFor_of_modify h (fun _ => rfl) (.inr ⟨position, new, rfl⟩)
  | metadata j flag => exact accountsFor_of_modify (j := j) h (fun _ => rfl) (.inl fun _ => rfl)

end AccountsFor

/-! ### Order -/

/-- Operands have smaller handles than the values that apply operators to them. -/
def Ordered (p : Program) : Prop :=
  ∀ v operator operands, p.AppliesTo v operator operands → ∀ u ∈ operands, u.index < v.index

/-- An edit applies operators only to values that are there, and replaces operands of loads only. -/
def Edit.keepsOrder (p : Program) : Edit → Prop
  | value _ _ origin => origin.isAttached = false ∧ ∀ operator operands,
    origin = .expression operator operands → ∀ u ∈ operands, u.index < p.values.size
  | last _ draft | before _ draft => ∀ operator : Operator, draft.opcode = operator.opcode →
    ∀ u, Arg.value u ∈ draft.operands → u.index < p.values.size
  | operand i _ _ => p.isLoad i = true
  | _ => True

/-- A load applies no operator. -/
theorem not_isLoad {i : InstId} {inst : Inst} (hinst : p.inst? i = some inst) {operator : Operator}
    (hopcode : inst.opcode = operator.opcode) : p.isLoad i ≠ true := by
  intro hload
  obtain ⟨_, hsame, hload⟩ := isLoad_iff.1 hload
  rw [hinst] at hsame
  cases hsame
  rw [hload] at hopcode
  cases operator <;> cases hopcode

/-- Of the edits that bring values, two bring results, and place the instruction. -/
theorem Edit.draft_of_brings {edit : Edit} (h : edit.keepsOrder p) {i : InstId}
    (hnew : edit.brings p (.result i)) : i = ⟨p.insts.size⟩ ∧ ∀ draft, edit.draft? = some draft →
      ∀ operator : Operator, draft.opcode = operator.opcode →
        ∀ u, Arg.value u ∈ draft.operands → u.index < p.values.size := by
  cases edit with
  | value type name new =>
    obtain rfl : new = .result i := hnew.symm
    exact absurd h.1 (by simp [Origin.isAttached])
  | last | before =>
    cases hnew
    refine ⟨rfl, fun draft hdraft => ?_⟩
    cases hdraft
    exact h
  | global | file | block | operand | name | metadata => cases hnew
  | function => rcases hnew with hnew | ⟨_, hnew⟩ <;> cases hnew

/-- A value that applies an operator did so before, or it is new and its operands are not. -/
theorem AppliesTo.edit_cases (hp : p.Coherent) {edit : Edit} (h : edit.keepsOrder p) {v : ValueId}
    {operator : Operator} {operands : List ValueId}
    (happlies : (edit.apply p).AppliesTo v operator operands) :
    p.AppliesTo v operator operands ∨
      p.values.size ≤ v.index ∧ ∀ u ∈ operands, u.index < p.values.size := by
  cases happlies with
  | expression horigin =>
    refine (origin?_edit_cases edit horigin).imp .expression fun ⟨hv, hnew⟩ => ⟨hv, ?_⟩
    -- of the edits that bring values, only one brings expressions
    cases edit with
    | value type name new => exact h.2 operator operands hnew.symm
    | global | last | before | file | block | operand | name | metadata => cases hnew
    | function => rcases hnew with hnew | ⟨_, hnew⟩ <;> cases hnew
  | @result i inst horigin hinst hopcode =>
    rcases origin?_edit_cases edit horigin with hold | ⟨hv, hnew⟩
    · obtain ⟨old, hinst', -⟩ := (hp.result_iff i v).2 hold
      rcases accountsFor_edit edit hinst with ⟨_, hsame, hcode, hkept⟩ | ⟨rfl, -⟩
      · rw [hinst'] at hsame
        cases hsame
        rcases hkept with hkept | ⟨position, new, rfl⟩
        · rw [Inst.valueOperands, hkept]
          exact .inl (.result hold hinst' (hcode.symm.trans hopcode))
        · exact absurd h (not_isLoad hinst' (hcode.symm.trans hopcode))
      · exact absurd (index_lt_of_inst? hinst') (Nat.lt_irrefl _)
    · obtain ⟨rfl, hdraft⟩ := edit.draft_of_brings h hnew
      rcases accountsFor_edit edit hinst with ⟨_, hold, -⟩ | ⟨-, draft, hplaced, hcode, hoperands⟩
      · exact absurd (index_lt_of_inst? hold) (Nat.lt_irrefl _)
      · refine .inr ⟨hv, fun u hu => hdraft draft hplaced operator (hcode.symm.trans hopcode) u ?_⟩
        rwa [Inst.mem_valueOperands, hoperands] at hu

theorem Ordered.edit (hp : p.Ordered) (hc : p.Coherent) (edit : Edit) (h : edit.keepsOrder p) :
    (edit.apply p).Ordered := by
  intro v operator operands happlies u hu
  rcases happlies.edit_cases hc h with hold | ⟨hv, hoperands⟩
  · exact hp v operator operands hold u hu
  · exact Nat.lt_of_lt_of_le (hoperands u hu) hv

/-- An edit that fits and replaces no operand. -/
theorem Edit.keepsOrder_of_fits {edit : Edit} (hfits : edit.fits p = true)
    (hkeeps : edit.replaces = false) : edit.keepsOrder p := by
  rw [fits, Bool.and_eq_true, List.all_eq_true] at hfits
  obtain ⟨happlies, hhas⟩ := hfits
  cases edit with
  | value type name origin =>
    refine ⟨by simpa [applies] using happlies, ?_⟩
    rintro operator operands rfl u hu
    exact index_lt_of_has (hhas _ (List.mem_map_of_mem hu))
  | last b draft | before anchor draft =>
    intro operator _ u hu
    exact index_lt_of_has (hhas _ (List.mem_cons_of_mem _ (List.mem_map_of_mem hu)))
  | operand i position new => cases hkeeps
  | _ => trivial

theorem Ordered.of_nameless (h : q.nameless = p.nameless) (hp : p.Ordered) : q.Ordered := by
  intro v operator operands happlies
  refine hp v operator operands ?_
  cases happlies with
  | expression horigin => exact .expression ((origin_of_nameless h v).symm.trans horigin)
  | result horigin hinst hopcode =>
    exact .result ((origin_of_nameless h v).symm.trans horigin)
      ((inst?_of_nameless h _).symm.trans hinst) hopcode

end Program

/-- What versioning places are no operators, and it replaces operands of loads only. -/
theorem Versioning.keptByEdits_ordered : KeptByEdits fun p => p.Coherent ∧ p.Ordered where
  placed anchor draft p hopcode hp := by
    refine ⟨hp.1.placeBefore anchor draft, hp.2.edit hp.1 (.before anchor draft) ?_⟩
    intro operator hoperator
    rw [hoperator] at hopcode
    cases operator <;> simp [Operator.opcode] at hopcode
  replaced i operand p hload hp :=
    ⟨hp.1.replaceOperand i 0 operand, hp.2.edit hp.1 (.operand i 0 operand) hload⟩

namespace Program

variable {p : Program}

theorem ordered_empty (name : String) : Ordered { name } := by
  intro v operator operands happlies
  have hnone : ({ name } : Program).origin? v = none := by simp [origin?, value?]
  cases happlies with
  | expression horigin => cases hnone.symm.trans horigin
  | result horigin => cases hnone.symm.trans horigin

theorem keptByOperations_ordered :
    KeptByOperations (fun operation => operation.replaces = false) Ordered where
  edit _ edit hfits hallowed hc hp := by
    refine hp.edit hc edit (edit.keepsOrder_of_fits hfits ?_)
    cases hreplaces : edit.replaces with
    | false => rfl
    | true => exact hreplaces.symm.trans (hallowed hreplaces)
  versioning := Versioning.keptByEdits_ordered
  names _ _ h hp := hp.of_nameless h

/-- **Operands come before operators in a program that is made without replacing operands.** -/
theorem MadeBy.ordered (h : p.MadeBy fun operation => operation.replaces = false) : p.Ordered :=
  keptByOperations_ordered.madeBy ordered_empty h

end Program

end LevelIr
