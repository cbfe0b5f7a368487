import LevelIr.Proofs.Program.Coherent
import LevelIr.Slot.Versioning

/-!
# Which faults can arise

Most of what is looked up fails only if it is not there, or if the program breaks a rule of its
instruction set.  That a value cannot be an operand or a subscript is found in one place, where
operands are classified; all other faults are *ordinary*.

* `Fault.ordinary`, `Ordinary` : faults, and answers without a fault of another kind.
* `Ordinary.bind` : a sequence has ordinary faults if its parts do.
* `Program.Explains` : the reason for a fault that is not ordinary, in the program that it arises
  in.
* `Operand.explains_of_ofValue`, `Operand.explains_of_supported` : every value that cannot be
  classified gives such a reason, if the registers have names.
-/

namespace LevelIr

/-- Whether a fault has nothing to do with values that cannot be operands or subscripts. -/
def Fault.ordinary : Fault → Bool
  | unsupportedOperand _ _ | unsupportedIndex _ _ _ => false
  | _ => true

/-- The answer is no fault, or an ordinary one. -/
def Ordinary {α : Type} (answer : Except Fault α) : Prop :=
  ∀ fault, answer = .error fault → fault.ordinary = true

section Ordinary

variable {α β : Type}

theorem ordinary_ok (a : α) : Ordinary (.ok a) := nofun

theorem ordinary_error {fault : Fault} (h : fault.ordinary = true) :
    Ordinary (.error fault : Except Fault α) := by
  rintro _ ⟨⟩
  exact h

theorem Pass.bind_eq_error {answer : Except Fault α} {next : α → Except Fault β} {fault : Fault} :
    answer >>= next = .error fault ↔
      answer = .error fault ∨ ∃ a, answer = .ok a ∧ next a = .error fault := by
  cases answer <;> simp [bind, Except.bind]

theorem Ordinary.bind {answer : Except Fault α} {next : α → Except Fault β} (h : Ordinary answer)
    (hnext : ∀ a, Ordinary (next a)) : Ordinary (answer >>= next) := by
  intro fault hfault
  rcases Pass.bind_eq_error.1 hfault with hfirst | ⟨a, -, hsecond⟩
  · exact h fault hfirst
  · exact hnext a fault hsecond

/-- A run over a list fails with one of its elements. -/
theorem Pass.exists_of_mapM_eq_error {f : α → Except Fault β} {xs : List α} {fault : Fault}
    (h : xs.mapM f = .error fault) : ∃ x ∈ xs, f x = .error fault := by
  induction xs with
  | nil => cases h
  | cons x xs ih =>
    rw [List.mapM_cons] at h
    rcases bind_eq_error.1 h with hx | ⟨b, -, h⟩
    · exact ⟨x, List.mem_cons_self, hx⟩
    rcases bind_eq_error.1 h with hxs | ⟨bs, -, h⟩
    · obtain ⟨y, hy, hfault⟩ := ih hxs
      exact ⟨y, List.mem_cons_of_mem x hy, hfault⟩
    · cases h

/-- A run over a list that ends well does so for each element. -/
theorem Pass.mapM_eq_ok {f : α → Except Fault β} {xs : List α} {ys : List β}
    (h : xs.mapM f = .ok ys) :
    (∀ x ∈ xs, ∃ y, f x = .ok y) ∧ ∀ y ∈ ys, ∃ x ∈ xs, f x = .ok y := by
  induction xs generalizing ys with
  | nil =>
    cases h
    exact ⟨List.forall_mem_nil _, List.forall_mem_nil _⟩
  | cons x xs ih =>
    rw [List.mapM_cons] at h
    obtain ⟨y, hx, h⟩ := bind_eq_ok.1 h
    obtain ⟨rest, hrest, h⟩ := bind_eq_ok.1 h
    cases h
    obtain ⟨hxs, hys⟩ := ih hrest
    refine ⟨List.forall_mem_cons.2 ⟨⟨y, hx⟩, hxs⟩, List.forall_mem_cons.2 ⟨?_, fun z hz => ?_⟩⟩
    · exact ⟨x, List.mem_cons_self, hx⟩
    · obtain ⟨w, hw, hz⟩ := hys z hz
      exact ⟨w, List.mem_cons_of_mem x hw, hz⟩

theorem Pass.exists_mapM_eq_ok {f : α → Except Fault β} {xs : List α}
    (h : ∀ x ∈ xs, ∃ y, f x = .ok y) : ∃ ys, xs.mapM f = .ok ys := by
  cases hrun : xs.mapM f with
  | ok ys => exact ⟨ys, rfl⟩
  | error fault =>
    obtain ⟨x, hx, hfault⟩ := exists_of_mapM_eq_error hrun
    obtain ⟨y, hy⟩ := h x hx
    cases hy.symm.trans hfault

end Ordinary

/-! ### Look-ups -/

namespace Program

variable (p : Program)

theorem ordinary_found {α : Type} (entry : Option α) : Ordinary (found entry) := by
  cases entry with
  | none => exact ordinary_error rfl
  | some entry => exact ordinary_ok entry

theorem ordinary_value (v : ValueId) : Ordinary (p.value v) := ordinary_found _

theorem ordinary_inst (i : InstId) : Ordinary (p.inst i) := ordinary_found _

theorem ordinary_block (b : BlockId) : Ordinary (p.block b) := ordinary_found _

theorem ordinary_function (f : FunctionId) : Ordinary (p.function f) := ordinary_found _

theorem ordinary_functionOf (i : InstId) : Ordinary (p.functionOf i) :=
  (p.ordinary_inst i).bind fun inst => (p.ordinary_block inst.block).bind fun _ => ordinary_ok _

theorem ordinary_label (v : ValueId) : Ordinary (p.label v) :=
  (p.ordinary_value v).bind fun _ => ordinary_ok _

theorem ordinary_isMemory (value : Value) : Ordinary (p.isMemory value) := by
  unfold isMemory
  split
  · exact ordinary_ok _
  · exact (p.ordinary_inst _).bind fun _ => ordinary_ok _
  · exact ordinary_ok _

theorem ordinary_operator? (value : Value) : Ordinary (p.operator? value) := by
  unfold operator?
  split
  · exact ordinary_ok _
  · exact (p.ordinary_inst _).bind fun _ => ordinary_ok _
  · exact ordinary_ok _

end Program

theorem Names.ordinary_assign (names : Names) (p : Program) (v : ValueId) :
    Ordinary (names.assign p v) := by
  refine (p.ordinary_value v).bind fun value => ?_
  split
  · exact ordinary_ok _
  split
  · exact (p.ordinary_function _).bind fun _ => ordinary_ok _
  · split
    · exact ordinary_ok _
    · exact (p.ordinary_functionOf _).bind fun f => (p.ordinary_function f).bind fun _ =>
        ordinary_ok _
  · exact ordinary_ok _

namespace Statement

theorem ordinary_valueOperand (i : InstId) (inst : Inst) (position : Nat) :
    Ordinary (valueOperand i inst position) := by
  unfold valueOperand
  split
  · exact ordinary_ok _
  · exact ordinary_error rfl

theorem ordinary_switchCases (p : Program) (i : InstId) (args : List Arg) :
    Ordinary (switchCases p i args) := by
  induction args using switchCases.induct with
  | case1 => exact ordinary_ok _
  | case2 v b rest ih =>
    rw [switchCases]
    refine (p.ordinary_value v).bind fun value => ?_
    split
    · exact ih.bind fun _ => ordinary_ok _
    · exact ordinary_error rfl
  | case3 args hnil hpair =>
    rw [switchCases]
    · exact ordinary_error rfl
    all_goals assumption

end Statement

theorem Versioning.ordinary_storage? (p : Program) (slots : Slots) (inst : Inst) :
    Ordinary (storage? p slots inst) := by
  unfold storage?
  split
  · exact ordinary_ok _
  · exact (p.ordinary_value _).bind fun value => (p.ordinary_isMemory value).bind fun _ =>
      ordinary_ok _

/-! ### Operands that cannot be classified -/

/-- The program has a reason for the fault, if it is none of the ordinary ones: a value that cannot
be an operand is a metadata node or a piece of inline assembly without a name, and a subscript that
is neither an integer constant nor a named register is one of a constant element address without a
name. -/
def Program.Explains (p : Program) : Fault → Prop
  | .unsupportedOperand v type => ∃ value, p.value? v = some value ∧ value.isNamed = false ∧
      value.type = type ∧ (value.origin = .metadata ∨ value.origin = .inlineAsm)
  | .unsupportedIndex address index type => ∃ value base indices subscript,
      p.value? address = some value ∧ value.isNamed = false ∧
      value.origin = .expression .getElementPtr (base :: indices) ∧ index ∈ indices ∧
      p.value? index = some subscript ∧ subscript.type = type ∧
      subscript.origin.isInteger = false ∧
      (subscript.origin.isConstant = true ∨ subscript.isNamed = false)
  | _ => True

/-- If the value is a register, then it has a name. -/
def Program.RegisterNamed (p : Program) (v : ValueId) : Prop :=
  ∀ value, p.value? v = some value → value.origin.isAttached = true → value.isNamed = true

theorem Program.explains_of_ordinary (p : Program) {fault : Fault} (h : fault.ordinary = true) :
    p.Explains fault := by
  cases fault with
  | unsupportedOperand | unsupportedIndex => cases h
  | _ => trivial

namespace Operand

variable {p : Program} {v : ValueId} {fault : Fault}

/-- Only an element address without a name is classified as one. -/
theorem Kind.eq_of_ofValue_eq_element {value : Value}
    {operator : Option (Operator × List ValueId)} (h : Kind.ofValue value operator = .element) :
    value.isNamed = false ∧ (∃ operands, operator = some (.getElementPtr, operands)) := by
  unfold Kind.ofValue at h
  cases hnamed : value.isNamed with
  | true =>
    rw [hnamed] at h
    cases h
  | false =>
    rw [hnamed, if_neg Bool.false_ne_true] at h
    refine ⟨rfl, ?_⟩
    cases operator with
    | none =>
      simp only at h
      cases horigin : value.origin <;> simp [horigin, Kind.ofOrigin] at h
    | some applied =>
      obtain ⟨operator, operands⟩ := applied
      simp only at h
      cases operator <;> simp [Kind.ofOperator] at h ⊢

/-- A value that applies no operator and has no name is unsupported if it is a register, a metadata
node or a piece of inline assembly. -/
theorem Kind.eq_of_ofValue_eq_unsupported {value : Value}
    {operator : Option (Operator × List ValueId)} (h : Kind.ofValue value operator = .unsupported) :
    value.isNamed = false ∧ operator = none ∧ Kind.ofOrigin value.origin = .unsupported := by
  unfold Kind.ofValue at h
  cases hnamed : value.isNamed with
  | true =>
    rw [hnamed] at h
    cases h
  | false =>
    rw [hnamed, if_neg Bool.false_ne_true] at h
    cases operator with
    | none => exact ⟨rfl, rfl, h⟩
    | some applied =>
      obtain ⟨operator, operands⟩ := applied
      cases operator <;> cases h

theorem explains_of_subscript {address index base : ValueId} {value : Value}
    {indices : List ValueId} (hvalue : p.value? address = some value)
    (hnamed : value.isNamed = false)
    (horigin : value.origin = .expression .getElementPtr (base :: indices))
    (hindex : index ∈ indices) (h : subscript p address index = .error fault) :
    p.Explains fault := by
  unfold subscript at h
  rcases Pass.bind_eq_error.1 h with hlookup | ⟨entry, hentry, h⟩
  · exact p.explains_of_ordinary (p.ordinary_value index fault hlookup)
  split at h
  · rcases Pass.bind_eq_error.1 h with hmemory | ⟨_, -, h⟩
    · exact p.explains_of_ordinary (p.ordinary_isMemory entry fault hmemory)
    · cases h
  · rename_i hunfit
    cases h
    refine ⟨value, base, indices, entry, hvalue, hnamed, horigin, hindex,
      (Program.value_eq_ok_iff p).1 hentry, rfl, ?_⟩
    cases hinteger : entry.origin.isInteger <;> cases hconstant : entry.origin.isConstant <;>
      cases hname : entry.isNamed <;> simp_all

/-- A value that cannot be classified is a constant element address with an unfit subscript. -/
theorem explains_of_ofValue (hv : p.RegisterNamed v) (h : ofValue p v = .error fault) :
    p.Explains fault := by
  unfold ofValue at h
  rcases Pass.bind_eq_error.1 h with hlookup | ⟨value, hvalue, h⟩
  · exact p.explains_of_ordinary (p.ordinary_value v fault hlookup)
  rw [Program.value_eq_ok_iff] at hvalue
  rcases Pass.bind_eq_error.1 h with hfault | ⟨operator, hoperator, h⟩
  · exact p.explains_of_ordinary (p.ordinary_operator? value fault hfault)
  rcases Pass.bind_eq_error.1 h with haddress | ⟨address, -, h⟩
  · unfold address? at haddress
    split at haddress
    · rename_i operands hkind
      obtain ⟨hunnamed, operands', happlied⟩ := Kind.eq_of_ofValue_eq_element hkind
      cases happlied
      have horigin : value.origin = .expression .getElementPtr operands := by
        unfold Program.operator? at hoperator
        split at hoperator
        · rename_i horigin
          cases hoperator
          exact horigin
        · -- a result would have a name
          rename_i i horigin
          rw [hv value hvalue (by rw [horigin]; rfl)] at hunnamed
          cases hunnamed
        · cases hoperator
      cases operands with
      | nil =>
        cases haddress
        trivial
      | cons base indices =>
        cases hsubscripts : indices.mapM (subscript p v) with
        | ok subscripts =>
          rw [elementAddress, hsubscripts] at haddress
          cases haddress
        | error other =>
          rw [elementAddress, hsubscripts] at haddress
          cases haddress
          obtain ⟨index, hindex, hfault⟩ := Pass.exists_of_mapM_eq_error hsubscripts
          exact explains_of_subscript hvalue hunnamed horigin hindex hfault
    · cases haddress
  · rcases Pass.bind_eq_error.1 h with hmemory | ⟨_, -, h⟩
    · exact p.explains_of_ordinary (p.ordinary_isMemory value fault hmemory)
    · cases h

/-- What an operand says of its value. -/
theorem exists_of_ofValue {operand : Operand} (h : ofValue p v = .ok operand) :
    ∃ value operator, p.value? v = some value ∧ p.operator? value = .ok operator ∧
      operand.value = some v ∧ operand.kind = Kind.ofValue value operator ∧
      operand.named = value.isNamed := by
  unfold ofValue at h
  obtain ⟨value, hvalue, h⟩ := Pass.bind_eq_ok.1 h
  obtain ⟨operator, hoperator, h⟩ := Pass.bind_eq_ok.1 h
  obtain ⟨address, -, h⟩ := Pass.bind_eq_ok.1 h
  obtain ⟨memory, -, h⟩ := Pass.bind_eq_ok.1 h
  cases h
  exact ⟨value, operator, (Program.value_eq_ok_iff p).1 hvalue, hoperator, rfl, rfl, rfl⟩

/-- A value that cannot be an operand is a metadata node or a piece of inline assembly, or it cannot
be classified at all. -/
theorem explains_of_supported (hv : p.RegisterNamed v) (h : supported p v = .error fault) :
    p.Explains fault := by
  unfold supported at h
  rcases Pass.bind_eq_error.1 h with hlookup | ⟨value, hvalue, h⟩
  · exact p.explains_of_ordinary (p.ordinary_value v fault hlookup)
  rw [Program.value_eq_ok_iff] at hvalue
  rcases Pass.bind_eq_error.1 h with hof | ⟨operand, hof, h⟩
  · exact explains_of_ofValue hv hof
  split at h
  · rename_i hkind
    cases h
    obtain ⟨found, operator, hfound, hoperator, -, hof, -⟩ := exists_of_ofValue hof
    obtain rfl : value = found := Option.some.inj (hvalue.symm.trans hfound)
    obtain ⟨hunnamed, rfl, hunsupported⟩ := Kind.eq_of_ofValue_eq_unsupported (hof.symm.trans hkind)
    -- of the origins that are unsupported, registers are ruled out by their names
    have hfree : value.origin.isAttached ≠ true := fun hregister => by
      rw [hv value hvalue hregister] at hunnamed
      cases hunnamed
    refine ⟨value, hvalue, hunnamed, rfl, ?_⟩
    unfold Program.operator? at hoperator
    cases horigin : value.origin with
    | metadata => exact .inl rfl
    | inlineAsm => exact .inr rfl
    | expression operator operands =>
      rw [horigin] at hoperator
      cases hoperator
    | argument | result => exact absurd (by rw [horigin]; rfl) hfree
    | _ =>
      rw [horigin] at hunsupported
      cases hunsupported
  · cases h

end Operand

end LevelIr
