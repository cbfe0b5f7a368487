import LevelIr.Operand.Text
import LevelIr.Proofs.Program.Order
import LevelIr.Proofs.Statement.Uses

/-!
# Which values have a text

The text of a value is made of the texts of other values, so that it is not plain to see for which
values there is one, nor that writing comes to an end.  It does if the operands of each operator
without a name have smaller handles than the operator: there are no circles then, and whether a
value has a text follows from its shape and from that of its operands.

* `Program.Printable` : the values that have a text, by their shape.
* `Program.Founded` : the operands of operators without a name have smaller handles.
* `Program.Linked` : what values refer to is there, which holds of every program that operations
  make.
* `Operand.exists_valueText_of_printable`, `Operand.answers_valueText` : the two directions, by
  induction on the depth.
* `Operand.text_ok_iff` : exactly the printable values have a text.
* `Operand.text_unbounded` : writing ends in a program that is made without replacing operands.
-/

namespace LevelIr

/-- Whether a fault says that an operand does not fit the value it was made for, or that it is
written in terms of itself. -/
def Fault.isMismatch : Fault → Bool
  | defect (.notOperator _) | defect (.notInteger _) | defect (.notFloat _)
  | defect (.notBlockAddress _) | cyclicOperand _ => true
  | _ => false

/-! ### Shapes of values -/

/-- Whether a value without a name is written by what it is. -/
def Origin.isPlain : Origin → Bool
  | integer _ | float _ | null | undefined | blockAddress _ _ | globalVariable | function _ => true
  | _ => false

namespace Program

variable {p q : Program}

/-- The value can be a subscript: it is an integer constant, or has a name and is no constant. -/
def IsSubscript (p : Program) (v : ValueId) : Prop :=
  ∃ value, p.value? v = some value ∧
    (value.origin.isInteger = true ∨ value.origin.isConstant = false ∧ value.isNamed = true)

/-- The values that have a text. -/
inductive Printable (p : Program) : ValueId → Prop where
  /-- A value with a name. -/
  | named {v : ValueId} (h : p.isNamed v = true) : Printable p v
  /-- A constant that is written by what it is. -/
  | plain {v : ValueId} {origin : Origin} (hunnamed : p.isNamed v = false)
      (h : p.origin? v = some origin) (hplain : origin.isPlain = true) : Printable p v
  /-- An operator that is applied to values that have a text. -/
  | operator {v : ValueId} {operator : Operator} {operands : List ValueId}
      (hunnamed : p.isNamed v = false) (h : p.AppliesTo v operator operands)
      (helement : operator ≠ .getElementPtr) (hoperands : ∀ u ∈ operands, Printable p u) :
      Printable p v
  /-- The address of an element, if the base has a text and the indices can be subscripts. -/
  | element {v base : ValueId} {indices : List ValueId} (hunnamed : p.isNamed v = false)
      (h : p.AppliesTo v .getElementPtr (base :: indices)) (hbase : Printable p base)
      (hindices : ∀ index ∈ indices, p.IsSubscript index) : Printable p v

theorem AppliesTo.exists_value {v : ValueId} {operator : Operator} {operands : List ValueId}
    (h : p.AppliesTo v operator operands) : ∃ value, p.value? v = some value := by
  cases h with
  | expression horigin => exact (origin?_eq_some_iff.1 horigin).imp fun _ => And.left
  | result horigin => exact (origin?_eq_some_iff.1 horigin).imp fun _ => And.left

theorem not_appliesTo_of_isPlain {v : ValueId} {origin : Origin} (h : p.origin? v = some origin)
    (hplain : origin.isPlain = true) (operator : Operator) (operands : List ValueId) :
    ¬p.AppliesTo v operator operands := by
  intro happlies
  cases happlies with
  | expression horigin =>
    cases h.symm.trans horigin
    cases hplain
  | result horigin =>
    cases h.symm.trans horigin
    cases hplain

/-- The operands of operators without a name have smaller handles than these. -/
def Founded (p : Program) : Prop :=
  ∀ v operator operands, p.isNamed v = false → p.AppliesTo v operator operands →
    ∀ u ∈ operands, u.index < v.index

theorem Ordered.founded (h : p.Ordered) : p.Founded :=
  fun v operator operands _ happlies => h v operator operands happlies

theorem isNamed_of_value? {v : ValueId} {value : Value} (h : p.value? v = some value) :
    p.isNamed v = value.isNamed := by
  rw [isNamed, h]
  rfl

theorem label_eq {v : ValueId} {value : Value} (h : p.value? v = some value) :
    p.label v = .ok (value.name?.getD v.text) := by
  rw [label, (value_eq_ok_iff p).2 h]
  rfl

/-! ### Values that refer to other parts -/

theorem has_block_edit (edit : Edit) {b : BlockId} (h : p.has (.block b) = true) :
    (edit.apply p).has (.block b) = true := by
  have hplaced {c : BlockId} {change : List InstId → List InstId} {draft : Draft} :
      (p.placed c change draft).has (.block b) = true := by
    rw [has, block?_placed]
    split
    · rw [Option.isSome_map]
      exact h
    · exact h
  cases edit with
  | value | global | file | name | metadata => exact h
  | function name result params =>
    change ((addFunction name result params).run p).2.has (.block b) = true
    rw [addFunction_run]
    exact h
  | block f name =>
    obtain ⟨block, hblock⟩ := Option.isSome_iff_exists.1 h
    exact Option.isSome_iff_exists.2 ⟨block, block?_addBlock_of_some hblock⟩
  | last c draft =>
    change ((placeLast c draft).run p).2.has (.block b) = true
    rw [placeLast_state]
    exact hplaced
  | before anchor draft =>
    change ((placeBefore anchor draft).outcome p).2.has (.block b) = true
    rcases placeBefore_state p anchor draft with hstate | ⟨_, -, hstate⟩ <;> rw [hstate]
    · exact h
    · exact hplaced
  | operand i position new =>
    change ((replaceOperand i position new).outcome p).2.has (.block b) = true
    rcases replaceOperand_outcome p i position new with hstate | hstate <;> rw [hstate] <;> exact h

/-- The blocks whose addresses are values are there. -/
def AddressesBlocks (p : Program) : Prop :=
  ∀ v f b, p.origin? v = some (.blockAddress f b) → p.has (.block b) = true

theorem AddressesBlocks.edit (hp : p.AddressesBlocks) (edit : Edit)
    (h : ∀ f b, edit.brings p (.blockAddress f b) → p.has (.block b) = true) :
    (edit.apply p).AddressesBlocks := by
  intro v f b horigin
  refine has_block_edit edit ?_
  rcases origin?_edit_cases edit horigin with hold | ⟨-, hnew⟩
  · exact hp v f b hold
  · exact h f b hnew

end Program

/-- Versioning adds no addresses of blocks. -/
theorem Versioning.keptByEdits_addressesBlocks :
    KeptByEdits fun p => p.Coherent ∧ p.AddressesBlocks where
  placed anchor draft p _ hp := by
    refine ⟨hp.1.placeBefore anchor draft, hp.2.edit (.before anchor draft) fun _ _ hnew => ?_⟩
    cases hnew
  replaced i operand p _ hp := by
    refine ⟨hp.1.replaceOperand i 0 operand, hp.2.edit (.operand i 0 operand) fun _ _ hnew => ?_⟩
    cases hnew

namespace Program

variable {p : Program}

theorem keptByOperations_addressesBlocks : KeptByOperations (fun _ => True) AddressesBlocks where
  edit p edit hfits _ _ hp := by
    refine hp.edit edit fun f b hnew => ?_
    rw [Edit.fits, Bool.and_eq_true, List.all_eq_true] at hfits
    cases edit with
    | value type name origin =>
      cases hnew
      exact hfits.2 _ (by simp [Edit.handles, Origin.handles])
    | function => rcases hnew with hnew | ⟨_, hnew⟩ <;> cases hnew
    | _ => cases hnew
  versioning := Versioning.keptByEdits_addressesBlocks
  names p q h hp := by
    intro v f b horigin
    rw [has, block?_of_nameless h]
    exact hp v f b ((origin_of_nameless h v).symm.trans horigin)

theorem addressesBlocks_empty (name : String) : AddressesBlocks { name } := by
  intro v f b horigin
  simp [origin?, value?] at horigin

/-- The instructions and the blocks that values come from are there. -/
structure Linked (p : Program) : Prop where
  result : ∀ v i, p.origin? v = some (.result i) → ∃ inst, p.inst? i = some inst
  block : p.AddressesBlocks

theorem Made.linked (h : p.Made) : p.Linked where
  result v i horigin := by
    obtain ⟨inst, hinst, -⟩ := (h.assembled.coherent.result_iff i v).2 horigin
    exact ⟨inst, hinst⟩
  block := keptByOperations_addressesBlocks.madeBy addressesBlocks_empty h

/-- A value of a linked program applies an operator or does not, but this is never unknown. -/
theorem Linked.operator? (h : p.Linked) {v : ValueId} {value : Value}
    (hv : p.value? v = some value) : ∃ operator, p.operator? value = .ok operator ∧
      ∀ name operands, operator = some (name, operands) ↔ p.AppliesTo v name operands := by
  have horigin : p.origin? v = some value.origin := origin?_eq_some_iff.2 ⟨value, hv, rfl⟩
  unfold Program.operator?
  cases hvalue : value.origin with
  | expression name operands =>
    refine ⟨_, rfl, fun name' operands' => ?_⟩
    rw [hvalue] at horigin
    constructor
    · intro heq
      cases heq
      exact .expression horigin
    · intro happlies
      cases happlies with
      | expression h =>
        cases horigin.symm.trans h
        rfl
      | result h => cases horigin.symm.trans h
  | result i =>
    rw [hvalue] at horigin
    obtain ⟨inst, hinst⟩ := h.result v i horigin
    dsimp only
    rw [(inst_eq_ok_iff p).2 hinst]
    refine ⟨_, rfl, fun name operands => ?_⟩
    rw [Option.map_eq_some_iff]
    constructor
    · rintro ⟨operator, hoperator, heq⟩
      cases heq
      exact .result horigin hinst (Operator.ofOpcode?_eq_some_iff.1 hoperator)
    · intro happlies
      cases happlies with
      | expression h => cases horigin.symm.trans h
      | result h hinst' hopcode =>
        cases horigin.symm.trans h
        cases hinst.symm.trans hinst'
        exact ⟨name, Operator.ofOpcode?_eq_some_iff.2 hopcode, rfl⟩
  | _ =>
    refine ⟨none, rfl, fun name operands => ⟨fun heq => (by cases heq), fun happlies => ?_⟩⟩
    rw [hvalue] at horigin
    cases happlies with
    | expression h => cases horigin.symm.trans h
    | result h => cases horigin.symm.trans h

theorem Operates.exists_appliesTo {u v : ValueId} (h : p.Operates v u) (hp : p.Linked) :
    ∃ operator operands, p.AppliesTo v operator operands ∧ u ∈ operands := by
  obtain ⟨value, operator, operands, hv, hoperator, hu⟩ := h
  obtain ⟨applied, happlied, hiff⟩ := hp.operator? hv
  cases hoperator.symm.trans happlied
  exact ⟨operator, operands, (hiff operator operands).1 rfl, hu⟩

theorem Linked.isMemory (h : p.Linked) {v : ValueId} {value : Value}
    (hv : p.value? v = some value) : ∃ memory, p.isMemory value = .ok memory := by
  unfold Program.isMemory
  cases hvalue : value.origin with
  | result i =>
    obtain ⟨inst, hinst⟩ := h.result v i (origin?_eq_some_iff.2 ⟨value, hv, hvalue⟩)
    dsimp only
    rw [(inst_eq_ok_iff p).2 hinst]
    exact ⟨_, rfl⟩
  | _ => exact ⟨_, rfl⟩

end Program

namespace Operand

variable {p : Program} {v : ValueId} {value : Value} {depth : Nat}

/-! ### The text of each shape -/

/-- The operand of a value, given what is found of it. -/
def shape (v : ValueId) (value : Value) (operator : Option (Operator × List ValueId))
    (memory : Bool) (address : Option ElementAddress) : Operand where
  value := some v
  kind := Kind.ofValue value operator
  memory := memory
  pointer := value.type.isSourcePointer
  named := value.isNamed
  formal := value.origin.isArgument
  address := address
  version := none

/-- Of what is looked up to write a value, only its parts as an element address can be missing. -/
theorem exists_valueText_eq (hp : p.Linked) (hv : p.value? v = some value) :
    ∃ operator memory, p.operator? value = .ok operator ∧
      (∀ name operands, operator = some (name, operands) ↔ p.AppliesTo v name operands) ∧
      ∀ depth, valueText p (depth + 1) v =
        address? p v (Kind.ofValue value operator) operator >>= fun address =>
          textWith p (valueText p depth) (shape v value operator memory address) := by
  obtain ⟨operator, hoperator, happlies⟩ := hp.operator? hv
  obtain ⟨memory, hmemory⟩ := hp.isMemory hv
  refine ⟨operator, memory, hoperator, happlies, fun depth => ?_⟩
  rw [valueText, ofValue, (Program.value_eq_ok_iff p).2 hv]
  simp only [bind, Except.bind, hoperator, hmemory]
  cases address? p v (Kind.ofValue value operator) operator <;> rfl

theorem address?_of_ne {kind : Kind} (h : kind ≠ .element)
    (operator : Option (Operator × List ValueId)) : address? p v kind operator = .ok none := by
  unfold address?
  split
  · exact absurd rfl h
  · rfl

theorem valueText_of_named (hp : p.Linked) (hv : p.value? v = some value)
    (hnamed : value.isNamed = true) : valueText p (depth + 1) v = .ok value.name := by
  obtain ⟨operator, memory, -, -, htext⟩ := exists_valueText_eq hp hv
  have hkind : Kind.ofValue value operator = .named := if_pos hnamed
  rw [htext, address?_of_ne (by rw [hkind]; nofun)]
  change textWith p _ (shape v value operator memory none) = _
  unfold textWith shape
  simp only [hkind]
  rw [Program.label_eq hv, Value.name?, if_pos hnamed]
  rfl

/-- The kind of a value that has no name and applies no operator. -/
theorem kind_eq_ofOrigin (hunnamed : value.isNamed = false) :
    Kind.ofValue value none = .ofOrigin value.origin := by
  rw [Kind.ofValue, hunnamed]
  rfl

theorem ofOrigin_ne_element (origin : Origin) : Kind.ofOrigin origin ≠ .element := by
  cases origin <;> nofun

theorem exists_valueText_eq_of_simple (hp : p.Linked) (hv : p.value? v = some value)
    (hunnamed : value.isNamed = false)
    (hsimple : ∀ operator operands, ¬p.AppliesTo v operator operands) :
    ∃ memory, ∀ depth, valueText p (depth + 1) v =
      textWith p (valueText p depth) (shape v value none memory none) := by
  obtain ⟨operator, memory, -, happlies, htext⟩ := exists_valueText_eq hp hv
  obtain rfl : operator = none := by
    cases operator with
    | none => rfl
    | some applied => exact absurd ((happlies applied.1 applied.2).1 rfl) (hsimple _ _)
  refine ⟨memory, fun depth => ?_⟩
  rw [htext, kind_eq_ofOrigin hunnamed, address?_of_ne (ofOrigin_ne_element _)]
  rfl

/-- Whether a value that has no name and applies no operator has a text can be seen from what it
is. -/
theorem valueText_of_simple (hp : p.Linked) (hv : p.value? v = some value)
    (hunnamed : value.isNamed = false)
    (hsimple : ∀ operator operands, ¬p.AppliesTo v operator operands) (depth : Nat) :
    (value.origin.isPlain = true ∧ ∃ text, valueText p (depth + 1) v = .ok text) ∨
      value.origin.isPlain = false ∧
        ∃ fault, valueText p (depth + 1) v = .error fault ∧ fault.isMismatch = false := by
  obtain ⟨memory, htext⟩ := exists_valueText_eq_of_simple hp hv hunnamed hsimple
  have horigin := Program.origin?_eq_some_iff.2 ⟨value, hv, rfl⟩
  have hlookup := (Program.value_eq_ok_iff p).2 hv
  have hlabel := Program.label_eq hv
  rw [htext]
  unfold textWith shape
  simp only [kind_eq_ofOrigin hunnamed, hlookup, hlabel]
  obtain ⟨type, name, origin⟩ := value
  cases origin with
  | blockAddress f b =>
    obtain ⟨block, hblock⟩ := Option.isSome_iff_exists.1 (hp.block v f b horigin)
    refine .inl ⟨rfl, block.name, ?_⟩
    change (p.block b >>= fun block => pure block.name) = _
    rw [(Program.block_eq_ok_iff p).2 hblock]
    rfl
  | integer | float | null | undefined | globalVariable | function => exact .inl ⟨rfl, _, rfl⟩
  | expression operator operands => exact absurd (.expression horigin) (hsimple operator operands)
  | argument | result | aggregate | token | noCfi | metadata | inlineAsm =>
    exact .inr ⟨rfl, _, rfl, rfl⟩

theorem valueText_of_operator (hp : p.Linked) (hv : p.value? v = some value)
    (hunnamed : value.isNamed = false) {operator : Operator} {operands : List ValueId}
    (happlies : p.AppliesTo v operator operands) (helement : operator ≠ .getElementPtr) :
    valueText p (depth + 1) v = operands.mapM (valueText p depth) >>= fun texts =>
      .ok (operator.mnemonic ++ " (" ++ ", ".intercalate texts ++ ")") := by
  obtain ⟨applied, memory, hoperator, hiff, htext⟩ := exists_valueText_eq hp hv
  obtain rfl := (hiff operator operands).2 happlies
  have hkind : Kind.ofValue value (some (operator, operands)) = .ofOperator operator := by
    rw [Kind.ofValue, hunnamed]
    rfl
  have hwritten : textWith p (valueText p depth)
      (shape v value (some (operator, operands)) memory none) =
        operatorText p (valueText p depth) v := by
    unfold textWith shape
    rw [hkind]
    cases operator with
    | getElementPtr => exact absurd rfl helement
    | _ => rfl
  have hne : Kind.ofOperator operator ≠ .element := by
    cases operator with
    | getElementPtr => exact absurd rfl helement
    | _ => nofun
  rw [htext, hkind, address?_of_ne hne]
  change textWith p (valueText p depth) (shape v value (some (operator, operands)) memory none) = _
  rw [hwritten, operatorText, (Program.value_eq_ok_iff p).2 hv]
  change (p.operator? value >>= _) = _
  rw [hoperator]
  rfl

theorem valueText_of_element (hp : p.Linked) (hv : p.value? v = some value)
    (hunnamed : value.isNamed = false) {operands : List ValueId}
    (happlies : p.AppliesTo v .getElementPtr operands) :
    valueText p (depth + 1) v =
      elementAddress p v operands >>= addressText p (valueText p depth) := by
  obtain ⟨applied, memory, -, hiff, htext⟩ := exists_valueText_eq hp hv
  obtain rfl := (hiff .getElementPtr operands).2 happlies
  have hkind : Kind.ofValue value (some (.getElementPtr, operands)) = .element := by
    rw [Kind.ofValue, hunnamed]
    rfl
  rw [htext, hkind, address?]
  cases elementAddress p v operands with
  | error fault => rfl
  | ok address =>
    change textWith p (valueText p depth) (shape v value _ memory (some address)) = _
    unfold textWith shape
    rw [hkind]
    rfl

/-! ### Subscripts -/

/-- A subscript without a name is an integer constant, so there is a text in either case. -/
theorem exists_text_of_subscript (hv : p.value? v = some value) {s : Subscript}
    (hvalue : s.value = v) (hnamed : s.named = value.isNamed)
    (hfits : (value.origin.isInteger || (!value.origin.isConstant && value.isNamed)) = true) :
    ∃ text, s.text p = .ok text := by
  unfold Subscript.text
  rw [hvalue, hnamed]
  cases hname : value.isNamed with
  | true => exact ⟨_, Program.label_eq hv⟩
  | false =>
    rw [hname, Bool.and_false, Bool.or_false] at hfits
    obtain ⟨type, name, origin⟩ := value
    cases origin with
    | integer n =>
      rw [(Program.value_eq_ok_iff p).2 hv]
      exact ⟨toString n, rfl⟩
    | _ => cases hfits

theorem subscript_cases (hp : p.Linked) (address index : ValueId) :
    (p.IsSubscript index ∧ ∃ s, subscript p address index = .ok s ∧ ∃ text, s.text p = .ok text) ∨
      ¬p.IsSubscript index ∧
        ∃ fault, subscript p address index = .error fault ∧ fault.isMismatch = false := by
  unfold subscript
  cases hvalue : p.value? index with
  | none =>
    refine .inr ⟨?_, .noSuchEntry, ?_, rfl⟩
    · rintro ⟨value, h, -⟩
      cases hvalue.symm.trans h
    · rw [Program.value, hvalue]
      rfl
  | some value =>
    obtain ⟨memory, hmemory⟩ := hp.isMemory hvalue
    have hiff : p.IsSubscript index ↔
        (value.origin.isInteger || (!value.origin.isConstant && value.isNamed)) = true := by
      simp [Program.IsSubscript, hvalue]
    rw [hiff, (Program.value_eq_ok_iff p).2 hvalue]
    dsimp only [bind, Except.bind]
    by_cases hfits : (value.origin.isInteger || (!value.origin.isConstant && value.isNamed)) = true
    · rw [if_pos hfits, hmemory]
      exact .inl ⟨hfits, _, rfl, exists_text_of_subscript hvalue rfl rfl hfits⟩
    · rw [if_neg hfits]
      exact .inr ⟨hfits, _, rfl, rfl⟩

/-- The text of an element address is that of its base with the subscripts behind it. -/
theorem exists_addressText_eq (hp : p.Linked) (address base : ValueId) {indices : List ValueId}
    (h : ∀ index ∈ indices, p.IsSubscript index) : ∃ subscripts suffix,
      indices.mapM (subscript p address) = .ok subscripts ∧
      ∀ write, addressText p write ⟨base, subscripts⟩ =
        write base >>= fun text => .ok (text ++ suffix) := by
  have hall : ∀ index ∈ indices,
      ∃ s, subscript p address index = .ok s ∧ ∃ text, s.text p = .ok text := by
    intro index hindex
    rcases subscript_cases hp address index with ⟨-, hs⟩ | ⟨hnot, -⟩
    · exact hs
    · exact absurd (h index hindex) hnot
  obtain ⟨subscripts, hsubscripts⟩ :=
    Pass.exists_mapM_eq_ok fun index hindex => (hall index hindex).imp fun _ => And.left
  obtain ⟨texts, htexts⟩ : ∃ texts, subscripts.mapM (Subscript.text p) = .ok texts := by
    refine Pass.exists_mapM_eq_ok fun s hs => ?_
    obtain ⟨index, hindex, hsubscript⟩ := (Pass.mapM_eq_ok hsubscripts).2 s hs
    obtain ⟨_, hsame, htext⟩ := hall index hindex
    cases hsubscript.symm.trans hsame
    exact htext
  refine ⟨subscripts, String.join (texts.map fun text => "[" ++ text ++ "]"), hsubscripts,
    fun write => ?_⟩
  unfold addressText
  rw [htexts]
  rfl

/-! ### Printable values -/

theorem exists_valueText_of_printable (hp : p.Linked) (hf : p.Founded) (h : p.Printable v)
    (hdepth : v.index < depth) : ∃ text, valueText p depth v = .ok text := by
  induction depth generalizing v with
  | zero => exact absurd hdepth (Nat.not_lt_zero _)
  | succ depth ih =>
    have hlt {u : ValueId} (hu : u.index < v.index) : u.index < depth :=
      Nat.lt_of_lt_of_le hu (Nat.le_of_lt_succ hdepth)
    cases h with
    | named h =>
      obtain ⟨value, hv, hnamed⟩ := (Option.any_eq_true _ _).1 h
      exact ⟨value.name, valueText_of_named hp hv hnamed⟩
    | plain hunnamed h hplain =>
      obtain ⟨value, hv, rfl⟩ := Program.origin?_eq_some_iff.1 h
      rw [Program.isNamed_of_value? hv] at hunnamed
      have hsimple := Program.not_appliesTo_of_isPlain h hplain
      rcases valueText_of_simple hp hv hunnamed hsimple depth with ⟨-, htext⟩ | ⟨hnot, -⟩
      · exact htext
      · cases hplain.symm.trans hnot
    | operator hunnamed h helement hoperands =>
      obtain ⟨value, hv⟩ := h.exists_value
      obtain ⟨texts, htexts⟩ := Pass.exists_mapM_eq_ok fun u hu =>
        ih (hoperands u hu) (hlt (hf v _ _ hunnamed h u hu))
      rw [Program.isNamed_of_value? hv] at hunnamed
      rw [valueText_of_operator hp hv hunnamed h helement, htexts]
      exact ⟨_, rfl⟩
    | @element _ base indices hunnamed h hbase hindices =>
      obtain ⟨value, hv⟩ := h.exists_value
      obtain ⟨text, htext⟩ := ih hbase (hlt (hf v _ _ hunnamed h base List.mem_cons_self))
      obtain ⟨subscripts, suffix, hsubscripts, hwritten⟩ := exists_addressText_eq hp v base hindices
      rw [Program.isNamed_of_value? hv] at hunnamed
      rw [valueText_of_element hp hv hunnamed h, elementAddress, hsubscripts]
      change ∃ text, addressText p (valueText p depth) ⟨base, subscripts⟩ = .ok text
      rw [hwritten, htext]
      exact ⟨_, rfl⟩

/-- What is known of the answer to the question for the text of a value: there is one only if the
value is printable, and otherwise it is not because an operand does not fit its value. -/
structure Answers (p : Program) (v : ValueId) (answer : Except Fault String) : Prop where
  ok : ∀ text, answer = .ok text → p.Printable v
  error : ∀ fault, answer = .error fault → fault.isMismatch = false

theorem answers_ok (h : p.Printable v) (text : String) : Answers p v (.ok text) where
  ok _ _ := h
  error _ hfault := by cases hfault

theorem answers_error {fault : Fault} (h : fault.isMismatch = false) :
    Answers p v (.error fault) where
  ok _ htext := by cases htext
  error _ hfault := by
    cases hfault
    exact h

theorem answers_operator {operator : Operator} {operands : List ValueId}
    {write : ValueId → Except Fault String} (hunnamed : p.isNamed v = false)
    (h : p.AppliesTo v operator operands) (helement : operator ≠ .getElementPtr)
    (hwrite : ∀ u ∈ operands, Answers p u (write u)) (join : List String → String) :
    Answers p v (operands.mapM write >>= fun texts => .ok (join texts)) where
  ok text htext := by
    obtain ⟨texts, htexts, -⟩ := Pass.bind_eq_ok.1 htext
    refine .operator hunnamed h helement fun u hu => ?_
    obtain ⟨text, htext⟩ := (Pass.mapM_eq_ok htexts).1 u hu
    exact (hwrite u hu).ok text htext
  error fault hfault := by
    rcases Pass.bind_eq_error.1 hfault with hfault | ⟨_, -, hfault⟩
    · obtain ⟨u, hu, hfault⟩ := Pass.exists_of_mapM_eq_error hfault
      exact (hwrite u hu).error fault hfault
    · cases hfault

theorem answers_element (hp : p.Linked) {operands : List ValueId}
    {write : ValueId → Except Fault String} (hunnamed : p.isNamed v = false)
    (h : p.AppliesTo v .getElementPtr operands)
    (hwrite : ∀ u ∈ operands, Answers p u (write u)) :
    Answers p v (elementAddress p v operands >>= addressText p write) := by
  cases operands with
  | nil => exact answers_error rfl
  | cons base indices =>
    by_cases hindices : ∀ index ∈ indices, p.IsSubscript index
    · obtain ⟨subscripts, suffix, hsubscripts, hwritten⟩ := exists_addressText_eq hp v base hindices
      rw [elementAddress, hsubscripts]
      change Answers p v (addressText p write ⟨base, subscripts⟩)
      rw [hwritten]
      cases hbase : write base with
      | ok text =>
        have hprintable := (hwrite base List.mem_cons_self).ok text hbase
        exact answers_ok (.element hunnamed h hprintable hindices) _
      | error fault => exact answers_error ((hwrite base List.mem_cons_self).error fault hbase)
    · cases hsubscripts : indices.mapM (subscript p v) with
      | ok subscripts =>
        refine absurd (fun index hindex => ?_) hindices
        obtain ⟨s, hs⟩ := (Pass.mapM_eq_ok hsubscripts).1 index hindex
        rcases subscript_cases hp v index with ⟨hfits, -⟩ | ⟨-, fault, hfault, -⟩
        · exact hfits
        · cases hs.symm.trans hfault
      | error fault =>
        rw [elementAddress, hsubscripts]
        refine answers_error ?_
        obtain ⟨index, hindex, hfault⟩ := Pass.exists_of_mapM_eq_error hsubscripts
        rcases subscript_cases hp v index with ⟨-, s, hs, -⟩ | ⟨-, other, hother, hmismatch⟩
        · cases hs.symm.trans hfault
        · cases hother.symm.trans hfault
          exact hmismatch

/-- A value that the program does not have cannot be written. -/
theorem valueText_of_none (h : p.value? v = none) (depth : Nat) :
    valueText p (depth + 1) v = .error .noSuchEntry := by
  rw [valueText, ofValue, Program.value, h]
  rfl

theorem answers_valueText (hp : p.Linked) (hf : p.Founded) (hdepth : v.index < depth) :
    Answers p v (valueText p depth v) := by
  induction depth generalizing v with
  | zero => exact absurd hdepth (Nat.not_lt_zero _)
  | succ depth ih =>
    cases hv : p.value? v with
    | none =>
      rw [valueText_of_none hv]
      exact answers_error rfl
    | some value =>
      have hname := Program.isNamed_of_value? hv
      cases hnamed : value.isNamed with
      | true =>
        rw [valueText_of_named hp hv hnamed]
        exact answers_ok (.named (hname.trans hnamed)) _
      | false =>
        have hunnamed := hname.trans hnamed
        by_cases hsimple : ∀ operator operands, ¬p.AppliesTo v operator operands
        · rcases valueText_of_simple hp hv hnamed hsimple depth with
            ⟨hplain, text, htext⟩ | ⟨-, fault, hfault, hmismatch⟩
          · rw [htext]
            have horigin := Program.origin?_eq_some_iff.2 ⟨value, hv, rfl⟩
            exact answers_ok (.plain hunnamed horigin hplain) text
          · rw [hfault]
            exact answers_error hmismatch
        · simp only [not_forall, not_not] at hsimple
          obtain ⟨operator, operands, happlies⟩ := hsimple
          have hwrite : ∀ u ∈ operands, Answers p u (valueText p depth u) := fun u hu =>
            ih (Nat.lt_of_lt_of_le (hf v operator operands hunnamed happlies u hu)
              (Nat.le_of_lt_succ hdepth))
          by_cases helement : operator = .getElementPtr
          · subst helement
            rw [valueText_of_element hp hv hnamed happlies]
            exact answers_element hp hunnamed happlies hwrite
          · rw [valueText_of_operator hp hv hnamed happlies helement]
            exact answers_operator hunnamed happlies helement hwrite _

theorem index_lt_of_printable (h : p.Printable v) : v.index < p.values.size := by
  have hlt : (∃ value, p.value? v = some value) → v.index < p.values.size :=
    fun ⟨_, hv⟩ => Program.index_lt_of_value? hv
  cases h with
  | named h => exact hlt (((Option.any_eq_true _ _).1 h).imp fun _ => And.left)
  | plain _ h => exact hlt ((Program.origin?_eq_some_iff.1 h).imp fun _ => And.left)
  | operator _ h => exact hlt h.exists_value
  | element _ h => exact hlt h.exists_value

/-- The text of the operand of a value is that of the value, which is found at this depth. -/
theorem ofValue_bind_text (v : ValueId) :
    ofValue p v >>= text p = valueText p (p.values.size + 2) v := rfl

theorem answers_text (hp : p.Linked) (hf : p.Founded) (v : ValueId) :
    Answers p v (ofValue p v >>= text p) := by
  rw [ofValue_bind_text]
  cases hv : p.value? v with
  | none =>
    rw [valueText_of_none hv]
    exact answers_error rfl
  | some value =>
    have hlt := Program.index_lt_of_value? hv
    exact answers_valueText hp hf (by omega)

/-- **Exactly the printable values have a text**, if the operands of operators without a name have
smaller handles; the others do not fail because of an operand that does not fit its value. -/
theorem text_ok_iff (h : p.Made) (hf : p.Founded) (v : ValueId) :
    ((∃ written, ofValue p v >>= text p = .ok written) ↔ p.Printable v) ∧
      ∀ fault, ofValue p v >>= text p = .error fault → fault.isMismatch = false := by
  have hanswers := answers_text h.linked hf v
  refine ⟨⟨fun ⟨written, hwritten⟩ => hanswers.ok written hwritten, fun hprintable => ?_⟩,
    hanswers.error⟩
  have hlt := index_lt_of_printable hprintable
  rw [ofValue_bind_text]
  exact exists_valueText_of_printable h.linked hf hprintable (by omega)

/-- The address of an element of a global variable, a cast of it, and two addresses of elements
behind the cast, of which the second one has no subscript.  After that, versioning lets a load read
a slot with a larger handle than its own. -/
def nested : Program :=
  .ofOperations "nested"
    [.edit (.global "g" (.int 32)), .edit (.value (.int 64) "" (.integer 3)),
      .edit (.value (.pointer (.int 32)) "" (.expression .getElementPtr [⟨0⟩, ⟨1⟩])),
      .edit (.value .token "" .token), .edit (.function "main" .void []),
      .edit (.block ⟨0⟩ "entry"), .write { block := ⟨0⟩ } (.load ⟨0⟩ ""), .transcribe {} false,
      .write { block := ⟨0⟩ } (.cast .bitCast ⟨2⟩ (.pointer (.int 8)) ""),
      .write { block := ⟨0⟩ } (.elementAddress (.pointer (.int 8)) ⟨6⟩ [⟨1⟩, ⟨5⟩] ""),
      .write { block := ⟨0⟩ } (.elementAddress (.pointer (.int 8)) ⟨6⟩ [⟨3⟩] ""),
      .versionProgram {} (.ofList [])]

theorem madeBy_nested : nested.MadeBy fun operation => operation.replaces = false :=
  Program.madeBy_ofOperations (by decide)

theorem text_nested : ofValue nested ⟨7⟩ >>= text nested = .ok "bitcast (g[3])[3][t0_main]" := by
  decide +kernel

theorem text_ok_iff_nested : nested.Printable ⟨7⟩ ∧ ¬nested.Printable ⟨8⟩ := by
  have hiff := text_ok_iff (madeBy_nested.imp fun _ _ => trivial) madeBy_nested.ordered.founded
  have hindex : ofValue nested ⟨8⟩ >>= text nested =
      .error (.unsupportedIndex ⟨8⟩ ⟨3⟩ .token) := by decide +kernel
  refine ⟨(hiff ⟨7⟩).1.1 ⟨_, text_nested⟩, fun hprintable => ?_⟩
  obtain ⟨written, hwritten⟩ := (hiff ⟨8⟩).1.2 hprintable
  cases hindex.symm.trans hwritten

/-! ### Depth -/

theorem mapM_congr {f g : ValueId → Except Fault String} {values : List ValueId}
    (h : ∀ u ∈ values, f u = g u) : values.mapM f = values.mapM g := by
  induction values with
  | nil => rfl
  | cons u values ih =>
    obtain ⟨hu, hvalues⟩ := List.forall_mem_cons.1 h
    rw [List.mapM_cons, List.mapM_cons, hu, ih hvalues]

/-- The text of a value is made of those of its operands. -/
theorem textWith_congr {write write' : ValueId → Except Fault String} {operand : Operand}
    (h : ofValue p v = .ok operand) (hwrite : ∀ u, p.Operates v u → write u = write' u) :
    textWith p write operand = textWith p write' operand := by
  unfold ofValue at h
  obtain ⟨value, hvalue, h⟩ := Pass.bind_eq_ok.1 h
  obtain ⟨operator, hoperator, h⟩ := Pass.bind_eq_ok.1 h
  obtain ⟨address, haddress, h⟩ := Pass.bind_eq_ok.1 h
  obtain ⟨memory, -, h⟩ := Pass.bind_eq_ok.1 h
  cases h
  have hoperates {name : Operator} {operands : List ValueId} {u : ValueId}
      (happlied : operator = some (name, operands)) (hu : u ∈ operands) : p.Operates v u :=
    ⟨value, name, operands, (Program.value_eq_ok_iff p).1 hvalue, happlied ▸ hoperator, hu⟩
  have helement : address.map (addressText p write) = address.map (addressText p write') := by
    cases address with
    | none => rfl
    | some address =>
      obtain ⟨name, operands, happlied, hbase⟩ := mem_address (u := address.base) haddress
        (by simp)
      rw [Option.map_some, Option.map_some, addressText, addressText,
        hwrite address.base (hoperates happlied hbase)]
  have hoperator : operatorText p write v = operatorText p write' v := by
    unfold operatorText
    rw [hvalue]
    dsimp only [bind, Except.bind]
    rw [hoperator]
    cases operator with
    | none => rfl
    | some applied =>
      dsimp only
      rw [mapM_congr fun u hu => hwrite u (hoperates rfl hu)]
  unfold textWith
  dsimp only
  rw [helement, hoperator]

theorem valueText_eq (hp : p.Linked) (ho : p.Ordered) (v : ValueId) (depth : Nat)
    (hdepth : v.index < depth) : valueText p depth v = valueText p (v.index + 1) v := by
  induction hv : v.index using Nat.strongRecOn generalizing v depth with
  | ind index ih =>
    subst hv
    obtain ⟨depth, rfl⟩ := Nat.exists_eq_add_one_of_ne_zero (Nat.ne_zero_of_lt hdepth)
    rw [valueText, valueText]
    cases hof : ofValue p v with
    | error fault => rfl
    | ok operand =>
      refine textWith_congr hof fun u hu => ?_
      have hlt : u.index < v.index := by
        obtain ⟨operator, operands, happlies, hmem⟩ := hu.exists_appliesTo hp
        exact ho v operator operands happlies u hmem
      calc valueText p depth u
        _ = valueText p (u.index + 1) u := ih u.index hlt u depth (by omega) rfl
        _ = valueText p v.index u := (ih u.index hlt u v.index hlt rfl).symm

/-- At the depth that writing starts with, one more makes no difference. -/
theorem valueText_size (hp : p.Linked) (ho : p.Ordered) :
    valueText p (p.values.size + 1) = valueText p (p.values.size + 2) := by
  funext u
  cases hu : p.value? u with
  | none => rw [valueText_of_none hu, valueText_of_none hu]
  | some value =>
    have hlt := Program.index_lt_of_value? hu
    rw [valueText_eq hp ho u _ (Nat.lt_add_right 1 hlt),
      valueText_eq hp ho u _ (Nat.lt_add_right 2 hlt)]

/-- Writing ends at every value, and no text depends on the depth. -/
structure Unbounded (p : Program) : Prop where
  /-- Operands come before the operators that are applied to them. -/
  ordered : ∀ v operator operands, p.AppliesTo v operator operands →
    ∀ u ∈ operands, u.index < v.index
  /-- A depth that suffices for the value gives the text that every greater depth gives. -/
  depth : ∀ v depth, v.index < depth → valueText p depth v = valueText p (v.index + 1) v
  /-- An operand is written with the texts of its parts, whatever their depth. -/
  parts : ∀ operand, text p operand = textWith p (fun u => ofValue p u >>= text p) operand
  /-- No operand contains itself. -/
  acyclic : ∀ v u, ofValue p v >>= text p ≠ .error (.cyclicOperand u)

/-- **Writing ends in a program that is made without replacing operands**: operands come before the
operators that are applied to them, so that no text depends on the depth, and an operand is written
with the texts of its parts whatever their depth. -/
theorem text_unbounded (h : p.MadeBy fun operation => operation.replaces = false) :
    Unbounded p := by
  have hp : p.Linked := Program.Made.linked (h.imp fun _ _ => trivial)
  have ho := h.ordered
  refine ⟨ho, valueText_eq hp ho, fun operand => ?_, fun v u hcyclic => ?_⟩
  · rw [text, valueText_size hp ho]
    rfl
  · cases (answers_text hp ho.founded v).error _ hcyclic

theorem text_unbounded_nested :
    ofValue nested ⟨7⟩ >>= text nested = .ok "bitcast (g[3])[3][t0_main]" ∧ Unbounded nested :=
  ⟨text_nested, text_unbounded madeBy_nested⟩

end Operand

end LevelIr
