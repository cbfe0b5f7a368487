import LevelIr.Proofs.Workspace

/-!
# Names of registers

Listing a program names its registers one after another: parameters and results of instructions.
No other value gets a name, and no value loses one.

* `Program.NamesMore` : a program that differs from another one only in registers that have names.
* `Names.Settled` : a value that will not be named any more, whatever comes.
* `Names.assign_cases` : naming a value does nothing if it is settled, and settles it otherwise.
-/

namespace LevelIr

namespace Program

variable {p q r : Program}

/-! ### Names of registers -/

/-- Whether a value is there and has a name. -/
def isNamed (p : Program) (v : ValueId) : Bool := (p.value? v).any Value.isNamed

/-- Whether a value is a register: a parameter or the result of an instruction. -/
def isRegister (p : Program) (v : ValueId) : Bool := (p.value? v).any (·.origin.isAttached)

/-- Whether a value is a parameter. -/
def isParameter (p : Program) (v : ValueId) : Bool := (p.value? v).any (·.origin.isArgument)

/-- The program `q` differs from `p` only in its names, and has a name for every value that has one
in `p`; only registers have names in `q` that they do not have in `p`. -/
structure NamesMore (p q : Program) : Prop where
  nameless : q.nameless = p.nameless
  named : ∀ v, p.isNamed v = true → q.isNamed v = true
  register : ∀ v, q.isNamed v = true → p.isNamed v = true ∨ p.isRegister v = true

theorem value?_of_nameless (h : q.nameless = p.nameless) {v : ValueId} {value : Value}
    (hv : p.value? v = some value) :
    ∃ name, q.value? v = some { value with name } := by
  have hsame : (q.nameless.value? v) = p.nameless.value? v := by rw [h]
  simp only [nameless, value?, Array.getElem?_map] at hsame
  rw [value?] at hv
  rw [hv, Option.map_some, Option.map_eq_some_iff] at hsame
  obtain ⟨value', hvalue', heq⟩ := hsame
  obtain ⟨type, name, origin⟩ := value'
  simp only [Value.mk.injEq] at heq
  refine ⟨name, ?_⟩
  rw [value?, hvalue', heq.1, heq.2.2]

theorem isRegister_of_nameless (h : q.nameless = p.nameless) (v : ValueId) :
    q.isRegister v = p.isRegister v := by
  have horigin := origin_of_nameless h v
  unfold isRegister
  cases hq : q.value? v <;> cases hp : p.value? v <;> simp_all

theorem exists_of_isParameter {v : ValueId} (h : p.isParameter v = true) :
    ∃ value f k, p.value? v = some value ∧ value.origin = .argument f k := by
  unfold isParameter at h
  cases hvalue : p.value? v with
  | none =>
    rw [hvalue] at h
    cases h
  | some value =>
    rw [hvalue, Option.any_some] at h
    cases horigin : value.origin with
    | argument f k => exact ⟨value, f, k, rfl, horigin⟩
    | _ => simp [horigin, Origin.isArgument] at h

theorem isParameter_of_nameless (h : q.nameless = p.nameless) (v : ValueId) :
    q.isParameter v = p.isParameter v := by
  have horigin := origin_of_nameless h v
  unfold isParameter
  cases hq : q.value? v <;> cases hp : p.value? v <;> simp_all

theorem namesMore_refl (p : Program) : p.NamesMore p := ⟨rfl, fun _ h => h, fun _ h => .inl h⟩

theorem NamesMore.trans (hpq : p.NamesMore q) (hqr : q.NamesMore r) : p.NamesMore r where
  nameless := hqr.nameless.trans hpq.nameless
  named v hv := hqr.named v (hpq.named v hv)
  register v hv := by
    rcases hqr.register v hv with hv | hv
    · exact hpq.register v hv
    · exact .inr (isRegister_of_nameless hpq.nameless v ▸ hv)

/-- Values that are no registers have names in both programs or in none. -/
theorem NamesMore.isNamed_eq (h : p.NamesMore q) {v : ValueId}
    (hv : q.isNamed v = true → p.isNamed v = true) : q.isNamed v = p.isNamed v :=
  Bool.eq_iff_iff.2 ⟨hv, h.named v⟩

theorem NamesMore.isNamed_of_not_isRegister (h : p.NamesMore q) {v : ValueId}
    (hv : p.isRegister v = false) : q.isNamed v = true → p.isNamed v = true := by
  intro hq
  rcases h.register v hq with hp | hp
  · exact hp
  · rw [hv] at hp
    cases hp

/-! ### What names do not matter for -/

section Nameless

variable (h : q.nameless = p.nameless)

include h

theorem inst_of_nameless (i : InstId) : q.inst i = p.inst i := by
  rw [inst, inst, inst?_of_nameless h]

theorem block_of_nameless (b : BlockId) : q.block b = p.block b := by
  rw [block, block, block?_of_nameless h]

theorem function_of_nameless (f : FunctionId) : q.function f = p.function f := by
  rw [function, function, function?_of_nameless h]

theorem operator?_of_nameless (value : Value) (name : String) :
    q.operator? { value with name } = p.operator? value := by
  unfold operator?
  cases value.origin with
  | result i => simp only [inst_of_nameless h]
  | _ => rfl

theorem isMemory_of_nameless (value : Value) (name : String) :
    q.isMemory { value with name } = p.isMemory value := by
  unfold isMemory
  cases value.origin with
  | result i => simp only [inst_of_nameless h]
  | _ => rfl

/-- What comes after a look-up of a value is the same if it does not ask for the name. -/
theorem value_bind_of_nameless {α : Type} (v : ValueId) {f : Value → Except Fault α}
    (hf : ∀ (value : Value) (name : String), f { value with name } = f value) :
    q.value v >>= f = p.value v >>= f := by
  cases hp : p.value? v with
  | none =>
    have hq : q.value? v = none := by
      have hsame := origin_of_nameless h v
      rwa [hp, Option.map_none, Option.map_eq_none_iff] at hsame
    rw [value, value, hp, hq]
  | some value =>
    obtain ⟨name, hq⟩ := value?_of_nameless h hp
    rw [Program.value, Program.value, hp, hq]
    exact hf value name

theorem switchCases_of_nameless (i : InstId) (args : List Arg) :
    Statement.switchCases q i args = Statement.switchCases p i args := by
  induction args using Statement.switchCases.induct with
  | case1 => rfl
  | case2 v b rest ih =>
    rw [Statement.switchCases, Statement.switchCases, ih]
    exact value_bind_of_nameless h v fun _ _ => rfl
  | case3 args hnil hpair => rw [Statement.switchCases, Statement.switchCases] <;> assumption

end Nameless

end Program

/-! ### Giving names -/

namespace Names

/-- A value that gets no name any more: it has been given one, or it is no parameter and has a name
or needs none. -/
def Settled (names : Names) (p : Program) (v : ValueId) : Prop :=
  v ∈ names.renamed ∨ ∀ value, p.value? v = some value →
    value.origin.isArgument = false ∧ (value.origin.isAttached = true → value.isNamed = true)

theorem formalName_ne_empty (value : Value) (position : Nat) (function : Function) :
    formalName value position function ≠ "" := by
  simp [formalName]

theorem temporaryName_ne_empty (number : Nat) (function : Function) :
    temporaryName number function ≠ "" := by
  simp [temporaryName]

variable {names later : Names} {p q : Program} {v : ValueId}

/-- Naming a value that is settled does nothing. -/
theorem assign_of_settled (h : names.Settled p v) {value : Value} (hv : p.value? v = some value) :
    names.assign p v = .ok (names, p) := by
  unfold assign
  refine Pass.bind_eq_ok.2 ⟨value, (Program.value_eq_ok_iff p).2 hv, ?_⟩
  split
  · rfl
  · rename_i hnew
    obtain ⟨hargument, hnamed⟩ := (h.resolve_left hnew) value hv
    split
    · rename_i horigin
      rw [horigin] at hargument
      cases hargument
    · rename_i horigin
      rw [if_pos (hnamed (by rw [horigin]; rfl))]
      rfl
    · rfl

/-- Naming a value does nothing if the value is settled; otherwise it is a register, and has a name
from then on. -/
theorem assign_cases (h : names.assign p v = .ok (later, q)) :
    ∃ value, p.value? v = some value ∧
      ((names.Settled p v ∧ later = names ∧ q = p) ∨
        (¬names.Settled p v ∧ value.origin.isAttached = true ∧ ∃ name, name ≠ "" ∧
          later.renamed = v :: names.renamed ∧ q = p.setName v name)) := by
  unfold assign at h
  obtain ⟨value, hvalue, h⟩ := Pass.bind_eq_ok.1 h
  rw [Program.value_eq_ok_iff] at hvalue
  refine ⟨value, hvalue, ?_⟩
  split at h
  · rename_i hrenamed
    cases h
    exact .inl ⟨.inl hrenamed, rfl, rfl⟩
  rename_i hnew
  have hunsettled (hopen : value.origin.isArgument = true ∨
      value.origin.isAttached = true ∧ value.isNamed = false) : ¬names.Settled p v := by
    rintro (hrenamed | hsettled)
    · exact hnew hrenamed
    · obtain ⟨hargument, hnamed⟩ := hsettled value hvalue
      rcases hopen with hopen | ⟨hattached, hunnamed⟩
      · rw [hopen] at hargument
        cases hargument
      · rw [hnamed hattached] at hunnamed
        cases hunnamed
  split at h
  · rename_i f position horigin
    obtain ⟨function, -, h⟩ := Pass.bind_eq_ok.1 h
    cases h
    exact .inr ⟨hunsettled (.inl (by rw [horigin]; rfl)), by rw [horigin]; rfl, _,
      formalName_ne_empty value position function, rfl, rfl⟩
  · rename_i i horigin
    split at h
    · rename_i hnamed
      cases h
      refine .inl ⟨.inr fun value' hvalue' => ?_, rfl, rfl⟩
      obtain rfl : value = value' := Option.some.inj (hvalue.symm.trans hvalue')
      exact ⟨by rw [horigin]; rfl, fun _ => hnamed⟩
    · rename_i hunnamed
      obtain ⟨f, -, h⟩ := Pass.bind_eq_ok.1 h
      obtain ⟨function, -, h⟩ := Pass.bind_eq_ok.1 h
      cases h
      exact .inr ⟨hunsettled (.inr ⟨by rw [horigin]; rfl, by simpa using hunnamed⟩),
        by rw [horigin]; rfl, _, temporaryName_ne_empty _ function, rfl, rfl⟩
  · rename_i hargument hresult
    cases h
    refine .inl ⟨.inr fun value' hvalue' => ?_, rfl, rfl⟩
    obtain rfl : value = value' := Option.some.inj (hvalue.symm.trans hvalue')
    cases horigin : value.origin with
    | argument f position => exact absurd horigin (hargument f position)
    | result i => exact absurd horigin (hresult i)
    | _ => exact ⟨rfl, fun hattached => by cases hattached⟩

end Names

theorem Program.isNamed_setName {v u : ValueId} {name : String} (hname : name ≠ "") (p : Program) :
    (p.setName v name).isNamed u = true ↔
      p.isNamed u = true ∨ u = v ∧ (p.value? u).isSome = true := by
  unfold isNamed
  rw [value?_setName]
  by_cases hu : u = v
  · cases hvalue : p.value? u <;> simp [hu, Value.isNamed, hname]
  · simp [hu]

theorem Program.namesMore_setName {v : ValueId} {value : Value} {name : String} (hname : name ≠ "")
    {p : Program} (hv : p.value? v = some value) (hregister : value.origin.isAttached = true) :
    p.NamesMore (p.setName v name) where
  nameless := nameless_setName v name p
  named u hu := (isNamed_setName hname p).2 (.inl hu)
  register u hu := by
    rcases (isNamed_setName hname p).1 hu with hu | ⟨rfl, -⟩
    · exact .inl hu
    · refine .inr ?_
      rw [isRegister, hv]
      exact hregister

end LevelIr
