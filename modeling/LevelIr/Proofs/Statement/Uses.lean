import LevelIr.Proofs.Statement.Congruence
import LevelIr.Proofs.Statement.OfInst

/-!
# What a statement refers to

Each reference of a statement stands for a value that its instruction has as an operand, or for its
result.  What is known of the operands of single values is therefore known of all references
(`Statement.yields_ofInst`).  In particular, an operand mentions its own value, and otherwise only
values that this value is computed from by one operator: the base and the subscripts of an element
address.

* `Statement.Cites` : what is known of the references of a statement, if something is known of the
  operands of the values that it refers to.
* `Program.Operates` : a value is an operand of the operator that another value applies.
* `Operand.StandsFor` : what is known of the operand of a value in a statement.
* `Statement.refers_ofInst` : every reference of a statement stands for a value in this sense.
-/

namespace LevelIr

/-! ### References -/

namespace Reference

/-- A reference to one of some values, with an operand for it, or to none at all. -/
def Cites (Q : ValueId → Operand → Prop) (values : List ValueId) (r : Reference) : Prop :=
  r = .absent ∨ ∃ v ∈ values, Q v r.operand

section Yields

variable {p : Program} {slots : Slots} {I : Shared → Prop} {Q : ValueId → Operand → Prop}
  (hQ : ∀ v, Pass.Yields I (Q v) (Operand.resolve p slots v))

include hQ

theorem yields_resolve (level : Int) (v : ValueId) :
    Pass.Yields I (fun r => r.level = level ∧ Q v r.operand) (resolve p slots level v) :=
  (hQ v).bind fun _ h => Pass.yields_pure ⟨rfl, h⟩

theorem yields_resolveAll {values all : List ValueId} (h : ∀ v ∈ values, v ∈ all) :
    Pass.Yields I (fun rs => ∀ r ∈ rs, r.Cites Q all) (resolveAll p slots values) := by
  unfold resolveAll
  induction values with
  | nil => exact Pass.yields_pure fun _ hr => by cases hr
  | cons v values ih =>
    rw [List.forall_mem_cons] at h
    rw [List.mapM_cons]
    exact (yields_resolve hQ 0 v).bind fun r hr => (ih h.2).bind fun rs hrs =>
      Pass.yields_pure (List.forall_mem_cons.2 ⟨.inr ⟨v, h.1, hr.2⟩, hrs⟩)

theorem yields_resolveAddressed (values : List ValueId) :
    Pass.Yields I (fun rs => ∀ r ∈ rs, r.Cites Q values) (resolveAddressed p slots values) := by
  cases values with
  | nil => exact Pass.yields_pure fun _ hr => by cases hr
  | cons v values =>
    exact (yields_resolve hQ 1 v).bind fun r hr =>
      (yields_resolveAll hQ fun _ => List.mem_cons_of_mem v).bind fun rs hrs =>
        Pass.yields_pure (List.forall_mem_cons.2 ⟨.inr ⟨v, List.mem_cons_self, hr.2⟩, hrs⟩)

end Yields

end Reference

/-! ### Statements -/

theorem Action.callee?_ofPlain (inst : Inst) : (ofPlain inst).callee? = none := by
  unfold ofPlain
  cases inst.opcode
  case br => by_cases h : inst.valueOperands = [] <;> simp [h, callee?]
  all_goals rfl

namespace Statement

open Reference

/-- What the statement `s` of an instruction refers to, if the operands of a value are as `Q`
says. -/
structure Cites (Q : ValueId → Operand → Prop) (inst : Inst) (s : Statement) : Prop where
  uses : ∀ r ∈ s.uses, r.Cites Q inst.valueOperands
  result : s.isStore = false → ∀ r, s.result = some r →
    ∃ v, inst.result = some v ∧ Q v r.operand
  /-- A load reads one level below its operand. -/
  load : inst.opcode = .load → s.isLoad = true ∧ ∃ v r, inst.valueOperands[0]? = some v ∧
    s.operands = [r] ∧ r.level = 1 ∧ Q v r.operand
  /-- A store writes its first operand one level below its second one. -/
  store : inst.opcode = .store → s.isStore = true ∧ ∃ u v r t, inst.valueOperands[0]? = some u ∧
    inst.valueOperands[1]? = some v ∧ s.operands = [r] ∧ s.result = some t ∧
    (r.level = 0 ∧ Q u r.operand) ∧ (t.level = 1 ∧ Q v t.operand)
  alloca : inst.opcode = .alloca → ∃ type, s.action = .alloca type
  /-- Nothing else becomes a load. -/
  opcode : s.isLoad = true → inst.opcode = .load

variable {p : Program} {slots : Slots} {i : InstId} {inst : Inst} {result : Option Reference}
  {Q : ValueId → Operand → Prop}

theorem Cites.imp {Q' : ValueId → Operand → Prop} (hQ : ∀ v operand, Q v operand → Q' v operand)
    {s : Statement} (h : s.Cites Q inst) : s.Cites Q' inst where
  uses r hr := (h.uses r hr).imp id fun ⟨v, hv, hstands⟩ => ⟨v, hv, hQ _ _ hstands⟩
  result hstore r hr := by
    obtain ⟨v, hv, hstands⟩ := h.result hstore r hr
    exact ⟨v, hv, hQ _ _ hstands⟩
  load hop := by
    obtain ⟨hload, v, r, hv, hoperands, hlevel, hr⟩ := h.load hop
    exact ⟨hload, v, r, hv, hoperands, hlevel, hQ _ _ hr⟩
  store hop := by
    obtain ⟨hstore, u, v, r, t, hu, hv, hoperands, hresult, ⟨hlevel, hr⟩, hlevel', ht⟩ :=
      h.store hop
    exact ⟨hstore, u, v, r, t, hu, hv, hoperands, hresult, ⟨hlevel, hQ _ _ hr⟩, hlevel',
      hQ _ _ ht⟩
  alloca := h.alloca
  opcode := h.opcode

/-- What is known of an instruction that neither reads nor writes memory, nor reserves any. -/
theorem Cites.plain {action : Action} {operands : List Reference}
    (hop : inst.opcode ≠ .load ∧ inst.opcode ≠ .store ∧ inst.opcode ≠ .alloca)
    (haction : action ≠ .load ∧ action ≠ .store)
    (hresult : ∀ r, result = some r → ∃ v, inst.result = some v ∧ Q v r.operand)
    (hoperands : ∀ r ∈ operands, r.Cites Q inst.valueOperands)
    (hcallee : ∀ r ∈ action.callee?.bind Callee.target?, r.Cites Q inst.valueOperands) :
    (make action i operands result inst.line).Cites Q inst where
  uses r hr := by
    have hstore : (make action i operands result inst.line).isStore = false := by
      simpa [isStore, make] using haction.2
    rw [Statement.uses, reads, target?, hstore] at hr
    rcases List.mem_append.1 hr with hr | hr
    · exact hoperands r (by simpa [make] using hr)
    · exact hcallee r (Option.mem_toList.1 hr)
  result _ := hresult
  load h := absurd h hop.1
  store h := absurd h hop.2.1
  alloca h := absurd h hop.2.2
  opcode h := absurd h (by simpa [isLoad, make] using haction.1)

theorem getElem?_of_valueOperand {position : Nat} {v : ValueId}
    (h : valueOperand i inst position = .ok v) : inst.valueOperands[position]? = some v := by
  unfold valueOperand at h
  split at h
  · cases h
    assumption
  · cases h

section Yields

variable {I : Shared → Prop} (hQ : ∀ v, Pass.Yields I (Q v) (Operand.resolve p slots v))

include hQ

theorem yields_callee :
    Pass.Yields I (fun callee => ∀ r ∈ callee.target?, r.Cites Q inst.valueOperands)
      (callee p slots i inst) := by
  unfold callee
  split
  · exact (Pass.yields_lift (Q := fun _ => True) fun _ _ => trivial).bind fun _ _ =>
      Pass.yields_pure fun _ hr => by cases hr
  · split
    · rename_i v hv
      refine (yields_resolve hQ 0 v).bind fun target htarget => Pass.yields_pure ?_
      rintro r ⟨⟩
      obtain ⟨arg, harg, hv⟩ := Option.bind_eq_some_iff.1 hv
      exact .inr ⟨v, List.mem_filterMap.2 ⟨arg, List.mem_of_getLast? harg, hv⟩, htarget.2⟩
    · intro _ _ _ _ h
      cases h

theorem yields_form
    (hresult : ∀ r, result = some r → ∃ v, inst.result = some v ∧ Q v r.operand) :
    Pass.Yields I (fun form => (make form.1 i form.2.1 form.2.2 inst.line).Cites Q inst)
      (form p slots i inst result) := by
  have hoperand {position : Nat} {v : ValueId} {r : Reference} {level : Int}
      (hv : inst.valueOperands[position]? = some v) (hr : r.level = level ∧ Q v r.operand) :
      r.Cites Q inst.valueOperands := .inr ⟨v, List.mem_of_getElem? hv, hr.2⟩
  have hvalueOperand (position : Nat) : Pass.Yields I
      (fun v => inst.valueOperands[position]? = some v) (valueOperand i inst position) :=
    Pass.yields_lift fun v => getElem?_of_valueOperand
  have harguments := yields_resolveAll hQ fun v (hv : v ∈ inst.arguments) =>
    ((List.dropLast_sublist _).filterMap _ |>.subset hv : v ∈ inst.valueOperands)
  unfold form
  split
  case h_1 hop =>
    refine Pass.yields_pure ⟨?_, fun _ => hresult, by simp [hop], by simp [hop], fun _ => ⟨_, rfl⟩,
      by simp [isLoad, make]⟩
    intro r hr
    simp [uses, reads, target?, isStore, make, callee?, Action.callee?] at hr
  case h_2 hop | h_3 hop =>
    exact Pass.yields_pure (.plain (by simp [hop]) (by simp) hresult (by simp)
      (by simp [Action.callee?]))
  case h_4 hop =>
    refine (hvalueOperand 0).bind fun v hv => (yields_resolve hQ 1 v).bind fun r hr =>
      Pass.yields_pure ⟨?_, fun _ => hresult, fun _ => ⟨rfl, v, r, hv, rfl, hr⟩, by simp [hop],
        by simp [hop], fun _ => hop⟩
    intro r' hr'
    have hr' : r' = r := by
      simpa [uses, reads, target?, isStore, make, callee?, Action.callee?] using hr'
    exact hr' ▸ hoperand hv hr
  case h_5 hop =>
    refine (hvalueOperand 0).bind fun u hu => (hvalueOperand 1).bind fun v hv =>
      (yields_resolve hQ 0 u).bind fun r hr => (yields_resolve hQ 1 v).bind fun t ht =>
      Pass.yields_pure ⟨?_, (by simp [isStore, make]), by simp [hop],
        fun _ => ⟨rfl, u, v, r, t, hu, hv, rfl, rfl, hr, ht⟩, by simp [hop], by simp [isLoad, make]⟩
    intro r' hr'
    have hr' : r' = r ∨ r' = t := by
      simpa [uses, reads, target?, isStore, make, callee?, Action.callee?] using hr'
    rcases hr' with rfl | rfl
    · exact hoperand hu hr
    · exact hoperand hv ht
  case h_6 hop | h_7 hop =>
    exact (yields_resolveAddressed hQ _).bind fun rs hrs => Pass.yields_pure
      (.plain (by simp [hop]) (by simp) hresult hrs (by simp [Action.callee?]))
  case h_8 hop | h_9 hop | h_10 hop =>
    exact (yields_callee hQ).bind fun target htarget => harguments.bind fun rs hrs =>
      Pass.yields_pure (.plain (by simp [hop]) (by simp) hresult hrs
        (by simpa [Action.callee?] using htarget))
  case h_11 hop =>
    split
    · refine Pass.yields_pure (.plain (by simp [hop]) (by simp) hresult ?_
        (by simp [Action.callee?]))
      intro r hr
      exact .inl (List.mem_singleton.1 hr)
    · rename_i v rest hvalues
      refine (yields_resolve hQ 0 v).bind fun r hr => Pass.yields_pure
        (.plain (by simp [hop]) (by simp) hresult ?_ (by simp [Action.callee?]))
      intro r' hr'
      have hv : inst.valueOperands[0]? = some v := by rw [hvalues]; rfl
      exact List.mem_singleton.1 hr' ▸ hoperand hv hr
  case h_12 hop =>
    refine (hvalueOperand 0).bind fun v hv =>
      (Pass.yields_lift (Q := fun _ => True) fun _ _ => trivial).bind fun _ _ =>
      (yields_resolve hQ 0 v).bind fun r hr => Pass.yields_pure
        (.plain (by simp [hop]) (by simp) hresult ?_ (by simp [Action.callee?]))
    intro r' hr'
    exact List.mem_singleton.1 hr' ▸ hoperand hv hr
  case h_13 =>
    obtain ⟨hload, hstore, -⟩ := Action.ofPlain_ne inst
    refine (yields_resolveAll hQ fun _ hv => hv).bind fun rs hrs => Pass.yields_pure
      (.plain ⟨?_, ?_, ?_⟩ ⟨hload, hstore⟩ hresult hrs (by simp [Action.callee?_ofPlain]))
    all_goals assumption

/-- The references of the statement of an instruction are made of the operands of the values that it
touches. -/
theorem yields_ofInst (i : InstId) :
    Pass.Yields I (fun s => ∃ inst, p.inst? i = some inst ∧ s.Cites Q inst) (ofInst p slots i) := by
  refine (Pass.yields_lift (Q := fun inst => p.inst? i = some inst) fun inst hinst =>
    (Program.inst_eq_ok_iff p).1 hinst).bind fun inst hinst => ?_
  have hresult : Pass.Yields I (fun result => ∀ r, result = some r →
      ∃ v, inst.result = some v ∧ Q v r.operand) (inst.result.mapM (resolve p slots 0)) := by
    cases inst.result with
    | none => exact Pass.yields_pure fun _ h => by cases h
    | some v =>
      refine (yields_resolve hQ 0 v).bind fun r hr => Pass.yields_pure ?_
      rintro _ ⟨⟩
      exact ⟨v, rfl, hr.2⟩
  exact hresult.bind fun result hresult => (yields_form hQ hresult).bind fun form hform =>
    Pass.yields_pure ⟨inst, hinst, hform⟩

end Yields

end Statement

/-! ### What an operand mentions -/

/-- The value `v` applies an operator, and `u` is one of the operands. -/
def Program.Operates (p : Program) (v u : ValueId) : Prop :=
  ∃ value operator operands, p.value? v = some value ∧
    p.operator? value = .ok (some (operator, operands)) ∧ u ∈ operands

theorem Program.Operates.of_nameless {p q : Program} (h : q.nameless = p.nameless) {u v : ValueId}
    (hv : p.Operates v u) : q.Operates v u := by
  obtain ⟨value, operator, operands, hvalue, hoperator, hu⟩ := hv
  obtain ⟨name, hq⟩ := value?_of_nameless h hvalue
  exact ⟨_, operator, operands, hq, (operator?_of_nameless h value name).trans hoperator, hu⟩

namespace Operand

variable {p : Program} {slots : Slots} {v : ValueId} {operand : Operand}

/-- The operand of the value `v` in a statement. -/
structure StandsFor (p : Program) (slots : Slots) (v : ValueId) (operand : Operand) : Prop where
  value : operand.value = some v
  /-- A slot is referred to with its version. -/
  version : p.isParameter v = false → operand.version = slots.version? v
  mentions : ∃ parts, operand.mentions = v :: parts ∧ ∀ u ∈ parts, p.Operates v u

theorem StandsFor.of_nameless {q : Program} (hpq : q.nameless = p.nameless)
    (h : operand.StandsFor p slots v) : operand.StandsFor q slots v where
  value := h.value
  version hv := h.version (Program.isParameter_of_nameless hpq v ▸ hv)
  mentions := by
    obtain ⟨parts, hparts, hoperates⟩ := h.mentions
    exact ⟨parts, hparts, fun u hu => (hoperates u hu).of_nameless hpq⟩

theorem StandsFor.count_mentions (h : operand.StandsFor p slots v) {u : ValueId}
    (hu : ¬p.Operates v u) : operand.mentions.count u = if v = u then 1 else 0 := by
  obtain ⟨parts, hparts, hoperates⟩ := h.mentions
  have hnot : u ∉ parts := fun hmem => hu (hoperates u hmem)
  rw [hparts, List.count_cons, List.count_eq_zero.2 hnot, Nat.zero_add]
  simp only [beq_iff_eq]

theorem value_of_subscript {address index : ValueId} {s : Subscript}
    (h : subscript p address index = .ok s) : s.value = index := by
  unfold subscript at h
  obtain ⟨value, -, h⟩ := Pass.bind_eq_ok.1 h
  split at h
  · obtain ⟨memory, -, h⟩ := Pass.bind_eq_ok.1 h
    cases h
    rfl
  · cases h

theorem values_of_subscripts {address : ValueId} {indices : List ValueId} {ss : List Subscript}
    (h : indices.mapM (subscript p address) = .ok ss) : ss.map Subscript.value = indices := by
  induction indices generalizing ss with
  | nil =>
    cases h
    rfl
  | cons index indices ih =>
    rw [List.mapM_cons] at h
    obtain ⟨s, hs, h⟩ := Pass.bind_eq_ok.1 h
    obtain ⟨rest, hrest, h⟩ := Pass.bind_eq_ok.1 h
    cases h
    rw [List.map_cons, value_of_subscript hs, ih hrest]

/-- An element address is made of the operands of its operator. -/
theorem mem_address {kind : Kind} {operator : Option (Operator × List ValueId)}
    {address : Option ElementAddress} (h : address? p v kind operator = .ok address) {u : ValueId}
    (hu : u ∈ (address.map ElementAddress.base).toList ++
      ((address.map ElementAddress.subscripts).getD []).map Subscript.value) :
    ∃ name operands, operator = some (name, operands) ∧ u ∈ operands := by
  unfold address? at h
  split at h
  · rename_i name operands
    refine ⟨name, operands, rfl, ?_⟩
    cases operands with
    | nil => cases h
    | cons base indices =>
      cases hss : indices.mapM (subscript p v) with
      | error fault =>
        rw [elementAddress, hss] at h
        cases h
      | ok ss =>
        rw [elementAddress, hss] at h
        cases h
        simpa [values_of_subscripts hss] using hu
  · cases h
    simp at hu

theorem mentions_ofValue (h : ofValue p v = .ok operand) :
    ∃ parts, operand.mentions = v :: parts ∧ ∀ u ∈ parts, p.Operates v u := by
  unfold ofValue at h
  obtain ⟨value, hvalue, h⟩ := Pass.bind_eq_ok.1 h
  obtain ⟨operator, hoperator, h⟩ := Pass.bind_eq_ok.1 h
  obtain ⟨address, haddress, h⟩ := Pass.bind_eq_ok.1 h
  obtain ⟨memory, -, h⟩ := Pass.bind_eq_ok.1 h
  cases h
  refine ⟨_, by rw [mentions, List.append_assoc]; rfl, fun u hu => ?_⟩
  obtain ⟨name, operands, rfl, hmem⟩ := mem_address haddress hu
  exact ⟨value, name, operands, (Program.value_eq_ok_iff p).1 hvalue, hoperator, hmem⟩

theorem ofValue_of_supported (h : supported p v = .ok operand) : ofValue p v = .ok operand := by
  unfold supported at h
  obtain ⟨value, -, h⟩ := Pass.bind_eq_ok.1 h
  obtain ⟨found, hfound, h⟩ := Pass.bind_eq_ok.1 h
  split at h
  · cases h
  · cases h
    exact hfound

end Operand

/-! ### Tables of operands -/

namespace Shared

/-- Every shared operand is related to its value by `Q`. -/
def All (Q : ValueId → Operand → Prop) (shared : Shared) : Prop :=
  ∀ v operand, shared.get? v = some operand → Q v operand

theorem all_empty (Q : ValueId → Operand → Prop) : All Q {} := by
  intro v operand h
  cases h

theorem All.insert {Q : ValueId → Operand → Prop} {shared : Shared} (h : All Q shared) {v : ValueId}
    {operand : Operand} (hv : Q v operand) : All Q (Table.insert shared v operand) := by
  intro u other hu
  rw [Table.get?_insert] at hu
  split at hu
  · rename_i e
    cases hu
    exact e ▸ hv
  · exact h u other hu

end Shared

section All

variable {p : Program} {Q : ValueId → Operand → Prop}
  (hQ : ∀ v operand, Operand.ofValue p v = .ok operand → Q v operand)

include hQ

theorem Shared.yields_operand (v : ValueId) :
    Pass.Yields (Shared.All Q) (Q v) (Shared.operand p v) := by
  refine Pass.yields_get_bind fun shared hshared => ?_
  split
  · rename_i operand hget
    exact Pass.yields_pure (hshared v operand hget)
  · intro s operand t hs h
    obtain ⟨found, _, hlift, h⟩ := Pass.outcome_bind_ok.1 h
    obtain ⟨hfound, rfl⟩ := Pass.outcome_lift_ok.1 hlift
    cases h
    exact ⟨hQ v operand hfound, hs.insert (hQ v operand hfound)⟩

/-- What holds of the operand of a value, whatever its version, holds of the operands in
statements. -/
theorem Operand.yields_resolve_all
    (hversion : ∀ v operand version, Q v operand → Q v { operand with version }) (slots : Slots)
    (v : ValueId) : Pass.Yields (Shared.All Q) (Q v) (resolve p slots v) := by
  have hsupported {operand : Operand} (h : supported p v = .ok operand) : Q v operand :=
    hQ v operand (ofValue_of_supported h)
  refine (Pass.yields_lift (Q := fun _ => True) fun _ _ => trivial).bind fun value _ => ?_
  split
  · refine Pass.yields_get_bind fun shared hshared => ?_
    split
    · rename_i operand hget
      exact Pass.yields_pure (hshared v operand hget)
    · intro s operand t hs h
      obtain ⟨found, _, hlift, h⟩ := Pass.outcome_bind_ok.1 h
      obtain ⟨hfound, rfl⟩ := Pass.outcome_lift_ok.1 hlift
      cases h
      exact ⟨hsupported hfound, hs.insert (hsupported hfound)⟩
  · exact (Pass.yields_lift (Q := Q v) fun _ h => hsupported h).bind fun operand hoperand =>
      Pass.yields_pure (hversion v operand _ hoperand)

end All

/-! ### What the operands of a statement stand for -/

namespace Shared

/-- Every shared operand stands for its value. -/
def StandFor (p : Program) (slots : Slots) (shared : Shared) : Prop :=
  ∀ v operand, shared.get? v = some operand → operand.StandsFor p slots v

theorem standFor_empty (p : Program) (slots : Slots) : StandFor p slots {} := all_empty _

theorem StandFor.insert {p : Program} {slots : Slots} {shared : Shared} {v : ValueId}
    {operand : Operand} (h : shared.StandFor p slots) (hv : operand.StandsFor p slots v) :
    StandFor p slots (Table.insert shared v operand) := All.insert h hv

end Shared

theorem Operand.yields_resolve (p : Program) (slots : Slots) (v : ValueId) :
    Pass.Yields (Shared.StandFor p slots) (StandsFor p slots v) (resolve p slots v) := by
  refine (Pass.yields_lift (Q := fun value => p.value? v = some value) fun value hvalue =>
    (Program.value_eq_ok_iff p).1 hvalue).bind fun value hvalue => ?_
  split
  · rename_i hargument
    refine Pass.yields_get_bind fun shared hshared => ?_
    split
    · rename_i operand hget
      exact Pass.yields_pure (hshared v operand hget)
    · intro s operand t hs h
      obtain ⟨found, _, hlift, h⟩ := Pass.outcome_bind_ok.1 h
      obtain ⟨hfound, rfl⟩ := Pass.outcome_lift_ok.1 hlift
      cases h
      have hparam : p.isParameter v = true := by
        rw [Program.isParameter, hvalue]
        exact hargument
      have hstands : operand.StandsFor p slots v :=
        ⟨value_supported hfound, fun hother => absurd (hparam.symm.trans hother) Bool.noConfusion,
          mentions_ofValue (ofValue_of_supported hfound)⟩
      exact ⟨hstands, hs.insert hstands⟩
  · refine (Pass.yields_lift (Q := fun found => supported p v = .ok found) fun _ h => h).bind
      fun found hfound => Pass.yields_pure ?_
    have hvalue := value_supported hfound
    have hmentions := mentions_ofValue (ofValue_of_supported hfound)
    exact ⟨hvalue, fun _ => rfl, hmentions⟩

namespace Statement

variable {p : Program} {slots : Slots} {inst : Inst} {s : Statement}

/-- What the statement `s` of an instruction refers to, with what the operands mention. -/
abbrev Refers (p : Program) (slots : Slots) (inst : Inst) (s : Statement) : Prop :=
  s.Cites (fun v operand => operand.StandsFor p slots v) inst

theorem Refers.of_nameless {q : Program} (hpq : q.nameless = p.nameless)
    (h : Refers p slots inst s) : Refers q slots inst s :=
  h.imp fun _ _ hstands => hstands.of_nameless hpq

/-- A statement mentions operands of its instruction, and what they are computed from. -/
theorem Refers.mem_mentions (h : Refers p slots inst s) {v : ValueId} (hv : v ∈ s.mentions) :
    v ∈ inst.valueOperands ∨ ∃ u, p.Operates u v := by
  obtain ⟨r, hr, hmem⟩ := List.mem_flatMap.1 hv
  rcases h.uses r hr with rfl | ⟨u, hu, hstands⟩
  · cases hmem
  · obtain ⟨parts, hparts, hoperates⟩ := hstands.mentions
    rw [hparts] at hmem
    rcases List.mem_cons.1 hmem with rfl | hmem
    · exact .inl hu
    · exact .inr ⟨u, hoperates v hmem⟩

/-- The references of the statement of an instruction stand for its operands and its result. -/
theorem refers_ofInst (i : InstId) : Pass.Yields (Shared.StandFor p slots)
    (fun s => ∃ inst, p.inst? i = some inst ∧ Refers p slots inst s) (ofInst p slots i) :=
  yields_ofInst (Operand.yields_resolve p slots) i

end Statement

end LevelIr
