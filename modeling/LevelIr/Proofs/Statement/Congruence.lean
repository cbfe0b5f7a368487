import LevelIr.Proofs.Faults
import LevelIr.Proofs.Names
import LevelIr.Proofs.Pass.Simulates

/-!
# How a statement depends on names

While a program is listed, its registers are named one after another.  An operand that was made
before does not change by that: it knows whether its own value has a name, and of all other values
only those that it could not be made without.

* `Operand.supported_of_namesMore` : the operand of a value is the same if more registers have
  names, unless the value is one of these registers itself.
* `Statement.ofInst_congrFor`, `Statement.ofInst_congr` : a statement depends on the program only
  through the operands of the values that its instruction touches; said once for all congruences.
-/

namespace LevelIr

/-! ### Operands -/

namespace Operand

variable {p q : Program}

theorem subscript_of_namesMore (h : p.NamesMore q) {address index : ValueId} {s : Subscript}
    (hs : subscript p address index = .ok s) : subscript q address index = .ok s := by
  unfold subscript at hs
  obtain ⟨value, hvalue, hs⟩ := Pass.bind_eq_ok.1 hs
  rw [Program.value_eq_ok_iff] at hvalue
  obtain ⟨name, hq⟩ := Program.value?_of_nameless h.nameless hvalue
  split at hs
  · rename_i hfits
    -- an integer constant is no register, and any other subscript has a name already
    have hnamed : ({ value with name } : Value).isNamed = value.isNamed := by
      have hsame : q.isNamed index = p.isNamed index := by
        refine h.isNamed_eq ?_
        rcases Bool.or_eq_true_iff.1 hfits with hinteger | hregister
        · refine h.isNamed_of_not_isRegister ?_
          rw [Program.isRegister, hvalue]
          cases horigin : value.origin <;> simp_all [Origin.isInteger, Origin.isAttached]
        · intro _
          rw [Program.isNamed, hvalue]
          exact (Bool.and_eq_true_iff.1 hregister).2
      rwa [Program.isNamed, Program.isNamed, hq, hvalue] at hsame
    obtain ⟨memory, hmemory, hs⟩ := Pass.bind_eq_ok.1 hs
    unfold subscript
    refine Pass.bind_eq_ok.2 ⟨_, (Program.value_eq_ok_iff q).2 hq, ?_⟩
    simp only [hnamed, hfits, if_true]
    refine Pass.bind_eq_ok.2 ⟨memory, ?_, hs⟩
    rw [Program.isMemory_of_nameless h.nameless, hmemory]
  · cases hs

theorem subscripts_of_namesMore (h : p.NamesMore q) {address : ValueId} {indices : List ValueId}
    {ss : List Subscript} (hs : indices.mapM (subscript p address) = .ok ss) :
    indices.mapM (subscript q address) = .ok ss := by
  induction indices generalizing ss with
  | nil => exact hs
  | cons index indices ih =>
    rw [List.mapM_cons] at hs ⊢
    obtain ⟨s, hs, hrest⟩ := Pass.bind_eq_ok.1 hs
    obtain ⟨rest, hrest, hcons⟩ := Pass.bind_eq_ok.1 hrest
    exact Pass.bind_eq_ok.2 ⟨s, subscript_of_namesMore h hs,
      Pass.bind_eq_ok.2 ⟨rest, ih hrest, hcons⟩⟩

theorem elementAddress_of_namesMore (h : p.NamesMore q) {v : ValueId} {operands : List ValueId}
    {address : ElementAddress} (ha : elementAddress p v operands = .ok address) :
    elementAddress q v operands = .ok address := by
  cases operands with
  | nil => cases ha
  | cons base indices =>
    obtain ⟨ss, hss, ha⟩ := Pass.bind_eq_ok.1 ha
    exact Pass.bind_eq_ok.2 ⟨ss, subscripts_of_namesMore h hss, ha⟩

theorem address?_of_namesMore (h : p.NamesMore q) {v : ValueId} {kind : Kind}
    {operator : Option (Operator × List ValueId)} {address : Option ElementAddress}
    (ha : address? p v kind operator = .ok address) : address? q v kind operator = .ok address := by
  unfold address? at ha ⊢
  split at ha
  · cases hfound : elementAddress p v _ with
    | error fault =>
      rw [hfound] at ha
      cases ha
    | ok found =>
      rw [hfound] at ha
      rw [elementAddress_of_namesMore h hfound]
      exact ha
  · exact ha

/-- The operand of a value is the same if more registers have names, unless the value is one of
these registers itself. -/
theorem ofValue_of_namesMore (h : p.NamesMore q) {v : ValueId} {operand : Operand}
    (hv : q.isNamed v = true → p.isNamed v = true) (ho : ofValue p v = .ok operand) :
    ofValue q v = .ok operand := by
  unfold ofValue at ho
  obtain ⟨value, hvalue, ho⟩ := Pass.bind_eq_ok.1 ho
  obtain ⟨operator, hoperator, ho⟩ := Pass.bind_eq_ok.1 ho
  obtain ⟨address, haddress, ho⟩ := Pass.bind_eq_ok.1 ho
  obtain ⟨memory, hmemory, ho⟩ := Pass.bind_eq_ok.1 ho
  rw [Program.value_eq_ok_iff] at hvalue
  obtain ⟨name, hq⟩ := Program.value?_of_nameless h.nameless hvalue
  have hnamed : ({ value with name } : Value).isNamed = value.isNamed := by
    have hsame := h.isNamed_eq hv
    rwa [Program.isNamed, Program.isNamed, hq, hvalue] at hsame
  have hkind : Kind.ofValue { value with name } operator = Kind.ofValue value operator := by
    unfold Kind.ofValue
    rw [hnamed]
  unfold ofValue
  refine Pass.bind_eq_ok.2 ⟨_, (Program.value_eq_ok_iff q).2 hq, Pass.bind_eq_ok.2 ⟨operator, ?_,
    Pass.bind_eq_ok.2 ⟨address, ?_, Pass.bind_eq_ok.2 ⟨memory, ?_, ?_⟩⟩⟩⟩
  · rw [Program.operator?_of_nameless h.nameless, hoperator]
  · rw [hkind]
    exact address?_of_namesMore h haddress
  · rw [Program.isMemory_of_nameless h.nameless, hmemory]
  · rw [hkind, hnamed]
    exact ho

theorem supported_of_namesMore (h : p.NamesMore q) {v : ValueId} {operand : Operand}
    (hv : q.isNamed v = true → p.isNamed v = true) (ho : supported p v = .ok operand) :
    supported q v = .ok operand := by
  unfold supported at ho
  obtain ⟨value, hvalue, ho⟩ := Pass.bind_eq_ok.1 ho
  obtain ⟨found, hfound, ho⟩ := Pass.bind_eq_ok.1 ho
  rw [Program.value_eq_ok_iff] at hvalue
  obtain ⟨name, hq⟩ := Program.value?_of_nameless h.nameless hvalue
  unfold supported
  refine Pass.bind_eq_ok.2 ⟨_, (Program.value_eq_ok_iff q).2 hq,
    Pass.bind_eq_ok.2 ⟨found, ofValue_of_namesMore h hv hfound, ?_⟩⟩
  split at ho
  · cases ho
  · rename_i hkind
    rw [if_neg hkind]
    exact ho

end Operand

/-! ### Statements -/

/-- The values that an instruction touches: those that it reads, and its result. -/
def Inst.touched (inst : Inst) : List ValueId := inst.valueOperands ++ inst.result.toList

namespace Inst

theorem mem_touched_of_getElem? {inst : Inst} {position : Nat} {v : ValueId}
    (h : inst.valueOperands[position]? = some v) : v ∈ inst.touched :=
  List.mem_append_left _ (List.mem_of_getElem? h)

theorem mem_touched_of_arguments {inst : Inst} {v : ValueId} (h : v ∈ inst.arguments) :
    v ∈ inst.touched :=
  List.mem_append_left _ ((List.dropLast_sublist _).filterMap _ |>.subset h)

theorem mem_touched_of_calleeOperand? {inst : Inst} {v : ValueId}
    (h : inst.calleeOperand? = some v) : v ∈ inst.touched := by
  obtain ⟨arg, harg, hv⟩ := Option.bind_eq_some_iff.1 h
  exact List.mem_append_left _ (List.mem_filterMap.2 ⟨arg, List.mem_of_getLast? harg, hv⟩)

end Inst

section Congruence

variable {F : Fault → Prop} {R : (α : Type) → Pass Shared α → Pass Shared α → Prop}
  (hR : Pass.CongruenceFor F R) {p q : Program} {slots : Slots}

include hR

namespace Reference

theorem resolve_congr {v : ValueId}
    (h : R Operand (Operand.resolve p slots v) (Operand.resolve q slots v)) (level : Int) :
    R Reference (resolve p slots level v) (resolve q slots level v) :=
  hR.bind h fun _ => hR.pure _

theorem resolveAll_congr {values : List ValueId}
    (h : ∀ v ∈ values, R Operand (Operand.resolve p slots v) (Operand.resolve q slots v)) :
    R (List Reference) (resolveAll p slots values) (resolveAll q slots values) :=
  hR.mapM fun v hv => resolve_congr hR (h v hv) 0

theorem resolveAddressed_congr {values : List ValueId}
    (h : ∀ v ∈ values, R Operand (Operand.resolve p slots v) (Operand.resolve q slots v)) :
    R (List Reference) (resolveAddressed p slots values) (resolveAddressed q slots values) := by
  cases values with
  | nil => exact hR.pure _
  | cons v values =>
    exact hR.bind (resolve_congr hR (h v List.mem_cons_self) 1) fun _ =>
      hR.bind (resolveAll_congr hR fun u hu => h u (List.mem_cons_of_mem v hu)) fun _ => hR.pure _

end Reference

namespace Statement

variable (hF : ∀ fault : Fault, fault.ordinary = true → F fault) (hpq : q.nameless = p.nameless)
  {i : InstId} {inst : Inst}
  (h : ∀ v ∈ inst.touched, R Operand (Operand.resolve p slots v) (Operand.resolve q slots v))

include hF hpq h

theorem callee_congr : R Callee (callee p slots i inst) (callee q slots i inst) := by
  unfold callee
  rw [Program.directCallee?_of_nameless hpq]
  cases p.directCallee? inst with
  | some f =>
    simp only [Program.function_of_nameless hpq]
    exact hR.lift_bind (fun fault hfault => hF fault (p.ordinary_function f fault hfault))
      fun _ _ => hR.pure _
  | none =>
    cases hcallee : inst.calleeOperand? with
    | none => exact hR.throw _ (hF _ rfl)
    | some v =>
      have hv := Inst.mem_touched_of_calleeOperand? hcallee
      exact hR.bind (Reference.resolve_congr hR (h v hv) 0) fun _ => hR.pure _

theorem form_congr (result : Option Reference) :
    R (Action × List Reference × Option Reference) (form p slots i inst result)
      (form q slots i inst result) := by
  have hoperand {position : Nat} {v : ValueId} (hv : valueOperand i inst position = .ok v)
      (level : Int) : R Reference (Reference.resolve p slots level v)
        (Reference.resolve q slots level v) := by
    refine Reference.resolve_congr hR (h v ?_) level
    unfold valueOperand at hv
    split at hv
    · cases hv
      exact Inst.mem_touched_of_getElem? (by assumption)
    · cases hv
  have hvalues (v : ValueId) (hv : v ∈ inst.valueOperands) :=
    h v (List.mem_append_left _ hv)
  have harguments := Reference.resolveAll_congr hR fun v (hv : v ∈ inst.arguments) =>
    h v (Inst.mem_touched_of_arguments hv)
  have hcallee := callee_congr hR hF hpq (i := i) h
  have hfault (position : Nat) (fault : Fault)
      (hfault : valueOperand i inst position = .error fault) : F fault :=
    hF fault (ordinary_valueOperand i inst position fault hfault)
  unfold form
  split
  case h_1 | h_2 | h_3 => exact hR.pure _
  case h_4 =>
    exact hR.lift_bind (hfault 0) fun v hv => hR.bind (hoperand hv 1) fun _ => hR.pure _
  case h_5 =>
    exact hR.lift_bind (hfault 0) fun v hv => hR.lift_bind (hfault 1) fun a ha =>
      hR.bind (hoperand hv 0) fun _ => hR.bind (hoperand ha 1) fun _ => hR.pure _
  case h_6 | h_7 =>
    exact hR.bind (Reference.resolveAddressed_congr hR hvalues) fun _ => hR.pure _
  case h_8 | h_9 | h_10 =>
    exact hR.bind hcallee fun _ => hR.bind harguments fun _ => hR.pure _
  case h_11 =>
    cases hoperands : inst.valueOperands with
    | nil => exact hR.pure _
    | cons v rest =>
      have hv := hvalues v (hoperands ▸ List.mem_cons_self)
      exact hR.bind (Reference.resolve_congr hR hv 0) fun _ => hR.pure _
  case h_12 =>
    simp only [Program.switchCases_of_nameless hpq]
    have hcases (fault : Fault)
        (hfault : switchCases p i (inst.operands.drop 2) = .error fault) : F fault :=
      hF fault (ordinary_switchCases p i _ fault hfault)
    exact hR.lift_bind (hfault 0) fun v hv => hR.lift_bind hcases fun _ _ =>
      hR.bind (hoperand hv 0) fun _ => hR.pure _
  case h_13 => exact hR.bind (Reference.resolveAll_congr hR hvalues) fun _ => hR.pure _

omit h in
/-- A statement depends on the program only through the operands of the values that its instruction
touches, and only these can have faults that are not ordinary. -/
theorem ofInst_congrFor (i : InstId) (h : ∀ inst, p.inst? i = some inst → ∀ v ∈ inst.touched,
      R Operand (Operand.resolve p slots v) (Operand.resolve q slots v)) :
    R Statement (ofInst p slots i) (ofInst q slots i) := by
  unfold ofInst
  rw [Program.inst_of_nameless hpq]
  refine hR.lift_bind (fun fault hfault => hF fault (p.ordinary_inst i fault hfault))
    fun inst hinst => ?_
  have htouched := h inst ((Program.inst_eq_ok_iff p).1 hinst)
  refine hR.bind (hR.optionMapM fun v hv => ?_) fun result => ?_
  · have hmem : v ∈ inst.touched := List.mem_append_right _ (Option.mem_toList.2 hv)
    exact Reference.resolve_congr hR (htouched v hmem) 0
  · exact hR.bind (form_congr hR hF hpq htouched result) fun _ => hR.pure _

end Statement

end Congruence

/-- A statement depends on the program only through the operands of the values that its instruction
touches. -/
theorem Statement.ofInst_congr {R : (α : Type) → Pass Shared α → Pass Shared α → Prop}
    (hR : Pass.Congruence R) {p q : Program} {slots : Slots} (hpq : q.nameless = p.nameless)
    (i : InstId) (h : ∀ inst, p.inst? i = some inst → ∀ v ∈ inst.touched,
      R Operand (Operand.resolve p slots v) (Operand.resolve q slots v)) :
    R Statement (ofInst p slots i) (ofInst q slots i) :=
  ofInst_congrFor hR (fun _ _ => trivial) hpq i h

end LevelIr
