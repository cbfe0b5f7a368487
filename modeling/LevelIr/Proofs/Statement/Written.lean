import LevelIr.Proofs.Program.Cursor
import LevelIr.Proofs.Statement.OfInst

/-!
# Statements of written instructions

A cursor writes an instruction as one list of operands: a phi as pairs of a value and a block, a
switch as such pairs after the value and the default, a conditional branch with its blocks the other
way round, a call with the callee after the arguments, and a call that ends a block with its blocks
in between.  The statement of an instruction takes the list apart again.

* `Writing` : the instructions whose operands have a layout of their own, with the arguments that
  they are written with.
* `Writing.layout?` : the list of operands that is written.
* `Writing.ReadBack` : what a statement says if it holds those arguments again.
* `Writing.readBack_of_write` : every statement of a written instruction does, however the program
  was edited since, as long as the operands of the instruction are still the same.
-/

namespace LevelIr

/-- An instruction whose operands have a layout of their own, with what it is written with. -/
inductive Writing where
  /-- A choice by the block that control comes from. -/
  | phi (type : Ty) (incoming : List (ValueId × BlockId)) (name : String)
  /-- A choice of a block by the cases of a value. -/
  | switch (value : ValueId) (default : BlockId) (cases : List (ValueId × BlockId))
  /-- A choice between two blocks. -/
  | branchIf (condition : ValueId) (whenTrue whenFalse : BlockId)
  /-- A call of a function. -/
  | call (callee : FunctionId) (arguments : List ValueId) (name : String)
  /-- A call through a value. -/
  | callThrough (callee : ValueId) (result : Ty) (arguments : List ValueId) (name : String)
  /-- The address of an element. -/
  | elementAddress (type : Ty) (base : ValueId) (indices : List ValueId) (name : String)
  /-- A call that goes on at one of two blocks; what else it has is that of the draft. -/
  | invoke (draft : Draft) (arguments : List ValueId) (targets : List BlockId) (callee : ValueId)
  /-- A call that goes on at one of some blocks; what else it has is that of the draft. -/
  | callBranch (draft : Draft) (arguments : List ValueId) (targets : List BlockId)
      (callee : ValueId)

/-- The operands of a call that ends a block: the arguments, the blocks where it goes on, and the
callee. -/
def Arg.ofTransfer (arguments : List ValueId) (targets : List BlockId) (callee : ValueId) :
    List Arg :=
  arguments.map .value ++ targets.map .block ++ [.value callee]

/-- The operands that name pairs of a value and a block. -/
def Arg.ofPairs (pairs : List (ValueId × BlockId)) : List Arg :=
  pairs.flatMap fun pair => [.value pair.1, .block pair.2]

/-- What is written of an instruction: what it does, and its operands. -/
def Inst.layout (inst : Inst) : Opcode × List Arg := (inst.opcode, inst.operands)

namespace Writing

/-- The program with the instruction at the end of a block. -/
def write (c : Cursor) (p : Program) : Writing → Program
  | phi type incoming name => ((c.phi type incoming name).outcome p).2
  | switch value default cases => ((c.switch value default cases).run p).2
  | branchIf condition whenTrue whenFalse => ((c.branchIf condition whenTrue whenFalse).run p).2
  | call callee arguments name => ((c.call callee arguments name).outcome p).2
  | callThrough callee result arguments name =>
    ((c.callThrough callee result arguments name).run p).2
  | elementAddress type base indices name =>
    ((c.elementAddress type base indices name).outcome p).2
  | invoke draft arguments targets callee =>
    ((c.push { draft with
      opcode := .invoke, operands := Arg.ofTransfer arguments targets callee }).run p).2
  | callBranch draft arguments targets callee =>
    ((c.push { draft with
      opcode := .callBr, operands := Arg.ofTransfer arguments targets callee }).run p).2

/-- What is added to the block; nothing, if a function is called that is not there. -/
def draft? (p : Program) : Writing → Option Draft
  | phi type incoming name =>
    some { opcode := .phi, operands := Arg.ofPairs incoming, type, name }
  | switch value default cases =>
    some { opcode := .switch, operands := .value value :: .block default :: Arg.ofPairs cases }
  | branchIf condition whenTrue whenFalse =>
    some { opcode := .br, operands := [.value condition, .block whenFalse, .block whenTrue] }
  | call callee arguments name => (p.function? callee).map fun function =>
    { opcode := .call, operands := arguments.map .value ++ [.value function.value]
      type := p.resultType callee, name }
  | callThrough callee result arguments name =>
    some
      { opcode := .call, operands := arguments.map .value ++ [.value callee], type := result, name }
  | elementAddress type base indices name =>
    some { opcode := .getElementPtr, operands := (base :: indices).map .value, type, name }
  | invoke draft arguments targets callee =>
    some { draft with opcode := .invoke, operands := Arg.ofTransfer arguments targets callee }
  | callBranch draft arguments targets callee =>
    some { draft with opcode := .callBr, operands := Arg.ofTransfer arguments targets callee }

end Writing

/-- What a call through a value calls. -/
structure Program.CallsThrough (p : Program) (v : ValueId) (callee : Callee) : Prop where
  /-- The function that the value stands for, with its parameters if it has a body. -/
  direct : ∀ f, p.origin? v = some (.function f) → ∃ function, p.function? f = some function ∧
    callee = .direct f (if function.isDeclaration then [] else function.params)
  /-- Whatever another value points to. -/
  indirect : (∀ f, p.origin? v ≠ some (.function f)) →
    ∃ target, callee = .indirect target ∧ target.IsAt 0 v

/-- The operands of a statement are references to the given values, in order. -/
def Statement.ReadsAll (s : Statement) (values : List ValueId) : Prop :=
  List.Forall₂ (Reference.IsAt 0) values s.operands

/-- A statement holds again what the instruction was written with. -/
def Writing.ReadBack (p : Program) (s : Statement) : Writing → Prop
  | phi _ incoming _ => ∃ blocks, s.action = .phi blocks ∧
    (s.operands.filterMap Reference.value).zip blocks = incoming ∧
    s.ReadsAll (incoming.map Prod.fst) ∧ blocks.length = incoming.length
  | switch value default cases => ∃ numbers, s.action = .switch (some default) numbers ∧
    List.Forall₂ (fun case number => p.origin? case.1 = some (.integer number.1) ∧
      number.2 = case.2) cases numbers ∧
    s.ReadsAll [value]
  | branchIf condition whenTrue whenFalse =>
    s.action = .branch true [whenTrue, whenFalse] ∧ s.ReadsAll [condition]
  | call callee arguments _ => ∃ function, p.function? callee = some function ∧
    s.action = .call (.direct callee (if function.isDeclaration then [] else function.params)) ∧
    s.ReadsAll arguments
  | callThrough callee _ arguments _ => ∃ called, s.action = .call called ∧
    p.CallsThrough callee called ∧ s.ReadsAll arguments
  | elementAddress _ base indices _ =>
    s.action = .elementAddress ∧ s.ReadsAll (base :: indices)
  | invoke _ arguments targets callee => ∃ called,
    s.action = .invoke called targets[0]? targets[1]? ∧ p.CallsThrough callee called ∧
    s.ReadsAll arguments
  | callBranch _ arguments targets callee => ∃ called,
    s.action = .callBranch called targets[0]? (targets.drop 1) ∧ p.CallsThrough callee called ∧
    s.ReadsAll arguments

/-! ### What a cursor writes -/

theorem Cursor.layout_push (c : Cursor) (draft : Draft) (p : Program) :
    (((c.push draft).run p).2.inst? ⟨p.insts.size⟩).map Inst.layout =
      some (draft.opcode, draft.operands) := by
  rw [push_eq_placed, Program.inst?_placed, if_pos rfl]
  rfl

namespace Writing

variable {p q : Program}

/-- Writing adds the draft to the block. -/
theorem write_eq (c : Cursor) (p : Program) (writing : Writing) :
    writing.write c p = match writing.draft? p with
      | some draft => ((c.push draft).run p).2
      | none => p := by
  cases writing with
  | phi | elementAddress => exact c.define_state _ p
  | switch | branchIf | callThrough | invoke | callBranch => rfl
  | call callee arguments name =>
    change ((c.call callee arguments name).outcome p).2 = _
    cases hfunction : p.function? callee with
    | none =>
      unfold Cursor.call
      rw [Pass.outcome_bind, Pass.outcome_get]
      simp only
      rw [Pass.outcome_bind, Pass.outcome_lift, Program.function, draft?, hfunction]
      rfl
    | some function =>
      rw [Cursor.call_state hfunction, draft?, hfunction]
      rfl

/-- The instruction that is written has the operands of the draft. -/
theorem layout_write (c : Cursor) (p : Program) (writing : Writing) :
    ((writing.write c p).inst? ⟨p.insts.size⟩).map Inst.layout =
      (writing.draft? p).map fun draft => (draft.opcode, draft.operands) := by
  rw [write_eq]
  cases writing.draft? p with
  | none => simp [Program.inst?]
  | some draft => exact c.layout_push draft p

/-- Writing an instruction changes no value. -/
theorem origin?_write (c : Cursor) (writing : Writing) {v : ValueId} {origin : Origin}
    (h : p.origin? v = some origin) : (writing.write c p).origin? v = some origin := by
  rw [write_eq]
  cases writing.draft? p with
  | none => exact h
  | some draft =>
    dsimp only
    rw [Cursor.push_eq_placed]
    exact Program.origin?_placed h _ _ _

end Writing

/-! ### Taking operands apart -/

namespace Arg

theorem filterMap_value?_map_value (values : List ValueId) :
    (values.map Arg.value).filterMap Arg.value? = values := by
  induction values with
  | nil => rfl
  | cons v values ih => exact congrArg (v :: ·) ih

theorem filterMap_block?_map_value (values : List ValueId) :
    (values.map Arg.value).filterMap Arg.block? = [] := by
  simp [List.filterMap_eq_nil_iff, Arg.block?]

theorem filterMap_value?_map_block (blocks : List BlockId) :
    (blocks.map Arg.block).filterMap Arg.value? = [] := by
  simp [List.filterMap_eq_nil_iff, Arg.value?]

theorem filterMap_block?_map_block (blocks : List BlockId) :
    (blocks.map Arg.block).filterMap Arg.block? = blocks := by
  induction blocks with
  | nil => rfl
  | cons b blocks ih => exact congrArg (b :: ·) ih

theorem filterMap_value?_ofPairs (pairs : List (ValueId × BlockId)) :
    (ofPairs pairs).filterMap Arg.value? = pairs.map Prod.fst := by
  induction pairs with
  | nil => rfl
  | cons pair pairs ih => exact congrArg (pair.1 :: ·) ih

theorem filterMap_block?_ofPairs (pairs : List (ValueId × BlockId)) :
    (ofPairs pairs).filterMap Arg.block? = pairs.map Prod.snd := by
  induction pairs with
  | nil => rfl
  | cons pair pairs ih => exact congrArg (pair.2 :: ·) ih

theorem filterMap_block?_ofTransfer (arguments : List ValueId) (targets : List BlockId)
    (callee : ValueId) : (ofTransfer arguments targets callee).filterMap Arg.block? = targets := by
  rw [ofTransfer, List.filterMap_append, List.filterMap_append, filterMap_block?_map_value,
    filterMap_block?_map_block]
  exact List.append_nil targets

end Arg

/-- The operands of a call, of whatever kind: the callee is the last one. -/
structure Inst.IsCall (inst : Inst) (arguments : List ValueId) (callee : ValueId) : Prop where
  opcode : inst.opcode.isCall = true
  arguments : inst.arguments = arguments
  callee : inst.calleeOperand? = some callee

theorem Inst.isCall_of_call {inst : Inst} {arguments : List ValueId} {callee : ValueId}
    (hopcode : inst.opcode.isCall = true)
    (hoperands : inst.operands = arguments.map .value ++ [.value callee]) :
    inst.IsCall arguments callee where
  opcode := hopcode
  arguments := by
    rw [Inst.arguments, hoperands, List.dropLast_concat, Arg.filterMap_value?_map_value]
  callee := by simp [Inst.calleeOperand?, hoperands, Arg.value?]

theorem Inst.isCall_of_transfer {inst : Inst} {arguments : List ValueId} {targets : List BlockId}
    {callee : ValueId} (hopcode : inst.opcode.isCall = true)
    (hoperands : inst.operands = Arg.ofTransfer arguments targets callee) :
    inst.IsCall arguments callee where
  opcode := hopcode
  arguments := by
    rw [Inst.arguments, hoperands, Arg.ofTransfer, List.dropLast_concat, List.filterMap_append,
      Arg.filterMap_value?_map_value, Arg.filterMap_value?_map_block, List.append_nil]
  callee := by simp [Inst.calleeOperand?, hoperands, Arg.ofTransfer, Arg.value?]

theorem Reference.filterMap_value {values : List ValueId} {rs : List Reference}
    (h : List.Forall₂ (IsAt 0) values rs) : rs.filterMap Reference.value = values := by
  induction h with
  | nil => rfl
  | cons hr _ ih => rw [List.filterMap_cons_some hr.2, ih]

namespace Statement

variable {p : Program} {slots : Slots} {i : InstId}

theorem switchCases_ofPairs {cases : List (ValueId × BlockId)} {numbers : List (Int × BlockId)}
    (h : switchCases p i (Arg.ofPairs cases) = .ok numbers) :
    List.Forall₂ (fun case number => p.origin? case.1 = some (.integer number.1) ∧
      number.2 = case.2) cases numbers := by
  induction cases generalizing numbers with
  | nil =>
    cases h
    exact .nil
  | cons pair cases ih =>
    obtain ⟨v, b⟩ := pair
    change switchCases p i (.value v :: .block b :: Arg.ofPairs cases) = .ok numbers at h
    rw [switchCases] at h
    obtain ⟨value, hvalue, h⟩ := Pass.bind_eq_ok.1 h
    split at h
    · rename_i n horigin
      obtain ⟨rest, hrest, h⟩ := Pass.bind_eq_ok.1 h
      cases h
      refine .cons ⟨Program.origin?_eq_some_iff.2 ⟨value, ?_, horigin⟩, rfl⟩ (ih hrest)
      exact (Program.value_eq_ok_iff p).1 hvalue
    · cases h

/-- A call through a value calls what the value says. -/
theorem callsThrough_of_callee {inst : Inst} {arguments : List ValueId} {v : ValueId}
    (hinst : inst.IsCall arguments v) {called : Callee} {s t : Shared} (hs : s.Sound)
    (h : Pass.outcome (callee p slots i inst) s = (.ok called, t)) : p.CallsThrough v called := by
  have horigin : (inst.calleeOperand?.bind p.value?).map Value.origin = p.origin? v := by
    rw [hinst.callee]
    rfl
  constructor
  · intro f hf
    have hdirect : p.directCallee? inst = some f := by
      rw [Program.directCallee?, if_pos hinst.opcode, horigin, hf]
    have hcallee := callee_ok p slots h
    rwa [hdirect] at hcallee
  · intro hnone
    have hnot : p.directCallee? inst = none := by
      rw [Program.directCallee?, if_pos hinst.opcode, horigin]
      split
      · rename_i f hf
        exact absurd hf (hnone f)
      · rfl
    rw [callee, hnot, hinst.callee] at h
    obtain ⟨target, u, htarget, h⟩ := Pass.outcome_bind_ok.1 h
    cases h
    exact ⟨target, rfl, Reference.resolve_ok p slots hs htarget⟩

/-- A statement is formed from its instruction, after the reference to the result was made. -/
theorem exists_form {s : Statement} {before after : Shared} (hs : before.Sound)
    (h : Pass.outcome (ofInst p slots i) before = (.ok s, after)) :
    ∃ inst result u, p.inst? i = some inst ∧ u.Sound ∧
      Pass.outcome (form p slots i inst result) u =
        (.ok (s.action, s.operands, s.result), after) := by
  obtain ⟨inst, s₁, hfound, h⟩ := Pass.outcome_bind_ok.1 h
  obtain ⟨hinst, rfl⟩ := Pass.outcome_lift_ok.1 hfound
  obtain ⟨result, u, hresult, h⟩ := Pass.outcome_bind_ok.1 h
  obtain ⟨⟨action, operands, written⟩, s₃, hform, h⟩ := Pass.outcome_bind_ok.1 h
  cases h
  have hu : u.Sound :=
    (Pass.keeps_optionMapM (Reference.keeps_resolve p slots 0) _).of_outcome hresult hs
  exact ⟨inst, result, u, (Program.inst_eq_ok_iff p).1 hinst, hu, hform⟩

section Form

variable {inst : Inst} {result : Option Reference} {s : Statement} {u after : Shared}

/-- The instructions that read all their value operands as they are. -/
theorem readsAll_of_plain (hu : u.Sound)
    (hform : form p slots i inst result =
      do return (.ofPlain inst, ← Reference.resolveAll p slots inst.valueOperands, result))
    (h : Pass.outcome (form p slots i inst result) u =
      (.ok (s.action, s.operands, s.result), after)) :
    s.action = .ofPlain inst ∧ s.ReadsAll inst.valueOperands := by
  rw [hform] at h
  obtain ⟨rs, t, hrs, h⟩ := Pass.outcome_bind_ok.1 h
  simp only [Pass.outcome_pure, Prod.mk.injEq, Except.ok.injEq] at h
  obtain ⟨⟨haction, hoperands, -⟩, -⟩ := h
  refine ⟨haction.symm, ?_⟩
  rw [ReadsAll, ← hoperands]
  exact Reference.resolveAll_ok p slots hu hrs

/-- The instructions that call something. -/
theorem readsAll_of_call (hu : u.Sound) {arguments : List ValueId} {v : ValueId}
    (hinst : inst.IsCall arguments v) (action : Callee → Action)
    (hform : form p slots i inst result = do
      let called ← callee p slots i inst
      return (action called, ← Reference.resolveAll p slots inst.arguments, result))
    (h : Pass.outcome (form p slots i inst result) u =
      (.ok (s.action, s.operands, s.result), after)) :
    ∃ called, s.action = action called ∧ p.CallsThrough v called ∧ s.ReadsAll arguments := by
  rw [hform] at h
  obtain ⟨called, t, hcalled, h⟩ := Pass.outcome_bind_ok.1 h
  obtain ⟨rs, t', hrs, h⟩ := Pass.outcome_bind_ok.1 h
  simp only [Pass.outcome_pure, Prod.mk.injEq, Except.ok.injEq] at h
  obtain ⟨⟨haction, hoperands, -⟩, -⟩ := h
  have ht : t.Sound := (keeps_callee p slots i inst).of_outcome hcalled hu
  refine ⟨called, haction.symm, callsThrough_of_callee hinst hu hcalled, ?_⟩
  rw [ReadsAll, ← hoperands, ← hinst.arguments]
  exact Reference.resolveAll_ok p slots ht hrs

theorem readsAll_of_switch (hu : u.Sound) {value : ValueId} {default : BlockId}
    {cases : List (ValueId × BlockId)} (hopcode : inst.opcode = .switch)
    (hoperands : inst.operands = .value value :: .block default :: Arg.ofPairs cases)
    (h : Pass.outcome (form p slots i inst result) u =
      (.ok (s.action, s.operands, s.result), after)) :
    ∃ numbers, s.action = .switch (some default) numbers ∧
      switchCases p i (Arg.ofPairs cases) = .ok numbers ∧ s.ReadsAll [value] := by
  have hvalue : valueOperand i inst 0 = .ok value := by
    simp [valueOperand, Inst.valueOperands, hoperands, Arg.value?]
  simp only [form, hopcode, hvalue, hoperands] at h
  obtain ⟨v, t, hv, h⟩ := Pass.outcome_bind_ok.1 h
  obtain ⟨hv, rfl⟩ := Pass.outcome_lift_ok.1 hv
  cases hv
  obtain ⟨numbers, t, hnumbers, h⟩ := Pass.outcome_bind_ok.1 h
  obtain ⟨hcases, rfl⟩ := Pass.outcome_lift_ok.1 hnumbers
  obtain ⟨r, t, hr, h⟩ := Pass.outcome_bind_ok.1 h
  simp only [Pass.outcome_pure, Prod.mk.injEq, Except.ok.injEq] at h
  obtain ⟨⟨haction, hreads, -⟩, -⟩ := h
  refine ⟨numbers, haction.symm, hcases, ?_⟩
  rw [ReadsAll, ← hreads]
  exact .cons (Reference.resolve_ok p slots hu hr) .nil

end Form

end Statement

namespace Writing

variable {p q : Program} {slots : Slots} {i : InstId} {inst : Inst} {result : Option Reference}
  {s : Statement} {u after : Shared}

/-- The statement of an instruction with the operands of the draft. -/
theorem readBack_of_draft {writing : Writing} {draft : Draft}
    (hdraft : writing.draft? p = some draft) (hopcode : inst.opcode = draft.opcode)
    (hoperands : inst.operands = draft.operands)
    (hfunction : ∀ f function, p.function? f = some function →
      q.origin? function.value = some (.function f))
    (hu : u.Sound)
    (h : Pass.outcome (Statement.form q slots i inst result) u =
      (.ok (s.action, s.operands, s.result), after)) : writing.ReadBack q s := by
  cases writing with
  | phi type incoming name =>
    cases hdraft
    obtain ⟨haction, hreads⟩ :=
      Statement.readsAll_of_plain hu (by simp only [Statement.form, hopcode]) h
    rw [Inst.valueOperands, hoperands, Arg.filterMap_value?_ofPairs] at hreads
    have hblocks : inst.blockOperands = incoming.map Prod.snd := by
      rw [Inst.blockOperands, hoperands, Arg.filterMap_block?_ofPairs]
    refine ⟨incoming.map Prod.snd, ?_, ?_, hreads, List.length_map ..⟩
    · rw [haction, Action.ofPlain, hopcode, hblocks]
    · rw [Reference.filterMap_value hreads, List.zip_map']
      exact List.map_id _
  | switch value default cases =>
    cases hdraft
    obtain ⟨numbers, haction, hnumbers, hreads⟩ :=
      Statement.readsAll_of_switch hu hopcode hoperands h
    exact ⟨numbers, haction, Statement.switchCases_ofPairs hnumbers, hreads⟩
  | branchIf condition whenTrue whenFalse =>
    cases hdraft
    obtain ⟨haction, hreads⟩ :=
      Statement.readsAll_of_plain hu (by simp only [Statement.form, hopcode]) h
    have hvalues : inst.valueOperands = [condition] := by
      rw [Inst.valueOperands, hoperands]
      rfl
    -- the blocks are written the other way round, and turned back by `Action.ofPlain`
    have hblocks : inst.blockOperands = [whenFalse, whenTrue] := by
      rw [Inst.blockOperands, hoperands]
      rfl
    rw [hvalues] at hreads
    refine ⟨?_, hreads⟩
    rw [haction, Action.ofPlain, hopcode, hvalues, hblocks]
    rfl
  | call callee arguments name =>
    obtain ⟨function, hcallee, rfl⟩ := Option.map_eq_some_iff.1 hdraft
    obtain ⟨called, haction, hcalled, hreads⟩ := Statement.readsAll_of_call hu
      (Inst.isCall_of_call (by rw [hopcode]; rfl) hoperands) .call
      (by simp only [Statement.form, hopcode]) h
    -- the function may have got its first block since, so its parameters are those of `later`
    obtain ⟨later, hlater, rfl⟩ := hcalled.direct callee (hfunction callee function hcallee)
    exact ⟨later, hlater, haction, hreads⟩
  | callThrough callee type arguments name =>
    cases hdraft
    exact Statement.readsAll_of_call hu (Inst.isCall_of_call (by rw [hopcode]; rfl) hoperands)
      .call (by simp only [Statement.form, hopcode]) h
  | elementAddress type base indices name =>
    cases hdraft
    obtain ⟨haction, hreads⟩ :=
      Statement.readsAll_of_plain hu (by simp only [Statement.form, hopcode]) h
    rw [Inst.valueOperands, hoperands, Arg.filterMap_value?_map_value] at hreads
    refine ⟨?_, hreads⟩
    rw [haction, Action.ofPlain, hopcode]
  | invoke draft arguments targets callee =>
    cases hdraft
    have hblocks : inst.blockOperands = targets := by
      rw [Inst.blockOperands, hoperands, Arg.filterMap_block?_ofTransfer]
    exact Statement.readsAll_of_call hu (Inst.isCall_of_transfer (by rw [hopcode]; rfl) hoperands)
      (Action.invoke · targets[0]? targets[1]?) (by simp only [Statement.form, hopcode, hblocks]) h
  | callBranch draft arguments targets callee =>
    cases hdraft
    have hblocks : inst.blockOperands = targets := by
      rw [Inst.blockOperands, hoperands, Arg.filterMap_block?_ofTransfer]
    exact Statement.readsAll_of_call hu (Inst.isCall_of_transfer (by rw [hopcode]; rfl) hoperands)
      (Action.callBranch · targets[0]? (targets.drop 1))
      (by simp only [Statement.form, hopcode, hblocks]) h

/-- **The statement of a written instruction holds again what the instruction was written with**:
the incoming pairs of a phi, the integers and blocks of a switch, the blocks of a conditional
branch, the callee, the arguments and the blocks of a call of any kind, and the base and the indices
of an element address.  The program may have been edited since, as long as the operands of the
instruction are still those that were written. -/
theorem readBack_of_write (hp : p.Assembled) (c : Cursor) (writing : Writing)
    (hlater : Program.Edits (writing.write c p) q)
    (hkept : (q.inst? ⟨p.insts.size⟩).map Inst.layout =
      ((writing.write c p).inst? ⟨p.insts.size⟩).map Inst.layout)
    (hshared : u.Sound)
    (h : (Statement.ofInst q slots ⟨p.insts.size⟩).outcome u = (.ok s, after)) :
    writing.ReadBack q s := by
  obtain ⟨inst, result, v, hinst, hv, hform⟩ := Statement.exists_form hshared h
  -- both halves meet at the draft: it is what was written, and what `inst` still has
  rw [layout_write, hinst, Option.map_some] at hkept
  obtain ⟨draft, hdraft, hlayout⟩ := Option.map_eq_some_iff.1 hkept.symm
  obtain ⟨hopcode, hoperands⟩ := Prod.mk.inj hlayout
  refine readBack_of_draft hdraft hopcode.symm hoperands.symm (fun f function hf => ?_) hv hform
  exact hlater.origin?_eq (origin?_write c writing (hp.origin?_function hf))

/-- A program with a function of three blocks, a function without blocks, two integers and a global
variable. -/
def host : Program := Program.ofEdits "host"
  [.function "main" .void [("x", .int 32)], .block ⟨0⟩ "entry", .block ⟨0⟩ "left",
    .block ⟨0⟩ "right", .value (.int 32) "" (.integer 7), .value (.int 32) "" (.integer 9),
    .function "declared" (.int 32) [("n", .int 32)], .global "g" (.int 32)]

/-- An instruction of each kind, with operands from that program. -/
def samples : List Writing :=
  [.phi (.int 32) [(⟨1⟩, ⟨1⟩), (⟨2⟩, ⟨2⟩)] "merged",
    .switch ⟨1⟩ ⟨0⟩ [(⟨2⟩, ⟨1⟩), (⟨3⟩, ⟨2⟩)], .branchIf ⟨1⟩ ⟨1⟩ ⟨2⟩, .call ⟨0⟩ [⟨2⟩] "",
    .call ⟨1⟩ [⟨3⟩] "answer", .callThrough ⟨6⟩ .void [⟨1⟩, ⟨2⟩] "",
    .elementAddress (.pointer (.int 32)) ⟨6⟩ [⟨2⟩, ⟨3⟩] "cell",
    .invoke { opcode := .invoke } [⟨1⟩, ⟨2⟩] [⟨1⟩, ⟨2⟩] ⟨4⟩,
    .callBranch { opcode := .callBr } [⟨1⟩] [⟨0⟩, ⟨1⟩, ⟨2⟩] ⟨6⟩]

theorem readBack_samples : host.Assembled ∧ ∀ writing ∈ samples, ∃ s after,
    (Statement.ofInst (writing.write { block := ⟨0⟩ } host) {} ⟨host.insts.size⟩).outcome {} =
      (.ok s, after) ∧ writing.ReadBack (writing.write { block := ⟨0⟩ } host) s := by
  have hhost : host.Assembled := Program.assembled_ofEdits _ _
  have hok : ∀ writing ∈ samples, ((Statement.ofInst (writing.write { block := ⟨0⟩ } host) {}
      ⟨host.insts.size⟩).outcome {}).1.isOk = true := by
    decide +kernel
  refine ⟨hhost, fun writing hmem => ?_⟩
  obtain ⟨s, after, h⟩ := Pass.exists_outcome_of_isOk (hok writing hmem)
  exact ⟨s, after, h, readBack_of_write hhost { block := ⟨0⟩ } writing .refl rfl
    Shared.sound_empty h⟩

end Writing

end LevelIr
