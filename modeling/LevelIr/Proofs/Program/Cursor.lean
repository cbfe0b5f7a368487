import LevelIr.Program.Cursor
import LevelIr.Proofs.Program.Origins

/-!
# What is written at a cursor

Every function of a cursor adds one instruction at the end of a block, also if it fails afterwards
because the instruction has no result.  It is given handles of values, blocks and functions; if the
program has them all, then what it does is a sequence of edits that mention nothing else and replace
no operand.

* `Handle`, `Program.has` : the parts of a program, and whether it has them.
* `Program.Edit.fits` : an edit that can be made, and mentions only what is there.
* `Program.Builds` : edits that fit and replace no operand.
* `Cursor.Call`, `Cursor.Call.builds` : the functions of a cursor, and what they do.
-/

namespace LevelIr

/-! ### Handles -/

/-- The handle of a part of a program. -/
inductive Handle where
  | value (v : ValueId)
  | inst (i : InstId)
  | block (b : BlockId)
  | function (f : FunctionId)

/-- Whether a program has the part with a handle. -/
def Program.has (p : Program) : Handle → Bool
  | .value v => (p.value? v).isSome
  | .inst i => (p.inst? i).isSome
  | .block b => (p.block? b).isSome
  | .function f => (p.function? f).isSome

/-- The handle of an operand. -/
def Arg.handle : Arg → Handle
  | value v => .value v
  | block b => .block b

theorem Arg.map_handle_value (values : List ValueId) :
    (values.map Arg.value).map handle = values.map .value := by
  rw [List.map_map]
  rfl

theorem Arg.map_handle_pairs (pairs : List (ValueId × BlockId)) :
    (pairs.flatMap fun pair => [value pair.1, block pair.2]).map handle =
      pairs.flatMap fun pair => [.value pair.1, .block pair.2] := by
  rw [List.map_flatMap]
  rfl

/-- The handles of the operands of an instruction. -/
def Draft.handles (draft : Draft) : List Handle := draft.operands.map Arg.handle

/-- The handles that the origin of a value is made of. -/
def Origin.handles : Origin → List Handle
  | argument f _ | function f => [.function f]
  | result i => [.inst i]
  | aggregate values | expression _ values => values.map .value
  | noCfi v => [.value v]
  | blockAddress f b => [.function f, .block b]
  | globalVariable | integer _ | float _ | null | undefined | token | metadata | inlineAsm => []

namespace Program

variable {p q : Program}

/-- The value of a function is there with the function. -/
theorem Assembled.has_function (hp : p.Assembled) {f : FunctionId} {function : Function}
    (h : p.function? f = some function) : p.has (.value function.value) = true := by
  obtain ⟨value, hvalue, -⟩ := origin?_eq_some_iff.1 (hp.origin?_function h)
  exact Option.isSome_iff_exists.2 ⟨value, hvalue⟩

theorem index_lt_of_has {v : ValueId} (h : p.has (.value v) = true) : v.index < p.values.size := by
  obtain ⟨value, hvalue⟩ := Option.isSome_iff_exists.1 h
  exact index_lt_of_value? hvalue

namespace Edit

/-- The handles that an edit mentions. -/
def handles : Edit → List Handle
  | value _ _ origin => origin.handles
  | global _ _ | function _ _ _ => []
  | file f _ | block f _ => [.function f]
  | last b draft => .block b :: draft.handles
  | before anchor draft => .inst anchor :: draft.handles
  | operand i _ new => [.inst i, new.handle]
  | name v _ => [.value v]
  | metadata i _ => [.inst i]

/-- Whether an edit can be made, and mentions only what is there. -/
def fits (p : Program) (edit : Edit) : Bool := edit.applies p && edit.handles.all p.has

/-- Whether an edit replaces an operand. -/
def replaces : Edit → Bool
  | operand _ _ _ => true
  | _ => false

end Edit

/-- The program `q` was made from `p` by edits that fit and replace no operand. -/
abbrev Builds : Program → Program → Prop := Relation.ReflTransGen fun p q =>
  ∃ edit : Edit, edit.fits p = true ∧ edit.replaces = false ∧ edit.apply p = q

theorem builds_apply (edit : Edit) (hfits : edit.fits p = true) (hkeeps : edit.replaces = false) :
    Builds p (edit.apply p) :=
  .single ⟨edit, hfits, hkeeps, rfl⟩

theorem Edit.applies_of_fits {edit : Edit} (h : edit.fits p = true) : edit.applies p = true := by
  rw [fits, Bool.and_eq_true] at h
  exact h.1

theorem Builds.edits (h : Builds p q) : Edits p q := by
  refine Relation.ReflTransGen.mono ?_ p q h
  rintro p q ⟨edit, hfits, -, hq⟩
  exact ⟨edit, edit.applies_of_fits hfits, hq⟩

end Program

namespace Cursor

/-! ### Instructions that are added -/

section Push

variable (c : Cursor) (draft : Draft) (p : Program)

/-- The program with an instruction that was added at the cursor. -/
theorem push_eq_placed : ((c.push draft).run p).2 =
    p.placed c.block (· ++ [⟨p.insts.size⟩]) { draft with line := draft.line.or c.line } :=
  p.placeLast_state c.block _

/-- The instruction is there even if it has no result to answer with. -/
theorem define_state : ((c.define draft).outcome p).2 = ((c.push draft).run p).2 := by
  have hpush : Pass.outcome (liftM (c.push draft) : Pass Program (InstId × Option ValueId)) p =
      (.ok ((c.push draft).run p).1, ((c.push draft).run p).2) := rfl
  unfold define
  rw [Pass.outcome_bind, hpush]
  generalize (c.push draft).run p = pushed
  obtain ⟨⟨inst, result⟩, q⟩ := pushed
  cases result <;> rfl

end Push

variable {c : Cursor} {p : Program}

theorem builds_push (hblock : p.has (.block c.block) = true) {draft : Draft}
    (hdraft : ∀ handle ∈ draft.handles, p.has handle = true) :
    p.Builds ((c.push draft).run p).2 := by
  refine Program.builds_apply (.last c.block { draft with line := draft.line.or c.line }) ?_ rfl
  rw [Program.Edit.fits, Bool.and_eq_true, List.all_eq_true]
  refine ⟨hblock, fun handle hhandle => ?_⟩
  rcases List.mem_cons.1 hhandle with rfl | hhandle
  · exact hblock
  · exact hdraft handle hhandle

theorem builds_define (hblock : p.has (.block c.block) = true) {draft : Draft}
    (hdraft : ∀ handle ∈ draft.handles, p.has handle = true) :
    p.Builds ((c.define draft).outcome p).2 := by
  rw [define_state]
  exact builds_push hblock hdraft

theorem builds_perform (hblock : p.has (.block c.block) = true) {draft : Draft}
    (hdraft : ∀ handle ∈ draft.handles, p.has handle = true) :
    p.Builds ((c.perform draft).run p).2 :=
  builds_push hblock hdraft

/-- An instruction whose type is taken from a value that is there. -/
theorem builds_typed (hblock : p.has (.block c.block) = true) {v : ValueId}
    (hv : p.has (.value v) = true) {draft : Ty → Draft}
    (hdraft : ∀ type, ∀ handle ∈ (draft type).handles, p.has handle = true) :
    p.Builds ((typeOf v >>= fun type => c.define (draft type)).outcome p).2 := by
  obtain ⟨value, hvalue⟩ := Option.isSome_iff_exists.1 hv
  have htype : (typeOf v).outcome p = (.ok value.type, p) := by
    unfold typeOf
    rw [Pass.outcome_bind, Pass.outcome_get]
    simp only
    rw [Pass.outcome_bind, Pass.outcome_lift, (Program.value_eq_ok_iff p).2 hvalue]
    rfl
  rw [Pass.outcome_bind, htype]
  exact builds_define hblock (hdraft value.type)

theorem builds_callThrough (hblock : p.has (.block c.block) = true) {callee : ValueId}
    (hcallee : p.has (.value callee) = true) {arguments : List ValueId}
    (harguments : ∀ v ∈ arguments, p.has (.value v) = true) {result : Ty} {name : String} :
    p.Builds ((c.callThrough callee result arguments name).run p).2 := by
  refine builds_push hblock fun handle hhandle => ?_
  rw [Draft.handles, List.map_append, Arg.map_handle_value] at hhandle
  rcases List.mem_append.1 hhandle with hmem | hmem
  · obtain ⟨v, hv, rfl⟩ := List.mem_map.1 hmem
    exact harguments v hv
  · obtain rfl := List.mem_singleton.1 hmem
    exact hcallee

theorem call_state {callee : FunctionId} {function : Function}
    (h : p.function? callee = some function) {arguments : List ValueId} {name : String} :
    ((c.call callee arguments name).outcome p).2 =
      ((c.callThrough function.value (p.resultType callee) arguments name).run p).2 := by
  unfold call
  rw [Pass.outcome_bind, Pass.outcome_get]
  simp only
  rw [Pass.outcome_bind, Pass.outcome_lift, (Program.function_eq_ok_iff p).2 h]
  rfl

theorem debugCall_state {callee : FunctionId} {function : Function}
    (h : p.function? callee = some function) : ((c.debugCall callee).outcome p).2 =
      ((c.push
        { opcode := .call, operands := [.value ⟨p.values.size⟩, .value function.value]
          debug := true }).run (Program.addMetadata.run p).2).2 := by
  unfold debugCall
  rw [Pass.outcome_bind, Pass.outcome_get]
  simp only
  rw [Pass.outcome_bind, Pass.outcome_lift, (Program.function_eq_ok_iff p).2 h]
  rfl

/-- The metadata that a call for debugging is given is added first. -/
theorem builds_debugCall (hp : p.Assembled) (hblock : p.has (.block c.block) = true)
    {callee : FunctionId} {function : Function} (hfunction : p.function? callee = some function) :
    p.Builds ((c.debugCall callee).outcome p).2 := by
  have hmetadata : p.Builds (Program.addMetadata.run p).2 :=
    Program.builds_apply (.value .metadata "" .metadata) rfl rfl
  have hvalue := (hp.edits hmetadata.edits).has_function hfunction
  have hblock' : (Program.addMetadata.run p).2.has (.block c.block) = true := hblock
  rw [debugCall_state hfunction]
  refine hmetadata.trans (builds_push hblock' fun handle hhandle => ?_)
  simp only [Draft.handles, List.map_cons, List.map_nil, List.mem_cons, List.not_mem_nil,
    or_false] at hhandle
  rcases hhandle with rfl | rfl
  · simp [Program.has, Program.value?, Program.addMetadata, Program.addValue_run, Arg.handle]
  · exact hvalue

/-! ### Calls -/

/-- A call of one of the functions of a cursor. -/
inductive Call where
  | push (draft : Draft)
  | alloca (allocated : Ty) (name : String)
  | load (address : ValueId) (name : String)
  | store (value address : ValueId)
  | elementAddress (type : Ty) (base : ValueId) (indices : List ValueId) (name : String)
  | binary (opcode : Opcode) (lhs rhs : ValueId) (name : String)
  | negate (value : ValueId) (name : String)
  | cast (opcode : Opcode) (value : ValueId) (type : Ty) (name : String)
  | compare (opcode : Opcode) (predicate : Predicate) (lhs rhs : ValueId) (name : String)
  | phi (type : Ty) (incoming : List (ValueId × BlockId)) (name : String)
  | select (condition whenTrue whenFalse : ValueId) (name : String)
  | extractValue (aggregate : ValueId) (indices : List Nat) (type : Ty) (name : String)
  | callThrough (callee : ValueId) (result : Ty) (arguments : List ValueId) (name : String)
  | call (callee : FunctionId) (arguments : List ValueId) (name : String)
  | debugCall (callee : FunctionId)
  | ret (value : Option ValueId)
  | branch (target : BlockId)
  | branchIf (condition : ValueId) (whenTrue whenFalse : BlockId)
  | switch (value : ValueId) (default : BlockId) (cases : List (ValueId × BlockId))
  | unreachable

namespace Call

/-- The program that a call leaves behind, whether it ends well or not. -/
def perform (c : Cursor) (p : Program) : Call → Program
  | push draft => ((c.push draft).run p).2
  | alloca allocated name => ((c.alloca allocated name).outcome p).2
  | load address name => ((c.load address name).outcome p).2
  | store value address => ((c.store value address).run p).2
  | elementAddress type base indices name => ((c.elementAddress type base indices name).outcome p).2
  | binary opcode lhs rhs name => ((c.binary opcode lhs rhs name).outcome p).2
  | negate value name => ((c.negate value name).outcome p).2
  | cast opcode value type name => ((c.cast opcode value type name).outcome p).2
  | compare opcode predicate lhs rhs name =>
    ((c.compare opcode predicate lhs rhs name).outcome p).2
  | phi type incoming name => ((c.phi type incoming name).outcome p).2
  | select condition whenTrue whenFalse name =>
    ((c.select condition whenTrue whenFalse name).outcome p).2
  | extractValue aggregate indices type name =>
    ((c.extractValue aggregate indices type name).outcome p).2
  | callThrough callee result arguments name =>
    ((c.callThrough callee result arguments name).run p).2
  | call callee arguments name => ((c.call callee arguments name).outcome p).2
  | debugCall callee => ((c.debugCall callee).outcome p).2
  | ret value => ((c.ret value).run p).2
  | branch target => ((c.branch target).run p).2
  | branchIf condition whenTrue whenFalse => ((c.branchIf condition whenTrue whenFalse).run p).2
  | switch value default cases => ((c.switch value default cases).run p).2
  | unreachable => (c.unreachable.run p).2

/-- The handles that a call is given. -/
def handles : Call → List Handle
  | push draft => draft.handles
  | alloca _ _ | unreachable => []
  | load v _ | negate v _ | cast _ v _ _ | extractValue v _ _ _ => [.value v]
  | store v w | binary _ v w _ | compare _ _ v w _ => [.value v, .value w]
  | elementAddress _ base indices _ => .value base :: indices.map .value
  | phi _ incoming _ => incoming.flatMap fun pair => [.value pair.1, .block pair.2]
  | select u v w _ => [.value u, .value v, .value w]
  | callThrough callee _ arguments _ => .value callee :: arguments.map .value
  | call callee arguments _ => .function callee :: arguments.map .value
  | debugCall callee => [.function callee]
  | ret value => value.toList.map .value
  | branch target => [.block target]
  | branchIf condition whenTrue whenFalse =>
    [.value condition, .block whenTrue, .block whenFalse]
  | switch value default cases =>
    .value value :: .block default :: cases.flatMap fun pair => [.value pair.1, .block pair.2]

/-- **A call that is given handles of the program adds to it, and replaces no operand.** -/
theorem builds (hp : p.Assembled) (hblock : p.has (.block c.block) = true) (call : Call)
    (h : ∀ handle ∈ call.handles, p.has handle = true) : p.Builds (call.perform c p) := by
  cases call with
  | push draft => exact builds_push hblock h
  | alloca allocated name => exact builds_define hblock h
  | load address name =>
    exact builds_typed hblock (h (.value address) (by simp [handles])) fun _ => h
  | store value address => exact builds_perform hblock h
  | elementAddress type base indices name =>
    refine builds_define hblock fun handle hhandle => h handle ?_
    rwa [Draft.handles, Arg.map_handle_value] at hhandle
  | binary opcode lhs rhs name =>
    exact builds_typed hblock (h (.value lhs) (by simp [handles])) fun _ => h
  | negate value name => exact builds_typed hblock (h (.value value) (by simp [handles])) fun _ => h
  | cast opcode value type name => exact builds_define hblock h
  | compare opcode predicate lhs rhs name => exact builds_define hblock h
  | phi type incoming name =>
    refine builds_define hblock fun handle hhandle => h handle ?_
    rwa [Draft.handles, Arg.map_handle_pairs] at hhandle
  | select condition whenTrue whenFalse name =>
    exact builds_typed hblock (h (.value whenTrue) (by simp [handles])) fun _ => h
  | extractValue aggregate indices type name => exact builds_define hblock h
  | callThrough callee result arguments name =>
    exact builds_callThrough hblock (h _ List.mem_cons_self) fun v hv =>
      h _ (List.mem_cons_of_mem _ (List.mem_map_of_mem hv))
  | call callee arguments name =>
    obtain ⟨function, hfunction⟩ := Option.isSome_iff_exists.1 (h _ List.mem_cons_self)
    change p.Builds ((c.call callee arguments name).outcome p).2
    rw [call_state hfunction]
    exact builds_callThrough hblock (hp.has_function hfunction) fun v hv =>
      h _ (List.mem_cons_of_mem _ (List.mem_map_of_mem hv))
  | debugCall callee =>
    obtain ⟨function, hfunction⟩ := Option.isSome_iff_exists.1 (h _ List.mem_cons_self)
    exact builds_debugCall hp hblock hfunction
  | ret value =>
    refine builds_perform hblock fun handle hhandle => h handle ?_
    rwa [Draft.handles, Arg.map_handle_value] at hhandle
  | branch target => exact builds_perform hblock h
  | branchIf condition whenTrue whenFalse =>
    refine builds_perform hblock fun handle hhandle => h handle ?_
    -- the blocks are written the other way round
    simp only [Draft.handles, List.map_cons, List.map_nil, Arg.handle, handles, List.mem_cons] at *
    tauto
  | switch value default cases =>
    refine builds_perform hblock fun handle hhandle => h handle ?_
    rwa [Draft.handles, List.map_cons, List.map_cons, Arg.map_handle_pairs] at hhandle
  | unreachable => exact builds_perform hblock h

end Call

end Cursor

end LevelIr
