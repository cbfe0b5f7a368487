import LevelIr.Pass
import LevelIr.Program.Basic

/-!
# Building programs

Operations that add values, functions, blocks and instructions to a program. Each new thing gets
the next number of its kind, so handles that were given out stay valid.

Main definitions:

* `Program.addValue` and the constants and globals made with it;
* `Program.addFunction`, `Program.addBlock`;
* `Program.placeLast`, `Program.placeBefore`: placing an instruction;
* `Program.replaceOperand`, `Program.setName`, `Program.setMetadata`, `Program.setFile`: changes.
-/

namespace LevelIr

namespace Program

/-! ### Values -/

/-- Adds a value. -/
def addValue (type : Ty) (name : String) (origin : Origin) : StateM Program ValueId := fun p =>
  (⟨p.values.size⟩, { p with values := p.values.push ⟨type, name, origin⟩ })

/-- Adds a global variable with contents of the given type; the value is their address. -/
def addGlobal (name : String) (contents : Ty) : StateM Program ValueId := do
  let v ← addValue (.pointer contents) name .globalVariable
  modify fun p => { p with globals := p.globals ++ [v] }
  return v

/-- Adds an integer constant of a width in bits. -/
def addInteger (bits : Nat) (value : Int) : StateM Program ValueId :=
  addValue (.int bits) "" (.integer value)

/-- Adds a floating-point constant. -/
def addFloat (value : Binary64) : StateM Program ValueId :=
  addValue .double "" (.float value)

/-- Adds a null pointer to the given type. -/
def addNull (pointee : Ty) : StateM Program ValueId :=
  addValue (.pointer pointee) "" .null

/-- Adds an undefined value. -/
def addUndefined (type : Ty) : StateM Program ValueId :=
  addValue type "" .undefined

/-- Adds a constant aggregate. -/
def addAggregate (type : Ty) (elements : List ValueId) : StateM Program ValueId :=
  addValue type "" (.aggregate elements)

/-- Adds the empty token. -/
def addToken : StateM Program ValueId :=
  addValue .token "" .token

/-- Adds the address of a block. -/
def addBlockAddress (function : FunctionId) (block : BlockId) : StateM Program ValueId :=
  addValue (.pointer (.int 8)) "" (.blockAddress function block)

/-- Adds a metadata node. -/
def addMetadata : StateM Program ValueId :=
  addValue .metadata "" .metadata

/-- Adds a piece of inline assembly. -/
def addInlineAsm (type : Ty) : StateM Program ValueId :=
  addValue type "" .inlineAsm

/-- Adds an operator applied to constants. -/
def addExpression (operator : Operator) (type : Ty) (operands : List ValueId) :
    StateM Program ValueId :=
  addValue type "" (.expression operator operands)

/-- Adds the constant address of an element. -/
def addElementAddress (type : Ty) (base : ValueId) (indices : List ValueId) :
    StateM Program ValueId :=
  addExpression .getElementPtr type (base :: indices)

/-- Adds the address of a function, exempt from control-flow checks. -/
def addNoCfi (f : FunctionId) : Pass Program ValueId := do
  let function ← (← get).function f
  let target ← (← get).value function.value
  addValue target.type "" (.noCfi function.value)

/-- Gives a value a name. -/
def setName (v : ValueId) (name : String) (p : Program) : Program :=
  { p with values := p.values.modify v.index fun value => { value with name } }

/-! ### Functions and blocks -/

/-- Adds the parameters of a function, counted from a position. -/
def addParams (function : FunctionId) : Nat → List (String × Ty) → StateM Program (List ValueId)
  | _, [] => pure []
  | position, (name, type) :: rest => do
    let v ← addValue type name (.argument function position)
    return v :: (← addParams function (position + 1) rest)

/-- Adds a function. It is only declared until a block is added to it. -/
def addFunction (name : String) (result : Ty) (params : List (String × Ty)) :
    StateM Program FunctionId := do
  let f : FunctionId := ⟨(← get).functions.size⟩
  let value ← addValue (.pointer (.function result (params.map Prod.snd))) name (.function f)
  let params ← addParams f 0 params
  modify fun p =>
    { p with functions := p.functions.push { name, value, params, blocks := [], file := none } }
  return f

/-- Records the source file of a function. -/
def setFile (f : FunctionId) (file : String) (p : Program) : Program :=
  { p with functions := p.functions.modify f.index fun function =>
      { function with file := some file } }

/-- Adds a block at the end of a function. -/
def addBlock (function : FunctionId) (name : String) : StateM Program BlockId := fun p =>
  let b : BlockId := ⟨p.blocks.size⟩
  (b, { p with
    blocks := p.blocks.push { name, function, insts := [] }
    functions := p.functions.modify function.index fun entry =>
      { entry with blocks := entry.blocks ++ [b] } })

/-! ### Instructions -/

/-- Makes an instruction for a block, with its result if its type is not `void`, without adding
it to the list of the block. -/
def make (block : BlockId) (draft : Draft) : StateM Program (InstId × Option ValueId) := do
  let i : InstId := ⟨(← get).insts.size⟩
  let result ← if draft.type.isVoid then pure none
    else some <$> addValue draft.type draft.name (.result i)
  let inst : Inst :=
    { opcode := draft.opcode, operands := draft.operands, result, type := draft.type
      predicate := draft.predicate, indices := draft.indices, line := draft.line
      debug := draft.debug, metadata := false, block }
  modify fun p => { p with insts := p.insts.push inst }
  return (i, result)

/-- Changes the list of instructions of a block. -/
def modifyInsts (block : BlockId) (change : List InstId → List InstId) (p : Program) : Program :=
  { p with blocks := p.blocks.modify block.index fun entry =>
      { entry with insts := change entry.insts } }

/-- Places an instruction at the end of a block. -/
def placeLast (block : BlockId) (draft : Draft) : StateM Program (InstId × Option ValueId) := do
  let made ← make block draft
  modify (modifyInsts block (· ++ [made.1]))
  return made

/-- A list with an entry put right before another one, or at the end if that one is missing. -/
def putBefore (anchor new : InstId) : List InstId → List InstId
  | [] => [new]
  | i :: rest => if i = anchor then new :: i :: rest else i :: putBefore anchor new rest

/-- Places an instruction right before another one, in the same block. -/
def placeBefore (anchor : InstId) (draft : Draft) : Pass Program (InstId × Option ValueId) := do
  let block := (← (← get).inst anchor).block
  let made ← make block draft
  modify (modifyInsts block (putBefore anchor made.1))
  return made

/-- Replaces an operand of an instruction. -/
def replaceOperand (i : InstId) (position : Nat) (operand : Arg) : Pass Program Unit := do
  let inst ← (← get).inst i
  if position < inst.operands.length then
    modify fun p => { p with insts := p.insts.modify i.index fun inst =>
      { inst with operands := inst.operands.set position operand } }
  else
    throw .noSuchEntry

/-- Records whether an instruction carries metadata other than its line. -/
def setMetadata (i : InstId) (flag : Bool) (p : Program) : Program :=
  { p with insts := p.insts.modify i.index fun inst => { inst with metadata := flag } }

/-! ### Effects of the operations -/

theorem addValue_run (type : Ty) (name : String) (origin : Origin) (p : Program) :
    (addValue type name origin).run p =
      (⟨p.values.size⟩, { p with values := p.values.push ⟨type, name, origin⟩ }) := rfl

theorem value?_addValue (type : Ty) (name : String) (origin : Origin) (p : Program) (v : ValueId) :
    ((addValue type name origin).run p).2.value? v =
      if v.index = p.values.size then some ⟨type, name, origin⟩ else p.value? v := by
  simp only [addValue_run, value?, Array.getElem?_push]

theorem value?_setName (v w : ValueId) (name : String) (p : Program) :
    (setName v name p).value? w =
      if w = v then (p.value? w).map (fun value => { value with name }) else p.value? w := by
  obtain ⟨i⟩ := v
  obtain ⟨n⟩ := w
  simp only [value?, setName, Array.getElem?_modify, ValueId.mk.injEq, eq_comm]

theorem block?_modifyInsts (b c : BlockId) (change : List InstId → List InstId) (p : Program) :
    (modifyInsts b change p).block? c =
      if c = b then (p.block? c).map (fun block => { block with insts := change block.insts })
      else p.block? c := by
  obtain ⟨i⟩ := b
  obtain ⟨n⟩ := c
  simp only [block?, modifyInsts, Array.getElem?_modify, BlockId.mk.injEq, eq_comm]

theorem mem_putBefore {anchor new i : InstId} {insts : List InstId} :
    i ∈ putBefore anchor new insts ↔ i = new ∨ i ∈ insts := by
  induction insts with
  | nil => simp [putBefore]
  | cons j rest ih =>
    unfold putBefore
    split
    · simp
    · simp only [List.mem_cons, ih]
      constructor
      · rintro (h | h | h)
        · exact .inr (.inl h)
        · exact .inl h
        · exact .inr (.inr h)
      · rintro (h | h | h)
        · exact .inr (.inl h)
        · exact .inl h
        · exact .inr (.inr h)

theorem putBefore_append {anchor new : InstId} {front back : List InstId}
    (h : anchor ∉ front) :
    putBefore anchor new (front ++ anchor :: back) = front ++ new :: anchor :: back := by
  induction front with
  | nil => simp [putBefore]
  | cons i rest ih =>
    have hne : ¬ i = anchor := fun e => h (e ▸ List.mem_cons_self)
    have hrest : anchor ∉ rest := fun m => h (List.mem_cons_of_mem _ m)
    simp [putBefore, hne, ih hrest]

end Program

end LevelIr
