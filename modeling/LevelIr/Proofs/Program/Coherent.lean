import LevelIr.Program.Edit
import LevelIr.Proofs.Pass
import Mathlib.Logic.Relation

/-!
# Programs that were put together by edits

A program is put together from an empty one by edits: adding values, functions, blocks and
instructions, and changing names, operands and flags (`Program.Edit`).  The parts of a program refer
to each other in both directions: a block lists its instructions and each instruction knows its
block, a function lists its blocks and each block knows its function, an instruction knows its
result and the result knows the instruction.

`Program.Coherent` says that both directions agree.  Every edit keeps this, so it holds of every
program that was put together by edits (`Program.Assembled.coherent`).  Edits that put a block into
a function or an instruction into a block are made with a function or a block that exists; the
operands of an instruction can be anything.

Edits keep two more facts: every instruction that is not void has a result (`Program.HasResults`),
and no two values stand for the same parameter (`Program.ParamsApart`).
-/

namespace LevelIr

/-- Whether a value of this origin belongs to a function or to an instruction, which make it
themselves. -/
def Origin.isAttached : Origin → Bool
  | argument _ _ | result _ => true
  | _ => false

namespace Program

/-! ### Edits -/

/-- An edit of a program. -/
inductive Edit where
  /-- A constant, or another value that stands for itself. -/
  | value (type : Ty) (name : String) (origin : Origin)
  /-- A global variable. -/
  | global (name : String) (contents : Ty)
  /-- A function with its parameters. -/
  | function (name : String) (result : Ty) (params : List (String × Ty))
  /-- The source file of a function. -/
  | file (f : FunctionId) (file : String)
  /-- A block at the end of a function. -/
  | block (f : FunctionId) (name : String)
  /-- An instruction at the end of a block. -/
  | last (b : BlockId) (draft : Draft)
  /-- An instruction right before another one. -/
  | before (anchor : InstId) (draft : Draft)
  /-- Another operand. -/
  | operand (i : InstId) (position : Nat) (operand : Arg)
  /-- Another name. -/
  | name (v : ValueId) (name : String)
  /-- Another metadata flag. -/
  | metadata (i : InstId) (flag : Bool)

namespace Edit

/-- Whether an edit can be made: what it adds to has to be there. -/
def applies (p : Program) : Edit → Bool
  | .value _ _ origin => !origin.isAttached
  | .block f _ => (p.function? f).isSome
  | .last b _ => (p.block? b).isSome
  | _ => true

/-- What an edit makes of a program. -/
def apply (p : Program) : Edit → Program
  | .value type label origin => ((addValue type label origin).run p).2
  | .global label contents => ((addGlobal label contents).run p).2
  | .function label result params => ((addFunction label result params).run p).2
  | .file f path => setFile f path p
  | .block f label => ((addBlock f label).run p).2
  | .last b draft => ((placeLast b draft).run p).2
  | .before anchor draft => ((placeBefore anchor draft).outcome p).2
  | .operand i position new => ((replaceOperand i position new).outcome p).2
  | .name v label => setName v label p
  | .metadata i flag => setMetadata i flag p

end Edit

/-- A program that was made from another one by edits. -/
abbrev Edits : Program → Program → Prop :=
  Relation.ReflTransGen fun p q => ∃ edit : Edit, edit.applies p = true ∧ edit.apply p = q

instance : IsPreorder Program Edits where
  refl _ := .refl
  trans _ _ _ := Relation.ReflTransGen.trans

theorem edits_apply {p : Program} (edit : Edit) (h : edit.applies p = true) :
    Edits p (edit.apply p) :=
  .single ⟨edit, h, rfl⟩

/-- A program that was put together from an empty one. -/
def Assembled (p : Program) : Prop := ∃ name, Edits { name } p

theorem Assembled.edits {p q : Program} (hp : p.Assembled) (h : Edits p q) : q.Assembled := by
  obtain ⟨name, hname⟩ := hp
  exact ⟨name, hname.trans h⟩

/-- The program that edits make of an empty one; those that cannot be made are passed over. -/
def ofEdits (name : String) (edits : List Edit) : Program :=
  edits.foldl (fun p edit => if edit.applies p then edit.apply p else p) { name }

theorem assembled_ofEdits (name : String) (edits : List Edit) : (ofEdits name edits).Assembled := by
  refine ⟨name, ?_⟩
  have hfold (p : Program) :
      Edits p (edits.foldl (fun p edit => if edit.applies p then edit.apply p else p) p) := by
    induction edits generalizing p with
    | nil => exact .refl
    | cons edit edits ih =>
      rw [List.foldl_cons]
      by_cases h : edit.applies p = true
      · rw [if_pos h]
        exact (edits_apply edit h).trans (ih _)
      · rw [if_neg h]
        exact ih p
  exact hfold { name }

/-- The parts of a program refer to each other in both directions in the same way. -/
structure Coherent (p : Program) : Prop where
  /-- The block of an instruction lists it. -/
  mem_insts : ∀ {i inst}, p.inst? i = some inst →
    ∃ block, p.block? inst.block = some block ∧ i ∈ block.insts
  /-- An instruction that is listed by a block belongs to it. -/
  inst_of_mem : ∀ {b block i}, p.block? b = some block → i ∈ block.insts →
    ∃ inst, p.inst? i = some inst ∧ inst.block = b
  /-- A block lists no instruction twice. -/
  insts_nodup : ∀ {b block}, p.block? b = some block → block.insts.Nodup
  /-- The function of a block lists it. -/
  mem_blocks : ∀ {b block}, p.block? b = some block →
    ∃ function, p.function? block.function = some function ∧ b ∈ function.blocks
  /-- A block that is listed by a function belongs to it. -/
  block_of_mem : ∀ {f function b}, p.function? f = some function → b ∈ function.blocks →
    ∃ block, p.block? b = some block ∧ block.function = f
  /-- A function lists no block twice. -/
  blocks_nodup : ∀ {f function}, p.function? f = some function → function.blocks.Nodup
  /-- The result of an instruction is a value that comes from it, and has its type. -/
  value_of_result : ∀ {i inst v}, p.inst? i = some inst → inst.result = some v →
    ∃ value, p.value? v = some value ∧ value.origin = .result i ∧ value.type = inst.type ∧
      inst.type ≠ .void
  /-- A value that comes from an instruction is its result. -/
  result_of_origin : ∀ {v value i}, p.value? v = some value → value.origin = .result i →
    ∃ inst, p.inst? i = some inst ∧ inst.result = some v
  /-- A parameter of a function is a value that comes from that place. -/
  value_of_param : ∀ {f function k v}, p.function? f = some function →
    function.params[k]? = some v →
    ∃ value, p.value? v = some value ∧ value.origin = .argument f k

theorem coherent_empty (name : String) : Coherent { name } := by
  constructor <;> simp [inst?, block?, function?, value?]

/-! ### Edits that change no reference -/

theorem exists_of_map_eq {α β : Type} {g : α → β} {a b : Option α} (h : a.map g = b.map g) {y : α}
    (hb : b = some y) : ∃ x, a = some x ∧ g x = g y := by
  rw [hb] at h
  exact Option.map_eq_some_iff.1 h

/-- Coherence depends only on the types and origins of values, the results, types and blocks of
instructions, the lists of blocks, and the parameters and lists of functions. -/
theorem Coherent.of_same {p q : Program} (hp : p.Coherent)
    (hv : ∀ v, (q.value? v).map (fun x => (x.type, x.origin)) =
      (p.value? v).map fun x => (x.type, x.origin))
    (hi : ∀ i, (q.inst? i).map (fun x => (x.result, x.type, x.block)) =
      (p.inst? i).map fun x => (x.result, x.type, x.block))
    (hb : ∀ b, (q.block? b).map (fun x => (x.function, x.insts)) =
      (p.block? b).map fun x => (x.function, x.insts))
    (hf : ∀ f, (q.function? f).map (fun x => (x.params, x.blocks)) =
      (p.function? f).map fun x => (x.params, x.blocks)) : q.Coherent where
  mem_insts {i inst} h := by
    obtain ⟨inst', h', e⟩ := exists_of_map_eq (hi i).symm h
    simp only [Prod.mk.injEq] at e
    obtain ⟨block', hblock, hmem⟩ := hp.mem_insts h'
    rw [e.2.2] at hblock
    obtain ⟨block, hblock, e'⟩ := exists_of_map_eq (hb _) hblock
    simp only [Prod.mk.injEq] at e'
    exact ⟨block, hblock, e'.2 ▸ hmem⟩
  inst_of_mem {b block i} h hmem := by
    obtain ⟨block', h', e⟩ := exists_of_map_eq (hb b).symm h
    simp only [Prod.mk.injEq] at e
    obtain ⟨inst', hinst, hblock⟩ := hp.inst_of_mem h' (e.2 ▸ hmem)
    obtain ⟨inst, hinst, e'⟩ := exists_of_map_eq (hi i) hinst
    simp only [Prod.mk.injEq] at e'
    exact ⟨inst, hinst, e'.2.2.trans hblock⟩
  insts_nodup {b block} h := by
    obtain ⟨block', h', e⟩ := exists_of_map_eq (hb b).symm h
    simp only [Prod.mk.injEq] at e
    exact e.2 ▸ hp.insts_nodup h'
  mem_blocks {b block} h := by
    obtain ⟨block', h', e⟩ := exists_of_map_eq (hb b).symm h
    simp only [Prod.mk.injEq] at e
    obtain ⟨function', hfunction, hmem⟩ := hp.mem_blocks h'
    rw [e.1] at hfunction
    obtain ⟨function, hfunction, e'⟩ := exists_of_map_eq (hf _) hfunction
    simp only [Prod.mk.injEq] at e'
    exact ⟨function, hfunction, e'.2 ▸ hmem⟩
  block_of_mem {f function b} h hmem := by
    obtain ⟨function', h', e⟩ := exists_of_map_eq (hf f).symm h
    simp only [Prod.mk.injEq] at e
    obtain ⟨block', hblock, hfunction⟩ := hp.block_of_mem h' (e.2 ▸ hmem)
    obtain ⟨block, hblock, e'⟩ := exists_of_map_eq (hb b) hblock
    simp only [Prod.mk.injEq] at e'
    exact ⟨block, hblock, e'.1.trans hfunction⟩
  blocks_nodup {f function} h := by
    obtain ⟨function', h', e⟩ := exists_of_map_eq (hf f).symm h
    simp only [Prod.mk.injEq] at e
    exact e.2 ▸ hp.blocks_nodup h'
  value_of_result {i inst v} h hres := by
    obtain ⟨inst', h', e⟩ := exists_of_map_eq (hi i).symm h
    simp only [Prod.mk.injEq] at e
    obtain ⟨value', hvalue, horigin, htype, hvoid⟩ := hp.value_of_result h' (e.1.trans hres)
    obtain ⟨value, hvalue, e'⟩ := exists_of_map_eq (hv v) hvalue
    simp only [Prod.mk.injEq] at e'
    refine ⟨value, hvalue, e'.2.trans horigin, ?_, e.2.1 ▸ hvoid⟩
    rw [e'.1, htype, e.2.1]
  result_of_origin {v value i} h horigin := by
    obtain ⟨value', h', e⟩ := exists_of_map_eq (hv v).symm h
    simp only [Prod.mk.injEq] at e
    obtain ⟨inst', hinst, hres⟩ := hp.result_of_origin h' (e.2.trans horigin)
    obtain ⟨inst, hinst, e'⟩ := exists_of_map_eq (hi i) hinst
    simp only [Prod.mk.injEq] at e'
    exact ⟨inst, hinst, e'.1.trans hres⟩
  value_of_param {f function k v} h hk := by
    obtain ⟨function', h', e⟩ := exists_of_map_eq (hf f).symm h
    simp only [Prod.mk.injEq] at e
    obtain ⟨value', hvalue, horigin⟩ := hp.value_of_param h' (e.1 ▸ hk)
    obtain ⟨value, hvalue, e'⟩ := exists_of_map_eq (hv v) hvalue
    simp only [Prod.mk.injEq] at e'
    exact ⟨value, hvalue, e'.2.trans horigin⟩

theorem Coherent.setName {p : Program} (hp : p.Coherent) (v : ValueId) (name : String) :
    (setName v name p).Coherent := by
  refine hp.of_same (fun w => ?_) (fun _ => rfl) (fun _ => rfl) (fun _ => rfl)
  rw [value?_setName]
  split
  · rw [Option.map_map]
    rfl
  · rfl

theorem Coherent.modifyInst {p : Program} (hp : p.Coherent) (i : InstId) (change : Inst → Inst)
    (h : ∀ inst, (change inst).result = inst.result ∧ (change inst).type = inst.type ∧
      (change inst).block = inst.block) :
    Coherent { p with insts := p.insts.modify i.index change } := by
  refine hp.of_same (fun _ => rfl) (fun j => ?_) (fun _ => rfl) (fun _ => rfl)
  simp only [inst?, Array.getElem?_modify]
  split
  · rw [Option.map_map]
    refine congrArg (Option.map · _) (funext fun inst => ?_)
    obtain ⟨hresult, htype, hblock⟩ := h inst
    simp [hresult, htype, hblock]
  · rfl

theorem Coherent.setMetadata {p : Program} (hp : p.Coherent) (i : InstId) (flag : Bool) :
    (setMetadata i flag p).Coherent :=
  hp.modifyInst i _ fun _ => ⟨rfl, rfl, rfl⟩

theorem Coherent.setFile {p : Program} (hp : p.Coherent) (f : FunctionId) (file : String) :
    (setFile f file p).Coherent := by
  refine hp.of_same (fun _ => rfl) (fun _ => rfl) (fun _ => rfl) (fun g => ?_)
  simp only [Program.setFile, function?, Array.getElem?_modify]
  split
  · rw [Option.map_map]
    rfl
  · rfl

theorem replaceOperand_outcome (p : Program) (i : InstId) (position : Nat) (operand : Arg) :
    ((replaceOperand i position operand).outcome p).2 = p ∨
      ((replaceOperand i position operand).outcome p).2 =
        { p with insts := p.insts.modify i.index fun inst =>
          { inst with operands := inst.operands.set position operand } } := by
  unfold replaceOperand
  rw [Pass.outcome_bind, Pass.outcome_get]
  simp only
  rw [Pass.outcome_bind, Pass.outcome_lift]
  cases p.inst i with
  | error fault => exact .inl rfl
  | ok inst =>
    simp only
    split
    · exact .inr rfl
    · exact .inl rfl

theorem Coherent.replaceOperand {p : Program} (hp : p.Coherent) (i : InstId) (position : Nat)
    (operand : Arg) : ((replaceOperand i position operand).outcome p).2.Coherent := by
  rcases replaceOperand_outcome p i position operand with h | h
  · rwa [h]
  · rw [h]
    exact hp.modifyInst i _ fun _ => ⟨rfl, rfl, rfl⟩

/-! ### New values and functions -/

theorem index_lt_of_value? {p : Program} {v : ValueId} {value : Value}
    (h : p.value? v = some value) : v.index < p.values.size :=
  (Array.getElem?_eq_some_iff.1 h).1

/-- New values, of which none comes from an instruction. -/
theorem Coherent.addValues {p : Program} (hp : p.Coherent) {new : Array Value}
    (hnew : ∀ value ∈ new, ∀ i, value.origin ≠ .result i) (globals : List ValueId) :
    Coherent { p with values := p.values ++ new, globals } := by
  have old {v value} (h : p.value? v = some value) :
      ({ p with values := p.values ++ new, globals } : Program).value? v = some value := by
    rw [← h]
    exact Array.getElem?_append_left (index_lt_of_value? h)
  exact
    { mem_insts := hp.mem_insts
      inst_of_mem := hp.inst_of_mem
      insts_nodup := hp.insts_nodup
      mem_blocks := hp.mem_blocks
      block_of_mem := hp.block_of_mem
      blocks_nodup := hp.blocks_nodup
      value_of_result := fun h hres => by
        obtain ⟨value, hvalue, rest⟩ := hp.value_of_result h hres
        exact ⟨value, old hvalue, rest⟩
      result_of_origin := fun {v value i} h horigin => by
        by_cases hlt : v.index < p.values.size
        · have hold : p.value? v = some value := by
            rw [← h]
            exact (Array.getElem?_append_left hlt).symm
          exact hp.result_of_origin hold horigin
        · have hmem : value ∈ new := by
            rw [value?, Array.getElem?_append_right (Nat.le_of_not_lt hlt)] at h
            exact Array.mem_of_getElem? h
          exact absurd horigin (hnew value hmem i)
      value_of_param := fun h hk => by
        obtain ⟨value, hvalue, horigin⟩ := hp.value_of_param h hk
        exact ⟨value, old hvalue, horigin⟩ }

theorem Coherent.addValue {p : Program} (hp : p.Coherent) (type : Ty) (name : String)
    {origin : Origin} (h : origin.isAttached = false) :
    ((addValue type name origin).run p).2.Coherent := by
  have hnew : ∀ value ∈ #[(⟨type, name, origin⟩ : Value)], ∀ i, value.origin ≠ .result i := by
    intro value hvalue i e
    simp only [List.mem_toArray, List.mem_singleton] at hvalue
    subst hvalue
    rw [show origin = .result i from e] at h
    cases h
  have := hp.addValues hnew p.globals
  rwa [← Array.push_eq_append] at this

theorem Coherent.addGlobal {p : Program} (hp : p.Coherent) (name : String) (contents : Ty) :
    ((addGlobal name contents).run p).2.Coherent := by
  have hnew : ∀ value ∈ #[(⟨.pointer contents, name, .globalVariable⟩ : Value)],
      ∀ i, value.origin ≠ .result i := by
    simp
  have := hp.addValues hnew (p.globals ++ [⟨p.values.size⟩])
  rwa [← Array.push_eq_append] at this

theorem function?_push (p : Program) (function : Function) (f : FunctionId) :
    ({ p with functions := p.functions.push function } : Program).function? f =
      if f.index = p.functions.size then some function else p.function? f := by
  simp only [function?, Array.getElem?_push]

theorem index_lt_of_function? {p : Program} {f : FunctionId} {function : Function}
    (h : p.function? f = some function) : f.index < p.functions.size :=
  (Array.getElem?_eq_some_iff.1 h).1

/-- A new function without blocks. -/
theorem Coherent.pushFunction {p : Program} (hp : p.Coherent) {function : Function}
    (hblocks : function.blocks = [])
    (hparams : ∀ k v, function.params[k]? = some v →
      ∃ value, p.value? v = some value ∧ value.origin = .argument ⟨p.functions.size⟩ k) :
    Coherent { p with functions := p.functions.push function } := by
  have cases {f entry}
      (h : ({ p with functions := p.functions.push function } : Program).function? f = some entry) :
      f = ⟨p.functions.size⟩ ∧ entry = function ∨ p.function? f = some entry := by
    rw [function?_push] at h
    split at h
    · rename_i hf
      exact .inl ⟨congrArg FunctionId.mk hf, (Option.some.inj h).symm⟩
    · exact .inr h
  exact
    { mem_insts := hp.mem_insts
      inst_of_mem := hp.inst_of_mem
      insts_nodup := hp.insts_nodup
      mem_blocks := fun h => by
        obtain ⟨entry, hentry, hmem⟩ := hp.mem_blocks h
        refine ⟨entry, ?_, hmem⟩
        rw [function?_push, if_neg (Nat.ne_of_lt (index_lt_of_function? hentry)), hentry]
      block_of_mem := fun h hmem => by
        rcases cases h with ⟨-, rfl⟩ | h
        · rw [hblocks] at hmem
          cases hmem
        · exact hp.block_of_mem h hmem
      blocks_nodup := fun h => by
        rcases cases h with ⟨-, rfl⟩ | h
        · rw [hblocks]
          exact List.nodup_nil
        · exact hp.blocks_nodup h
      value_of_result := hp.value_of_result
      result_of_origin := hp.result_of_origin
      value_of_param := fun h hk => by
        rcases cases h with ⟨rfl, rfl⟩ | h
        · exact hparams _ _ hk
        · exact hp.value_of_param h hk }

/-- The values that stand for the parameters of a function, counted from a position. -/
def paramValues (f : FunctionId) (position : Nat) (params : List (String × Ty)) : List Value :=
  params.mapIdx fun j param => ⟨param.2, param.1, .argument f (position + j)⟩

theorem addParams_run (f : FunctionId) (params : List (String × Ty)) (position : Nat)
    (p : Program) :
    (addParams f position params).run p =
      ((List.range params.length).map fun j => ⟨p.values.size + j⟩,
        { p with values := p.values ++ (paramValues f position params).toArray }) := by
  induction params generalizing position p with
  | nil =>
    have hrun : (addParams f position []).run p = ([], p) := rfl
    simp [hrun, paramValues]
  | cons param rest ih =>
    obtain ⟨name, type⟩ := param
    have hrest := ih (position + 1) { p with
      values := p.values.push ⟨type, name, .argument f position⟩ }
    have hstep : (addParams f position ((name, type) :: rest)).run p =
        (⟨p.values.size⟩ :: ((addParams f (position + 1) rest).run { p with
            values := p.values.push ⟨type, name, .argument f position⟩ }).1,
          ((addParams f (position + 1) rest).run { p with
            values := p.values.push ⟨type, name, .argument f position⟩ }).2) := rfl
    rw [hstep, hrest]
    refine Prod.ext ?_ ?_
    · simp [List.range_succ_eq_map, Function.comp_def, Nat.add_assoc, Nat.add_comm 1]
    · simp [paramValues, List.mapIdx_cons, Nat.add_assoc, Nat.add_comm 1]

/-- The value that stands for a function. -/
def functionValue (f : FunctionId) (name : String) (result : Ty) (params : List (String × Ty)) :
    Value :=
  ⟨.pointer (.function result (params.map Prod.snd)), name, .function f⟩

theorem addFunction_run (name : String) (result : Ty) (params : List (String × Ty))
    (p : Program) :
    (addFunction name result params).run p =
      (⟨p.functions.size⟩, { p with
        values := p.values ++ (#[functionValue ⟨p.functions.size⟩ name result params] ++
          (paramValues ⟨p.functions.size⟩ 0 params).toArray)
        functions := p.functions.push (
          { name, value := ⟨p.values.size⟩, blocks := [], file := none
            params := (List.range params.length).map fun j => ⟨p.values.size + 1 + j⟩ }) }) := by
  have hrun : (addFunction name result params).run p =
      (⟨p.functions.size⟩,
        let made := (addParams ⟨p.functions.size⟩ 0 params).run { p with
          values := p.values.push (functionValue ⟨p.functions.size⟩ name result params) }
        { made.2 with functions := made.2.functions.push (
          { name, value := ⟨p.values.size⟩, params := made.1, blocks := [], file := none }) }) :=
    rfl
  rw [hrun]
  simp only [addParams_run, Array.size_push]
  rw [Array.push_eq_append, Array.append_assoc]

theorem Coherent.addFunction {p : Program} (hp : p.Coherent) (name : String) (result : Ty)
    (params : List (String × Ty)) : ((addFunction name result params).run p).2.Coherent := by
  rw [addFunction_run]
  refine Coherent.pushFunction (hp.addValues ?_ p.globals) rfl ?_
  · intro value hvalue i e
    simp only [Array.mem_append, List.mem_toArray, List.mem_singleton] at hvalue
    rcases hvalue with rfl | hvalue
    · cases e
    · obtain ⟨j, hj, rfl⟩ := List.mem_mapIdx.1 hvalue
      cases e
  · intro k v hk
    rw [List.getElem?_map, Option.map_eq_some_iff] at hk
    obtain ⟨j, hj, rfl⟩ := hk
    obtain ⟨hlt, rfl⟩ := List.getElem?_eq_some_iff.1 hj
    rw [List.length_range] at hlt
    rw [List.getElem_range]
    refine ⟨⟨params[k].2, params[k].1, .argument ⟨p.functions.size⟩ (0 + k)⟩, ?_, ?_⟩
    · simp only [value?, ← Array.append_assoc]
      rw [Array.getElem?_append_right (by simp)]
      simp [paramValues, hlt]
    · simp

/-! ### New blocks -/

theorem index_lt_of_block? {p : Program} {b : BlockId} {block : Block}
    (h : p.block? b = some block) : b.index < p.blocks.size :=
  (Array.getElem?_eq_some_iff.1 h).1

theorem block?_addBlock (f : FunctionId) (name : String) (p : Program) (b : BlockId) :
    ((addBlock f name).run p).2.block? b =
      if b.index = p.blocks.size then some ⟨name, f, []⟩ else p.block? b := by
  simp only [addBlock, StateT.run, block?, Array.getElem?_push]

theorem function?_addBlock (f : FunctionId) (name : String) (p : Program) (g : FunctionId) :
    ((addBlock f name).run p).2.function? g =
      if g = f then (p.function? g).map fun entry =>
        { entry with blocks := entry.blocks ++ [⟨p.blocks.size⟩] }
      else p.function? g := by
  obtain ⟨i⟩ := f
  obtain ⟨n⟩ := g
  simp only [addBlock, StateT.run, function?, Array.getElem?_modify, FunctionId.mk.injEq, eq_comm]

section AddBlock

variable {p : Program} {f : FunctionId} {name : String}

theorem block?_addBlock_of_some {b : BlockId} {block : Block} (h : p.block? b = some block) :
    ((addBlock f name).run p).2.block? b = some block := by
  rw [block?_addBlock, if_neg (Nat.ne_of_lt (index_lt_of_block? h)), h]

theorem block?_addBlock_cases {b : BlockId} {block : Block}
    (h : ((addBlock f name).run p).2.block? b = some block) :
    b = ⟨p.blocks.size⟩ ∧ block = ⟨name, f, []⟩ ∨ p.block? b = some block := by
  rw [block?_addBlock] at h
  split at h
  · rename_i hb
    exact .inl ⟨congrArg BlockId.mk hb, (Option.some.inj h).symm⟩
  · exact .inr h

theorem function?_addBlock_cases {g : FunctionId} {function : Function}
    (h : ((addBlock f name).run p).2.function? g = some function) :
    ∃ old, p.function? g = some old ∧ function.params = old.params ∧
      function.blocks = if g = f then old.blocks ++ [⟨p.blocks.size⟩] else old.blocks := by
  rw [function?_addBlock] at h
  split at h
  · obtain ⟨old, hold, rfl⟩ := Option.map_eq_some_iff.1 h
    exact ⟨old, hold, rfl, by simp [*]⟩
  · exact ⟨function, h, rfl, by simp [*]⟩

theorem Coherent.new_not_mem_blocks (hp : p.Coherent) {function : Function}
    (h : p.function? f = some function) : (⟨p.blocks.size⟩ : BlockId) ∉ function.blocks := by
  intro hmem
  obtain ⟨block, hblock, -⟩ := hp.block_of_mem h hmem
  exact Nat.lt_irrefl _ (index_lt_of_block? hblock)

end AddBlock

theorem Coherent.addBlock {p : Program} (hp : p.Coherent) {f : FunctionId} (name : String)
    (hf : (p.function? f).isSome) : ((addBlock f name).run p).2.Coherent := by
  obtain ⟨entry, hentry⟩ := Option.isSome_iff_exists.1 hf
  exact
    { mem_insts := fun h => by
        obtain ⟨block, hblock, hmem⟩ := hp.mem_insts h
        exact ⟨block, block?_addBlock_of_some hblock, hmem⟩
      inst_of_mem := fun h hmem => by
        rcases block?_addBlock_cases h with ⟨-, rfl⟩ | h
        · cases hmem
        · exact hp.inst_of_mem h hmem
      insts_nodup := fun h => by
        rcases block?_addBlock_cases h with ⟨-, rfl⟩ | h
        · exact List.nodup_nil
        · exact hp.insts_nodup h
      mem_blocks := fun {b block} h => by
        rcases block?_addBlock_cases h with ⟨rfl, rfl⟩ | h
        · refine ⟨{ entry with blocks := entry.blocks ++ [⟨p.blocks.size⟩] }, ?_, by simp⟩
          rw [function?_addBlock, if_pos rfl, hentry]
          rfl
        · obtain ⟨old, hold, hmem⟩ := hp.mem_blocks h
          rw [function?_addBlock]
          split
          · exact ⟨_, by rw [hold]; rfl, List.mem_append_left _ hmem⟩
          · exact ⟨old, hold, hmem⟩
      block_of_mem := fun {g function b} h hmem => by
        obtain ⟨old, hold, -, hblocks⟩ := function?_addBlock_cases h
        rw [hblocks] at hmem
        split at hmem
        · rename_i hg
          rcases List.mem_append.1 hmem with hmem | hmem
          · obtain ⟨block, hblock, hfun⟩ := hp.block_of_mem hold hmem
            exact ⟨block, block?_addBlock_of_some hblock, hfun⟩
          · rw [List.mem_singleton.1 hmem, hg]
            exact ⟨⟨name, f, []⟩, by rw [block?_addBlock, if_pos rfl], rfl⟩
        · obtain ⟨block, hblock, hfun⟩ := hp.block_of_mem hold hmem
          exact ⟨block, block?_addBlock_of_some hblock, hfun⟩
      blocks_nodup := fun {g function} h => by
        obtain ⟨old, hold, -, hblocks⟩ := function?_addBlock_cases h
        rw [hblocks]
        split
        · refine List.nodup_append.2 ⟨hp.blocks_nodup hold, by simp, ?_⟩
          intro b hb c hc e
          rw [e, List.mem_singleton.1 hc] at hb
          exact hp.new_not_mem_blocks hold hb
        · exact hp.blocks_nodup hold
      value_of_result := hp.value_of_result
      result_of_origin := hp.result_of_origin
      value_of_param := fun h hk => by
        obtain ⟨old, hold, hparams, -⟩ := function?_addBlock_cases h
        rw [hparams] at hk
        exact hp.value_of_param hold hk }

/-! ### New instructions -/

/-- The instruction that is made for a block, which gets the next number. -/
def madeInst (p : Program) (b : BlockId) (draft : Draft) : Inst where
  opcode := draft.opcode
  operands := draft.operands
  result := if draft.type.isVoid then none else some ⟨p.values.size⟩
  type := draft.type
  predicate := draft.predicate
  indices := draft.indices
  line := draft.line
  debug := draft.debug
  metadata := false
  block := b

theorem make_run (b : BlockId) (draft : Draft) (p : Program) :
    (make b draft).run p =
      ((⟨p.insts.size⟩, (p.madeInst b draft).result), { p with
        values := if draft.type.isVoid then p.values
          else p.values.push ⟨draft.type, draft.name, .result ⟨p.insts.size⟩⟩
        insts := p.insts.push (p.madeInst b draft) }) := by
  unfold make
  cases h : draft.type.isVoid <;> simp only [madeInst, h] <;> rfl

theorem index_lt_of_inst? {p : Program} {i : InstId} {inst : Inst}
    (h : p.inst? i = some inst) : i.index < p.insts.size :=
  (Array.getElem?_eq_some_iff.1 h).1

theorem inst?_make (b : BlockId) (draft : Draft) (p : Program) (i : InstId) :
    ((make b draft).run p).2.inst? i =
      if i.index = p.insts.size then some (p.madeInst b draft) else p.inst? i := by
  simp only [make_run, inst?, Array.getElem?_push]

theorem value?_make (b : BlockId) (draft : Draft) (p : Program) (v : ValueId) :
    ((make b draft).run p).2.value? v =
      if draft.type.isVoid = false ∧ v.index = p.values.size then
        some ⟨draft.type, draft.name, .result ⟨p.insts.size⟩⟩
      else p.value? v := by
  cases h : draft.type.isVoid
  · simp [make_run, value?, h, Array.getElem?_push]
  · simp [make_run, value?, h]

/-- The program with a new instruction in a block, whose list of instructions is changed. -/
def placed (p : Program) (b : BlockId) (change : List InstId → List InstId) (draft : Draft) :
    Program :=
  modifyInsts b change ((make b draft).run p).2

section Placed

variable {p : Program} {b : BlockId} {change : List InstId → List InstId} {draft : Draft}

theorem inst?_placed (i : InstId) : (p.placed b change draft).inst? i =
    if i.index = p.insts.size then some (p.madeInst b draft) else p.inst? i :=
  inst?_make b draft p i

theorem value?_placed (v : ValueId) : (p.placed b change draft).value? v =
    if draft.type.isVoid = false ∧ v.index = p.values.size then
      some ⟨draft.type, draft.name, .result ⟨p.insts.size⟩⟩
    else p.value? v :=
  value?_make b draft p v

theorem function?_placed (f : FunctionId) :
    (p.placed b change draft).function? f = p.function? f := by
  rw [placed, make_run]
  rfl

theorem block?_placed (c : BlockId) : (p.placed b change draft).block? c =
    if c = b then (p.block? c).map fun block => { block with insts := change block.insts }
    else p.block? c := by
  rw [placed, block?_modifyInsts, make_run]
  rfl

theorem inst?_placed_of_some {i : InstId} {inst : Inst} (h : p.inst? i = some inst) :
    (p.placed b change draft).inst? i = some inst := by
  rw [inst?_placed, if_neg (Nat.ne_of_lt (index_lt_of_inst? h)), h]

theorem value?_placed_of_some {v : ValueId} {value : Value} (h : p.value? v = some value) :
    (p.placed b change draft).value? v = some value := by
  rw [value?_placed, if_neg (fun e => Nat.ne_of_lt (index_lt_of_value? h) e.2), h]

theorem inst?_placed_cases {i : InstId} {inst : Inst}
    (h : (p.placed b change draft).inst? i = some inst) :
    i = ⟨p.insts.size⟩ ∧ inst = p.madeInst b draft ∨ p.inst? i = some inst := by
  rw [inst?_placed] at h
  split at h
  · rename_i hi
    exact .inl ⟨congrArg InstId.mk hi, (Option.some.inj h).symm⟩
  · exact .inr h

theorem block?_placed_cases {block : Block} (hb : p.block? b = some block) {c : BlockId}
    {entry : Block} (h : (p.placed b change draft).block? c = some entry) :
    ∃ old, p.block? c = some old ∧ entry.function = old.function ∧
      (c = b ∧ old = block ∧ entry.insts = change block.insts ∨ c ≠ b ∧ entry = old) := by
  rw [block?_placed] at h
  split at h
  · rename_i hc
    subst hc
    rw [hb] at h
    cases h
    exact ⟨block, hb, rfl, .inl ⟨rfl, rfl, rfl⟩⟩
  · rename_i hc
    exact ⟨entry, h, rfl, .inr ⟨hc, rfl⟩⟩

/-- A block stays, with all its instructions. -/
theorem exists_block?_placed {block : Block} (hb : p.block? b = some block)
    (hmem : ∀ i ∈ block.insts, i ∈ change block.insts) {c : BlockId} {old : Block}
    (h : p.block? c = some old) :
    ∃ entry, (p.placed b change draft).block? c = some entry ∧ entry.function = old.function ∧
      ∀ i ∈ old.insts, i ∈ entry.insts := by
  rw [block?_placed]
  split
  · rename_i hc
    subst hc
    rw [hb] at h
    cases h
    exact ⟨{ block with insts := change block.insts }, by rw [hb]; rfl, rfl, hmem⟩
  · exact ⟨old, h, rfl, fun _ hi => hi⟩

end Placed

theorem placeLast_state (p : Program) (b : BlockId) (draft : Draft) :
    ((placeLast b draft).run p).2 = p.placed b (· ++ [⟨p.insts.size⟩]) draft := by
  have hnew : ((make b draft).run p).1.1 = ⟨p.insts.size⟩ := by rw [make_run]
  rw [← hnew]
  rfl

theorem placeBefore_outcome {p : Program} {i : InstId} {inst : Inst} (h : p.inst? i = some inst)
    (draft : Draft) :
    (placeBefore i draft).outcome p =
      (.ok (⟨p.insts.size⟩, (p.madeInst inst.block draft).result),
        p.placed inst.block (putBefore i ⟨p.insts.size⟩) draft) := by
  have hmade : ((make inst.block draft).run p).1 =
      (⟨p.insts.size⟩, (p.madeInst inst.block draft).result) := by
    rw [make_run]
  unfold placeBefore
  rw [Pass.outcome_bind, Pass.outcome_get]
  simp only
  rw [Pass.outcome_bind, Pass.outcome_lift, (inst_eq_ok_iff p).2 h]
  change (Except.ok ((make inst.block draft).run p).1,
    p.placed inst.block (putBefore i ((make inst.block draft).run p).1.1) draft) = _
  rw [hmade]

theorem placeBefore_of_none {p : Program} {i : InstId} (h : p.inst? i = none) (draft : Draft) :
    (placeBefore i draft).outcome p = (.error .noSuchEntry, p) := by
  unfold placeBefore
  rw [Pass.outcome_bind, Pass.outcome_get]
  simp only
  rw [Pass.outcome_bind, Pass.outcome_lift, Program.inst, h]
  rfl

/-- An instruction is placed before another one, or nothing happens because that one is missing. -/
theorem placeBefore_state (p : Program) (anchor : InstId) (draft : Draft) :
    ((placeBefore anchor draft).outcome p).2 = p ∨
      ∃ inst, p.inst? anchor = some inst ∧ ((placeBefore anchor draft).outcome p).2 =
        p.placed inst.block (putBefore anchor ⟨p.insts.size⟩) draft := by
  cases h : p.inst? anchor with
  | none => exact .inl (by rw [placeBefore_of_none h])
  | some inst => exact .inr ⟨inst, rfl, by rw [placeBefore_outcome h]⟩

/-- A new instruction that is added to the list of its block. -/
theorem Coherent.place {p : Program} (hp : p.Coherent) {b : BlockId} {block : Block}
    (hb : p.block? b = some block) (draft : Draft) {change : List InstId → List InstId}
    (hmem : ∀ i, i ∈ change block.insts ↔ i = ⟨p.insts.size⟩ ∨ i ∈ block.insts)
    (hnodup : (change block.insts).Nodup) : (p.placed b change draft).Coherent := by
  have hkeeps : ∀ i ∈ block.insts, i ∈ change block.insts := by
    intro i hi
    exact (hmem i).2 (.inr hi)
  exact
    { mem_insts := fun {i inst} h => by
        rcases inst?_placed_cases h with ⟨rfl, rfl⟩ | h
        · refine ⟨{ block with insts := change block.insts }, ?_, (hmem _).2 (.inl rfl)⟩
          change (p.placed b change draft).block? b = _
          rw [block?_placed, if_pos rfl, hb]
          rfl
        · obtain ⟨old, hold, hi⟩ := hp.mem_insts h
          obtain ⟨entry, hentry, -, hsub⟩ := exists_block?_placed hb hkeeps hold
          exact ⟨entry, hentry, hsub i hi⟩
      inst_of_mem := fun {c entry i} h hi => by
        obtain ⟨old, hold, -, ⟨rfl, rfl, hinsts⟩ | ⟨-, rfl⟩⟩ := block?_placed_cases hb h
        · rw [hinsts, hmem] at hi
          rcases hi with rfl | hi
          · exact ⟨p.madeInst c draft, by rw [inst?_placed, if_pos rfl], rfl⟩
          · obtain ⟨inst, h1, h2⟩ := hp.inst_of_mem hold hi
            exact ⟨inst, inst?_placed_of_some h1, h2⟩
        · obtain ⟨inst, h1, h2⟩ := hp.inst_of_mem hold hi
          exact ⟨inst, inst?_placed_of_some h1, h2⟩
      insts_nodup := fun h => by
        obtain ⟨old, hold, -, ⟨rfl, rfl, hinsts⟩ | ⟨-, rfl⟩⟩ := block?_placed_cases hb h
        · rwa [hinsts]
        · exact hp.insts_nodup hold
      mem_blocks := fun h => by
        obtain ⟨old, hold, hfun, -⟩ := block?_placed_cases hb h
        rw [hfun, function?_placed]
        exact hp.mem_blocks hold
      block_of_mem := fun h hc => by
        rw [function?_placed] at h
        obtain ⟨old, hold, hfun⟩ := hp.block_of_mem h hc
        obtain ⟨entry, hentry, hfun', -⟩ := exists_block?_placed hb hkeeps hold
        exact ⟨entry, hentry, hfun'.trans hfun⟩
      blocks_nodup := fun h => by
        rw [function?_placed] at h
        exact hp.blocks_nodup h
      value_of_result := fun {i inst v} h hres => by
        rcases inst?_placed_cases h with ⟨rfl, rfl⟩ | h
        · cases hvoid : draft.type.isVoid
          · simp only [madeInst, hvoid] at hres
            cases hres
            refine ⟨⟨draft.type, draft.name, .result ⟨p.insts.size⟩⟩, ?_, rfl, rfl, ?_⟩
            · rw [value?_placed, if_pos ⟨hvoid, rfl⟩]
            · intro e
              rw [show draft.type = .void from e] at hvoid
              cases hvoid
          · simp [madeInst, hvoid] at hres
        · obtain ⟨value, h1, h2⟩ := hp.value_of_result h hres
          exact ⟨value, value?_placed_of_some h1, h2⟩
      result_of_origin := fun {v value i} h horigin => by
        rw [value?_placed] at h
        split at h
        · rename_i hv
          cases h
          cases horigin
          refine ⟨p.madeInst b draft, by rw [inst?_placed, if_pos rfl], ?_⟩
          simp [madeInst, hv.1, ← hv.2]
        · obtain ⟨inst, h1, h2⟩ := hp.result_of_origin h horigin
          exact ⟨inst, inst?_placed_of_some h1, h2⟩
      value_of_param := fun h hk => by
        rw [function?_placed] at h
        obtain ⟨value, h1, h2⟩ := hp.value_of_param h hk
        exact ⟨value, value?_placed_of_some h1, h2⟩ }

theorem Coherent.new_not_mem {p : Program} (hp : p.Coherent) {b : BlockId} {block : Block}
    (hb : p.block? b = some block) : (⟨p.insts.size⟩ : InstId) ∉ block.insts := by
  intro hmem
  obtain ⟨inst, hinst, -⟩ := hp.inst_of_mem hb hmem
  exact Nat.lt_irrefl _ (index_lt_of_inst? hinst)

theorem Coherent.placeLast {p : Program} (hp : p.Coherent) {b : BlockId} (draft : Draft)
    (hb : (p.block? b).isSome) : ((placeLast b draft).run p).2.Coherent := by
  obtain ⟨block, hblock⟩ := Option.isSome_iff_exists.1 hb
  rw [placeLast_state]
  refine hp.place hblock draft (fun i => ?_) ?_
  · rw [List.mem_append, List.mem_singleton, or_comm]
  · refine List.nodup_append.2 ⟨hp.insts_nodup hblock, by simp, ?_⟩
    intro i hi j hj e
    rw [e, List.mem_singleton.1 hj] at hi
    exact hp.new_not_mem hblock hi

theorem nodup_putBefore {anchor new : InstId} {insts : List InstId} (hnew : new ∉ insts)
    (h : insts.Nodup) : (putBefore anchor new insts).Nodup := by
  induction insts with
  | nil => simp [putBefore]
  | cons i rest ih =>
    rw [List.mem_cons, not_or] at hnew
    rw [List.nodup_cons] at h
    unfold putBefore
    split
    · simp [hnew.1, hnew.2, h.1, h.2]
    · rw [List.nodup_cons, mem_putBefore, not_or]
      exact ⟨⟨fun e => hnew.1 e.symm, h.1⟩, ih hnew.2 h.2⟩

theorem Coherent.placeBefore {p : Program} (hp : p.Coherent) (anchor : InstId) (draft : Draft) :
    ((placeBefore anchor draft).outcome p).2.Coherent := by
  rcases placeBefore_state p anchor draft with h | ⟨inst, hinst, h⟩
  · rwa [h]
  · obtain ⟨block, hblock, -⟩ := hp.mem_insts hinst
    rw [h]
    exact hp.place hblock draft (fun i => mem_putBefore)
      (nodup_putBefore (hp.new_not_mem hblock) (hp.insts_nodup hblock))

/-! ### All edits -/

theorem Coherent.edit {p : Program} (hp : p.Coherent) {edit : Edit} (h : edit.applies p = true) :
    (edit.apply p).Coherent := by
  cases edit with
  | value type name origin => exact hp.addValue type name (by simpa [Edit.applies] using h)
  | global name contents => exact hp.addGlobal name contents
  | function name result params => exact hp.addFunction name result params
  | file f file => exact hp.setFile f file
  | block f name => exact hp.addBlock name h
  | last b draft => exact hp.placeLast draft h
  | before anchor draft => exact hp.placeBefore anchor draft
  | operand i position operand => exact hp.replaceOperand i position operand
  | name v name => exact hp.setName v name
  | metadata i flag => exact hp.setMetadata i flag

theorem Coherent.edits {p q : Program} (hp : p.Coherent) (h : Edits p q) : q.Coherent := by
  induction h with
  | refl => exact hp
  | tail _ hedit ih =>
    obtain ⟨edit, happlies, rfl⟩ := hedit
    exact ih.edit happlies

/-- **A program that was put together by edits is coherent**: its parts refer to each other in both
directions in the same way. -/
theorem Assembled.coherent {p : Program} (hp : p.Assembled) : p.Coherent := by
  obtain ⟨name, h⟩ := hp
  exact (coherent_empty name).edits h

/-! ### Results -/

/-- Every instruction that is not void has a result. -/
def HasResults (p : Program) : Prop :=
  ∀ i inst, p.inst? i = some inst → inst.type ≠ .void → ∃ v, inst.result = some v

theorem HasResults.place {p : Program} (hp : p.HasResults) (b : BlockId)
    (change : List InstId → List InstId) (draft : Draft) :
    (p.placed b change draft).HasResults := by
  intro i inst h htype
  rcases inst?_placed_cases h with ⟨rfl, rfl⟩ | h
  · refine ⟨⟨p.values.size⟩, if_neg ?_⟩
    rw [Ty.isVoid_iff]
    exact htype
  · exact hp i inst h htype

theorem HasResults.modifyInst {p : Program} (hp : p.HasResults) (i : InstId)
    {change : Inst → Inst}
    (hchange : ∀ inst, (change inst).result = inst.result ∧ (change inst).type = inst.type) :
    HasResults { p with insts := p.insts.modify i.index change } := by
  intro j inst h htype
  simp only [inst?, Array.getElem?_modify] at h
  split at h
  · obtain ⟨old, hold, rfl⟩ := Option.map_eq_some_iff.1 h
    rw [(hchange old).2] at htype
    rw [(hchange old).1]
    exact hp j old hold htype
  · exact hp j inst h htype

theorem HasResults.edit {p : Program} (hp : p.HasResults) (edit : Edit) :
    (edit.apply p).HasResults := by
  cases edit with
  | value | global | file | block | name => exact hp
  | function name result params =>
    change ((addFunction name result params).run p).2.HasResults
    rw [addFunction_run]
    exact hp
  | last b draft =>
    change ((Program.placeLast b draft).run p).2.HasResults
    rw [placeLast_state]
    exact hp.place b _ draft
  | before anchor draft =>
    change ((Program.placeBefore anchor draft).outcome p).2.HasResults
    rcases placeBefore_state p anchor draft with h | ⟨inst, -, h⟩
    · rwa [h]
    · rw [h]
      exact hp.place inst.block _ draft
  | operand i position operand =>
    change ((Program.replaceOperand i position operand).outcome p).2.HasResults
    rcases replaceOperand_outcome p i position operand with h | h
    · rwa [h]
    · rw [h]
      exact hp.modifyInst i fun _ => ⟨rfl, rfl⟩
  | metadata i flag => exact hp.modifyInst i fun _ => ⟨rfl, rfl⟩

theorem Assembled.hasResults {p : Program} (hp : p.Assembled) : p.HasResults := by
  obtain ⟨name, h⟩ := hp
  induction h with
  | refl =>
    intro i inst h
    simp [inst?] at h
  | tail _ hedit ih =>
    obtain ⟨edit, -, rfl⟩ := hedit
    exact ih.edit edit

/-! ### Parameters -/

/-- Parameters belong to functions of the program, and no two values stand for the same one. -/
structure ParamsApart (p : Program) : Prop where
  lt : ∀ {v value f k}, p.value? v = some value → value.origin = .argument f k →
    f.index < p.functions.size
  inj : ∀ {u v value value' f k}, p.value? u = some value → p.value? v = some value' →
    value.origin = .argument f k → value'.origin = .argument f k → u = v

/-- New values that are no parameters, and new functions. -/
theorem ParamsApart.of_values {p q : Program} (hp : p.ParamsApart)
    (hvalues : ∀ v value f k, q.value? v = some value → value.origin = .argument f k →
      ∃ old, p.value? v = some old ∧ old.origin = .argument f k)
    (hfunctions : p.functions.size ≤ q.functions.size) : q.ParamsApart where
  lt h horigin := by
    obtain ⟨old, hold, horigin⟩ := hvalues _ _ _ _ h horigin
    exact Nat.lt_of_lt_of_le (hp.lt hold horigin) hfunctions
  inj hu hv horigin horigin' := by
    obtain ⟨old, hold, horigin⟩ := hvalues _ _ _ _ hu horigin
    obtain ⟨old', hold', horigin'⟩ := hvalues _ _ _ _ hv horigin'
    exact hp.inj hold hold' horigin horigin'

theorem ParamsApart.push {p : Program} (hp : p.ParamsApart) (new : Value)
    (hnew : new.origin.isArgument = false) (globals : List ValueId) :
    ParamsApart { p with values := p.values.push new, globals } := by
  refine hp.of_values (fun v value f k h horigin => ?_) (Nat.le_refl _)
  simp only [value?, Array.getElem?_push] at h
  split at h
  · cases h
    rw [horigin] at hnew
    cases hnew
  · exact ⟨value, h, horigin⟩

theorem ParamsApart.place {p : Program} (hp : p.ParamsApart) (b : BlockId)
    (change : List InstId → List InstId) (draft : Draft) :
    (p.placed b change draft).ParamsApart := by
  refine hp.of_values (fun v value f k h horigin => ?_) ?_
  · rw [value?_placed] at h
    split at h
    · cases h
      cases horigin
    · exact ⟨value, h, horigin⟩
  · rw [placed, make_run]
    exact Nat.le_refl _

theorem value?_addFunction_cases {p : Program} {name : String} {result : Ty}
    {params : List (String × Ty)} {v : ValueId} {value : Value} {f : FunctionId} {k : Nat}
    (h : ((addFunction name result params).run p).2.value? v = some value)
    (horigin : value.origin = .argument f k) :
    p.value? v = some value ∨ f = ⟨p.functions.size⟩ ∧ v = ⟨p.values.size + 1 + k⟩ := by
  rw [addFunction_run] at h
  by_cases hlt : v.index < p.values.size
  · simp only [value?, Array.getElem?_append_left hlt] at h
    exact .inl h
  · -- the value of the function comes first, and then those of its parameters
    obtain ⟨j, hj⟩ : ∃ j, v.index = p.values.size + j :=
      ⟨_, (Nat.add_sub_cancel' (Nat.le_of_not_lt hlt)).symm⟩
    simp only [value?, hj, Array.getElem?_append_right (Nat.le_add_right _ _),
      Nat.add_sub_cancel_left] at h
    cases j with
    | zero =>
      simp only [functionValue, List.size_toArray, List.length_cons, List.length_nil, Nat.zero_add,
        Nat.lt_one_iff, Array.getElem?_append_left, List.getElem?_toArray, List.getElem?_cons_zero,
        Option.some.injEq] at h
      subst h
      cases horigin
    | succ j =>
      have hparam : (paramValues ⟨p.functions.size⟩ 0 params)[j]? = some value := by simpa using h
      simp only [paramValues, List.getElem?_mapIdx, Option.map_eq_some_iff] at hparam
      obtain ⟨param, -, rfl⟩ := hparam
      cases horigin
      refine .inr ⟨rfl, ?_⟩
      obtain ⟨n⟩ := v
      simp only [ValueId.mk.injEq] at hj ⊢
      omega

theorem ParamsApart.addFunction {p : Program} (hp : p.ParamsApart) (name : String) (result : Ty)
    (params : List (String × Ty)) : ((addFunction name result params).run p).2.ParamsApart where
  lt h horigin := by
    have hsize : ((Program.addFunction name result params).run p).2.functions.size =
        p.functions.size + 1 := by
      rw [addFunction_run]
      exact Array.size_push ..
    rcases value?_addFunction_cases h horigin with h | ⟨rfl, -⟩
    · exact hsize ▸ Nat.lt_succ_of_lt (hp.lt h horigin)
    · exact hsize ▸ Nat.lt_succ_self _
  inj hu hv horigin horigin' := by
    rcases value?_addFunction_cases hu horigin with hu | ⟨rfl, rfl⟩
    · rcases value?_addFunction_cases hv horigin' with hv | ⟨rfl, -⟩
      · exact hp.inj hu hv horigin horigin'
      · exact absurd (hp.lt hu horigin) (Nat.lt_irrefl _)
    · rcases value?_addFunction_cases hv horigin' with hv | ⟨-, rfl⟩
      · exact absurd (hp.lt hv horigin') (Nat.lt_irrefl _)
      · rfl

theorem ParamsApart.edit {p : Program} (hp : p.ParamsApart) {edit : Edit}
    (h : edit.applies p = true) : (edit.apply p).ParamsApart := by
  have hsame {q : Program} (hvalues : q.values = p.values)
      (hfunctions : q.functions.size = p.functions.size) : q.ParamsApart := by
    refine hp.of_values (fun v value f k hv horigin => ⟨value, ?_, horigin⟩)
      (Nat.le_of_eq hfunctions.symm)
    rwa [value?, hvalues] at hv
  cases edit with
  | value type name origin =>
    have hattached : origin.isAttached = false := by simpa [Edit.applies] using h
    refine hp.push ⟨type, name, origin⟩ ?_ p.globals
    cases origin with
    | argument f k => cases hattached
    | _ => rfl
  | global name contents => exact hp.push ⟨.pointer contents, name, .globalVariable⟩ rfl _
  | function name result params => exact hp.addFunction name result params
  | file f file => exact hsame rfl (Array.size_modify ..)
  | block f name => exact hsame rfl (Array.size_modify ..)
  | last b draft =>
    change ((Program.placeLast b draft).run p).2.ParamsApart
    rw [placeLast_state]
    exact hp.place b _ draft
  | before anchor draft =>
    change ((Program.placeBefore anchor draft).outcome p).2.ParamsApart
    rcases placeBefore_state p anchor draft with h | ⟨inst, -, h⟩
    · rwa [h]
    · rw [h]
      exact hp.place inst.block _ draft
  | operand i position operand =>
    change ((Program.replaceOperand i position operand).outcome p).2.ParamsApart
    rcases replaceOperand_outcome p i position operand with h | h
    · rwa [h]
    · rw [h]
      exact hsame rfl rfl
  | name v name =>
    refine hp.of_values (fun u value f k hu horigin => ?_) (Nat.le_refl _)
    rw [show (Edit.name v name).apply p = setName v name p from rfl, value?_setName] at hu
    split at hu
    · obtain ⟨old, hold, rfl⟩ := Option.map_eq_some_iff.1 hu
      exact ⟨old, hold, horigin⟩
    · exact ⟨value, hu, horigin⟩
  | metadata i flag => exact hsame rfl rfl

theorem Assembled.paramsApart {p : Program} (hp : p.Assembled) : p.ParamsApart := by
  obtain ⟨name, h⟩ := hp
  induction h with
  | refl => constructor <;> simp [value?]
  | tail _ hedit ih =>
    obtain ⟨edit, happlies, rfl⟩ := hedit
    exact ih.edit happlies

end Program

end LevelIr
