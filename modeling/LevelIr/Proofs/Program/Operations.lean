import LevelIr.Proofs.Produce
import LevelIr.Proofs.Program.Cursor

/-!
# Programs that operations make

A program comes about by edits, by what is written at cursors, and by the passes that work on it in
place.  An operation may fail, and then leaves behind what it has done so far; the context that a
pass is given may come from anywhere.  All that is asked of an operation is that it is given handles
of the program.

* `Program.Operation` : an operation, with the program that it leaves behind.
* `Program.MadeBy`, `Program.Made` : the programs that operations make of an empty one.
* `Program.KeptByOperations` : what is kept by operations holds of the programs they make.
* `Program.Interlinked` : the parts of a program refer to each other in both directions, so each of
  them is listed in exactly one place.
* `Program.Made.interlinked` : this holds of every program that operations make.
-/

namespace LevelIr

namespace Program

/-! ### Operations -/

/-- An operation on a program. -/
inductive Operation where
  /-- An edit. -/
  | edit (edit : Edit)
  /-- A function of a cursor. -/
  | write (c : Cursor) (call : Cursor.Call)
  /-- Versioning the loads of a function. -/
  | versionFunction (context : Context) (oracle : Oracle) (f : FunctionId)
  /-- Versioning the loads of the program. -/
  | versionProgram (context : Context) (oracle : Oracle)
  /-- Listing the program, which names its registers. -/
  | transcribe (context : Context) (discard : Bool)

namespace Operation

/-- The program that an operation leaves behind, whether it ends well or not. -/
def apply (p : Program) : Operation → Program
  | edit change => change.apply p
  | write c call => call.perform c p
  | versionFunction context oracle f =>
    ((Workspace.versionFunction oracle f).outcome { program := p, context }).2.program
  | versionProgram context oracle =>
    ((Workspace.versionProgram oracle).outcome { program := p, context }).2.program
  | transcribe context discard =>
    ((Workspace.transcribe discard).outcome { program := p, context }).2.program

/-- Whether an operation is given handles of the program. -/
def fits (p : Program) : Operation → Bool
  | edit change => change.fits p
  | write c call => p.has (.block c.block) && call.handles.all p.has
  | versionFunction _ _ _ | versionProgram _ _ | transcribe _ _ => true

/-- Whether an operation is the direct replacement of an operand. -/
def replaces : Operation → Bool
  | edit change => change.replaces
  | _ => false

end Operation

/-- The programs that operations of some kind make of an empty one. -/
inductive MadeBy (allowed : Operation → Prop) : Program → Prop where
  /-- The empty program. -/
  | empty (name : String) : MadeBy allowed { name }
  /-- What an operation makes of such a program. -/
  | next {p : Program} (h : MadeBy allowed p) (operation : Operation)
      (hallowed : allowed operation) (hfits : operation.fits p = true) :
      MadeBy allowed (operation.apply p)

/-- The programs that operations make of an empty one. -/
abbrev Made : Program → Prop := MadeBy fun _ => True

/-- The program that operations make of an empty one; those that do not fit are passed over. -/
def ofOperations (name : String) (operations : List Operation) : Program :=
  operations.foldl (fun p operation => if operation.fits p then operation.apply p else p) { name }

variable {p : Program} {allowed : Operation → Prop}

theorem madeBy_ofOperations {name : String} {operations : List Operation}
    (h : ∀ operation ∈ operations, allowed operation) :
    MadeBy allowed (ofOperations name operations) := by
  have hfold (p : Program) (hp : MadeBy allowed p) : MadeBy allowed (operations.foldl
      (fun p operation => if operation.fits p then operation.apply p else p) p) := by
    induction operations generalizing p with
    | nil => exact hp
    | cons operation operations ih =>
      obtain ⟨hfirst, hrest⟩ := List.forall_mem_cons.1 h
      rw [List.foldl_cons]
      refine ih hrest _ ?_
      split
      · rename_i hfits
        exact hp.next operation hfirst hfits
      · exact hp
  exact hfold _ (.empty name)

theorem MadeBy.imp {others : Operation → Prop} (h : MadeBy allowed p)
    (hallowed : ∀ operation, allowed operation → others operation) : MadeBy others p := by
  induction h with
  | empty name => exact .empty name
  | next _ operation h hfits ih => exact ih.next operation (hallowed operation h) hfits

/-- An operation edits the program. -/
theorem Operation.edits {operation : Operation} (hp : p.Assembled)
    (h : operation.fits p = true) : Edits p (operation.apply p) := by
  cases operation with
  | edit change => exact edits_apply change (change.applies_of_fits h)
  | write c call =>
    rw [fits, Bool.and_eq_true, List.all_eq_true] at h
    exact (call.builds hp h.1 h.2).edits
  | versionFunction context oracle f =>
    exact (Workspace.evolves_versionFunction oracle f { program := p, context }).edits
  | versionProgram context oracle =>
    exact (Workspace.evolves_versionProgram oracle { program := p, context }).edits
  | transcribe context discard =>
    exact (Workspace.evolves_transcribe discard { program := p, context }).edits

theorem MadeBy.assembled (h : p.MadeBy allowed) : p.Assembled := by
  induction h with
  | empty name => exact ⟨name, .refl⟩
  | next _ operation _ hfits ih => exact ih.edits (operation.edits ih hfits)

/-- What holds of a program is kept by the edits that operations make: by those that fit, whether
they are made directly or through a cursor, by those that versioning makes, and by other names. -/
structure KeptByOperations (allowed : Operation → Prop) (I : Program → Prop) : Prop where
  edit : ∀ p (edit : Edit), edit.fits p = true → (edit.replaces = true → allowed (.edit edit)) →
    p.Coherent → I p → I (edit.apply p)
  versioning : Versioning.KeptByEdits fun p => p.Coherent ∧ I p
  names : ∀ p q : Program, q.nameless = p.nameless → I p → I q

namespace KeptByOperations

variable {I : Program → Prop} (h : KeptByOperations allowed I)

include h

theorem builds {q : Program} (hbuilds : p.Builds q) (hc : p.Coherent) (hp : I p) : I q := by
  induction hbuilds with
  | refl => exact hp
  | tail hbuilds hedit ih =>
    obtain ⟨edit, hfits, hkeeps, rfl⟩ := hedit
    refine h.edit _ edit hfits (fun hreplaces => ?_) (hc.edits (Builds.edits hbuilds)) ih
    cases hkeeps.symm.trans hreplaces

theorem operation {operation : Operation} (hallowed : allowed operation)
    (hfits : operation.fits p = true) (ha : p.Assembled) (hp : I p) : I (operation.apply p) := by
  have hc := ha.coherent
  cases operation with
  | edit change => exact h.edit p change hfits (fun _ => hallowed) hc hp
  | write c call =>
    rw [Operation.fits, Bool.and_eq_true, List.all_eq_true] at hfits
    exact h.builds (call.builds ha hfits.1 hfits.2) hc hp
  | versionFunction context oracle f =>
    exact (h.versioning.versionFunction oracle f (w := { program := p, context })
      ⟨⟨hc, hp⟩, rfl, rfl⟩).reached.program.2
  | versionProgram context oracle =>
    exact (h.versioning.versionProgram oracle (w := { program := p, context })
      ⟨hc, hp⟩).reached.program.2
  | transcribe context discard =>
    exact h.names _ _ (Workspace.keeps_transcribe discard { program := p, context }).nameless hp

/-- What is kept by operations holds of every program that they make. -/
theorem madeBy (hempty : ∀ name, I { name }) (hp : p.MadeBy allowed) : I p := by
  induction hp with
  | empty name => exact hempty name
  | next hp operation hallowed hfits ih => exact h.operation hallowed hfits hp.assembled ih

end KeptByOperations

/-! ### Cross references -/

/-- The parts of a program refer to each other in both directions, so each instruction and each
block is listed in exactly one place. -/
structure Interlinked (p : Program) : Prop where
  /-- An instruction is listed once by its block, and by no other. -/
  insts : ∀ i inst, p.inst? i = some inst → p.has (.block inst.block) = true ∧
    ∀ b block, p.block? b = some block → block.insts.count i = if b = inst.block then 1 else 0
  /-- A block lists instructions of the program only. -/
  listedInsts : ∀ b block i, p.block? b = some block → i ∈ block.insts → p.has (.inst i) = true
  /-- A block is listed once by its function, and by no other. -/
  blocks : ∀ b block, p.block? b = some block → p.has (.function block.function) = true ∧
    ∀ f function, p.function? f = some function →
      function.blocks.count b = if f = block.function then 1 else 0
  /-- A function lists blocks of the program only. -/
  listedBlocks : ∀ f function b, p.function? f = some function → b ∈ function.blocks →
    p.has (.block b) = true
  /-- The results of instructions are the values that come from them. -/
  results : ∀ i v, (∃ inst, p.inst? i = some inst ∧ inst.result = some v) ↔
    p.origin? v = some (.result i)
  /-- A result has the type of its instruction, which is not `void`. -/
  resultTypes : ∀ i inst v, p.inst? i = some inst → inst.result = some v →
    inst.type ≠ .void ∧ (p.value? v).map Value.type = some inst.type
  /-- A parameter of a function comes from its place. -/
  params : ∀ f function k v, p.function? f = some function → function.params[k]? = some v →
    p.origin? v = some (.argument f k)
  /-- An instruction that is placed before another one comes right before it in its block. -/
  placed : ∀ anchor inst draft, p.inst? anchor = some inst → ∃ block front back,
    p.block? inst.block = some block ∧ block.insts = front ++ anchor :: back ∧ anchor ∉ front ∧
    ((placeBefore anchor draft).outcome p).2.block? inst.block =
      some { block with insts := front ++ ⟨p.insts.size⟩ :: anchor :: back }

section Coherent

variable (hp : p.Coherent)

include hp

theorem Coherent.count_insts {i : InstId} {inst : Inst} (hi : p.inst? i = some inst) {b : BlockId}
    {block : Block} (hb : p.block? b = some block) :
    block.insts.count i = if b = inst.block then 1 else 0 := by
  rw [(hp.insts_nodup hb).count]
  refine if_congr ⟨fun hmem => ?_, fun h => ?_⟩ rfl rfl
  · obtain ⟨_, hinst, hblock⟩ := hp.inst_of_mem hb hmem
    rw [hi] at hinst
    cases hinst
    exact hblock.symm
  · obtain ⟨_, hblock, hmem⟩ := hp.mem_insts hi
    rw [← h, hb] at hblock
    cases hblock
    exact hmem

theorem Coherent.count_blocks {b : BlockId} {block : Block} (hb : p.block? b = some block)
    {f : FunctionId} {function : Function} (hf : p.function? f = some function) :
    function.blocks.count b = if f = block.function then 1 else 0 := by
  rw [(hp.blocks_nodup hf).count]
  refine if_congr ⟨fun hmem => ?_, fun h => ?_⟩ rfl rfl
  · obtain ⟨_, hblock, hfunction⟩ := hp.block_of_mem hf hmem
    rw [hb] at hblock
    cases hblock
    exact hfunction.symm
  · obtain ⟨_, hfunction, hmem⟩ := hp.mem_blocks hb
    rw [← h, hf] at hfunction
    cases hfunction
    exact hmem

theorem Coherent.result_iff (i : InstId) (v : ValueId) :
    (∃ inst, p.inst? i = some inst ∧ inst.result = some v) ↔ p.origin? v = some (.result i) := by
  rw [origin?_eq_some_iff]
  constructor
  · rintro ⟨inst, hinst, hresult⟩
    obtain ⟨value, hvalue, horigin, -⟩ := hp.value_of_result hinst hresult
    exact ⟨value, hvalue, horigin⟩
  · rintro ⟨value, hvalue, horigin⟩
    exact hp.result_of_origin hvalue horigin

/-- The anchor is found, so the end of the block is never taken instead. -/
theorem Coherent.block?_placeBefore {anchor : InstId} {inst : Inst}
    (h : p.inst? anchor = some inst) (draft : Draft) : ∃ block front back,
      p.block? inst.block = some block ∧ block.insts = front ++ anchor :: back ∧ anchor ∉ front ∧
      ((Program.placeBefore anchor draft).outcome p).2.block? inst.block =
        some { block with insts := front ++ ⟨p.insts.size⟩ :: anchor :: back } := by
  obtain ⟨block, hblock, hmem⟩ := hp.mem_insts h
  obtain ⟨front, back, hinsts, hfront⟩ := List.eq_append_cons_of_mem hmem
  refine ⟨block, front, back, hblock, hinsts, hfront, ?_⟩
  rw [placeBefore_outcome h, block?_placed, if_pos rfl, hblock, Option.map_some, hinsts,
    putBefore_append hfront]

end Coherent

/-- **The parts of a program that operations make refer to each other in both directions.** -/
theorem Made.interlinked (h : p.Made) : p.Interlinked := by
  have hp : p.Coherent := h.assembled.coherent
  constructor
  case insts =>
    intro i inst hi
    obtain ⟨block, hblock, -⟩ := hp.mem_insts hi
    exact ⟨Option.isSome_iff_exists.2 ⟨block, hblock⟩, fun b block hb => hp.count_insts hi hb⟩
  case listedInsts =>
    intro b block i hb hmem
    obtain ⟨inst, hinst, -⟩ := hp.inst_of_mem hb hmem
    exact Option.isSome_iff_exists.2 ⟨inst, hinst⟩
  case blocks =>
    intro b block hb
    obtain ⟨function, hfunction, -⟩ := hp.mem_blocks hb
    exact ⟨Option.isSome_iff_exists.2 ⟨function, hfunction⟩, fun f function hf =>
      hp.count_blocks hb hf⟩
  case listedBlocks =>
    intro f function b hf hmem
    obtain ⟨block, hblock, -⟩ := hp.block_of_mem hf hmem
    exact Option.isSome_iff_exists.2 ⟨block, hblock⟩
  case results => exact hp.result_iff
  case resultTypes =>
    intro i inst v hi hresult
    obtain ⟨value, hvalue, -, htype, hvoid⟩ := hp.value_of_result hi hresult
    exact ⟨hvoid, by rw [hvalue, ← htype]; rfl⟩
  case params =>
    intro f function k v hf hk
    exact origin?_eq_some_iff.2 (hp.value_of_param hf hk)
  case placed => exact fun anchor inst draft h => hp.block?_placeBefore h draft

/-- A function of two loads that was versioned as far as the first of them: there is no version for
the second one.  Before, a cast was written that has no result, and an operation was placed between
the loads that now is its own operand. -/
def halfway : Program :=
  ofOperations "halfway"
    [.edit (.function "f" (.int 32) [("x", .int 32)]), .edit (.block ⟨0⟩ "entry"),
      .write { block := ⟨0⟩ } (.alloca (.int 32) "a"), .write { block := ⟨0⟩ } (.store ⟨1⟩ ⟨2⟩),
      .write { block := ⟨0⟩ } (.load ⟨2⟩ "s"), .write { block := ⟨0⟩ } (.load ⟨2⟩ "t"),
      .write { block := ⟨0⟩ } (.cast .bitCast ⟨4⟩ .void ""),
      .edit (.before ⟨3⟩ { opcode := .fneg, operands := [.value ⟨3⟩], type := .double }),
      .edit (.operand ⟨5⟩ 0 (.value ⟨5⟩)),
      .versionFunction {} (.ofList [(⟨3⟩, .use 1)]) ⟨0⟩]

theorem interlinked_halfway :
    (halfway.block? ⟨0⟩).map Block.insts = some [⟨0⟩, ⟨1⟩, ⟨6⟩, ⟨7⟩, ⟨8⟩, ⟨2⟩, ⟨5⟩, ⟨3⟩, ⟨4⟩] ∧
      halfway.Interlinked :=
  ⟨by decide +kernel, Made.interlinked (madeBy_ofOperations fun _ _ => trivial)⟩

end Program

end LevelIr
