import LevelIr.Proofs.Produce

/-!
# What versioning does to a load

Versioning looks at a load and either passes it over or lets it read a slot.  If the slot is not
there yet, three instructions are placed right before the load: one that reads the storage, one that
reserves the slot, and one that writes to it what was read.

* `Versioning.Asks` : a load asks for a slot, by the storage that it reads and the version that the
  oracle knows.
* `Versioning.Step` : all that versioning one load can do; `Versioning.load_ok_iff` says so.
-/

namespace LevelIr

theorem InstId.eq_iff {i j : InstId} : i = j ↔ i.index = j.index := by
  cases i
  cases j
  exact InstId.mk.injEq _ _ ▸ Iff.rfl

theorem ValueId.eq_iff {u v : ValueId} : u = v ↔ u.index = v.index := by
  cases u
  cases v
  exact ValueId.mk.injEq _ _ ▸ Iff.rfl

/-- An instruction with another value as its first operand. -/
def Inst.reading (inst : Inst) (v : ValueId) : Inst :=
  { inst with operands := inst.operands.set 0 (.value v) }

theorem Inst.head?_reading {inst : Inst} {u : ValueId}
    (h : inst.operands.head? = some (.value u)) (v : ValueId) :
    (inst.reading v).operands.head? = some (.value v) := by
  unfold reading
  cases hoperands : inst.operands with
  | nil =>
    rw [hoperands] at h
    cases h
  | cons first rest => rfl

namespace Program

variable {p : Program}

/-! ### Changes of the program -/

/-- The program in which an instruction has another value as its first operand. -/
def redirect (p : Program) (i : InstId) (v : ValueId) : Program :=
  { p with insts := p.insts.modify i.index (·.reading v) }

theorem inst?_redirect (i j : InstId) (v : ValueId) :
    (p.redirect i v).inst? j = if j = i then (p.inst? j).map (·.reading v) else p.inst? j := by
  obtain ⟨i⟩ := i
  obtain ⟨j⟩ := j
  simp only [inst?, redirect, Array.getElem?_modify, InstId.mk.injEq, eq_comm]

theorem values_redirect (i : InstId) (v : ValueId) : (p.redirect i v).values = p.values := rfl

theorem functions_redirect (i : InstId) (v : ValueId) :
    (p.redirect i v).functions = p.functions := rfl

theorem value?_redirect (i : InstId) (u v : ValueId) : (p.redirect i v).value? u = p.value? u := rfl

theorem block?_redirect (i : InstId) (v : ValueId) (b : BlockId) :
    (p.redirect i v).block? b = p.block? b := rfl

theorem replaceOperand_eq_redirect {i : InstId} {inst : Inst} {u : ValueId}
    (h : p.inst? i = some inst) (hu : inst.operands.head? = some (.value u)) (v : ValueId) :
    (replaceOperand i 0 (.value v)).outcome p = (.ok (), p.redirect i v) := by
  have hpos : 0 < inst.operands.length := by
    cases hoperands : inst.operands with
    | nil =>
      rw [hoperands] at hu
      cases hu
    | cons first rest => exact Nat.succ_pos _
  unfold replaceOperand
  rw [Pass.outcome_bind, Pass.outcome_get]
  simp only
  rw [Pass.outcome_bind, Pass.outcome_lift, (inst_eq_ok_iff p).2 h]
  simp only
  rw [if_pos hpos]
  rfl

/-- Memory stands behind a value. -/
def IsStorage (p : Program) (v : ValueId) : Prop :=
  ∃ value, p.value? v = some value ∧ p.isMemory value = .ok true

end Program

namespace Versioning

/-! ### Slots that are made -/

/-- A load that is to be versioned, with the name of the function that holds it. -/
structure Job where
  /-- The name of the function. -/
  function : String
  /-- The load. -/
  load : InstId
  deriving DecidableEq

/-- What a load asks for: the slot for a version of the storage that it reads. -/
structure Request where
  /-- The storage. -/
  storage : ValueId
  /-- The version. -/
  version : Nat
  /-- The name of the slot. -/
  name : String

/-- A slot that was made, with the instructions that were placed for it. -/
structure Filling where
  /-- The load that the slot was made for. -/
  job : Job
  /-- That load, as it was. -/
  inst : Inst
  /-- What the load asked for. -/
  request : Request
  /-- The instruction that reads the storage. -/
  reader : InstId
  /-- What is read. -/
  content : ValueId

namespace Filling

variable (m : Filling)

/-- The instruction that reserves the slot. -/
def reserver : InstId := ⟨m.reader.index + 1⟩

/-- The instruction that writes to the slot. -/
def writer : InstId := ⟨m.reader.index + 2⟩

/-- The slot. -/
def slot : ValueId := ⟨m.content.index + 1⟩

/-- The instructions that were placed, in order. -/
def insts : List InstId := [m.reader, m.reserver, m.writer]

/-- The instruction that reads the storage, as it is placed. -/
def readerDraft : Draft :=
  { opcode := .load, operands := [.value m.request.storage], type := m.inst.type
    line := m.inst.line }

/-- The instruction that reserves the slot, as it is placed. -/
def reserverDraft : Draft :=
  { opcode := .alloca, type := .pointer m.inst.type, name := m.request.name }

/-- The instruction that writes to the slot, as it is placed. -/
def writerDraft : Draft :=
  { opcode := .store, operands := [.value m.content, .value m.slot], line := m.inst.line }

/-- The instruction of a draft that is placed for the slot, with its result. -/
def placedInst (draft : Draft) (result : Option ValueId) : Inst :=
  { opcode := draft.opcode, operands := draft.operands, result, type := draft.type
    predicate := draft.predicate, indices := draft.indices, line := draft.line
    debug := draft.debug, metadata := false, block := m.inst.block }

/-- The instruction that reads the storage. -/
def readerInst : Inst := m.placedInst m.readerDraft (some m.content)

/-- The instruction that reserves the slot. -/
def reserverInst : Inst := m.placedInst m.reserverDraft (some m.slot)

/-- The instruction that writes to the slot. -/
def writerInst : Inst := m.placedInst m.writerDraft none

/-- The value that is read. -/
def contentValue : Value := ⟨m.inst.type, "", .result m.reader⟩

/-- The slot as a value. -/
def slotValue : Value := ⟨.pointer m.inst.type, m.request.name, .result m.reserver⟩

/-- The slot gets the next numbers of a program, and what it holds has a type. -/
structure Next (p : Program) : Prop where
  reader : m.reader.index = p.insts.size
  content : m.content.index = p.values.size
  type : m.inst.type ≠ .void

end Filling

end Versioning

namespace Program

/-- The program in which a slot is made. -/
def filled (p : Program) (m : Versioning.Filling) : Program :=
  ((p.placed m.inst.block (putBefore m.job.load m.reader) m.readerDraft).placed m.inst.block
    (putBefore m.job.load m.reserver) m.reserverDraft).placed m.inst.block
    (putBefore m.job.load m.writer) m.writerDraft

section Filled

variable {p : Program} {m : Versioning.Filling}

theorem size_insts_placed {b : BlockId} {change : List InstId → List InstId} {draft : Draft} :
    (p.placed b change draft).insts.size = p.insts.size + 1 := by
  rw [placed, make_run]
  exact Array.size_push _

theorem size_values_placed {b : BlockId} {change : List InstId → List InstId} {draft : Draft} :
    (p.placed b change draft).values.size =
      if draft.type.isVoid then p.values.size else p.values.size + 1 := by
  rw [placed, make_run]
  cases h : draft.type.isVoid
  · simp [modifyInsts]
  · simp [modifyInsts]

theorem isVoid_eq_false {type : Ty} (h : type ≠ .void) : type.isVoid = false := by
  rw [Bool.eq_false_iff]
  intro hvoid
  exact h (Ty.isVoid_iff.1 hvoid)

theorem madeInst_eq (draft : Draft) :
    p.madeInst m.inst.block draft =
      m.placedInst draft (if draft.type.isVoid then none else some ⟨p.values.size⟩) := rfl

/-- The program after the first and after the second of the three instructions. -/
theorem exists_filled (hm : m.Next p) :
    ∃ p₁ p₂ : Program,
      p₁ = p.placed m.inst.block (putBefore m.job.load m.reader) m.readerDraft ∧
      p₂ = p₁.placed m.inst.block (putBefore m.job.load m.reserver) m.reserverDraft ∧
      p.filled m = p₂.placed m.inst.block (putBefore m.job.load m.writer) m.writerDraft ∧
      p₁.insts.size = m.reserver.index ∧ p₂.insts.size = m.writer.index ∧
      p₁.values.size = m.slot.index ∧ p₂.values.size = m.slot.index + 1 := by
  have hvoid : m.readerDraft.type.isVoid = false := isVoid_eq_false hm.type
  have hpointer : m.reserverDraft.type.isVoid = false := rfl
  refine ⟨_, _, rfl, rfl, rfl, ?_, ?_, ?_, ?_⟩
  · rw [size_insts_placed, ← hm.reader]
    rfl
  · rw [size_insts_placed, size_insts_placed, ← hm.reader]
    rfl
  · rw [size_values_placed, hvoid, if_neg Bool.false_ne_true, ← hm.content]
    rfl
  · rw [size_values_placed, size_values_placed, hvoid, hpointer, if_neg Bool.false_ne_true,
      if_neg Bool.false_ne_true, ← hm.content]
    rfl

theorem inst?_filled (hm : m.Next p) (j : InstId) : (p.filled m).inst? j =
    if j = m.reader then some m.readerInst else if j = m.reserver then some m.reserverInst
    else if j = m.writer then some m.writerInst else p.inst? j := by
  obtain ⟨p₁, p₂, h₁, h₂, h, hsize₁, hsize₂, hvalues₁, hvalues₂⟩ := exists_filled hm
  have hvoid : m.readerDraft.type.isVoid = false := isVoid_eq_false hm.type
  have hreader : p.madeInst m.inst.block m.readerDraft = m.readerInst := by
    rw [madeInst_eq, hvoid, ← hm.content]
    rfl
  have hreserver : p₁.madeInst m.inst.block m.reserverDraft = m.reserverInst := by
    rw [madeInst_eq, hvalues₁]
    rfl
  have hwriter : p₂.madeInst m.inst.block m.writerDraft = m.writerInst := rfl
  rw [h, inst?_placed, hsize₂, hwriter, h₂, inst?_placed, hsize₁, hreserver, h₁, inst?_placed,
    ← hm.reader, hreader]
  -- the three numbers follow each other
  have hreserver' : m.reserver.index = m.reader.index + 1 := rfl
  have hwriter' : m.writer.index = m.reader.index + 2 := rfl
  simp only [InstId.eq_iff]
  by_cases hr : j.index = m.reader.index
  · rw [if_neg (by omega), if_neg (by omega), if_pos hr, if_pos hr]
  · by_cases ha : j.index = m.reserver.index
    · rw [if_neg (by omega), if_pos ha, if_neg hr, if_pos ha]
    · simp [hr, ha]

theorem inst?_filled_of_some {j : InstId} {inst : Inst} (h : p.inst? j = some inst) :
    (p.filled m).inst? j = some inst :=
  inst?_placed_of_some (inst?_placed_of_some (inst?_placed_of_some h))

theorem inst?_filled_of_lt (hm : m.Next p) {j : InstId} (h : j.index < p.insts.size) :
    (p.filled m).inst? j = p.inst? j := by
  have hreserver : m.reserver.index = m.reader.index + 1 := rfl
  have hwriter : m.writer.index = m.reader.index + 2 := rfl
  have hreader := hm.reader
  rw [inst?_filled hm]
  simp only [InstId.eq_iff]
  rw [if_neg (by omega), if_neg (by omega), if_neg (by omega)]

theorem value?_filled (hm : m.Next p) (v : ValueId) : (p.filled m).value? v =
    if v = m.content then some m.contentValue else if v = m.slot then some m.slotValue
    else p.value? v := by
  obtain ⟨p₁, p₂, h₁, h₂, h, hsize₁, hsize₂, hvalues₁, hvalues₂⟩ := exists_filled hm
  have hvoid : m.readerDraft.type.isVoid = false := isVoid_eq_false hm.type
  have hwriter : m.writerDraft.type.isVoid = true := rfl
  have hreserver : m.reserverDraft.type.isVoid = false := rfl
  rw [h, value?_placed, h₂, value?_placed, hsize₁, h₁, value?_placed, ← h₁, hvalues₁, hvoid,
    hwriter, hreserver, ← hm.content, ← hm.reader]
  have hslot : m.slot.index = m.content.index + 1 := rfl
  simp only [ValueId.eq_iff, true_and, Bool.true_eq_false, false_and, if_false]
  by_cases hc : v.index = m.content.index
  · rw [if_neg (by omega), if_pos hc, if_pos hc]
    rfl
  · by_cases hs : v.index = m.slot.index
    · rw [if_pos hs, if_neg hc, if_pos hs]
      rfl
    · simp [hc, hs]

theorem value?_filled_of_some {v : ValueId} {value : Value} (h : p.value? v = some value) :
    (p.filled m).value? v = some value :=
  value?_placed_of_some (value?_placed_of_some (value?_placed_of_some h))

theorem value?_filled_of_lt (hm : m.Next p) {v : ValueId} (h : v.index < p.values.size) :
    (p.filled m).value? v = p.value? v := by
  have hslot : m.slot.index = m.content.index + 1 := rfl
  have hcontent := hm.content
  rw [value?_filled hm]
  simp only [ValueId.eq_iff]
  rw [if_neg (by omega), if_neg (by omega)]

theorem block?_filled (c : BlockId) : (p.filled m).block? c =
    if c = m.inst.block then (p.block? c).map fun block =>
      { block with insts := putBefore m.job.load m.writer (putBefore m.job.load m.reserver
          (putBefore m.job.load m.reader block.insts)) }
    else p.block? c := by
  unfold filled
  rw [block?_placed, block?_placed, block?_placed]
  by_cases hc : c = m.inst.block
  · simp only [if_pos hc, Option.map_map]
    rfl
  · simp only [if_neg hc]

theorem functions_placed {b : BlockId} {change : List InstId → List InstId} {draft : Draft} :
    (p.placed b change draft).functions = p.functions := by
  rw [placed, make_run]
  rfl

theorem functions_filled : (p.filled m).functions = p.functions := by
  unfold filled
  rw [functions_placed, functions_placed, functions_placed]

theorem size_insts_filled (hm : m.Next p) : (p.filled m).insts.size = m.reader.index + 3 := by
  unfold filled
  rw [size_insts_placed, size_insts_placed, size_insts_placed, ← hm.reader]

theorem size_values_filled (hm : m.Next p) :
    (p.filled m).values.size = m.content.index + 2 := by
  obtain ⟨p₁, p₂, -, -, h, -, -, -, hvalues₂⟩ := exists_filled hm
  rw [h, size_values_placed]
  exact hvalues₂

end Filled

end Program

namespace Versioning

variable {p : Program} {slots : Slots} {oracle : Oracle}

theorem fill_outcome {m : Filling} (hm : m.Next p) (hinst : p.inst? m.job.load = some m.inst) :
    (fill m.job.load m.request.storage m.request.name).outcome p = (.ok m.slot, p.filled m) := by
  obtain ⟨p₁, p₂, h₁, h₂, h, hsize₁, hsize₂, hvalues₁, hvalues₂⟩ := Program.exists_filled hm
  have hvoid : m.inst.type.isVoid = false := Program.isVoid_eq_false hm.type
  have hinst₁ : p₁.inst? m.job.load = some m.inst := h₁ ▸ Program.inst?_placed_of_some hinst
  have hinst₂ : p₂.inst? m.job.load = some m.inst := h₂ ▸ Program.inst?_placed_of_some hinst₁
  have hreader : (⟨p.insts.size⟩ : InstId) = m.reader := InstId.eq_iff.2 hm.reader.symm
  have hcontent : (⟨p.values.size⟩ : ValueId) = m.content := ValueId.eq_iff.2 hm.content.symm
  have hreserver : (⟨p₁.insts.size⟩ : InstId) = m.reserver := InstId.eq_iff.2 hsize₁
  have hslot : (⟨p₁.values.size⟩ : ValueId) = m.slot := ValueId.eq_iff.2 hvalues₁
  have hwriter : (⟨p₂.insts.size⟩ : InstId) = m.writer := InstId.eq_iff.2 hsize₂
  have hfirst : (defineBefore m.job.load m.readerDraft).outcome p = (.ok m.content, p₁) := by
    unfold defineBefore
    rw [Pass.outcome_bind, Program.placeBefore_outcome hinst, hreader, ← h₁]
    simp only [Program.madeInst, Filling.readerDraft, hvoid, hcontent]
    rfl
  have hsecond : (defineBefore m.job.load m.reserverDraft).outcome p₁ = (.ok m.slot, p₂) := by
    unfold defineBefore
    rw [Pass.outcome_bind, Program.placeBefore_outcome hinst₁, hreserver, ← h₂]
    simp only [Program.madeInst, hslot]
    rfl
  have hthird : (Program.placeBefore m.job.load m.writerDraft).outcome p₂ =
      (.ok (m.writer, none), p.filled m) := by
    rw [Program.placeBefore_outcome hinst₂, hwriter, ← h]
    rfl
  exact Pass.outcome_bind_ok.2 ⟨p, p, rfl, Pass.outcome_bind_ok.2 ⟨m.inst, p,
    Pass.outcome_lift_ok.2 ⟨(Program.inst_eq_ok_iff p).2 hinst, rfl⟩,
    Pass.outcome_bind_ok.2 ⟨m.content, p₁, hfirst, Pass.outcome_bind_ok.2 ⟨m.slot, p₂, hsecond,
      Pass.outcome_bind_ok.2 ⟨(m.writer, none), p.filled m, hthird, rfl⟩⟩⟩⟩⟩

/-- A slot can only be made for a load that has a result. -/
theorem type_of_fill {i : InstId} {storage slot : ValueId} {name : String} {q : Program}
    (h : (fill i storage name).outcome p = (.ok slot, q)) :
    ∃ inst, p.inst? i = some inst ∧ inst.type ≠ .void := by
  obtain ⟨_, _, hget, h⟩ := Pass.outcome_bind_ok.1 h
  cases hget
  obtain ⟨inst, _, hlift, h⟩ := Pass.outcome_bind_ok.1 h
  obtain ⟨hinst, rfl⟩ := Pass.outcome_lift_ok.1 hlift
  rw [Program.inst_eq_ok_iff] at hinst
  refine ⟨inst, hinst, fun hvoid => ?_⟩
  -- the instruction that reads the storage would have no result
  obtain ⟨_, _, hdefine, -⟩ := Pass.outcome_bind_ok.1 h
  obtain ⟨⟨_, result⟩, _, hplace, hdefine⟩ := Pass.outcome_bind_ok.1 hdefine
  rw [Program.placeBefore_outcome hinst] at hplace
  have hresult : result = none := by
    cases hplace
    simp [Program.madeInst, hvoid, Ty.isVoid]
  subst hresult
  cases hdefine

theorem fill_ok_iff (job : Job) (r : Request) {slot : ValueId} {q : Program} :
    (fill job.load r.storage r.name).outcome p = (.ok slot, q) ↔
      ∃ m : Filling, m.job = job ∧ m.request = r ∧ p.inst? job.load = some m.inst ∧ m.Next p ∧
        slot = m.slot ∧ q = p.filled m := by
  constructor
  · intro h
    obtain ⟨inst, hinst, htype⟩ := type_of_fill h
    have hm : Filling.Next ⟨job, inst, r, ⟨p.insts.size⟩, ⟨p.values.size⟩⟩ p := ⟨rfl, rfl, htype⟩
    have hmade := (fill_outcome hm hinst).symm.trans h
    rw [Prod.mk.injEq, Except.ok.injEq] at hmade
    exact ⟨_, rfl, rfl, hinst, hm, hmade.1.symm, hmade.2.symm⟩
  · rintro ⟨m, rfl, rfl, hinst, hm, rfl, rfl⟩
    exact fill_outcome hm hinst

/-! ### What versioning a load can do -/

/-- The load of a job asks for a slot: memory that is no slot stands behind what it reads, and the
oracle knows the version. -/
structure Asks (oracle : Oracle) (p : Program) (slots : Slots) (job : Job) (r : Request) :
    Prop where
  reads : ∃ inst, p.inst? job.load = some inst ∧ inst.operands.head? = some (.value r.storage)
  memory : p.IsStorage r.storage
  free : slots.isSlot r.storage = false
  version : (oracle job.load).version? = some r.version
  name : ∃ label, p.label r.storage = .ok label ∧ r.name = slotName job.function label r.version

/-- What versioning the load of a job can do, from a program and its slots: pass over the load, let
it read the slot that it asks for, or make this slot first.  The answer says whether the load reads
a slot now. -/
inductive Step (oracle : Oracle) (job : Job) : Program × Slots → Bool → Program × Slots → Prop where
  /-- The load is passed over. -/
  | pass {p : Program} {slots : Slots} {inst : Inst} (hinst : p.inst? job.load = some inst)
      (h : storage? p slots inst = .ok none) : Step oracle job (p, slots) false (p, slots)
  /-- The load reads a slot that is there. -/
  | reuse {p : Program} {slots : Slots} {r : Request} {slot : ValueId}
      (hasks : Asks oracle p slots job r) (hslot : slots.slot? r.name = some slot) :
      Step oracle job (p, slots) true (p.redirect job.load slot, slots)
  /-- The load reads a slot that is made. -/
  | fill {p : Program} {slots : Slots} {m : Filling} (hasks : Asks oracle p slots job m.request)
      (hslot : slots.slot? m.request.name = none) (hjob : m.job = job)
      (hinst : p.inst? job.load = some m.inst) (hm : m.Next p) :
      Step oracle job (p, slots) true ((p.filled m).redirect job.load m.slot,
        slots.remember m.request.name m.slot m.request.version)

section Storage

variable {inst : Inst} {v : ValueId}

theorem head?_bind_value? :
    inst.operands.head?.bind Arg.value? = some v ↔ inst.operands.head? = some (.value v) := by
  rw [Option.bind_eq_some_iff]
  constructor
  · rintro ⟨arg, harg, hv⟩
    cases arg with
    | value u =>
      cases hv
      exact harg
    | block b => cases hv
  · intro h
    exact ⟨.value v, h, rfl⟩

theorem storage?_of_reads (h : inst.operands.head? = some (.value v)) {value : Value}
    (hvalue : p.value? v = some value) {memory : Bool} (hmemory : p.isMemory value = .ok memory) :
    storage? p slots inst = .ok (if memory && !slots.isSlot v then some v else none) := by
  unfold storage?
  rw [head?_bind_value?.2 h]
  simp only
  rw [(Program.value_eq_ok_iff p).2 hvalue]
  change (p.isMemory value >>= _) = _
  rw [hmemory]
  rfl

/-- What versioning has to know of the value that a load reads. -/
theorem exists_memory_of_storage? (h : inst.operands.head? = some (.value v))
    {found : Option ValueId} (hfound : storage? p slots inst = .ok found) :
    ∃ value memory, p.value? v = some value ∧ p.isMemory value = .ok memory ∧
      found = if memory && !slots.isSlot v then some v else none := by
  have hfound' := hfound
  unfold storage? at hfound'
  rw [head?_bind_value?.2 h] at hfound'
  simp only at hfound'
  obtain ⟨value, hvalue, hfound'⟩ := Pass.bind_eq_ok.1 hfound'
  obtain ⟨memory, hmemory, -⟩ := Pass.bind_eq_ok.1 hfound'
  rw [Program.value_eq_ok_iff] at hvalue
  rw [storage?_of_reads h hvalue hmemory] at hfound
  exact ⟨value, memory, hvalue, hmemory, (Except.ok.inj hfound).symm⟩

theorem storage?_of_not_reads (h : ∀ v, inst.operands.head? ≠ some (.value v)) :
    storage? p slots inst = .ok none := by
  unfold storage?
  cases hhead : inst.operands.head?.bind Arg.value? with
  | none => rfl
  | some v => exact absurd (head?_bind_value?.1 hhead) (h v)

theorem storage?_eq_some_iff :
    storage? p slots inst = .ok (some v) ↔
      inst.operands.head? = some (.value v) ∧ p.IsStorage v ∧ slots.isSlot v = false := by
  constructor
  · intro h
    by_cases hreads : ∃ u, inst.operands.head? = some (.value u)
    · obtain ⟨u, hu⟩ := hreads
      obtain ⟨value, memory, hvalue, hmemory, hfound⟩ := exists_memory_of_storage? hu h
      split at hfound
      · rename_i hcondition
        rw [Bool.and_eq_true, Bool.not_eq_true'] at hcondition
        obtain ⟨rfl, hfree⟩ := hcondition
        cases hfound
        exact ⟨hu, ⟨value, hvalue, hmemory⟩, hfree⟩
      · cases hfound
    · rw [storage?_of_not_reads fun u hu => hreads ⟨u, hu⟩] at h
      cases h
  · rintro ⟨hreads, ⟨value, hvalue, hmemory⟩, hfree⟩
    rw [storage?_of_reads hreads hvalue hmemory, hfree]
    rfl

/-- A load is passed over if what it reads is no storage, or a slot. -/
theorem storage?_eq_none_iff :
    storage? p slots inst = .ok none ↔ ∀ v, inst.operands.head? = some (.value v) →
      ∃ value memory, p.value? v = some value ∧ p.isMemory value = .ok memory ∧
        (memory = false ∨ slots.isSlot v = true) := by
  constructor
  · intro h v hv
    obtain ⟨value, memory, hvalue, hmemory, hfound⟩ := exists_memory_of_storage? hv h
    refine ⟨value, memory, hvalue, hmemory, ?_⟩
    by_contra hnot
    rw [not_or, Bool.not_eq_false, Bool.not_eq_true] at hnot
    rw [hnot.1, hnot.2] at hfound
    cases hfound
  · intro h
    by_cases hreads : ∃ u, inst.operands.head? = some (.value u)
    · obtain ⟨u, hu⟩ := hreads
      obtain ⟨value, memory, hvalue, hmemory, hpass⟩ := h u hu
      rw [storage?_of_reads hu hvalue hmemory]
      rcases hpass with rfl | hslot
      · rfl
      · rw [hslot, Bool.not_true, Bool.and_false]
        rfl
    · exact storage?_of_not_reads fun u hu => hreads ⟨u, hu⟩

end Storage

/-- A load that is passed over asks for nothing. -/
theorem not_asks_of_storage? {job : Job} {inst : Inst} (hinst : p.inst? job.load = some inst)
    (hnone : storage? p slots inst = .ok none) (r : Request) : ¬Asks oracle p slots job r := by
  rintro ⟨⟨inst', hinst', hreads⟩, hmemory, hfree, -⟩
  obtain rfl : inst = inst' := Option.some.inj (hinst.symm.trans hinst')
  rw [storage?_eq_some_iff.2 ⟨hreads, hmemory, hfree⟩] at hnone
  cases hnone

theorem onProgram_ok_iff {α : Type} {pass : Pass Program α} {a : α} {later : Program × Slots} :
    (onProgram pass).outcome (p, slots) = (.ok a, later) ↔
      ∃ q, pass.outcome p = (.ok a, q) ∧ later = (q, slots) := by
  rw [onProgram, Pass.outcome_within, Prod.mk.injEq]
  constructor
  · rintro ⟨hanswer, rfl⟩
    exact ⟨_, Prod.ext hanswer rfl, rfl⟩
  · rintro ⟨q, hpass, rfl⟩
    simp [hpass]

/-- A slot is the one that is there, or it is made. -/
theorem slotFor_ok_iff {i : InstId} {storage slot : ValueId} {name : String} {version : Nat}
    {later : Program × Slots} :
    (slotFor i storage name version).outcome (p, slots) = (.ok slot, later) ↔
      slots.slot? name = some slot ∧ later = (p, slots) ∨
      slots.slot? name = none ∧ ∃ q, (fill i storage name).outcome p = (.ok slot, q) ∧
        later = (q, slots.remember name slot version) := by
  constructor
  · intro h
    obtain ⟨_, _, hget, h⟩ := Pass.outcome_bind_ok.1 h
    cases hget
    cases hname : slots.slot? name with
    | some there =>
      simp only [hname] at h
      cases h
      exact .inl ⟨rfl, rfl⟩
    | none =>
      simp only [hname] at h
      obtain ⟨made, _, hmade, h⟩ := Pass.outcome_bind_ok.1 h
      obtain ⟨q, hfill, rfl⟩ := onProgram_ok_iff.1 hmade
      cases h
      exact .inr ⟨rfl, q, hfill, rfl⟩
  · rintro (⟨hname, rfl⟩ | ⟨hname, q, hfill, rfl⟩)
    · refine Pass.outcome_bind_ok.2 ⟨(p, slots), (p, slots), rfl, ?_⟩
      simp only [hname]
      rfl
    · refine Pass.outcome_bind_ok.2 ⟨(p, slots), (p, slots), rfl, ?_⟩
      simp only [hname]
      exact Pass.outcome_bind_ok.2 ⟨slot, (q, slots), onProgram_ok_iff.2 ⟨q, hfill, rfl⟩, rfl⟩

/-- A load that asks for a slot reads the one that it gets. -/
theorem load_of_asks {function : Function} {i : InstId} {r : Request} {inst : Inst} {slot : ValueId}
    {q q' : Program} {later : Slots} (hasks : Asks oracle p slots ⟨function.name, i⟩ r)
    (hinst : p.inst? i = some inst)
    (hslot : (slotFor i r.storage r.name r.version).outcome (p, slots) = (.ok slot, (q, later)))
    (hreplace : (Program.replaceOperand i 0 (.value slot)).outcome q = (.ok (), q')) :
    (load function oracle i).outcome (p, slots) = (.ok true, (q', later)) := by
  obtain ⟨⟨inst', hinst', hreads⟩, hmemory, hfree, hversion, label, hlabel, hname⟩ := hasks
  obtain rfl : inst = inst' := Option.some.inj (hinst.symm.trans hinst')
  have hfound := storage?_eq_some_iff.2 ⟨hreads, hmemory, hfree⟩
  refine Pass.outcome_bind_ok.2 ⟨(p, slots), (p, slots), rfl, ?_⟩
  refine Pass.outcome_bind_ok.2 ⟨inst, (p, slots), ?_, ?_⟩
  · exact Pass.outcome_lift_ok.2 ⟨(Program.inst_eq_ok_iff p).2 hinst, rfl⟩
  refine Pass.outcome_bind_ok.2 ⟨some r.storage, (p, slots), ?_, ?_⟩
  · exact Pass.outcome_lift_ok.2 ⟨hfound, rfl⟩
  simp only [hversion]
  refine Pass.outcome_bind_ok.2 ⟨label, (p, slots), Pass.outcome_lift_ok.2 ⟨hlabel, rfl⟩, ?_⟩
  refine Pass.outcome_bind_ok.2 ⟨slot, (q, later), hname ▸ hslot, ?_⟩
  exact Pass.outcome_bind_ok.2 ⟨(), (q', later), onProgram_ok_iff.2 ⟨q', hreplace, rfl⟩, rfl⟩

/-- **All that versioning a load can do, if it succeeds.** -/
theorem load_ok_iff {function : Function} {i : InstId} {state later : Program × Slots} {b : Bool} :
    (load function oracle i).outcome state = (.ok b, later) ↔
      Step oracle ⟨function.name, i⟩ state b later := by
  obtain ⟨p, slots⟩ := state
  constructor
  · intro h
    obtain ⟨_, _, hget, h⟩ := Pass.outcome_bind_ok.1 h
    cases hget
    obtain ⟨inst, _, hlookup, h⟩ := Pass.outcome_bind_ok.1 h
    obtain ⟨hok, rfl⟩ := Pass.outcome_lift_ok.1 hlookup
    have hinst : p.inst? i = some inst := (Program.inst_eq_ok_iff p).1 hok
    obtain ⟨found, _, hstorage, h⟩ := Pass.outcome_bind_ok.1 h
    obtain ⟨hfound, rfl⟩ := Pass.outcome_lift_ok.1 hstorage
    cases found with
    | none =>
      cases h
      exact .pass hinst hfound
    | some storage =>
      cases hversion : (oracle i).version? with
      | none =>
        simp only [hversion] at h
        cases h
      | some version =>
        simp only [hversion] at h
        obtain ⟨label, _, hname, h⟩ := Pass.outcome_bind_ok.1 h
        obtain ⟨hlabel, rfl⟩ := Pass.outcome_lift_ok.1 hname
        obtain ⟨slot, _, hslotFor, h⟩ := Pass.outcome_bind_ok.1 h
        obtain ⟨_, _, hreplace, h⟩ := Pass.outcome_bind_ok.1 h
        cases h
        obtain ⟨hreads, hmemory, hfree⟩ := storage?_eq_some_iff.1 hfound
        have hasks : Asks oracle p slots ⟨function.name, i⟩
            ⟨storage, version, slotName function.name label version⟩ :=
          ⟨⟨inst, hinst, hreads⟩, hmemory, hfree, hversion, label, hlabel, rfl⟩
        rcases slotFor_ok_iff.1 hslotFor with ⟨hslot, rfl⟩ | ⟨hslot, q, hfill, rfl⟩
        · obtain ⟨_, hdone, rfl⟩ := onProgram_ok_iff.1 hreplace
          rw [Program.replaceOperand_eq_redirect hinst hreads] at hdone
          cases hdone
          exact .reuse hasks hslot
        · obtain ⟨_, hdone, rfl⟩ := onProgram_ok_iff.1 hreplace
          obtain ⟨⟨_, _, _, reader, content⟩, rfl, rfl, hinst', hm, rfl, rfl⟩ :=
            (fill_ok_iff ⟨function.name, i⟩
              ⟨storage, version, slotName function.name label version⟩).1 hfill
          rw [Program.replaceOperand_eq_redirect (Program.inst?_filled_of_some hinst) hreads]
            at hdone
          cases hdone
          exact .fill hasks hslot rfl hinst' hm
  · intro h
    cases h with
    | @pass _ _ inst hinst hnone =>
      refine Pass.outcome_bind_ok.2 ⟨(p, slots), (p, slots), rfl, ?_⟩
      refine Pass.outcome_bind_ok.2 ⟨inst, (p, slots), ?_, ?_⟩
      · exact Pass.outcome_lift_ok.2 ⟨(Program.inst_eq_ok_iff p).2 hinst, rfl⟩
      · exact Pass.outcome_bind_ok.2 ⟨none, (p, slots), Pass.outcome_lift_ok.2 ⟨hnone, rfl⟩, rfl⟩
    | @reuse _ _ r slot hasks hslot =>
      obtain ⟨⟨inst, hinst, hreads⟩, -⟩ := id hasks
      refine load_of_asks hasks hinst (slotFor_ok_iff.2 (.inl ⟨hslot, rfl⟩)) ?_
      exact Program.replaceOperand_eq_redirect hinst hreads slot
    | @fill _ _ m hasks hslot hjob hinst hm =>
      obtain ⟨⟨inst, hinst', hreads⟩, -⟩ := id hasks
      have hfill := (fill_ok_iff ⟨function.name, i⟩ m.request).2 ⟨m, hjob, rfl, hinst, hm, rfl, rfl⟩
      refine load_of_asks hasks hinst (slotFor_ok_iff.2 (.inr ⟨hslot, _, hfill, rfl⟩)) ?_
      exact Program.replaceOperand_eq_redirect (Program.inst?_filled_of_some hinst') hreads m.slot

end Versioning

end LevelIr
