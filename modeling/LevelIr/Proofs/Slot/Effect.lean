import LevelIr.Proofs.Program.Origins
import LevelIr.Proofs.Slot.Versioned

/-!
# The effect of versioning a function

Versioning meets the loads of a function in layout order.  A load wants a slot if it reads a global
variable or a stack slot of the program (`Versioning.wants`), and what happens can be read off the
program that versioning starts from: how many loads want a slot, which names are new, and which load
is the first to need each of them.

Versioning stops at the first load that wants a slot of a version that the oracle does not know.
Then the loads before it are done, and nothing else has happened.

* `Versioning.Effect` : all that versioning some loads has done to a program and its table.
* `Versioning.Run.effect` : a run has this effect.
* `Versioning.exists_run_of_wants` : versioning succeeds if the oracle knows the versions that are
  wanted.
* `Workspace.versionFunction_effect` : the effect of versioning a function, and what is left behind
  if the oracle does not know a version.
-/

namespace LevelIr

namespace Program

variable {p : Program}

/-- Whether a value is a global variable or reserved by an instruction. -/
def isStorage (p : Program) (v : ValueId) : Bool :=
  match p.origin? v with
  | some .globalVariable => true
  | some (.result i) => (p.inst? i).any (·.opcode = .alloca)
  | _ => false

theorem isStorage_iff {v : ValueId} : p.isStorage v = true ↔ p.IsStorage v := by
  unfold isStorage IsStorage origin?
  cases hvalue : p.value? v with
  | none => simp
  | some value =>
    simp only [Option.map_some, Option.some.injEq, exists_eq_left']
    unfold isMemory
    cases horigin : value.origin with
    | result i =>
      cases hinst : p.inst? i with
      | none => simp [inst, found, hinst]
      | some inst =>
        simp only [(inst_eq_ok_iff p).2 hinst, hinst, Option.any_some, decide_eq_true_eq]
        change _ ↔ Except.ok (inst.opcode == .alloca) = Except.ok true
        simp
    | _ => simp

theorem Coherent.exists_isMemory (hp : p.Coherent) {v : ValueId} {value : Value}
    (h : p.value? v = some value) : ∃ memory, p.isMemory value = .ok memory := by
  unfold isMemory
  cases horigin : value.origin with
  | result i =>
    obtain ⟨inst, hinst, -⟩ := hp.result_of_origin h horigin
    simp only [(inst_eq_ok_iff p).2 hinst]
    exact ⟨_, rfl⟩
  | _ => exact ⟨_, rfl⟩

theorem name_placed {b : BlockId} {change : List InstId → List InstId} {draft : Draft} :
    (p.placed b change draft).name = p.name := by
  rw [placed, make_run]
  rfl

theorem globals_placed {b : BlockId} {change : List InstId → List InstId} {draft : Draft} :
    (p.placed b change draft).globals = p.globals := by
  rw [placed, make_run]
  rfl

end Program

namespace Versioning

variable {oracle : Oracle} {p q : Program} {slots table : Slots} {i : InstId}

/-! ### Loads that want a slot -/

/-- Whether a load reads a global variable or a stack slot that is not in the table. -/
def wants (p : Program) (slots : Slots) (i : InstId) : Bool :=
  (p.source? i).any fun v => p.isStorage v && !slots.isSlot v

theorem wants_iff : wants p slots i = true ↔ ∃ inst v, p.inst? i = some inst ∧
    inst.operands.head? = some (.value v) ∧ p.IsStorage v ∧ slots.isSlot v = false := by
  simp only [wants, Option.any_eq_true, Program.source?_eq_some_iff, Bool.and_eq_true,
    Bool.not_eq_true', Program.isStorage_iff]
  constructor
  · rintro ⟨v, ⟨inst, hinst, hreads⟩, hstorage, hfree⟩
    exact ⟨inst, v, hinst, hreads, hstorage, hfree⟩
  · rintro ⟨inst, v, hinst, hreads, hstorage, hfree⟩
    exact ⟨v, ⟨inst, hinst, hreads⟩, hstorage, hfree⟩

theorem Asks.wants {job : Job} {r : Request} (h : Asks oracle p slots job r) :
    wants p slots job.load = true := by
  obtain ⟨inst, hinst, hreads⟩ := h.reads
  exact wants_iff.2 ⟨inst, r.storage, hinst, hreads, h.memory, h.free⟩

/-- After a run, the loads that want a slot are those that have asked for one. -/
theorem Progress.wants_iff_asks {done : List Job} {made : List Filling}
    (h : Progress oracle p slots done made q table) {job : Job} (hjob : job ∈ done) :
    wants p slots job.load = true ↔ ∃ r, Asks oracle p slots job r := by
  constructor
  · intro hwants
    obtain ⟨inst, v, hinst, hreads, hstorage, hfree⟩ := wants_iff.1 hwants
    exact h.answered job hjob inst v hinst hreads hstorage hfree
  · rintro ⟨r, hr⟩
    exact hr.wants

/-! ### Runs that succeed -/

/-- A load that reads a value of the program, and has a result, can be versioned if the oracle knows
the version that it wants. -/
theorem Progress.exists_step {done : List Job} {made : List Filling}
    (h : Progress oracle p slots done made q table) (hp : p.Coherent) {job : Job}
    (hother : ∀ earlier ∈ done, earlier.load ≠ job.load) {inst : Inst}
    (hinst : p.inst? job.load = some inst) (htype : inst.type ≠ .void)
    (hvalue : ∀ v, inst.operands.head? = some (.value v) → ∃ value, p.value? v = some value)
    (hversion : wants p slots job.load = true → ∃ k, (oracle job.load).version? = some k) :
    ∃ b later, Step oracle job (q, table) b later := by
  have hq : q.inst? job.load = some inst :=
    (h.inst?_job (Program.index_lt_of_inst? hinst) hother).trans hinst
  by_cases hreads : ∃ v, inst.operands.head? = some (.value v)
  · obtain ⟨v, hv⟩ := hreads
    obtain ⟨value, hold⟩ := hvalue v hv
    have hnew := h.value?_of_some hold
    obtain ⟨memory, hmemory⟩ := hp.exists_isMemory hold
    rw [← h.isMemory_eq hp hold] at hmemory
    have hfound : storage? q table inst =
        .ok (if memory && !table.isSlot v then some v else none) :=
      storage?_of_reads hv hnew hmemory
    by_cases hfree : (memory && !table.isSlot v) = true
    · -- what is free now was free at the start, so this load is one of those that want a slot
      rw [Bool.and_eq_true, Bool.not_eq_true'] at hfree
      obtain ⟨rfl, hslot⟩ := hfree
      obtain ⟨hstorage, hfree⟩ := (h.free_iff hp v).1 ⟨⟨value, hnew, hmemory⟩, hslot⟩
      obtain ⟨k, hk⟩ := hversion (wants_iff.2 ⟨inst, v, hinst, hv, hstorage, hfree⟩)
      have hlabel : q.label v = .ok (value.name?.getD v.text) := by
        unfold Program.label
        rw [(Program.value_eq_ok_iff q).2 hnew]
        rfl
      obtain ⟨r, hasks⟩ : ∃ r, Asks oracle q table job r :=
        ⟨⟨v, k, slotName job.function (value.name?.getD v.text) k⟩, ⟨inst, hq, hv⟩,
          ⟨value, hnew, hmemory⟩, hslot, hk, _, hlabel, rfl⟩
      cases hname : table.slot? r.name with
      | some slot => exact ⟨true, _, .reuse hasks hname⟩
      | none =>
        have hm : Filling.Next ⟨job, inst, r, ⟨q.insts.size⟩, ⟨q.values.size⟩⟩ q :=
          ⟨rfl, rfl, htype⟩
        exact ⟨true, _, .fill (m := ⟨job, inst, r, _, _⟩) hasks hname rfl hq hm⟩
    · rw [if_neg hfree] at hfound
      exact ⟨false, _, .pass hq hfound⟩
  · exact ⟨false, _, .pass hq (storage?_of_not_reads fun v hv => hreads ⟨v, hv⟩)⟩

/-- Versioning succeeds on loads that read values of the program and have results, if the oracle
knows the versions that they want. -/
theorem exists_run_of_wants (hp : p.Coherent) {jobs : List Job}
    (hnodup : (jobs.map Job.load).Nodup)
    (hjobs : ∀ job ∈ jobs,
      (wants p slots job.load = true → ∃ k, (oracle job.load).version? = some k) ∧
      ∃ inst, p.inst? job.load = some inst ∧ inst.type ≠ .void ∧
        ∀ v, inst.operands.head? = some (.value v) → ∃ value, p.value? v = some value) :
    ∃ n state, Run oracle jobs (p, slots) n state := by
  -- from the back, since `Progress` says of all earlier jobs together what they have done to `p`
  induction jobs using List.reverseRecOn with
  | nil => exact ⟨0, _, .nil _⟩
  | append_singleton jobs job ih =>
    rw [List.map_append, List.nodup_append] at hnodup
    obtain ⟨n, ⟨q, table⟩, hrun⟩ := ih hnodup.1 fun earlier hearlier =>
      hjobs earlier (List.mem_append_left _ hearlier)
    have hlt : ∀ earlier ∈ jobs, earlier.load.index < p.insts.size := by
      intro earlier hearlier
      obtain ⟨-, inst, hinst, -⟩ := hjobs earlier (List.mem_append_left _ hearlier)
      exact Program.index_lt_of_inst? hinst
    obtain ⟨made, hprogress⟩ := hrun.progress hp hlt hnodup.1
    obtain ⟨hversion, inst, hinst, htype, hvalue⟩ := hjobs job (by simp)
    have hother : ∀ earlier ∈ jobs, earlier.load ≠ job.load := fun earlier hearlier =>
      hnodup.2.2 _ (List.mem_map_of_mem hearlier) _ (by simp)
    obtain ⟨b, later, hstep⟩ := hprogress.exists_step hp hother hinst htype hvalue hversion
    exact ⟨_, later, run_append_iff.2 ⟨n, _, _, hrun, .cons hstep (.nil later), rfl⟩⟩

/-! ### All that a run has done -/

/-- The table with the slots that were made. -/
def remembered (slots : Slots) (made : List Filling) : Slots :=
  made.foldl (fun table m => table.remember m.request.name m.slot m.request.version) slots

/-- What a run leaves as it is, and the numbers that it gives out. -/
structure Exact (p : Program) (slots : Slots) (made : List Filling) (q : Program) (table : Slots) :
    Prop where
  name : q.name = p.name
  globals : q.globals = p.globals
  size_values : q.values.size = p.values.size + 2 * made.length
  /-- The instructions and the values of the slots are numbered in the order in which the slots are
  made. -/
  number : ∀ k m, made[k]? = some m →
    m.reader.index = p.insts.size + 3 * k ∧ m.content.index = p.values.size + 2 * k
  table : table = remembered slots made

theorem Step.name_globals {job : Job} {state later : Program × Slots} {b : Bool}
    (h : Step oracle job state b later) :
    later.1.name = state.1.name ∧ later.1.globals = state.1.globals := by
  cases h with
  | pass => exact ⟨rfl, rfl⟩
  | reuse => exact ⟨rfl, rfl⟩
  | @fill p _ m =>
    change (p.filled m).name = p.name ∧ (p.filled m).globals = p.globals
    unfold Program.filled
    simp only [Program.name_placed, Program.globals_placed, and_self]

theorem exact_nil (p : Program) (slots : Slots) : Exact p slots [] p slots where
  name := rfl
  globals := rfl
  size_values := rfl
  number _ _ hk := by simp at hk
  table := rfl

theorem Exact.fill {made : List Filling} (h : Exact p slots made q table) {m : Filling}
    (hm : m.Next q) (hsize : q.insts.size = p.insts.size + 3 * made.length) {later : Program}
    (hname : later.name = q.name) (hglobals : later.globals = q.globals)
    (hvalues : later.values.size = q.values.size + 2) :
    Exact p slots (made ++ [m]) later
      (table.remember m.request.name m.slot m.request.version) where
  name := hname.trans h.name
  globals := hglobals.trans h.globals
  size_values := by
    rw [hvalues, h.size_values, List.length_append, List.length_singleton]
    omega
  number k m' hk := by
    rw [List.getElem?_append] at hk
    split at hk
    · exact h.number k m' hk
    · rename_i hlast
      rw [List.getElem?_singleton] at hk
      split at hk
      · cases hk
        have hk : k = made.length := by omega
        rw [hm.reader, hm.content, hsize, h.size_values, hk]
        exact ⟨rfl, rfl⟩
      · cases hk
  table := by
    rw [h.table, remembered, remembered, List.foldl_append]
    rfl

/-- What a run does, with the numbers that it gives out. -/
theorem Run.progress_exact (hp : p.Coherent) {jobs : List Job} {n : Nat}
    (hlt : ∀ job ∈ jobs, job.load.index < p.insts.size) (hnodup : (jobs.map Job.load).Nodup)
    (h : Run oracle jobs (p, slots) n (q, table)) :
    ∃ made, Progress oracle p slots jobs made q table ∧ Exact p slots made q table := by
  refine Run.invariant_nodup (I := fun done _ state =>
    ∃ made, Progress oracle p slots done made state.1 state.2 ∧
      Exact p slots made state.1 state.2) hnodup ?_ ⟨[], progress_nil, ?_⟩ h
  · rintro done job rest count b ⟨q', table'⟩ next hjobs hother ⟨made, hprogress, hexact⟩ hjob
    obtain ⟨hname, hglobals⟩ := hjob.name_globals
    rcases hprogress.step_cases hp (hlt job (by simp [hjobs])) hother hjob with
      ⟨hnext, hvalues, htable⟩ | ⟨m, hnext, hm, hvalues, htable⟩
    · refine ⟨made, hnext, hname.trans hexact.name, hglobals.trans hexact.globals, ?_,
        hexact.number, htable.trans hexact.table⟩
      rw [hvalues, hexact.size_values]
    · refine ⟨made ++ [m], hnext, ?_⟩
      rw [htable]
      exact hexact.fill hm hprogress.size_insts hname hglobals hvalues
  · exact exact_nil p slots

/-- All that versioning the loads `loads` of a function has done to a program `p` and its table
`slots`: it has made the slots `made`, and the program is `q` now and the table is `table`. -/
structure Effect (oracle : Oracle) (function : Function) (loads : List InstId)
    (made : List Filling) (p : Program) (slots : Slots) (q : Program) (table : Slots) : Prop where
  /-- A slot was made for each name that is new in the table, -/
  added : ∀ name, slots.slot? name = none ∧ (table.slot? name).isSome = true ↔
    ∃ m ∈ made, m.request.name = name
  /-- and just one. -/
  names_nodup : (made.map fun m => m.request.name).Nodup
  /-- It was made for the first of the loads that has asked for the name. -/
  first : ∀ m ∈ made, m.job.function = function.name ∧
    ∃ before after, loads = before ++ m.job.load :: after ∧ ∀ i ∈ before, ∀ r,
      Asks oracle p slots ⟨function.name, i⟩ r → r.name ≠ m.request.name
  /-- Its instructions read the storage of that load, reserve the slot under its name, and write to
  it what was read. -/
  filling : ∀ m ∈ made, m.Made oracle p slots q
  /-- They stand right before the load, in this order; the lists of the blocks are the old ones
  otherwise. -/
  block : ∀ b, q.block? b = (p.block? b).map fun block =>
    { block with insts := weave made block.insts }
  /-- A load that wants a slot reads the one of the name that it asks for. -/
  redirected : ∀ i ∈ loads, wants p slots i = true → ∃ r inst slot,
    Asks oracle p slots ⟨function.name, i⟩ r ∧ p.inst? i = some inst ∧
      table.slot? r.name = some slot ∧ q.inst? i = some (inst.reading slot)
  /-- All other instructions are as they were. -/
  kept : ∀ i, i.index < p.insts.size → ¬(i ∈ loads ∧ wants p slots i = true) →
    q.inst? i = p.inst? i
  /-- Values are as they were. -/
  value : ∀ v, v.index < p.values.size → q.value? v = p.value? v
  size_insts : q.insts.size = p.insts.size + 3 * made.length
  functions : q.functions = p.functions
  /-- Nothing else is new, and the table has no other entries. -/
  frame : Exact p slots made q table

section Effect

variable {function : Function} {loads : List InstId}

/-- **All that a run over loads of a function has done.** -/
theorem Run.effect (hp : p.Coherent) {n : Nat} (hlt : ∀ i ∈ loads, i.index < p.insts.size)
    (hnodup : loads.Nodup)
    (h : Run oracle (loads.map (Job.mk function.name)) (p, slots) n (q, table)) :
    n = loads.countP (wants p slots) ∧
      ∃ made, Effect oracle function loads made p slots q table := by
  have hmem {i : InstId} (hi : i ∈ loads) :
      (⟨function.name, i⟩ : Job) ∈ loads.map (Job.mk function.name) := List.mem_map_of_mem hi
  have hjobs : ∀ job ∈ loads.map (Job.mk function.name), job.load.index < p.insts.size :=
    List.forall_mem_map.2 hlt
  -- all jobs carry the name of the function, so they are the loads in another form
  have hloads : (loads.map (Job.mk function.name)).map Job.load = loads := by
    simp [Function.comp_def]
  have hapart : ((loads.map (Job.mk function.name)).map Job.load).Nodup := by rwa [hloads]
  obtain ⟨made, hprogress, hexact⟩ := h.progress_exact hp hjobs hapart
  have hnames : made.Pairwise fun m m' => m.request.name ≠ m'.request.name :=
    hprogress.ordered.imp Filling.Precedes.name
  refine ⟨?_, made, ?_⟩
  · have hcount := h.count_eq hp hjobs hapart (fun job => wants p slots job.load)
      fun job hjob => hprogress.wants_iff_asks hjob
    rw [hcount, List.countP_map]
    rfl
  refine
    { added := fun name => ?_
      names_nodup := List.pairwise_map.2 hnames
      first := fun m hm => ?_
      filling := hprogress.filling
      block := hprogress.block
      redirected := fun i hi hwants => ?_
      kept := fun i hi hnot => hprogress.kept i hi fun job hjob hload r hr => hnot ?_
      value := hprogress.value
      size_insts := hprogress.size_insts
      functions := hprogress.functions
      frame := hexact }
  · constructor
    · rintro ⟨hnew, hsome⟩
      obtain ⟨v, hv⟩ := Option.isSome_iff_exists.1 hsome
      rcases (hprogress.slot name v).1 hv with hold | ⟨m, hm, hname, -⟩
      · rw [hnew] at hold
        cases hold
      · exact ⟨m, hm, hname⟩
    · rintro ⟨m, hm, rfl⟩
      refine ⟨(hprogress.filling m hm).new, ?_⟩
      rw [(hprogress.slot _ m.slot).2 (.inr ⟨m, hm, rfl, rfl⟩)]
      rfl
  · obtain ⟨i, hi, hjob⟩ := List.mem_map.1 (hprogress.mem_done hm)
    obtain ⟨before, after, hdone, hbefore⟩ := hprogress.earliest m hm
    have hsplit := congrArg (List.map Job.load) hdone
    rw [hloads, List.map_append, List.map_cons] at hsplit
    refine ⟨by rw [← hjob], before.map Job.load, after.map Job.load, hsplit, ?_⟩
    intro i hi r hr
    obtain ⟨job, hearlier, rfl⟩ := List.mem_map.1 hi
    obtain ⟨j, -, hname⟩ := List.mem_map.1 (hdone ▸ List.mem_append_left _ hearlier)
    refine hbefore job hearlier r ?_
    rw [← hname] at hr ⊢
    exact hr
  · obtain ⟨r, hr⟩ := (hprogress.wants_iff_asks (hmem hi)).1 hwants
    obtain ⟨inst, slot, hinst, hslot, hq⟩ := hprogress.redirected _ (hmem hi) r hr
    exact ⟨r, inst, slot, hr, hinst, hslot, hq⟩
  · obtain ⟨j, hj, rfl⟩ := List.mem_map.1 hjob
    exact hload ▸ ⟨hj, hr.wants⟩

end Effect

/-! ### Loads of versions that the oracle does not know -/

/-- A load that wants a slot cannot be versioned if the oracle does not know the version, and
nothing is changed then. -/
theorem Progress.load_of_unknown {done : List Job} {made : List Filling}
    (h : Progress oracle p slots done made q table) (hp : p.Coherent) (function : Function)
    (hother : ∀ earlier ∈ done, earlier.load ≠ i) (hwants : wants p slots i = true)
    (hversion : (oracle i).version? = none) :
    (load function oracle i).outcome (q, table) =
      (.error (.inconsistentOracle (oracle i) i), (q, table)) := by
  obtain ⟨inst, v, hinst, hreads, hstorage, hfree⟩ := wants_iff.1 hwants
  have hq : q.inst? i = some inst := by
    rw [h.kept i (Program.index_lt_of_inst? hinst) fun earlier hearlier hload =>
      absurd hload (hother earlier hearlier), hinst]
  have hfound : storage? q table inst = .ok (some v) :=
    storage?_eq_some_iff.2 ⟨hreads, (h.free_iff hp v).2 ⟨hstorage, hfree⟩⟩
  unfold load
  rw [Pass.outcome_bind, Pass.outcome_get]
  simp only
  rw [Pass.outcome_bind, Pass.outcome_lift, (Program.inst_eq_ok_iff q).2 hq]
  simp only
  rw [Pass.outcome_bind, Pass.outcome_lift, hfound]
  simp only [hversion]
  rfl

/-- Versioning stops at the first load that fails. -/
theorem loads_append_error {function : Function} {front back : List InstId} {fault : Fault}
    {first middle last : Program × Slots} {n : Nat}
    (hfront : (loads function oracle front).outcome first = (.ok n, middle))
    (hi : (load function oracle i).outcome middle = (.error fault, last)) :
    (loads function oracle (front ++ i :: back)).outcome first = (.error fault, last) := by
  unfold loads at hfront ⊢
  rw [List.foldlM_append, Pass.outcome_bind, hfront]
  simp only
  rw [List.foldlM_cons, Pass.outcome_bind, Pass.outcome_bind, hi]

end Versioning

namespace Workspace

open Versioning

variable {w : Workspace} {f : FunctionId} {function : Function}

theorem versionFunction_of_error {oracle : Oracle} (hf : w.program.function? f = some function)
    {fault : Fault} {state : Program × Slots}
    (h : (loads function oracle (w.program.loadsOf function)).outcome
      (w.program, w.context.slots) = (.error fault, state)) :
    (versionFunction oracle f).outcome w = (.error fault, w.advance state []) := by
  unfold versionFunction
  rw [Pass.outcome_bind, Pass.outcome_get]
  simp only
  rw [Pass.outcome_bind, Pass.outcome_lift, (Program.function_eq_ok_iff _).2 hf]
  simp only
  rw [Pass.outcome_bind, Pass.outcome_within, h]
  simp [advance]

/-- Versioning stops at the first load that wants a slot of a version that the oracle does not know;
the loads before it are done. -/
theorem versionFunction_of_unknown {oracle : Oracle} (hp : w.program.Coherent)
    (hf : w.program.function? f = some function) {front back : List InstId} {i : InstId}
    (hloads : w.program.loadsOf function = front ++ i :: back)
    (hfront : ∀ j ∈ front,
      (wants w.program w.context.slots j = true → ∃ k, (oracle j).version? = some k) ∧
      ∃ inst, w.program.inst? j = some inst ∧ inst.type ≠ .void ∧
        ∀ v, inst.operands.head? = some (.value v) → ∃ value, w.program.value? v = some value)
    (hwants : wants w.program w.context.slots i = true) (hversion : (oracle i).version? = none) :
    ∃ n made q table, (loads function oracle front).outcome (w.program, w.context.slots) =
        (.ok n, (q, table)) ∧
      Versioning.Effect oracle function front made w.program w.context.slots q table ∧
      (versionFunction oracle f).outcome w =
        (.error (.inconsistentOracle (oracle i) i), w.advance (q, table) []) := by
  have hnodup : (w.program.loadsOf function).Nodup := (hp.layout_nodup hf).filter _
  rw [hloads, List.nodup_append] at hnodup
  have hapart : ((front.map (Job.mk function.name)).map Job.load).Nodup := by
    simpa [Function.comp_def] using hnodup.1
  have hother : ∀ earlier ∈ front.map (Job.mk function.name), earlier.load ≠ i :=
    List.forall_mem_map.2 fun j hj => hnodup.2.2 j hj i List.mem_cons_self
  have hlt : ∀ j ∈ front, j.index < w.program.insts.size := by
    intro j hj
    obtain ⟨-, inst, hinst, -⟩ := hfront j hj
    exact Program.index_lt_of_inst? hinst
  obtain ⟨n, ⟨q, table⟩, hrun⟩ := exists_run_of_wants hp hapart (List.forall_mem_map.2 hfront)
  obtain ⟨-, made, heffect⟩ := hrun.effect hp hlt hnodup.1
  obtain ⟨_, hprogress⟩ := hrun.progress hp (List.forall_mem_map.2 hlt) hapart
  have hdone := loads_ok_iff.2 hrun
  have hfail := hprogress.load_of_unknown hp function hother hwants hversion
  refine ⟨n, made, q, table, hdone, heffect, versionFunction_of_error hf ?_⟩
  rw [hloads]
  exact loads_append_error hdone hfail

/-- **The effect of versioning a function** whose loads have results.  If it succeeds, it answers
how many loads want a slot, and has done to the program and to the table what `Versioning.Effect`
says of all loads of the function; nothing else in the workspace changes but the log.  If the oracle
does not know the version of some load that wants a slot, it fails and names the first of them, and
has done just what it does to the loads before that one; for this the loads have to read values that
the program has. -/
theorem versionFunction_effect (hp : w.program.Assembled)
    (hf : w.program.function? f = some function)
    (htype : ∀ i ∈ w.program.loadsOf function, ∀ inst, w.program.inst? i = some inst →
      inst.type ≠ .void)
    (oracle : Oracle) :
    (∀ n later, (versionFunction oracle f).outcome w = (.ok n, later) →
      n = (w.program.loadsOf function).countP (wants w.program w.context.slots) ∧
      ∃ made q table, Versioning.Effect oracle function (w.program.loadsOf function) made w.program
          w.context.slots q table ∧
        later = w.advance (q, table) [.functionVersioned function.name n]) ∧
    ((∀ i ∈ w.program.loadsOf function, ∀ v, w.program.source? i = some v →
        (w.program.value? v).isSome = true) →
      (∃ i ∈ w.program.loadsOf function, wants w.program w.context.slots i = true ∧
        (oracle i).version? = none) →
      ∃ front i back, w.program.loadsOf function = front ++ i :: back ∧
        wants w.program w.context.slots i = true ∧ (oracle i).version? = none ∧
        (∀ j ∈ front, wants w.program w.context.slots j = true → (oracle j).version? ≠ none) ∧
        ∃ n made q table, (loads function oracle front).outcome (w.program, w.context.slots) =
            (.ok n, (q, table)) ∧
          Versioning.Effect oracle function front made w.program w.context.slots q table ∧
          (versionFunction oracle f).outcome w =
            (.error (.inconsistentOracle (oracle i) i), w.advance (q, table) [])) := by
  have hcoherent := hp.coherent
  refine ⟨fun n later h => ?_, fun hvalues hunknown => ?_⟩
  · obtain ⟨function', ⟨q, table⟩, hf', hrun, rfl⟩ := versionFunction_ok_iff.1 h
    obtain rfl : function = function' := Option.some.inj (hf.symm.trans hf')
    obtain ⟨hcount, made, heffect⟩ := hrun.effect hcoherent
      (fun i hi => index_lt_of_mem_loadsOf hcoherent hf hi)
      ((hcoherent.layout_nodup hf).filter _)
    exact ⟨hcount, made, q, table, heffect, rfl⟩
  · -- the first load of a version that the oracle does not know
    obtain ⟨i, hfind⟩ : ∃ i, (w.program.loadsOf function).find? (fun i =>
        wants w.program w.context.slots i && (oracle i).version?.isNone) = some i := by
      rw [← Option.isSome_iff_exists, List.find?_isSome]
      obtain ⟨i, hi, hwants, hversion⟩ := hunknown
      exact ⟨i, hi, by simp [hwants, hversion]⟩
    obtain ⟨hi, front, back, hloads, hfront⟩ := List.find?_eq_some_iff_append.1 hfind
    rw [Bool.and_eq_true, Option.isNone_iff_eq_none] at hi
    have hknown : ∀ j ∈ front, wants w.program w.context.slots j = true →
        (oracle j).version? ≠ none := by
      intro j hj hwants hnone
      have hnot := hfront j hj
      simp [hwants, hnone] at hnot
    refine ⟨front, i, back, hloads, hi.1, hi.2, hknown,
      versionFunction_of_unknown hcoherent hf hloads (fun j hj => ?_) hi.1 hi.2⟩
    have hmem : j ∈ w.program.loadsOf function := hloads ▸ List.mem_append_left _ hj
    obtain ⟨inst, _, hinst, -⟩ :=
      (hcoherent.mem_layout_iff hf).1 (Program.mem_layout_of_mem_loadsOf hmem)
    refine ⟨fun hwants => Option.ne_none_iff_exists'.1 (hknown j hj hwants), inst, hinst,
      htype j hmem inst hinst, fun v hv => ?_⟩
    exact Option.isSome_iff_exists.1 (hvalues j hmem v
      (Program.source?_eq_some_iff.2 ⟨inst, hinst, hv⟩))

/-- A function that reads a global variable three times. -/
def thrice : Program := .ofEdits "thrice"
  [.global "g" (.int 32), .function "main" .void [], .block ⟨0⟩ "entry",
    .last ⟨0⟩ { opcode := .load, operands := [.value ⟨0⟩], type := .int 32, name := "a" },
    .last ⟨0⟩ { opcode := .load, operands := [.value ⟨0⟩], type := .int 32, name := "b" },
    .last ⟨0⟩ { opcode := .load, operands := [.value ⟨0⟩], type := .int 32, name := "c" }]

/-- The function of that program. -/
def thriceMain : Function :=
  { name := "main", value := ⟨1⟩, params := [], blocks := [⟨0⟩], file := none }

/-- An oracle that knows the versions of all loads but the second. -/
def thriceOracle : Oracle := fun i => if i = ⟨1⟩ then .use 5 else .definition 1

theorem versionFunction_effect_thrice :
    (∃ later, (versionFunction (fun _ => .definition 1) ⟨0⟩).outcome { program := thrice } =
        (.ok 3, later) ∧
      ∃ made table, Versioning.Effect (fun _ => .definition 1) thriceMain
        (thrice.loadsOf thriceMain) made thrice {} later.program table) ∧
    ∃ front i back made q table, thrice.loadsOf thriceMain = front ++ i :: back ∧
      Versioning.Effect thriceOracle thriceMain front made thrice {} q table ∧
      (versionFunction thriceOracle ⟨0⟩).outcome { program := thrice } =
        (.error (.inconsistentOracle (thriceOracle i) i),
          advance { program := thrice } (q, table) []) := by
  have hp : thrice.Assembled := Program.assembled_ofEdits _ _
  have hf : thrice.function? ⟨0⟩ = some thriceMain := by decide +kernel
  have htype : ∀ i ∈ thrice.loadsOf thriceMain, ∀ inst, thrice.inst? i = some inst →
      inst.type ≠ .void := by
    have hall : ∀ i ∈ thrice.loadsOf thriceMain,
        (thrice.inst? i).all (fun inst => !inst.type.isVoid) = true := by decide +kernel
    intro i hi inst hinst hvoid
    have hnot := hall i hi
    simp [hinst, hvoid, Ty.isVoid] at hnot
  have heffect (oracle : Oracle) := versionFunction_effect (w := { program := thrice }) hp hf htype
    oracle
  constructor
  · have hanswer : ((versionFunction (fun _ => .definition 1) ⟨0⟩).outcome
        { program := thrice }).1 = .ok 3 := by decide +kernel
    obtain ⟨later, h⟩ : ∃ later, (versionFunction (fun _ => .definition 1) ⟨0⟩).outcome
        { program := thrice } = (.ok 3, later) := ⟨_, Prod.ext hanswer rfl⟩
    obtain ⟨-, made, q, table, hq, rfl⟩ := (heffect _).1 3 later h
    exact ⟨_, h, made, table, hq⟩
  · obtain ⟨front, i, back, hloads, -, -, -, n, made, q, table, -, hq, hfail⟩ :=
      (heffect thriceOracle).2 (by
        have hall : ∀ i ∈ thrice.loadsOf thriceMain,
            (thrice.source? i).all (fun v => (thrice.value? v).isSome) = true := by decide +kernel
        intro i hi v hv
        have hsome := hall i hi
        rwa [hv] at hsome) ⟨⟨1⟩, by decide +kernel⟩
    exact ⟨front, i, back, made, q, table, hloads, hq, hfail⟩

end Workspace

end LevelIr
