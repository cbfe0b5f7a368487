import LevelIr.Proofs.Listing.Transcript
import LevelIr.Proofs.Slot.Run

/-!
# Programs whose loads were versioned

Versioning a function is a run over its loads, and versioning a program is one run over the loads of
all functions that are listed.

* `Versioning.jobsOf`, `Versioning.jobs` : the loads of a function and of a program.
* `Versioning.Progress.jobs_eq` : the loads of a program after a run.
* `Versioning.Redirected` : a load that read a storage and reads a slot now;
  `Versioning.Progress.exists_request` says which slot that is.
* `Workspace.versionFunction_ok_iff`, `Workspace.run_of_versionProgram` : versioning as a run.
-/

namespace LevelIr

namespace Program

variable {p : Program}

/-- The instructions of a function, in layout order. -/
def layout (p : Program) (function : Function) : List InstId := function.blocks.flatMap p.instsOf

/-- The value that an instruction has as its first operand. -/
def source? (p : Program) (i : InstId) : Option ValueId :=
  (p.inst? i).bind fun inst => inst.operands.head?.bind Arg.value?

theorem source?_eq_some_iff {i : InstId} {v : ValueId} :
    p.source? i = some v ↔
      ∃ inst, p.inst? i = some inst ∧ inst.operands.head? = some (.value v) := by
  unfold source?
  rw [Option.bind_eq_some_iff]
  simp only [Versioning.head?_bind_value?]

theorem loadsOf_eq (function : Function) :
    p.loadsOf function = (p.layout function).filter p.isLoad := rfl

theorem inst?_eq_none_iff {i : InstId} : p.inst? i = none ↔ p.insts.size ≤ i.index :=
  Array.getElem?_eq_none_iff

theorem instsOf_eq {b : BlockId} {block : Block} (h : p.block? b = some block) :
    p.instsOf b = block.insts := by
  simp [instsOf, h]

theorem mem_layout_of_mem_loadsOf {function : Function} {i : InstId} (h : i ∈ p.loadsOf function) :
    i ∈ p.layout function :=
  List.mem_of_mem_filter h

theorem isLoad_of_mem_loadsOf {function : Function} {i : InstId} (h : i ∈ p.loadsOf function) :
    p.isLoad i = true :=
  List.of_mem_filter h

theorem opcode_of_mem_loadsOf {function : Function} {i : InstId} (h : i ∈ p.loadsOf function)
    {inst : Inst} (hinst : p.inst? i = some inst) : inst.opcode = .load := by
  obtain ⟨inst', hinst', hopcode⟩ := isLoad_iff.1 (isLoad_of_mem_loadsOf h)
  obtain rfl : inst = inst' := Option.some.inj (hinst.symm.trans hinst')
  exact hopcode

section Coherent

variable (hp : p.Coherent)

include hp

theorem Coherent.mem_instsOf_iff {i : InstId} {b : BlockId} :
    i ∈ p.instsOf b ↔ ∃ inst, p.inst? i = some inst ∧ inst.block = b := by
  constructor
  · intro h
    unfold instsOf at h
    cases hblock : p.block? b with
    | none => simp [hblock] at h
    | some block => exact hp.inst_of_mem hblock (by simpa [hblock] using h)
  · rintro ⟨inst, hinst, rfl⟩
    obtain ⟨block, hblock, hmem⟩ := hp.mem_insts hinst
    rwa [instsOf_eq hblock]

theorem Coherent.instsOf_nodup (b : BlockId) : (p.instsOf b).Nodup := by
  unfold instsOf
  cases hblock : p.block? b with
  | none => exact List.nodup_nil
  | some block => exact hp.insts_nodup hblock

/-- The instructions of a function are those whose block belongs to it. -/
theorem Coherent.mem_layout_iff {f : FunctionId} {function : Function}
    (hf : p.function? f = some function) {i : InstId} :
    i ∈ p.layout function ↔
      ∃ inst block, p.inst? i = some inst ∧ p.block? inst.block = some block ∧
        block.function = f := by
  constructor
  · intro h
    obtain ⟨b, hb, hi⟩ := List.mem_flatMap.1 h
    obtain ⟨block, hblock, hfunction⟩ := hp.block_of_mem hf hb
    obtain ⟨inst, hinst, rfl⟩ := hp.mem_instsOf_iff.1 hi
    exact ⟨inst, block, hinst, hblock, hfunction⟩
  · rintro ⟨inst, block, hinst, hblock, rfl⟩
    obtain ⟨function', hf', hmem⟩ := hp.mem_blocks hblock
    obtain rfl : function = function' := Option.some.inj (hf.symm.trans hf')
    exact List.mem_flatMap.2 ⟨inst.block, hmem, hp.mem_instsOf_iff.2 ⟨inst, hinst, rfl⟩⟩

theorem Coherent.layout_nodup {f : FunctionId} {function : Function}
    (hf : p.function? f = some function) : (p.layout function).Nodup := by
  refine List.nodup_flatMap.2 ⟨fun b _ => hp.instsOf_nodup b, (hp.blocks_nodup hf).imp ?_⟩
  intro b c hne i hb hc
  obtain ⟨inst, hinst, rfl⟩ := hp.mem_instsOf_iff.1 hb
  obtain ⟨inst', hinst', rfl⟩ := hp.mem_instsOf_iff.1 hc
  rw [hinst, Option.some.injEq] at hinst'
  exact hne (congrArg Inst.block hinst')

/-- No instruction belongs to two functions. -/
theorem Coherent.layout_disjoint {f g : FunctionId} {function function' : Function}
    (hf : p.function? f = some function) (hg : p.function? g = some function') (hne : f ≠ g)
    {i : InstId} (hi : i ∈ p.layout function) : i ∉ p.layout function' := by
  intro hi'
  obtain ⟨inst, block, hinst, hblock, rfl⟩ := (hp.mem_layout_iff hf).1 hi
  obtain ⟨inst', block', hinst', hblock', rfl⟩ := (hp.mem_layout_iff hg).1 hi'
  obtain rfl : inst = inst' := Option.some.inj (hinst.symm.trans hinst')
  obtain rfl : block = block' := Option.some.inj (hblock.symm.trans hblock')
  exact hne rfl

end Coherent

end Program

namespace Versioning

variable {oracle : Oracle} {p q : Program} {slots table : Slots}

/-! ### Jobs -/

/-- The loads of a function. -/
def jobsOf (p : Program) (function : Function) : List Job :=
  (p.loadsOf function).map (Job.mk function.name)

/-- The loads of the function with a handle. -/
def jobsAt (p : Program) (f : FunctionId) : List Job := ((p.function? f).map (jobsOf p)).getD []

/-- The loads of the functions that are listed. -/
def jobs (p : Program) : List Job := p.listedFunctions.flatMap (jobsAt p)

theorem jobsAt_eq {f : FunctionId} {function : Function} (hf : p.function? f = some function) :
    jobsAt p f = jobsOf p function := by
  simp [jobsAt, hf]

theorem mem_jobsOf {function : Function} {job : Job} :
    job ∈ jobsOf p function ↔ job.function = function.name ∧ job.load ∈ p.loadsOf function := by
  unfold jobsOf
  rw [List.mem_map]
  constructor
  · rintro ⟨i, hi, rfl⟩
    exact ⟨rfl, hi⟩
  · rintro ⟨hname, hi⟩
    exact ⟨job.load, hi, by rw [← hname]⟩

theorem mem_jobsAt {f : FunctionId} {job : Job} :
    job ∈ jobsAt p f ↔ ∃ function, p.function? f = some function ∧ job.function = function.name ∧
      job.load ∈ p.loadsOf function := by
  cases hf : p.function? f with
  | none => simp [jobsAt, hf]
  | some function => simp [jobsAt_eq hf, mem_jobsOf]

theorem mem_jobs {job : Job} :
    job ∈ jobs p ↔ ∃ f ∈ p.listedFunctions, ∃ function, p.function? f = some function ∧
      job.function = function.name ∧ job.load ∈ p.loadsOf function := by
  simp only [jobs, List.mem_flatMap, mem_jobsAt]

theorem map_load_jobsOf (function : Function) :
    (jobsOf p function).map Job.load = p.loadsOf function := by
  simp [jobsOf, Function.comp_def]

section Coherent

variable (hp : p.Coherent)

include hp

theorem index_lt_of_mem_loadsOf {f : FunctionId} {function : Function}
    (hf : p.function? f = some function) {i : InstId} (hi : i ∈ p.loadsOf function) :
    i.index < p.insts.size := by
  obtain ⟨inst, _, hinst, -⟩ :=
    (hp.mem_layout_iff hf).1 (Program.mem_layout_of_mem_loadsOf hi)
  exact Program.index_lt_of_inst? hinst

theorem jobsAt_nodup (f : FunctionId) : ((jobsAt p f).map Job.load).Nodup := by
  cases hf : p.function? f with
  | none => simp [jobsAt, hf]
  | some function =>
    rw [jobsAt_eq hf, map_load_jobsOf]
    exact (hp.layout_nodup hf).filter _

theorem jobs_nodup : ((jobs p).map Job.load).Nodup := by
  rw [jobs, List.map_flatMap]
  refine List.nodup_flatMap.2 ⟨fun f _ => jobsAt_nodup hp f, p.listedFunctions_nodup.imp ?_⟩
  intro f g hne i hi hi'
  obtain ⟨job, hjob, rfl⟩ := List.mem_map.1 hi
  obtain ⟨job', hjob', heq⟩ := List.mem_map.1 hi'
  obtain ⟨function, hf, -, hload⟩ := mem_jobsAt.1 hjob
  obtain ⟨function', hg, -, hload'⟩ := mem_jobsAt.1 hjob'
  rw [heq] at hload'
  exact hp.layout_disjoint hf hg hne (Program.mem_layout_of_mem_loadsOf hload)
    (Program.mem_layout_of_mem_loadsOf hload')

/-- A job names the function that its load belongs to. -/
theorem function_of_mem_jobs {job : Job} (hjob : job ∈ jobs p) {f : FunctionId}
    {function : Function} (hf : p.function? f = some function)
    (hi : job.load ∈ p.layout function) : job.function = function.name := by
  obtain ⟨g, -, function', hg, hname, hload⟩ := mem_jobs.1 hjob
  by_cases hfg : g = f
  · subst hfg
    obtain rfl : function' = function := Option.some.inj (hg.symm.trans hf)
    exact hname
  · exact absurd hi (hp.layout_disjoint hg hf hfg (Program.mem_layout_of_mem_loadsOf hload))

theorem index_lt_of_mem_jobs {job : Job} (h : job ∈ jobs p) : job.load.index < p.insts.size := by
  obtain ⟨f, -, function, hf, -, hload⟩ := mem_jobs.1 h
  exact index_lt_of_mem_loadsOf hp hf hload

end Coherent

/-! ### The loads after a run -/

/-- The instructions that were placed to read the storage of a load. -/
def readers (made : List Filling) (i : InstId) : List InstId :=
  (made.filter fun m => m.job.load = i).map Filling.reader

/-- A job with the loads that were placed before it. -/
def again (made : List Filling) (job : Job) : List Job :=
  (readers made job.load).map (Job.mk job.function) ++ [job]

theorem again_eq_singleton {made : List Filling} {job : Job}
    (h : ∀ m ∈ made, m.job.load ≠ job.load) : again made job = [job] := by
  have hnone : (made.filter fun m => m.job.load = job.load) = [] := by
    rw [List.filter_eq_nil_iff]
    intro m hm
    simpa using h m hm
  simp [again, readers, hnone]

namespace Progress

variable {done : List Job} {made : List Filling} (h : Progress oracle p slots done made q table)

include h

theorem function?_eq (f : FunctionId) : q.function? f = p.function? f := by
  rw [Program.function?, Program.function?, h.functions]

theorem listedFunctions_eq : q.listedFunctions = p.listedFunctions := by
  unfold Program.listedFunctions Program.functionIds
  rw [h.functions]
  exact List.filter_congr fun f _ => by rw [h.function?_eq]

theorem instsOf_eq (b : BlockId) : q.instsOf b = weave made (p.instsOf b) := by
  unfold Program.instsOf
  rw [h.block]
  cases p.block? b with
  | none => rfl
  | some block => rfl

theorem layout_eq (function : Function) : q.layout function = weave made (p.layout function) := by
  unfold Program.layout weave
  rw [List.flatMap_assoc]
  exact List.flatMap_congr fun b _ => h.instsOf_eq b

/-- Of the instructions of a slot, one is a load. -/
theorem filter_inserted (i : InstId) :
    (inserted made i).filter q.isLoad = readers made i := by
  unfold inserted readers
  rw [List.filter_flatMap, List.map_eq_flatMap]
  refine List.flatMap_congr fun m hm => ?_
  have hmade := h.filling m (List.mem_of_mem_filter hm)
  have hreader : q.isLoad m.reader = true := Program.isLoad_iff.2 ⟨_, hmade.reader, rfl⟩
  have hreserver : q.isLoad m.reserver = false := by
    simp [Program.isLoad, hmade.reserver, Filling.reserverInst, Filling.placedInst,
      Filling.reserverDraft]
  have hwriter : q.isLoad m.writer = false := by
    simp [Program.isLoad, hmade.writer, Filling.writerInst, Filling.placedInst,
      Filling.writerDraft]
  simp [Filling.insts, hreader, hreserver, hwriter]

theorem isLoad_eq {i : InstId} {inst : Inst} (hi : p.inst? i = some inst) :
    q.isLoad i = p.isLoad i := by
  obtain ⟨inst', hinst', hopcode, -⟩ := h.exists_inst hi
  simp [Program.isLoad, hi, hinst', hopcode]

/-- The loads of a function after a run: the old ones, each after the loads that were placed before
it. -/
theorem loadsOf_eq (hp : p.Coherent) (hdone : ∀ job ∈ done, p.isLoad job.load = true)
    {f : FunctionId} {function : Function} (hf : p.function? f = some function) :
    q.loadsOf function = (p.loadsOf function).flatMap fun i => readers made i ++ [i] := by
  have hgeneral : ∀ insts : List InstId, (∀ i ∈ insts, ∃ inst, p.inst? i = some inst) →
      (weave made insts).filter q.isLoad =
        (insts.filter p.isLoad).flatMap fun i => readers made i ++ [i] := by
    intro insts
    induction insts with
    | nil => intro _; rfl
    | cons i insts ih =>
      intro hinsts
      obtain ⟨inst, hi⟩ := hinsts i List.mem_cons_self
      rw [weave_cons, List.filter_append, h.filter_inserted, List.filter_cons, List.filter_cons,
        h.isLoad_eq hi, ih fun j hj => hinsts j (List.mem_cons_of_mem i hj)]
      by_cases hload : p.isLoad i = true
      · rw [if_pos hload, if_pos hload, List.flatMap_cons, List.append_assoc]
        rfl
      · -- no slot is made for an instruction that is no load
        have hnone : readers made i = [] := by
          rw [readers, List.map_eq_nil_iff, List.filter_eq_nil_iff]
          intro m hm heq
          rw [decide_eq_true_eq] at heq
          exact hload (heq ▸ hdone m.job (h.mem_done hm))
        rw [if_neg hload, if_neg hload, hnone, List.nil_append]
  rw [Program.loadsOf_eq, Program.loadsOf_eq, h.layout_eq]
  refine hgeneral _ fun i hi => ?_
  obtain ⟨inst, _, hinst, -⟩ := (hp.mem_layout_iff hf).1 hi
  exact ⟨inst, hinst⟩

theorem jobsAt_eq (hp : p.Coherent) (hdone : ∀ job ∈ done, p.isLoad job.load = true)
    (f : FunctionId) : jobsAt q f = (jobsAt p f).flatMap (again made) := by
  cases hf : p.function? f with
  | none => simp [jobsAt, h.function?_eq, hf]
  | some function =>
    have hf' : q.function? f = some function := (h.function?_eq f).trans hf
    rw [Versioning.jobsAt_eq hf, Versioning.jobsAt_eq hf', jobsOf, jobsOf,
      h.loadsOf_eq hp hdone hf, List.map_flatMap, List.flatMap_map]
    exact List.flatMap_congr fun i _ => by simp [again]

theorem jobs_eq (hp : p.Coherent) (hdone : ∀ job ∈ done, p.isLoad job.load = true) :
    jobs q = (jobs p).flatMap (again made) := by
  unfold jobs
  rw [h.listedFunctions_eq, List.flatMap_assoc]
  exact List.flatMap_congr fun f _ => h.jobsAt_eq hp hdone f

end Progress

theorem Step.functions {job : Job} {state later : Program × Slots} {b : Bool}
    (h : Step oracle job state b later) : later.1.functions = state.1.functions := by
  cases h with
  | pass => rfl
  | reuse => rfl
  | fill => rw [Program.functions_redirect, Program.functions_filled]

theorem Run.functions {jobs : List Job} {first last : Program × Slots} {n : Nat}
    (h : Run oracle jobs first n last) : last.1.functions = first.1.functions :=
  h.invariant (I := fun _ _ state => state.1.functions = first.1.functions)
    (fun _ _ _ _ _ _ _ _ hstate hstep => hstep.functions.trans hstate) rfl

/-- A load that read a storage and reads a slot now. -/
structure Redirected (p q : Program) (i : InstId) (storage slot : ValueId) : Prop where
  before : p.source? i = some storage
  after : q.source? i = some slot
  ne : slot ≠ storage

instance (p q : Program) (i : InstId) (storage slot : ValueId) :
    Decidable (Redirected p q i storage slot) :=
  decidable_of_iff (p.source? i = some storage ∧ q.source? i = some slot ∧ slot ≠ storage)
    ⟨fun ⟨before, after, ne⟩ => ⟨before, after, ne⟩, fun h => ⟨h.before, h.after, h.ne⟩⟩

/-- Such a load has asked for the slot that it reads now. -/
theorem Progress.exists_request {done : List Job} {made : List Filling}
    (h : Progress oracle p slots done made q table) {i : InstId} {storage slot : ValueId}
    (hi : Redirected p q i storage slot) : ∃ job ∈ done, ∃ r, job.load = i ∧
      Asks oracle p slots job r ∧ r.storage = storage ∧ table.slot? r.name = some slot := by
  obtain ⟨inst, hinst, hstorage⟩ := Program.source?_eq_some_iff.1 hi.before
  obtain ⟨inst', hinst', hslot⟩ := Program.source?_eq_some_iff.1 hi.after
  by_cases hasked : ∃ job ∈ done, job.load = i ∧ ∃ r, Asks oracle p slots job r
  · obtain ⟨job, hjob, rfl, r, hr⟩ := hasked
    obtain ⟨old, slot', hold, hfound, hq⟩ := h.redirected job hjob r hr
    obtain ⟨read, hread, hreads⟩ := hr.reads
    obtain rfl : inst = old := Option.some.inj (hinst.symm.trans hold)
    obtain rfl : inst = read := Option.some.inj (hinst.symm.trans hread)
    rw [hq, Option.some.injEq] at hinst'
    rw [← hinst', Inst.head?_reading hstorage, Option.some.injEq, Arg.value.injEq] at hslot
    rw [hstorage, Option.some.injEq, Arg.value.injEq] at hreads
    exact ⟨job, hjob, r, rfl, hr, hreads.symm, hslot ▸ hfound⟩
  · -- all other instructions are as they were
    rw [h.kept i (Program.index_lt_of_inst? hinst) fun job hjob hload r hr =>
      hasked ⟨job, hjob, hload, r, hr⟩, hinst, Option.some.injEq] at hinst'
    rw [← hinst', hstorage, Option.some.injEq, Arg.value.injEq] at hslot
    exact absurd hslot.symm hi.ne

/-- The load that a slot was made for reads it. -/
theorem Progress.redirected_job {done : List Job} {made : List Filling}
    (h : Progress oracle p slots done made q table) {m : Filling} (hm : m ∈ made) :
    Redirected p q m.job.load m.request.storage m.slot := by
  have hmade := h.filling m hm
  obtain ⟨inst, slot, hinst, hslot, hq⟩ := h.redirected m.job (h.mem_done hm) _ hmade.asks
  obtain ⟨inst', hinst', hreads⟩ := hmade.asks.reads
  obtain rfl : inst = inst' := Option.some.inj (hinst.symm.trans hinst')
  rw [(h.slot _ m.slot).2 (.inr ⟨m, hm, rfl, rfl⟩), Option.some.injEq] at hslot
  subst hslot
  refine ⟨Program.source?_eq_some_iff.2 ⟨inst, hinst, hreads⟩,
    Program.source?_eq_some_iff.2 ⟨_, hq, Inst.head?_reading hreads m.slot⟩, ?_⟩
  -- the storage is a value that was there before
  intro heq
  obtain ⟨value, hvalue, -⟩ := hmade.asks.memory
  have := Program.index_lt_of_value? hvalue
  have := hmade.content_new
  have hindex : m.slot.index = m.content.index + 1 := rfl
  rw [heq] at hindex
  omega

/-- No load that comes earlier, in layout order, than the one that a slot was made for has asked for
it. -/
theorem Progress.pairwise_layout {function : Function} {made : List Filling}
    (h : Progress oracle p slots (jobsOf p function) made q table)
    (hnodup : (p.layout function).Nodup) {m : Filling} (hm : m ∈ made) :
    (p.layout function).Pairwise fun i j => j = m.job.load → p.isLoad i = true →
      ∀ r, Asks oracle p slots ⟨function.name, i⟩ r → r.name ≠ m.request.name := by
  obtain ⟨before, after, hdone, hbefore⟩ := h.earliest m hm
  have hloads : ((before ++ m.job :: after).map Job.load).Nodup := by
    rw [← hdone, map_load_jobsOf]
    exact hnodup.filter _
  have hjobs : (jobsOf p function).Pairwise fun job job' => job'.load = m.job.load →
      ∀ r, Asks oracle p slots job r → r.name ≠ m.request.name := by
    rw [List.map_append, List.map_cons, List.nodup_middle, List.nodup_cons, ← List.map_append]
      at hloads
    have hafter : ∀ job ∈ after, job.load ≠ m.job.load := fun job hjob heq =>
      hloads.1 (List.mem_map.2 ⟨job, List.mem_append_right _ hjob, heq⟩)
    rw [hdone]
    refine List.pairwise_append.2 ⟨?_, List.pairwise_cons.2 ⟨?_, ?_⟩, ?_⟩
    · exact List.pairwise_of_forall_mem_list fun job hjob _ _ _ => hbefore job hjob
    · intro job hjob heq
      exact absurd heq (hafter job hjob)
    · exact List.pairwise_of_forall_mem_list fun _ _ job hjob heq => absurd heq (hafter job hjob)
    · intro job hjob _ _ _
      exact hbefore job hjob
  unfold jobsOf at hjobs
  rw [List.pairwise_map, Program.loadsOf_eq, List.pairwise_filter] at hjobs
  refine hjobs.imp ?_
  rintro i _ himp rfl hload
  exact himp hload (Program.isLoad_of_mem_loadsOf (mem_jobsOf.1 (h.mem_done hm)).2) rfl

/-- The load that a slot was made for comes, in its block, no later than any other load that has
asked for it. -/
theorem Progress.load_not_mem_back {function : Function} {made : List Filling}
    (h : Progress oracle p slots (jobsOf p function) made q table)
    (hnodup : (p.layout function).Nodup) {m : Filling} (hm : m ∈ made) {i : InstId}
    (hload : i ∈ p.loadsOf function) {r : Request} (hr : Asks oracle p slots ⟨function.name, i⟩ r)
    (hname : r.name = m.request.name) {b : BlockId} (hb : b ∈ function.blocks)
    {front back : List InstId} (hinsts : p.instsOf b = front ++ i :: back) :
    m.job.load ∉ back := by
  have hpairwise := (List.pairwise_flatMap.1 (h.pairwise_layout hnodup hm)).1 b hb
  rw [hinsts, List.pairwise_append, List.pairwise_cons] at hpairwise
  intro hback
  exact hpairwise.2.1.1 _ hback rfl (Program.isLoad_of_mem_loadsOf hload) r hr hname

/-- From an empty table on, no slot has two names. -/
theorem Progress.slot_eq_iff {done : List Job} {made : List Filling}
    (h : Progress oracle p {} done made q table) {name name' : String}
    {v v' : ValueId} (hv : table.slot? name = some v) (hv' : table.slot? name' = some v') :
    v = v' ↔ name = name' := by
  constructor
  · intro heq
    rcases (h.slot name v).1 hv with hold | ⟨m, hm, rfl, rfl⟩
    · cases hold
    rcases (h.slot name' v').1 hv' with hold | ⟨m', hm', rfl, rfl⟩
    · cases hold
    rw [h.eq_of_slot_eq hm hm' heq]
  · rintro rfl
    exact Option.some.inj (hv.symm.trans hv')

theorem isLoad_of_mem_jobs {job : Job} (h : job ∈ jobs p) : p.isLoad job.load = true := by
  obtain ⟨_, -, _, -, -, hload⟩ := mem_jobs.1 h
  exact Program.isLoad_of_mem_loadsOf hload

end Versioning

/-! ### Versioning as a run -/

namespace Workspace

open Versioning

variable {oracle : Oracle} {w later : Workspace} {n : Nat}

/-- The workspace with another program, other slots and more events. -/
def advance (w : Workspace) (state : Program × Slots) (events : List Event) : Workspace :=
  { program := state.1, context := { w.context with slots := state.2 }, log := w.log ++ events }

/-- **Versioning a function is a run over its loads.** -/
theorem versionFunction_ok_iff {f : FunctionId} :
    (versionFunction oracle f).outcome w = (.ok n, later) ↔ ∃ function state,
      w.program.function? f = some function ∧
      Run oracle (jobsOf w.program function) (w.program, w.context.slots) n state ∧
      later = w.advance state [.functionVersioned function.name n] := by
  constructor
  · intro h
    obtain ⟨_, _, hget, h⟩ := Pass.outcome_bind_ok.1 h
    cases hget
    obtain ⟨function, _, hlookup, h⟩ := Pass.outcome_bind_ok.1 h
    obtain ⟨hfunction, rfl⟩ := Pass.outcome_lift_ok.1 hlookup
    obtain ⟨count, _, hloads, h⟩ := Pass.outcome_bind_ok.1 h
    cases h
    rw [Pass.outcome_within, Prod.mk.injEq] at hloads
    obtain ⟨hanswer, rfl⟩ := hloads
    exact ⟨function, _, (Program.function_eq_ok_iff _).1 hfunction,
      loads_ok_iff.1 (Prod.ext hanswer rfl), rfl⟩
  · rintro ⟨function, state, hfunction, hrun, rfl⟩
    refine Pass.outcome_bind_ok.2 ⟨w, w, rfl, ?_⟩
    refine Pass.outcome_bind_ok.2 ⟨function, w, ?_, ?_⟩
    · exact Pass.outcome_lift_ok.2 ⟨(Program.function_eq_ok_iff _).2 hfunction, rfl⟩
    refine Pass.outcome_bind_ok.2 ⟨n, { w.advance state [] with log := w.log }, ?_, rfl⟩
    rw [Pass.outcome_within, loads_ok_iff.2 hrun]
    rfl

theorem progress_of_versionFunction (hp : w.program.Coherent) {f : FunctionId}
    {function : Function} (hf : w.program.function? f = some function)
    (h : (versionFunction oracle f).outcome w = (.ok n, later)) :
    ∃ made, Progress oracle w.program w.context.slots (jobsOf w.program function) made
      later.program later.context.slots := by
  obtain ⟨function', state, hf', hrun, rfl⟩ := versionFunction_ok_iff.1 h
  obtain rfl : function = function' := Option.some.inj (hf.symm.trans hf')
  exact hrun.progress hp
    (fun job hjob => index_lt_of_mem_loadsOf hp hf (mem_jobsOf.1 hjob).2)
    (jobsAt_eq hf ▸ jobsAt_nodup hp f)

theorem advance_advance (state state' : Program × Slots) (events events' : List Event) :
    (w.advance state events).advance state' events' = w.advance state' (events ++ events') := by
  simp [advance]

section Functions

variable {p : Program} {slots : Slots} (hp : p.Coherent)

include hp

/-- Versioning a function does not change the loads of those that come later. -/
theorem jobsAt_of_run {done rest : List Job} {f : FunctionId} {k : Nat} {q : Program}
    {table : Slots} (hjobs : jobs p = done ++ (jobsAt p f ++ rest))
    (hrun : Run oracle done (p, slots) k (q, table)) : jobsAt q f = jobsAt p f := by
  have hmem {job : Job} (hjob : job ∈ done) : job ∈ jobs p := by
    rw [hjobs]
    exact List.mem_append_left _ hjob
  have hnodup : ((done ++ (jobsAt p f ++ rest)).map Job.load).Nodup := hjobs ▸ jobs_nodup hp
  rw [List.map_append, List.nodup_append] at hnodup
  obtain ⟨made, hprogress⟩ :=
    hrun.progress hp (fun job hjob => index_lt_of_mem_jobs hp (hmem hjob)) hnodup.1
  rw [hprogress.jobsAt_eq hp fun job hjob => isLoad_of_mem_jobs (hmem hjob)]
  -- no slot was made for a load of this function
  have hsame : ∀ job ∈ jobsAt p f, again made job = [job] := by
    intro job hjob
    refine again_eq_singleton fun m hm => ?_
    exact hnodup.2.2 _ (List.mem_map_of_mem (hprogress.mem_done hm)) _
      (List.mem_map_of_mem (List.mem_append_left _ hjob))
  rw [List.flatMap_congr hsame, List.flatMap_singleton']

theorem run_of_versionFunctions {fs : List FunctionId} {done : List Job} {k count total : Nat}
    (hjobs : jobs p = done ++ fs.flatMap (jobsAt p))
    (hrun : Run oracle done (p, slots) k (w.program, w.context.slots))
    (h : (fs.foldlM (fun count f => do return count + (← versionFunction oracle f))
      count : Pass Workspace Nat).outcome w = (.ok total, later)) :
    ∃ n state events, Run oracle (fs.flatMap (jobsAt p)) (w.program, w.context.slots) n state ∧
      total = count + n ∧ later = w.advance state events := by
  induction fs generalizing done w k count with
  | nil =>
    cases h
    exact ⟨0, _, [], .nil _, rfl, by simp [advance]⟩
  | cons f fs ih =>
    rw [List.foldlM_cons] at h
    obtain ⟨_, next, hfirst, hrest⟩ := Pass.outcome_bind_ok.1 h
    obtain ⟨m, _, hversion, hreturn⟩ := Pass.outcome_bind_ok.1 hfirst
    cases hreturn
    obtain ⟨function, state, hfunction, hloads, rfl⟩ := versionFunction_ok_iff.1 hversion
    rw [List.flatMap_cons] at hjobs
    rw [← jobsAt_eq hfunction, jobsAt_of_run hp hjobs hrun] at hloads
    have hdone := run_append_iff.2 ⟨k, _, m, hrun, hloads, rfl⟩
    obtain ⟨n, state', events, hrun', rfl, rfl⟩ :=
      ih (hjobs.trans (List.append_assoc _ _ _).symm) hdone hrest
    exact ⟨m + n, state', _, run_append_iff.2 ⟨m, state, n, hloads, hrun', rfl⟩,
      Nat.add_assoc _ _ _, advance_advance _ _ _ _⟩

theorem versionFunctions_of_run {fs : List FunctionId} {done : List Job} {k : Nat} (count : Nat)
    {state : Program × Slots} (hjobs : jobs p = done ++ fs.flatMap (jobsAt p))
    (hfs : ∀ f ∈ fs, ∃ function, w.program.function? f = some function)
    (hrun : Run oracle done (p, slots) k (w.program, w.context.slots))
    (h : Run oracle (fs.flatMap (jobsAt p)) (w.program, w.context.slots) n state) :
    ∃ events, (fs.foldlM (fun count f => do return count + (← versionFunction oracle f))
      count : Pass Workspace Nat).outcome w = (.ok (count + n), w.advance state events) := by
  induction fs generalizing done w k count n with
  | nil =>
    obtain ⟨rfl, rfl⟩ := run_nil_iff.1 h
    exact ⟨[], by simp [advance, Pass.outcome_pure]⟩
  | cons f fs ih =>
    rw [List.flatMap_cons] at h hjobs
    obtain ⟨m, next, l, hloads, hrest, rfl⟩ := run_append_iff.1 h
    obtain ⟨function, hfunction⟩ := hfs f List.mem_cons_self
    have hdone := run_append_iff.2 ⟨k, _, m, hrun, hloads, rfl⟩
    rw [← jobsAt_of_run hp hjobs hrun, jobsAt_eq hfunction] at hloads
    have hversion := versionFunction_ok_iff.2 ⟨function, next, hfunction, hloads, rfl⟩
    have hfs' : ∀ g ∈ fs, ∃ function, next.1.function? g = some function := by
      intro g hg
      rw [Program.function?, hloads.functions]
      exact hfs g (List.mem_cons_of_mem f hg)
    obtain ⟨events, hevents⟩ := ih (w := w.advance next [.functionVersioned function.name m])
      (count + m) (hjobs.trans (List.append_assoc _ _ _).symm) hfs' hdone hrest
    refine ⟨[.functionVersioned function.name m] ++ events, ?_⟩
    rw [List.foldlM_cons, ← Nat.add_assoc, ← advance_advance]
    exact Pass.outcome_bind_ok.2
      ⟨_, _, Pass.outcome_bind_ok.2 ⟨m, _, hversion, rfl⟩, hevents⟩

end Functions

/-- **Versioning a program is a run over the loads of all functions that are listed.** -/
theorem run_of_versionProgram (hp : w.program.Coherent)
    (h : (versionProgram oracle).outcome w = (.ok n, later)) :
    Run oracle (jobs w.program) (w.program, w.context.slots) n
      (later.program, later.context.slots) := by
  obtain ⟨_, _, hget, h⟩ := Pass.outcome_bind_ok.1 h
  cases hget
  obtain ⟨_, state, events, hrun, rfl, rfl⟩ :=
    run_of_versionFunctions hp (List.nil_append _).symm (.nil _) h
  rw [Nat.zero_add]
  exact hrun

theorem progress_of_versionProgram (hp : w.program.Coherent)
    (h : (versionProgram oracle).outcome w = (.ok n, later)) :
    ∃ made, Progress oracle w.program w.context.slots (jobs w.program) made later.program
      later.context.slots :=
  (run_of_versionProgram hp h).progress hp (fun _ => index_lt_of_mem_jobs hp) (jobs_nodup hp)

theorem versionProgram_of_run (hp : w.program.Coherent) {state : Program × Slots}
    (h : Run oracle (jobs w.program) (w.program, w.context.slots) n state) :
    ∃ events, (versionProgram oracle).outcome w = (.ok n, w.advance state events) := by
  have hfs : ∀ f ∈ w.program.listedFunctions,
      ∃ function, w.program.function? f = some function := by
    intro f hf
    obtain ⟨-, hlisted⟩ := List.mem_filter.1 hf
    obtain ⟨function, hfunction, -⟩ := (Option.any_eq_true _ _).1 hlisted
    exact ⟨function, hfunction⟩
  obtain ⟨events, hevents⟩ :=
    versionFunctions_of_run hp 0 (List.nil_append _).symm hfs (.nil _) h
  rw [Nat.zero_add] at hevents
  exact ⟨events, Pass.outcome_bind_ok.2 ⟨w, w, rfl, hevents⟩⟩

end Workspace

end LevelIr
