import LevelIr.Proofs.Slot.Versioned

/-!
# Versioning a program again

A load that was versioned reads a slot, and versioning passes over loads of slots.  So a second run
over the loads that the first one has met changes nothing (`Versioning.Run.settled`).  But it meets
other loads, too: those that the first run has placed to fill its slots.  They read storages that
are no slots, and the second run lets them read slots in their turn.

* `Program.Records` : the slots of a table are storages of the program.
* `Workspace.versionProgram_again` : a second run versions just the loads that the first one has
  placed, so it changes nothing only if the first one has made no slots.
* `Workspace.versionProgram_reread` : a slot that is filled with what is read from the slot itself.
-/

namespace LevelIr

/-- The slots of a table are storages of the program, and known as slots. -/
def Program.Records (p : Program) (slots : Slots) : Prop :=
  ∀ name v, slots.slot? name = some v → p.IsStorage v ∧ slots.isSlot v = true

theorem Program.records_empty (p : Program) : p.Records {} := by
  intro name v h
  cases h

namespace Versioning

variable {oracle : Oracle} {p q : Program} {slots table : Slots} {job : Job} {b : Bool}
  {state later : Program × Slots}

/-! ### Loads that are passed over -/

/-- Versioning passes over an instruction. -/
def Settled (state : Program × Slots) (i : InstId) : Prop :=
  ∃ inst, state.1.inst? i = some inst ∧ storage? state.1 state.2 inst = .ok none

/-- What a step leaves as it is. -/
structure Grows (state later : Program × Slots) : Prop where
  opcode : ∀ i inst, state.1.inst? i = some inst →
    ∃ inst', later.1.inst? i = some inst' ∧ inst'.opcode = inst.opcode
  value : ∀ v value, state.1.value? v = some value → later.1.value? v = some value
  isSlot : ∀ v, state.2.isSlot v = true → later.2.isSlot v = true

theorem Grows.isMemory (h : Grows state later) {value : Value} {memory : Bool}
    (hmemory : state.1.isMemory value = .ok memory) : later.1.isMemory value = .ok memory := by
  unfold Program.isMemory at hmemory ⊢
  cases horigin : value.origin with
  | result i =>
    simp only [horigin] at hmemory ⊢
    obtain ⟨inst, hinst, hopcode⟩ := Pass.bind_eq_ok.1 hmemory
    rw [Program.inst_eq_ok_iff] at hinst
    obtain ⟨inst', hinst', hsame⟩ := h.opcode i inst hinst
    refine Pass.bind_eq_ok.2 ⟨inst', (Program.inst_eq_ok_iff _).2 hinst', ?_⟩
    rw [hsame]
    exact hopcode
  | _ =>
    simp only [horigin] at hmemory ⊢
    exact hmemory

theorem Grows.isStorage (h : Grows state later) {v : ValueId} (hv : state.1.IsStorage v) :
    later.1.IsStorage v := by
  obtain ⟨value, hvalue, hmemory⟩ := hv
  exact ⟨value, h.value v value hvalue, h.isMemory hmemory⟩

theorem Step.inst?_of_ne (h : Step oracle job state b later) {i : InstId} {inst : Inst}
    (hi : state.1.inst? i = some inst) (hne : i ≠ job.load) : later.1.inst? i = some inst := by
  cases h with
  | pass => exact hi
  | reuse => rw [Program.inst?_redirect, if_neg hne, hi]
  | fill => rw [Program.inst?_redirect, if_neg hne, Program.inst?_filled_of_some hi]

theorem Step.grows (h : Step oracle job state b later) : Grows state later where
  opcode i inst hi := by
    by_cases hne : i = job.load
    · subst hne
      cases h with
      | pass => exact ⟨inst, hi, rfl⟩
      | @reuse _ _ _ slot =>
        rw [Program.inst?_redirect, if_pos rfl, hi]
        exact ⟨inst.reading slot, rfl, rfl⟩
      | @fill _ _ m =>
        rw [Program.inst?_redirect, if_pos rfl, Program.inst?_filled_of_some hi]
        exact ⟨inst.reading m.slot, rfl, rfl⟩
    · exact ⟨inst, h.inst?_of_ne hi hne, rfl⟩
  value v value hv := by
    cases h with
    | pass => exact hv
    | reuse => rw [Program.value?_redirect, hv]
    | fill => rw [Program.value?_redirect, Program.value?_filled_of_some hv]
  isSlot v hv := by
    cases h with
    | pass => exact hv
    | reuse => exact hv
    | fill => exact (Slots.isSlot_remember _ _ _ _ _).2 (.inr hv)

/-- A slot that is made is a storage. -/
theorem isStorage_slot {m : Filling} (hm : m.Next p) {i : InstId} (hi : i.index < p.insts.size)
    (v : ValueId) : ((p.filled m).redirect i v).IsStorage m.slot := by
  have hreader := hm.reader
  have hreserver : m.reserver.index = m.reader.index + 1 := rfl
  have hinst : ((p.filled m).redirect i v).inst? m.reserver = some m.reserverInst := by
    rw [Program.inst?_redirect, if_neg (by rw [InstId.eq_iff]; omega), Program.inst?_filled hm,
      if_neg (by rw [InstId.eq_iff]; omega), if_pos rfl]
  refine ⟨m.slotValue, ?_, ?_⟩
  · have hslot : m.slot.index = m.content.index + 1 := rfl
    rw [Program.value?_redirect, Program.value?_filled hm,
      if_neg (by rw [ValueId.eq_iff]; omega), if_pos rfl]
  · unfold Program.isMemory
    simp only [Filling.slotValue]
    exact Pass.bind_eq_ok.2 ⟨m.reserverInst, (Program.inst_eq_ok_iff _).2 hinst, rfl⟩

/-- A step keeps what is known of the slots. -/
theorem Step.records (h : Step oracle job state b later) (hrecords : state.1.Records state.2) :
    later.1.Records later.2 := by
  have hgrows := h.grows
  have hold {name : String} {v : ValueId} (hv : state.2.slot? name = some v) :
      later.1.IsStorage v ∧ later.2.isSlot v = true :=
    ⟨hgrows.isStorage (hrecords name v hv).1, hgrows.isSlot v (hrecords name v hv).2⟩
  intro name v hv
  cases h with
  | pass => exact hold hv
  | reuse => exact hold hv
  | @fill _ _ m hasks hslot hjob hinst hm =>
    rw [Slots.slot?_remember] at hv
    by_cases hname : name = m.request.name
    · rw [if_pos hname, Option.some.injEq] at hv
      subst hv
      exact ⟨isStorage_slot hm (Program.index_lt_of_inst? hinst) _,
        (Slots.isSlot_remember _ _ _ _ _).2 (.inl rfl)⟩
    · rw [if_neg hname] at hv
      exact hold hv

theorem settled_of_slot {inst : Inst} {v : ValueId} {i : InstId}
    (hinst : state.1.inst? i = some inst) (hreads : inst.operands.head? = some (.value v))
    (hv : state.1.IsStorage v) (hslot : state.2.isSlot v = true) : Settled state i := by
  obtain ⟨value, hvalue, hmemory⟩ := hv
  refine ⟨inst, hinst, ?_⟩
  rw [storage?_of_reads hreads hvalue hmemory, hslot]
  rfl

/-- A load is passed over once its step is done. -/
theorem Step.settled (h : Step oracle job state b later) (hrecords : state.1.Records state.2) :
    Settled later job.load := by
  have hlater := h.records hrecords
  cases h with
  | @pass _ _ inst hinst hnone => exact ⟨inst, hinst, hnone⟩
  | @reuse _ _ r slot hasks hslot =>
    obtain ⟨inst, hinst, hreads⟩ := hasks.reads
    obtain ⟨hstorage, hisSlot⟩ := hlater _ _ hslot
    refine settled_of_slot ?_ (Inst.head?_reading hreads slot) hstorage hisSlot
    rw [Program.inst?_redirect, if_pos rfl, hinst]
    rfl
  | @fill _ _ m hasks hslot hjob hinst hm =>
    obtain ⟨inst, hinst', hreads⟩ := hasks.reads
    obtain ⟨hstorage, hisSlot⟩ := hlater m.request.name m.slot (by simp)
    refine settled_of_slot ?_ (Inst.head?_reading hreads m.slot)
      hstorage hisSlot
    rw [Program.inst?_redirect, if_pos rfl, Program.inst?_filled_of_some hinst']
    rfl

/-- What is passed over stays so. -/
theorem Step.settled_of_ne (h : Step oracle job state b later) {i : InstId} (hi : Settled state i)
    (hne : i ≠ job.load) : Settled later i := by
  obtain ⟨inst, hinst, hnone⟩ := hi
  refine ⟨inst, h.inst?_of_ne hinst hne, storage?_eq_none_iff.2 fun v hv => ?_⟩
  obtain ⟨value, memory, hvalue, hmemory, hpass⟩ := storage?_eq_none_iff.1 hnone v hv
  exact ⟨value, memory, h.grows.value v value hvalue, h.grows.isMemory hmemory,
    hpass.imp id (h.grows.isSlot v)⟩

/-- **Versioning passes over the loads that it has met.** -/
theorem Run.settled {jobs : List Job} {first last : Program × Slots} {n : Nat}
    (h : Run oracle jobs first n last) (hrecords : first.1.Records first.2) :
    last.1.Records last.2 ∧ ∀ job ∈ jobs, Settled last job.load := by
  refine h.invariant (I := fun done _ state => state.1.Records state.2 ∧
    ∀ job ∈ done, Settled state job.load) ?_ ⟨hrecords, by simp⟩
  rintro done job rest _ b state next - ⟨hstate, hdone⟩ hstep
  refine ⟨hstep.records hstate, fun earlier hearlier => ?_⟩
  by_cases hload : earlier.load = job.load
  · rw [hload]
    exact hstep.settled hstate
  · rcases List.mem_append.1 hearlier with hearlier | hlast
    · exact hstep.settled_of_ne (hdone earlier hearlier) hload
    · exact absurd (congrArg Job.load (List.mem_singleton.1 hlast)) hload

theorem Settled.not_asks (h : Settled (p, slots) job.load) (r : Request) :
    ¬Asks oracle p slots job r := by
  obtain ⟨inst, hinst, hnone⟩ := h
  exact not_asks_of_storage? hinst hnone r

theorem run_of_settled {jobs : List Job} (h : ∀ job ∈ jobs, Settled state job.load) :
    Run oracle jobs state 0 state := by
  induction jobs with
  | nil => exact .nil state
  | cons job jobs ih =>
    obtain ⟨inst, hinst, hnone⟩ := h job List.mem_cons_self
    exact .cons (b := false) (.pass hinst hnone)
      (ih fun other hother => h other (List.mem_cons_of_mem job hother))

/-! ### Loads that a run has placed -/

section Placed

variable {done : List Job} {made : List Filling}

theorem mem_readers {i j : InstId} :
    j ∈ readers made i ↔ ∃ m ∈ made, m.job.load = i ∧ m.reader = j := by
  simp only [readers, List.mem_map, List.mem_filter, decide_eq_true_eq, and_assoc]

theorem mem_again {other : Job} : other ∈ again made job ↔
    (∃ m ∈ made, m.job.load = job.load ∧ other = ⟨job.function, m.reader⟩) ∨ other = job := by
  simp only [again, List.mem_append, List.mem_map, mem_readers, List.mem_singleton]
  refine or_congr_left ⟨?_, ?_⟩
  · rintro ⟨_, ⟨m, hm, hload, rfl⟩, rfl⟩
    exact ⟨m, hm, hload, rfl⟩
  · rintro ⟨m, hm, hload, rfl⟩
    exact ⟨m.reader, ⟨m, hm, hload, rfl⟩, rfl⟩

variable (hp : p.Coherent) (h : Progress oracle p slots (jobs p) made q table)

include hp h

/-- The loads after a run: those that were there, and those that the run has placed. -/
theorem Progress.mem_jobs_iff {other : Job} : other ∈ jobs q ↔
    other ∈ jobs p ∨ ∃ m ∈ made, other = ⟨m.job.function, m.reader⟩ := by
  rw [h.jobs_eq hp fun _ => isLoad_of_mem_jobs, List.mem_flatMap]
  constructor
  · rintro ⟨job, hjob, hother⟩
    rcases mem_again.1 hother with ⟨m, hm, hload, rfl⟩ | rfl
    · obtain rfl : job = m.job :=
        List.inj_on_of_nodup_map (jobs_nodup hp) hjob (h.mem_done hm) hload.symm
      exact .inr ⟨m, hm, rfl⟩
    · exact .inl hjob
  · rintro (hother | ⟨m, hm, rfl⟩)
    · exact ⟨other, hother, mem_again.2 (.inr rfl)⟩
    · exact ⟨m.job, h.mem_done hm, mem_again.2 (.inl ⟨m, hm, rfl, rfl⟩)⟩

/-- There are as many new loads as slots. -/
theorem Progress.countP_jobs (hq : q.Coherent) :
    (jobs q).countP (fun job => p.insts.size ≤ job.load.index) = made.length := by
  have hloads : (((jobs q).filter fun job => p.insts.size ≤ job.load.index).map Job.load).Nodup :=
    (jobs_nodup hq).sublist (List.filter_sublist.map _)
  have hreaders : (made.map Filling.reader).Nodup := by
    refine List.pairwise_map.2 (h.ordered.imp fun {m m'} hprecedes heq => ?_)
    have hinsts := hprecedes.insts
    have hwriter : m.writer.index = m.reader.index + 2 := rfl
    rw [InstId.eq_iff] at heq
    omega
  have hperm : List.Perm (((jobs q).filter fun job => p.insts.size ≤ job.load.index).map Job.load)
      (made.map Filling.reader) := by
    rw [List.perm_ext_iff_of_nodup hloads hreaders]
    intro i
    simp only [List.mem_map, List.mem_filter, decide_eq_true_eq, h.mem_jobs_iff hp]
    constructor
    · rintro ⟨job, ⟨hjob | ⟨m, hm, rfl⟩, hnew⟩, rfl⟩
      · exact absurd (index_lt_of_mem_jobs hp hjob) (Nat.not_lt.2 hnew)
      · exact ⟨m, hm, rfl⟩
    · rintro ⟨m, hm, rfl⟩
      exact ⟨_, ⟨.inr ⟨m, hm, rfl⟩, (h.filling m hm).reader_new⟩, rfl⟩
  rw [List.countP_eq_length_filter, ← List.length_map Job.load, hperm.length_eq, List.length_map]

omit hp in
/-- A load that was placed for a slot is the one that reads the storage. -/
theorem Progress.exists_reader {i : InstId} (hi : p.insts.size ≤ i.index)
    (hload : q.isLoad i = true) : ∃ m ∈ made, i = m.reader := by
  obtain ⟨inst, hinst, hopcode⟩ := Program.isLoad_iff.1 hload
  obtain ⟨m, hm, hin⟩ := h.newInst i inst hi hinst
  refine ⟨m, hm, ?_⟩
  have hmade := h.filling m hm
  simp only [Filling.insts, List.mem_cons, List.not_mem_nil, or_false] at hin
  rcases hin with rfl | rfl | rfl
  · rfl
  · rw [hmade.reserver, Option.some.injEq] at hinst
    subst hinst
    cases hopcode
  · rw [hmade.writer, Option.some.injEq] at hinst
    subst hinst
    cases hopcode

variable {made' : List Filling} {q' : Program} {table' : Slots}
  (h' : Progress oracle q table (jobs q) made' q' table')

include h'

/-- Of the loads that a second run meets, just those that the first one has placed ask for a
slot. -/
theorem Progress.asks_again_iff (hsettled : ∀ job ∈ jobs p, Settled (q, table) job.load)
    (hjob : job ∈ jobs q) :
    p.insts.size ≤ job.load.index ↔ ∃ r, Asks oracle q table job r := by
  rcases (h.mem_jobs_iff hp).1 hjob with hold | ⟨m, hm, rfl⟩
  · have hlt := index_lt_of_mem_jobs hp hold
    constructor
    · intro hnew
      omega
    · rintro ⟨r, hr⟩
      exact absurd hr ((hsettled job hold).not_asks r)
  · have hmade := h.filling m hm
    obtain ⟨hmemory, hfree⟩ := (h.free_iff hp _).2 ⟨hmade.asks.memory, hmade.asks.free⟩
    constructor
    · intro _
      exact h'.answered _ hjob m.readerInst m.request.storage hmade.reader rfl hmemory hfree
    · intro _
      exact hmade.reader_new

end Placed

/-- A load that has asked for a slot reads another value than before. -/
theorem Progress.redirected_of_asks {done : List Job} {made : List Filling}
    (h : Progress oracle p slots done made q table) (hp : p.Coherent)
    (hrecords : q.Records table) (hjob : job ∈ done) {r : Request}
    (hr : Asks oracle p slots job r) : ∃ slot, Redirected p q job.load r.storage slot := by
  obtain ⟨inst, slot, hinst, hslot, hq⟩ := h.redirected job hjob r hr
  obtain ⟨inst', hinst', hreads⟩ := hr.reads
  obtain rfl : inst = inst' := Option.some.inj (hinst.symm.trans hinst')
  refine ⟨slot, Program.source?_eq_some_iff.2 ⟨inst, hinst, hreads⟩,
    Program.source?_eq_some_iff.2 ⟨_, hq, Inst.head?_reading hreads slot⟩, ?_⟩
  intro heq
  -- the storage is no slot, neither before nor after
  have hfree := ((h.free_iff hp r.storage).2 ⟨hr.memory, hr.free⟩).2
  rw [← heq, (hrecords r.name slot hslot).2] at hfree
  cases hfree

end Versioning

namespace Workspace

open Versioning

variable {oracle : Oracle} {w w₁ : Workspace} {n : Nat}

/-- **What a second run does**: it versions the loads that the first one has placed, and no others.
So it changes nothing just if the first one has placed nothing. -/
theorem versionProgram_again (hp : w.program.Assembled)
    (hslots : w.program.Records w.context.slots)
    (h : (versionProgram oracle).outcome w = (.ok n, w₁)) :
    ((∃ w₂, (versionProgram oracle).outcome w₁ = (.ok 0, w₂) ∧ w₂.program = w₁.program ∧
        w₂.context = w₁.context) ↔ w₁.program.insts.size = w.program.insts.size) ∧
      ∀ n' w₂, (versionProgram oracle).outcome w₁ = (.ok n', w₂) →
        w₁.program.insts.size = w.program.insts.size + 3 * n' ∧
        (∀ i, i.index < w.program.insts.size → w₂.program.inst? i = w₁.program.inst? i) ∧
        ∀ i, w.program.insts.size ≤ i.index → w₁.program.isLoad i = true →
          ∃ storage slot, Redirected w₁.program w₂.program i storage slot := by
  have hcoherent := hp.coherent
  have hlater : w₁.program.Coherent :=
    hcoherent.edits ((evolves_versionProgram oracle).of_outcome h).edits
  obtain ⟨hrecords, hsettled⟩ := (run_of_versionProgram hcoherent h).settled hslots
  obtain ⟨made, hprogress⟩ := progress_of_versionProgram hcoherent h
  have hsize := hprogress.size_insts
  have hagain : ∀ n' w₂, (versionProgram oracle).outcome w₁ = (.ok n', w₂) →
      w₁.program.insts.size = w.program.insts.size + 3 * n' := by
    intro n' w₂ h'
    obtain ⟨made', hprogress'⟩ := progress_of_versionProgram hlater h'
    have hcount := (run_of_versionProgram hlater h').count_eq hlater
      (fun _ => index_lt_of_mem_jobs hlater) (jobs_nodup hlater)
      (fun job => w.program.insts.size ≤ job.load.index) (fun job hjob => by
        rw [decide_eq_true_eq]
        exact hprogress.asks_again_iff hcoherent hprogress' hsettled hjob)
    rw [hcount, hprogress.countP_jobs hcoherent hlater, hsize]
  refine ⟨⟨?_, fun hsame => ?_⟩,
    fun n' w₂ h' => ⟨hagain n' w₂ h', fun i hi => ?_, fun i hi hload => ?_⟩⟩
  · rintro ⟨w₂, h', -⟩
    exact hagain 0 w₂ h'
  · -- no slot was made, so all loads have been met
    have hmade : made = [] := by
      rw [← List.length_eq_zero_iff]
      omega
    have hjobs : ∀ job ∈ jobs w₁.program,
        Settled (w₁.program, w₁.context.slots) job.load := by
      intro job hjob
      rcases (hprogress.mem_jobs_iff hcoherent).1 hjob with hold | ⟨m, hm, -⟩
      · exact hsettled job hold
      · rw [hmade] at hm
        cases hm
    obtain ⟨events, hevents⟩ := versionProgram_of_run hlater (run_of_settled hjobs)
    exact ⟨_, hevents, rfl, rfl⟩
  · obtain ⟨made', hprogress'⟩ := progress_of_versionProgram hlater h'
    refine hprogress'.kept i (by omega) fun job hjob hload r hr => ?_
    have hnew := (hprogress.asks_again_iff hcoherent hprogress' hsettled hjob).2 ⟨r, hr⟩
    rw [hload] at hnew
    omega
  · obtain ⟨made', hprogress'⟩ := progress_of_versionProgram hlater h'
    obtain ⟨m, hm, rfl⟩ := hprogress.exists_reader hi hload
    have hjob := (hprogress.mem_jobs_iff hcoherent).2 (.inr ⟨m, hm, rfl⟩)
    obtain ⟨r, hr⟩ := (hprogress.asks_again_iff hcoherent hprogress' hsettled hjob).1 hi
    have hrecords' := ((run_of_versionProgram hlater h').settled hrecords).1
    exact ⟨_, hprogress'.redirected_of_asks hlater hrecords' hjob hr⟩

/-- A function with a load of a global variable. -/
def reread : Program := .ofEdits "reread"
  [.global "g" (.int 32),
    .function "main" .void [],
    .block ⟨0⟩ "entry",
    .last ⟨0⟩ { opcode := .load, operands := [.value ⟨0⟩], type := .int 32 },
    .last ⟨0⟩ { opcode := .ret }]

/-- What versioning makes of it, with one version for all loads. -/
def rereadOnce : Workspace :=
  ((versionProgram fun _ => .definition 0).outcome { program := reread }).2

/-- What versioning makes of that. -/
def rereadTwice : Workspace := ((versionProgram fun _ => .definition 0).outcome rereadOnce).2

theorem outcome_reread :
    (versionProgram fun _ => .definition 0).outcome { program := reread } =
      (.ok 1, rereadOnce) := by
  unfold rereadOnce
  exact Pass.outcome_eq_of_fst (by decide +kernel)

theorem outcome_rereadOnce :
    (versionProgram fun _ => .definition 0).outcome rereadOnce = (.ok 1, rereadTwice) := by
  unfold rereadTwice
  exact Pass.outcome_eq_of_fst (by decide +kernel)

theorem versionProgram_again_reread :
    (versionProgram fun _ => .definition 0).outcome { program := reread } = (.ok 1, rereadOnce) ∧
      (versionProgram fun _ => .definition 0).outcome rereadOnce = (.ok 1, rereadTwice) ∧
      rereadOnce.program.insts.size = reread.insts.size + 3 * 1 ∧
      (∀ i, i.index < reread.insts.size →
        rereadTwice.program.inst? i = rereadOnce.program.inst? i) ∧
      ∃ storage slot, Redirected rereadOnce.program rereadTwice.program ⟨2⟩ storage slot := by
  obtain ⟨-, hagain⟩ := versionProgram_again (w := { program := reread })
    (Program.assembled_ofEdits _ _) (Program.records_empty _) outcome_reread
  obtain ⟨hsize, hkept, hplaced⟩ := hagain 1 rereadTwice outcome_rereadOnce
  exact ⟨outcome_reread, outcome_rereadOnce, hsize, hkept,
    hplaced ⟨2⟩ (by decide +kernel) (by decide +kernel)⟩

/-- **A slot is filled with what is read from the slot itself.**  After the first run the block
starts with the load of the global variable, the slot and the store to it.  After the second run
that load reads the slot, and does so before there is one. -/
theorem versionProgram_reread :
    (versionProgram fun _ => .definition 0).outcome { program := reread } = (.ok 1, rereadOnce) ∧
      (versionProgram fun _ => .definition 0).outcome rereadOnce = (.ok 1, rereadTwice) ∧
      rereadTwice.program.instsOf ⟨0⟩ = [⟨2⟩, ⟨3⟩, ⟨4⟩, ⟨0⟩, ⟨1⟩] ∧
      rereadOnce.program.source? ⟨2⟩ = some ⟨0⟩ ∧
      ∃ slot, (rereadTwice.program.inst? ⟨3⟩).bind Inst.result = some slot ∧
        rereadTwice.program.source? ⟨2⟩ = some slot := by
  refine ⟨outcome_reread, outcome_rereadOnce, by decide +kernel, by decide +kernel, ⟨4⟩, ?_⟩
  decide +kernel

end Workspace

end LevelIr
