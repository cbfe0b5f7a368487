import LevelIr.Proofs.Slot.Step
import Mathlib.Data.List.Nodup
import Mathlib.Data.List.Pairwise

/-!
# What versioning a list of loads does

Versioning takes one step for each load (`Versioning.Run`).  What it has done at the end is told by
the slots that it has made, in the order in which they were made:

* the lists of the blocks are the old ones with the three instructions of each slot right before the
  load that the slot was made for (`Versioning.weave`);
* the loads that ask for a slot read the one of that name, and all other instructions and values are
  as they were;
* the slots are the old ones and those that were made, each for the first load that asked for it.

`Versioning.Progress` says so of a program and its slots, relative to where the run started, and
`Versioning.Run.progress` says that it holds at the end of every run.  Whether a load asks for a
slot does not depend on what was done before (`Versioning.Progress.asks_iff`), so what happens to a
load can be read off the program that the run started from.
-/

namespace LevelIr

namespace Versioning

variable {oracle : Oracle} {p q : Program} {slots table : Slots}

/-! ### Runs -/

/-- One step for each job of a list, in order; the answer counts the loads that read a slot now. -/
inductive Run (oracle : Oracle) : List Job → Program × Slots → Nat → Program × Slots → Prop where
  | nil (state : Program × Slots) : Run oracle [] state 0 state
  | cons {job : Job} {jobs : List Job} {first next last : Program × Slots} {b : Bool} {n : Nat}
      (hstep : Step oracle job first b next) (hrun : Run oracle jobs next n last) :
      Run oracle (job :: jobs) first (b.toNat + n) last

theorem run_nil_iff {first last : Program × Slots} {n : Nat} :
    Run oracle [] first n last ↔ n = 0 ∧ first = last := by
  constructor
  · rintro ⟨⟩
    exact ⟨rfl, rfl⟩
  · rintro ⟨rfl, rfl⟩
    exact .nil _

theorem run_cons_iff {job : Job} {jobs : List Job} {first last : Program × Slots} {n : Nat} :
    Run oracle (job :: jobs) first n last ↔
      ∃ b next k, Step oracle job first b next ∧ Run oracle jobs next k last ∧
        n = b.toNat + k := by
  constructor
  · rintro ⟨⟩
    exact ⟨_, _, _, ‹_›, ‹_›, rfl⟩
  · rintro ⟨b, next, k, hstep, hrun, rfl⟩
    exact .cons hstep hrun

theorem run_append_iff {jobs jobs' : List Job} {first last : Program × Slots} {n : Nat} :
    Run oracle (jobs ++ jobs') first n last ↔
      ∃ k next l, Run oracle jobs first k next ∧ Run oracle jobs' next l last ∧ n = k + l := by
  induction jobs generalizing first n with
  | nil =>
    simp only [List.nil_append, run_nil_iff]
    constructor
    · intro h
      exact ⟨0, first, n, ⟨rfl, rfl⟩, h, (Nat.zero_add n).symm⟩
    · rintro ⟨_, _, l, ⟨rfl, rfl⟩, h, rfl⟩
      rwa [Nat.zero_add]
  | cons job jobs ih =>
    simp only [List.cons_append, run_cons_iff, ih]
    constructor
    · rintro ⟨b, next, _, hstep, ⟨k, middle, l, hrun, hrun', rfl⟩, rfl⟩
      exact ⟨b.toNat + k, middle, l, ⟨b, next, k, hstep, hrun, rfl⟩, hrun',
        (Nat.add_assoc _ _ _).symm⟩
    · rintro ⟨_, middle, l, ⟨b, next, k, hstep, hrun, rfl⟩, hrun', rfl⟩
      exact ⟨b, next, k + l, hstep, ⟨k, middle, l, hrun, hrun', rfl⟩, Nat.add_assoc _ _ _⟩

/-- What holds at the start and is kept by the step of each job holds at the end.  The step of a job
may use which jobs were done before it, and how many of them read a slot now. -/
theorem Run.invariant {I : List Job → Nat → Program × Slots → Prop} {jobs : List Job}
    {first last : Program × Slots} {n : Nat}
    (hstep : ∀ done job rest count b state next, jobs = done ++ job :: rest → I done count state →
      Step oracle job state b next → I (done ++ [job]) (count + b.toNat) next)
    (hfirst : I [] 0 first) (h : Run oracle jobs first n last) : I jobs n last := by
  have hgeneral : ∀ (todo done : List Job) (first : Program × Slots) (count n : Nat),
      jobs = done ++ todo → I done count first → Run oracle todo first n last →
      I jobs (count + n) last := by
    intro todo
    induction todo with
    | nil =>
      intro done first count n hjobs hI hrun
      obtain ⟨rfl, rfl⟩ := run_nil_iff.1 hrun
      rwa [hjobs, List.append_nil]
    | cons job todo ih =>
      intro done first count n hjobs hI hrun
      obtain ⟨b, next, k, hjob, hrest, rfl⟩ := run_cons_iff.1 hrun
      rw [← Nat.add_assoc]
      refine ih (done ++ [job]) next _ k ?_ (hstep done job todo count b first next hjobs hI hjob)
        hrest
      rw [hjobs, List.append_assoc]
      rfl
  have hlast := hgeneral jobs [] first 0 n rfl hfirst h
  rwa [Nat.zero_add] at hlast

/-- The same for jobs with loads of their own: the step of a job may use that no job before it has
its load. -/
theorem Run.invariant_nodup {I : List Job → Nat → Program × Slots → Prop} {jobs : List Job}
    {first last : Program × Slots} {n : Nat} (hnodup : (jobs.map Job.load).Nodup)
    (hstep : ∀ done job rest count b state next, jobs = done ++ job :: rest →
      (∀ earlier ∈ done, earlier.load ≠ job.load) → I done count state →
      Step oracle job state b next → I (done ++ [job]) (count + b.toNat) next)
    (hfirst : I [] 0 first) (h : Run oracle jobs first n last) : I jobs n last := by
  refine h.invariant (fun done job rest count b state next hjobs hI hjob => ?_) hfirst
  refine hstep done job rest count b state next hjobs (fun earlier hearlier => ?_) hI hjob
  rw [hjobs, List.map_append, List.nodup_append] at hnodup
  exact hnodup.2.2 _ (List.mem_map_of_mem hearlier) _ (by simp)

theorem loads_ok_iff {function : Function} {insts : List InstId} {first last : Program × Slots}
    {n : Nat} : (loads function oracle insts).outcome first = (.ok n, last) ↔
      Run oracle (insts.map (Job.mk function.name)) first n last := by
  have hgeneral : ∀ (insts : List InstId) (first : Program × Slots) (count n : Nat),
      Pass.outcome (insts.foldlM
        (fun count i => do return count + (← load function oracle i).toNat) count) first =
        (.ok n, last) ↔
      ∃ k, Run oracle (insts.map (Job.mk function.name)) first k last ∧ n = count + k := by
    intro insts
    induction insts with
    | nil =>
      intro first count n
      rw [List.foldlM_nil, Pass.outcome_pure, List.map_nil]
      simp only [run_nil_iff, Prod.mk.injEq, Except.ok.injEq]
      constructor
      · rintro ⟨rfl, rfl⟩
        exact ⟨0, ⟨rfl, rfl⟩, rfl⟩
      · rintro ⟨_, ⟨rfl, rfl⟩, rfl⟩
        exact ⟨rfl, rfl⟩
    | cons i insts ih =>
      intro first count n
      rw [List.foldlM_cons, Pass.outcome_bind_ok, List.map_cons]
      simp only [ih, run_cons_iff, Pass.outcome_bind_ok, load_ok_iff, Pass.outcome_pure,
        Prod.mk.injEq, Except.ok.injEq]
      constructor
      · rintro ⟨_, next, ⟨b, _, hstep, rfl, rfl⟩, k, hrun, rfl⟩
        exact ⟨b.toNat + k, ⟨b, _, k, hstep, hrun, rfl⟩, Nat.add_assoc _ _ _⟩
      · rintro ⟨_, ⟨b, next, k, hstep, hrun, rfl⟩, rfl⟩
        exact ⟨_, next, ⟨b, next, hstep, rfl, rfl⟩, k, hrun, (Nat.add_assoc _ _ _).symm⟩
  unfold loads
  rw [hgeneral]
  simp

/-! ### Lists with the instructions of slots -/

/-- The instructions of the slots that were made for a load. -/
def inserted (made : List Filling) (i : InstId) : List InstId :=
  (made.filter fun m => m.job.load = i).flatMap Filling.insts

/-- A list of instructions with those of the slots, each right before the load that its slot was
made for. -/
def weave (made : List Filling) (insts : List InstId) : List InstId :=
  insts.flatMap fun i => inserted made i ++ [i]

section Weave

variable {made : List Filling} {m : Filling} {i j : InstId} {front back insts : List InstId}

theorem mem_inserted : j ∈ inserted made i ↔ ∃ m ∈ made, m.job.load = i ∧ j ∈ m.insts := by
  simp only [inserted, List.mem_flatMap, List.mem_filter, decide_eq_true_eq, and_assoc]

theorem inserted_eq_nil (h : ∀ m ∈ made, m.job.load ≠ i) : inserted made i = [] := by
  rw [List.eq_nil_iff_forall_not_mem]
  intro j hj
  obtain ⟨m, hm, hload, -⟩ := mem_inserted.1 hj
  exact h m hm hload

theorem inserted_concat :
    inserted (made ++ [m]) i = inserted made i ++ if m.job.load = i then m.insts else [] := by
  unfold inserted
  rw [List.filter_append, List.flatMap_append]
  by_cases h : m.job.load = i
  · simp [h]
  · simp [h]

theorem inserted_of_mem (hmade : made.Pairwise fun m m' => m.job.load ≠ m'.job.load)
    (hm : m ∈ made) : inserted made m.job.load = m.insts := by
  induction made with
  | nil => cases hm
  | cons first made ih =>
    rw [List.pairwise_cons] at hmade
    have hsplit : inserted (first :: made) m.job.load =
        (if first.job.load = m.job.load then first.insts else []) ++ inserted made m.job.load := by
      unfold inserted
      by_cases h : first.job.load = m.job.load
      · simp [h]
      · simp [h]
    rcases List.mem_cons.1 hm with rfl | hm
    · rw [hsplit, if_pos rfl, inserted_eq_nil fun m' hm' => (hmade.1 m' hm').symm, List.append_nil]
    · rw [hsplit, if_neg (hmade.1 m hm), ih hmade.2 hm, List.nil_append]

theorem weave_append : weave made (front ++ back) = weave made front ++ weave made back :=
  List.flatMap_append

theorem weave_cons : weave made (i :: back) = inserted made i ++ i :: weave made back := by
  simp [weave]

theorem mem_weave : j ∈ weave made insts ↔ ∃ i ∈ insts, j ∈ inserted made i ∨ j = i := by
  simp only [weave, List.mem_flatMap, List.mem_append, List.mem_singleton]

theorem mem_weave_of_mem (h : i ∈ insts) : i ∈ weave made insts :=
  mem_weave.2 ⟨i, h, .inr rfl⟩

theorem weave_congr {made' : List Filling} (h : ∀ i ∈ insts, inserted made i = inserted made' i) :
    weave made insts = weave made' insts := by
  refine List.flatMap_congr fun i hi => ?_
  rw [h i hi]

theorem weave_of_not_mem (h : ∀ m ∈ made, m.job.load ∉ insts) : weave made insts = insts := by
  induction insts with
  | nil => rfl
  | cons i insts ih =>
    have hnil : inserted made i = [] := inserted_eq_nil fun m hm e =>
      h m hm (e ▸ List.mem_cons_self)
    rw [weave_cons, hnil, ih fun m hm hmem => h m hm (List.mem_cons_of_mem i hmem),
      List.nil_append]

/-- A new slot does not change the lists that do not hold its load. -/
theorem weave_concat_of_not_mem (h : m.job.load ∉ insts) :
    weave (made ++ [m]) insts = weave made insts := by
  refine weave_congr fun i hi => ?_
  have hne : m.job.load ≠ i := fun e => h (e ▸ hi)
  rw [inserted_concat, if_neg hne, List.append_nil]

/-- Placing the three instructions of a slot, one after the other, puts them right before the load
that the slot was made for. -/
theorem putBefore_weave (hnodup : insts.Nodup) (hmem : m.job.load ∈ insts)
    (hmade : ∀ m' ∈ made, m'.job.load ≠ m.job.load) (hold : m.job.load ∉ made.flatMap Filling.insts)
    (hnew : m.job.load ∉ m.insts) :
    Program.putBefore m.job.load m.writer (Program.putBefore m.job.load m.reserver
      (Program.putBefore m.job.load m.reader (weave made insts))) = weave (made ++ [m]) insts := by
  obtain ⟨front, back, rfl⟩ := List.append_of_mem hmem
  rw [List.nodup_middle, List.nodup_cons, List.mem_append, not_or] at hnodup
  obtain ⟨⟨hfront, hback⟩, -⟩ := hnodup
  simp only [Filling.insts, List.mem_cons, List.not_mem_nil, or_false, not_or] at hnew
  have hnil : inserted made m.job.load = [] := inserted_eq_nil hmade
  -- the load itself stands nowhere else in the list
  have hweave : m.job.load ∉ weave made front := by
    intro h
    obtain ⟨i, hi, hins | hload⟩ := mem_weave.1 h
    · obtain ⟨m', hm', -, hin⟩ := mem_inserted.1 hins
      exact hold (List.mem_flatMap.2 ⟨m', hm', hin⟩)
    · exact hfront (hload ▸ hi)
  have hfirst : m.job.load ∉ weave made front ++ [m.reader] := by
    simp [hweave, hnew.1]
  have hsecond : m.job.load ∉ weave made front ++ [m.reader, m.reserver] := by
    simp [hweave, hnew.1, hnew.2.1]
  have hassoc₁ : weave made front ++ m.reader :: m.job.load :: weave made back =
      (weave made front ++ [m.reader]) ++ m.job.load :: weave made back := by simp
  have hassoc₂ : (weave made front ++ [m.reader]) ++ m.reserver :: m.job.load :: weave made back =
      (weave made front ++ [m.reader, m.reserver]) ++ m.job.load :: weave made back := by simp
  rw [weave_append, weave_append, weave_cons, weave_cons, hnil, List.nil_append,
    Program.putBefore_append hweave, hassoc₁, Program.putBefore_append hfirst, hassoc₂,
    Program.putBefore_append hsecond, weave_concat_of_not_mem hfront,
    weave_concat_of_not_mem hback, inserted_concat, if_pos rfl, hnil]
  simp [Filling.insts]

end Weave

/-! ### What a run has done -/

/-- What is known of a slot that a run has made, from the program `p` and the slots that it started
from: the program `q` has its instructions and values, with new numbers, and it was made for a load
that asked for it. -/
structure Filling.Made (m : Filling) (oracle : Oracle) (p : Program) (slots : Slots) (q : Program) :
    Prop where
  reader : q.inst? m.reader = some m.readerInst
  reserver : q.inst? m.reserver = some m.reserverInst
  writer : q.inst? m.writer = some m.writerInst
  content : q.value? m.content = some m.contentValue
  slot : q.value? m.slot = some m.slotValue
  reader_new : p.insts.size ≤ m.reader.index
  content_new : p.values.size ≤ m.content.index
  inst : p.inst? m.job.load = some m.inst
  asks : Asks oracle p slots m.job m.request
  new : slots.slot? m.request.name = none

/-- One slot was made before another one. -/
structure Filling.Precedes (m m' : Filling) : Prop where
  insts : m.writer.index < m'.reader.index
  values : m.slot.index < m'.content.index
  load : m.job.load ≠ m'.job.load
  name : m.request.name ≠ m'.request.name

/-- What versioning the loads of the jobs `done` has done to a program `p` and its slots: it has
made the slots `made`, and the program is `q` now and the slots are `table`. -/
structure Progress (oracle : Oracle) (p : Program) (slots : Slots) (done : List Job)
    (made : List Filling) (q : Program) (table : Slots) : Prop where
  functions : q.functions = p.functions
  size_insts : q.insts.size = p.insts.size + 3 * made.length
  size_values : p.values.size ≤ q.values.size
  value : ∀ v, v.index < p.values.size → q.value? v = p.value? v
  block : ∀ b, q.block? b = (p.block? b).map fun block =>
    { block with insts := weave made block.insts }
  /-- Instructions that are no loads, and loads that ask for nothing, are as they were. -/
  kept : ∀ i, i.index < p.insts.size →
    (∀ job ∈ done, job.load = i → ∀ r, ¬Asks oracle p slots job r) → q.inst? i = p.inst? i
  /-- Loads that ask for a slot read the one of that name. -/
  redirected : ∀ job ∈ done, ∀ r, Asks oracle p slots job r → ∃ inst slot,
    p.inst? job.load = some inst ∧ table.slot? r.name = some slot ∧
      q.inst? job.load = some (inst.reading slot)
  /-- Loads of a storage that is no slot have asked for one. -/
  answered : ∀ job ∈ done, ∀ inst v, p.inst? job.load = some inst →
    inst.operands.head? = some (.value v) → p.IsStorage v → slots.isSlot v = false →
    ∃ r, Asks oracle p slots job r
  filling : ∀ m ∈ made, m.Made oracle p slots q
  ordered : made.Pairwise Filling.Precedes
  /-- A slot was made for the first load that asked for it. -/
  earliest : ∀ m ∈ made, ∃ before after, done = before ++ m.job :: after ∧
    ∀ job ∈ before, ∀ r, Asks oracle p slots job r → r.name ≠ m.request.name
  newInst : ∀ i inst, p.insts.size ≤ i.index → q.inst? i = some inst → ∃ m ∈ made, i ∈ m.insts
  newValue : ∀ v value, p.values.size ≤ v.index → q.value? v = some value →
    ∃ m ∈ made, v = m.content ∨ v = m.slot
  slot : ∀ name v, table.slot? name = some v ↔
    slots.slot? name = some v ∨ ∃ m ∈ made, m.request.name = name ∧ m.slot = v
  isSlot : ∀ v, table.isSlot v = true ↔ slots.isSlot v = true ∨ ∃ m ∈ made, m.slot = v

theorem Asks.eq {job : Job} {r r' : Request} (h : Asks oracle p slots job r)
    (h' : Asks oracle p slots job r') : r = r' := by
  obtain ⟨⟨inst, hinst, hreads⟩, -, -, hversion, label, hlabel, hname⟩ := h
  obtain ⟨⟨inst', hinst', hreads'⟩, -, -, hversion', label', hlabel', hname'⟩ := h'
  obtain ⟨storage, version, name⟩ := r
  obtain ⟨storage', version', name'⟩ := r'
  dsimp only at *
  obtain rfl : inst = inst' := Option.some.inj (hinst.symm.trans hinst')
  obtain rfl : storage = storage' := by
    rw [hreads, Option.some.injEq, Arg.value.injEq] at hreads'
    exact hreads'
  obtain rfl : version = version' := Option.some.inj (hversion.symm.trans hversion')
  obtain rfl : label = label' := Except.ok.inj (hlabel.symm.trans hlabel')
  rw [hname, hname']

theorem progress_nil : Progress oracle p slots [] [] p slots := by
  refine ⟨rfl, rfl, Nat.le_refl _, fun _ _ => rfl, fun b => ?_, fun _ _ _ => rfl, ?_, ?_, ?_, .nil,
    ?_, ?_, ?_, ?_, ?_⟩
  · have hsame : (fun block : Block => { block with insts := weave [] block.insts }) = id := by
      funext block
      rw [weave_of_not_mem (by simp)]
      rfl
    rw [hsame, Option.map_id_fun]
    rfl
  · simp
  · simp
  · simp
  · simp
  · intro i inst hi hinst
    exact absurd (Program.index_lt_of_inst? hinst) (by omega)
  · intro v value hv hvalue
    exact absurd (Program.index_lt_of_value? hvalue) (by omega)
  · simp
  · simp

section Progress

variable {done : List Job} {made : List Filling}

theorem Filling.index_of_mem_insts {m : Filling} {i : InstId} (h : i ∈ m.insts) :
    m.reader.index ≤ i.index ∧ i.index ≤ m.writer.index := by
  simp only [insts, List.mem_cons, List.not_mem_nil, or_false] at h
  rcases h with rfl | rfl | rfl
  · exact ⟨Nat.le_refl _, Nat.le_add_right _ 2⟩
  · exact ⟨Nat.le_add_right _ 1, Nat.add_le_add_left (by decide) _⟩
  · exact ⟨Nat.le_add_right _ 2, Nat.le_refl _⟩

/-- Letting a load read another value does not touch what was placed for a slot. -/
theorem Filling.Made.redirect {m : Filling} (hm : m.Made oracle p slots q) {i : InstId}
    (hi : i.index < p.insts.size) (v : ValueId) : m.Made oracle p slots (q.redirect i v) := by
  have hinst {j : InstId} (hj : j ∈ m.insts) : (q.redirect i v).inst? j = q.inst? j := by
    have hne : j ≠ i := by
      rintro rfl
      have := Filling.index_of_mem_insts hj
      have := hm.reader_new
      omega
    rw [Program.inst?_redirect, if_neg hne]
  exact
    { hm with
      reader := (hinst (by simp [Filling.insts])).trans hm.reader
      reserver := (hinst (by simp [Filling.insts])).trans hm.reserver
      writer := (hinst (by simp [Filling.insts])).trans hm.writer }

/-- Nor does making another slot. -/
theorem Filling.Made.filled {m : Filling} (hm : m.Made oracle p slots q) (m' : Filling) :
    m.Made oracle p slots (q.filled m') :=
  { hm with
    reader := Program.inst?_filled_of_some hm.reader
    reserver := Program.inst?_filled_of_some hm.reserver
    writer := Program.inst?_filled_of_some hm.writer
    content := Program.value?_filled_of_some hm.content
    slot := Program.value?_filled_of_some hm.slot }

namespace Progress

variable (h : Progress oracle p slots done made q table)

include h

theorem mem_done {m : Filling} (hm : m ∈ made) : m.job ∈ done := by
  obtain ⟨before, after, hdone, -⟩ := h.earliest m hm
  simp [hdone]

/-- No instruction changes what it is. -/
theorem exists_inst {i : InstId} {inst : Inst} (hi : p.inst? i = some inst) :
    ∃ inst', q.inst? i = some inst' ∧ inst'.opcode = inst.opcode ∧ inst'.result = inst.result := by
  by_cases hasked : ∃ job ∈ done, job.load = i ∧ ∃ r, Asks oracle p slots job r
  · obtain ⟨job, hjob, rfl, r, hr⟩ := hasked
    obtain ⟨inst', slot, hinst', -, hq⟩ := h.redirected job hjob r hr
    obtain rfl : inst = inst' := Option.some.inj (hi.symm.trans hinst')
    exact ⟨inst.reading slot, hq, rfl, rfl⟩
  · refine ⟨inst, ?_, rfl, rfl⟩
    rw [h.kept i (Program.index_lt_of_inst? hi) fun job hjob hload r hr =>
      hasked ⟨job, hjob, hload, r, hr⟩, hi]

theorem value?_of_some {v : ValueId} {value : Value} (hv : p.value? v = some value) :
    q.value? v = some value := by
  rw [h.value v (Program.index_lt_of_value? hv), hv]

/-- Whether memory stands behind a value that was there from the start does not change. -/
theorem isMemory_eq (hp : p.Coherent) {v : ValueId} {value : Value} (hv : p.value? v = some value) :
    q.isMemory value = p.isMemory value := by
  unfold Program.isMemory
  cases horigin : value.origin with
  | result i =>
    obtain ⟨inst, hinst, -⟩ := hp.result_of_origin hv horigin
    obtain ⟨inst', hinst', hopcode, -⟩ := h.exists_inst hinst
    simp only [(Program.inst_eq_ok_iff p).2 hinst, (Program.inst_eq_ok_iff q).2 hinst']
    change Except.ok (inst'.opcode == .alloca) = Except.ok (inst.opcode == .alloca)
    rw [hopcode]
  | _ => rfl

/-- The storages that are no slots are those that were there from the start. -/
theorem free_iff (hp : p.Coherent) (v : ValueId) :
    q.IsStorage v ∧ table.isSlot v = false ↔ p.IsStorage v ∧ slots.isSlot v = false := by
  by_cases hv : v.index < p.values.size
  · have hslot : table.isSlot v = slots.isSlot v := by
      rw [Bool.eq_iff_iff, h.isSlot]
      constructor
      · rintro (hold | ⟨m, hm, rfl⟩)
        · exact hold
        · have hnew := (h.filling m hm).content_new
          have hslot : m.slot.index = m.content.index + 1 := rfl
          omega
      · exact .inl
    rw [hslot]
    refine and_congr_left fun _ => ?_
    unfold Program.IsStorage
    rw [h.value v hv]
    refine exists_congr fun value => and_congr_right fun hvalue => ?_
    rw [h.isMemory_eq hp hvalue]
  · -- what is new is a slot, or was read from a storage
    constructor
    · rintro ⟨⟨value, hvalue, hmemory⟩, hfree⟩
      obtain ⟨m, hm, hcontent | hslot⟩ := h.newValue v value (by omega) hvalue
      · rw [hcontent, (h.filling m hm).content, Option.some.injEq] at hvalue
        subst hvalue
        have hload : q.isMemory m.contentValue = .ok false := by
          unfold Program.isMemory
          simp only [Filling.contentValue, (Program.inst_eq_ok_iff q).2 (h.filling m hm).reader]
          rfl
        rw [hload] at hmemory
        cases hmemory
      · rw [(h.isSlot v).2 (.inr ⟨m, hm, hslot.symm⟩)] at hfree
        cases hfree
    · rintro ⟨⟨value, hvalue, -⟩, -⟩
      exact absurd (Program.index_lt_of_value? hvalue) hv

/-- What a load asks for does not depend on what was done before. -/
theorem asks_iff (hp : p.Coherent) {job : Job} (hlt : job.load.index < p.insts.size)
    (hjob : ∀ earlier ∈ done, earlier.load ≠ job.load) (r : Request) :
    Asks oracle q table job r ↔ Asks oracle p slots job r := by
  have hinst : q.inst? job.load = p.inst? job.load :=
    h.kept _ hlt fun earlier hearlier hload => absurd hload (hjob earlier hearlier)
  have hlabel (hstorage : p.IsStorage r.storage) : q.label r.storage = p.label r.storage := by
    obtain ⟨value, hvalue, -⟩ := hstorage
    unfold Program.label
    rw [(Program.value_eq_ok_iff p).2 hvalue,
      (Program.value_eq_ok_iff q).2 (h.value?_of_some hvalue)]
  constructor
  · rintro ⟨hreads, hmemory, hfree, hversion, hname⟩
    obtain ⟨hmemory', hfree'⟩ := (h.free_iff hp _).1 ⟨hmemory, hfree⟩
    exact ⟨hinst ▸ hreads, hmemory', hfree', hversion, hlabel hmemory' ▸ hname⟩
  · rintro ⟨hreads, hmemory, hfree, hversion, hname⟩
    obtain ⟨hmemory', hfree'⟩ := (h.free_iff hp _).2 ⟨hmemory, hfree⟩
    exact ⟨hinst ▸ hreads, hmemory', hfree', hversion, hlabel hmemory ▸ hname⟩

/-! A step adds its job to those that are done, and perhaps a slot to those that were made. -/

section Step

variable {job : Job} (hlt : job.load.index < p.insts.size)
  (hjob : ∀ earlier ∈ done, earlier.load ≠ job.load)

omit h in
theorem earliest_concat {m : Filling}
    (hm : ∃ before after, done = before ++ m.job :: after ∧
      ∀ job ∈ before, ∀ r, Asks oracle p slots job r → r.name ≠ m.request.name) :
    ∃ before after, done ++ [job] = before ++ m.job :: after ∧
      ∀ job ∈ before, ∀ r, Asks oracle p slots job r → r.name ≠ m.request.name := by
  obtain ⟨before, after, rfl, hbefore⟩ := hm
  exact ⟨before, after ++ [job], by simp, hbefore⟩

theorem answered_concat (hr : ∃ r, Asks oracle p slots job r) :
    ∀ earlier ∈ done ++ [job], ∀ inst v, p.inst? earlier.load = some inst →
      inst.operands.head? = some (.value v) → p.IsStorage v → slots.isSlot v = false →
      ∃ r, Asks oracle p slots earlier r := by
  intro earlier hearlier inst v hinst hreads hmemory hfree
  rcases List.mem_append.1 hearlier with hearlier | hlast
  · exact h.answered earlier hearlier inst v hinst hreads hmemory hfree
  · exact List.mem_singleton.1 hlast ▸ hr

theorem pass (hpass : ∀ inst v, p.inst? job.load = some inst →
      inst.operands.head? = some (.value v) → p.IsStorage v → slots.isSlot v = true) :
    Progress oracle p slots (done ++ [job]) made q table where
  functions := h.functions
  size_insts := h.size_insts
  size_values := h.size_values
  value := h.value
  block := h.block
  kept i hi hasks := h.kept i hi fun earlier hearlier =>
    hasks earlier (List.mem_append_left _ hearlier)
  redirected earlier hearlier r hr := by
    rcases List.mem_append.1 hearlier with hearlier | hlast
    · exact h.redirected earlier hearlier r hr
    · obtain ⟨⟨inst, hinst, hreads⟩, hmemory, hfree, -⟩ := List.mem_singleton.1 hlast ▸ hr
      rw [hpass inst r.storage hinst hreads hmemory] at hfree
      cases hfree
  answered earlier hearlier inst v hinst hreads hmemory hfree := by
    rcases List.mem_append.1 hearlier with hearlier | hlast
    · exact h.answered earlier hearlier inst v hinst hreads hmemory hfree
    · rw [List.mem_singleton.1 hlast] at hinst
      rw [hpass inst v hinst hreads hmemory] at hfree
      cases hfree
  filling := h.filling
  ordered := h.ordered
  earliest m hm := earliest_concat (h.earliest m hm)
  newInst := h.newInst
  newValue := h.newValue
  slot := h.slot
  isSlot := h.isSlot

include hlt hjob

theorem inst?_job : q.inst? job.load = p.inst? job.load :=
  h.kept _ hlt fun earlier hearlier hload => absurd hload (hjob earlier hearlier)

/-- The load of a job reads a slot that is there. -/
theorem reuse {r : Request} {slot : ValueId} (hr : Asks oracle p slots job r)
    (hslot : table.slot? r.name = some slot) :
    Progress oracle p slots (done ++ [job]) made (q.redirect job.load slot) table where
  functions := h.functions
  size_insts := by
    rw [Program.redirect, Array.size_modify]
    exact h.size_insts
  size_values := h.size_values
  value := h.value
  block := h.block
  kept i hi hasks := by
    have hne : i ≠ job.load := fun e => hasks job (by simp) e.symm r hr
    rw [Program.inst?_redirect, if_neg hne]
    exact h.kept i hi fun earlier hearlier => hasks earlier (List.mem_append_left _ hearlier)
  redirected earlier hearlier r' hr' := by
    rcases List.mem_append.1 hearlier with hearlier | hlast
    · rw [Program.inst?_redirect, if_neg (hjob earlier hearlier)]
      exact h.redirected earlier hearlier r' hr'
    · obtain rfl := List.mem_singleton.1 hlast
      obtain rfl := hr.eq hr'
      obtain ⟨inst, hinst, -⟩ := hr.reads
      refine ⟨inst, slot, hinst, hslot, ?_⟩
      rw [Program.inst?_redirect, if_pos rfl, h.inst?_job hlt hjob, hinst]
      rfl
  answered := h.answered_concat ⟨r, hr⟩
  filling m hm := (h.filling m hm).redirect hlt slot
  ordered := h.ordered
  earliest m hm := earliest_concat (h.earliest m hm)
  newInst i inst hi hinst := by
    have hne : i ≠ job.load := by
      rintro rfl
      omega
    rw [Program.inst?_redirect, if_neg hne] at hinst
    exact h.newInst i inst hi hinst
  newValue := h.newValue
  slot := h.slot
  isSlot := h.isSlot

/-- A slot that is made for the load of a job. -/
theorem made_fill {m : Filling} (hm : m.Next q) (hload : m.job = job)
    (hinst : q.inst? job.load = some m.inst) (hr : Asks oracle p slots job m.request)
    (hslot : table.slot? m.request.name = none) : m.Made oracle p slots (q.filled m) where
  reader := by rw [Program.inst?_filled hm, if_pos rfl]
  reserver := by
    rw [Program.inst?_filled hm, if_neg (by simp [InstId.eq_iff, Filling.reserver]), if_pos rfl]
  writer := by
    rw [Program.inst?_filled hm, if_neg (by simp [InstId.eq_iff, Filling.writer]),
      if_neg (by simp [InstId.eq_iff, Filling.writer, Filling.reserver]), if_pos rfl]
  content := by rw [Program.value?_filled hm, if_pos rfl]
  slot := by
    rw [Program.value?_filled hm, if_neg (by simp [ValueId.eq_iff, Filling.slot]), if_pos rfl]
  reader_new := by
    rw [hm.reader, h.size_insts]
    exact Nat.le_add_right _ _
  content_new := by
    rw [hm.content]
    exact h.size_values
  inst := by rw [hload, ← h.inst?_job hlt hjob, hinst]
  asks := hload ▸ hr
  new := by
    cases hold : slots.slot? m.request.name with
    | none => rfl
    | some v =>
      rw [(h.slot _ v).2 (.inl hold)] at hslot
      cases hslot

omit hlt in
theorem precedes_fill {m m' : Filling} (hm' : m' ∈ made) (hm : m.Next q) (hload : m.job = job)
    (hslot : table.slot? m.request.name = none) : m'.Precedes m where
  insts := by
    rw [hm.reader]
    exact Program.index_lt_of_inst? (h.filling m' hm').writer
  values := by
    rw [hm.content]
    exact Program.index_lt_of_value? (h.filling m' hm').slot
  load := by
    rw [hload]
    exact hjob m'.job (h.mem_done hm')
  name e := by
    rw [← e, (h.slot _ m'.slot).2 (.inr ⟨m', hm', rfl, rfl⟩)] at hslot
    cases hslot

theorem block?_fill (hp : p.Coherent) {m : Filling} (hm : m.Next q) (hload : m.job = job)
    (hinst : p.inst? job.load = some m.inst) (b : BlockId) :
    (q.filled m).block? b = (p.block? b).map fun block =>
      { block with insts := weave (made ++ [m]) block.insts } := by
  rw [Program.block?_filled, h.block]
  by_cases hb : b = m.inst.block
  · -- the block of the load
    obtain ⟨block, hblock, hmem⟩ := hp.mem_insts hinst
    have hnew : ∀ m' ∈ made ++ [m], m.job.load ∉ m'.insts := by
      intro m' hm' hin
      have hindex := Filling.index_of_mem_insts hin
      rw [hload] at hindex
      rcases List.mem_append.1 hm' with hm' | hlast
      · have := (h.filling m' hm').reader_new
        omega
      · rw [List.mem_singleton.1 hlast] at hindex
        have := hm.reader
        have := h.size_insts
        omega
    have hold : m.job.load ∉ made.flatMap Filling.insts := by
      intro hin
      obtain ⟨m', hm', hin⟩ := List.mem_flatMap.1 hin
      exact hnew m' (List.mem_append_left _ hm') hin
    have hloads : ∀ m' ∈ made, m'.job.load ≠ m.job.load := by
      intro m' hm'
      rw [hload]
      exact hjob m'.job (h.mem_done hm')
    rw [if_pos hb, hb, hblock, Option.map_some, Option.map_some, Option.map_some,
      putBefore_weave (hp.insts_nodup hblock) (hload ▸ hmem) hloads hold (hnew m (by simp))]
  · rw [if_neg hb]
    cases hblock : p.block? b with
    | none => rfl
    | some block =>
      have hnot : m.job.load ∉ block.insts := by
        intro hmem
        obtain ⟨inst, hinst', hinside⟩ := hp.inst_of_mem hblock hmem
        rw [hload, hinst, Option.some.injEq] at hinst'
        exact hb (hinst' ▸ hinside).symm
      rw [Option.map_some, Option.map_some, weave_concat_of_not_mem hnot]

/-- The load of a job reads a slot that is made for it. -/
theorem fill (hp : p.Coherent) {m : Filling} (hm : m.Next q) (hload : m.job = job)
    (hinst : q.inst? job.load = some m.inst) (hr : Asks oracle p slots job m.request)
    (hslot : table.slot? m.request.name = none) :
    Progress oracle p slots (done ++ [job]) (made ++ [m]) ((q.filled m).redirect job.load m.slot)
      (table.remember m.request.name m.slot m.request.version) where
  functions := by
    rw [Program.functions_redirect, Program.functions_filled, h.functions]
  size_insts := by
    rw [Program.redirect, Array.size_modify, Program.size_insts_filled hm, hm.reader, h.size_insts,
      List.length_append, List.length_singleton]
    omega
  size_values := by
    have := h.size_values
    rw [Program.values_redirect, Program.size_values_filled hm, hm.content]
    omega
  value v hv := by
    have := h.size_values
    rw [Program.value?_redirect, Program.value?_filled_of_lt hm (by omega), h.value v hv]
  block b := by
    rw [Program.block?_redirect]
    exact h.block?_fill hlt hjob hp hm hload (h.inst?_job hlt hjob ▸ hinst) b
  kept i hi hasks := by
    have hne : i ≠ job.load := fun e => hasks job (by simp) e.symm _ hr
    have := h.size_insts
    rw [Program.inst?_redirect, if_neg hne, Program.inst?_filled_of_lt hm (by omega)]
    exact h.kept i hi fun earlier hearlier => hasks earlier (List.mem_append_left _ hearlier)
  redirected earlier hearlier r hr' := by
    rcases List.mem_append.1 hearlier with hearlier | hlast
    · obtain ⟨inst, slot, hinst', hslot', hq⟩ := h.redirected earlier hearlier r hr'
      refine ⟨inst, slot, hinst', ?_, ?_⟩
      · have hname : r.name ≠ m.request.name := by
          intro e
          rw [e, hslot] at hslot'
          cases hslot'
        rw [Slots.slot?_remember, if_neg hname, hslot']
      · rw [Program.inst?_redirect, if_neg (hjob earlier hearlier),
          Program.inst?_filled_of_some hq]
    · obtain rfl := List.mem_singleton.1 hlast
      obtain rfl := hr.eq hr'
      refine ⟨m.inst, m.slot, h.inst?_job hlt hjob ▸ hinst, ?_, ?_⟩
      · rw [Slots.slot?_remember, if_pos rfl]
      · rw [Program.inst?_redirect, if_pos rfl, Program.inst?_filled_of_some hinst]
        rfl
  answered := h.answered_concat ⟨_, hr⟩
  filling m' hm' := by
    rcases List.mem_append.1 hm' with hm' | hlast
    · exact ((h.filling m' hm').filled m).redirect hlt m.slot
    · rw [List.mem_singleton.1 hlast]
      exact (h.made_fill hlt hjob hm hload hinst hr hslot).redirect hlt m.slot
  ordered := by
    refine List.pairwise_append.2 ⟨h.ordered, by simp, fun m' hm' m'' hm'' => ?_⟩
    rw [List.mem_singleton.1 hm'']
    exact h.precedes_fill hjob hm' hm hload hslot
  earliest m' hm' := by
    rcases List.mem_append.1 hm' with hm' | hlast
    · exact earliest_concat (h.earliest m' hm')
    · rw [List.mem_singleton.1 hlast]
      refine ⟨done, [], by rw [hload], fun earlier hearlier r hr' e => ?_⟩
      obtain ⟨_, slot, -, hslot', -⟩ := h.redirected earlier hearlier r hr'
      rw [e, hslot] at hslot'
      cases hslot'
  newInst i inst hi hq := by
    have hne : i ≠ job.load := by
      rintro rfl
      omega
    rw [Program.inst?_redirect, if_neg hne, Program.inst?_filled hm] at hq
    by_cases hin : i ∈ m.insts
    · exact ⟨m, by simp, hin⟩
    · simp only [Filling.insts, List.mem_cons, List.not_mem_nil, or_false, not_or] at hin
      rw [if_neg hin.1, if_neg hin.2.1, if_neg hin.2.2] at hq
      obtain ⟨m', hm', hin'⟩ := h.newInst i inst hi hq
      exact ⟨m', List.mem_append_left _ hm', hin'⟩
  newValue v value hv hq := by
    rw [Program.value?_redirect, Program.value?_filled hm] at hq
    by_cases hin : v = m.content ∨ v = m.slot
    · exact ⟨m, by simp, hin⟩
    · rw [not_or] at hin
      rw [if_neg hin.1, if_neg hin.2] at hq
      obtain ⟨m', hm', hin'⟩ := h.newValue v value hv hq
      exact ⟨m', List.mem_append_left _ hm', hin'⟩
  slot name v := by
    rw [Slots.slot?_remember]
    by_cases hname : name = m.request.name
    · subst hname
      have hold : slots.slot? m.request.name = none :=
        (h.made_fill hlt hjob hm hload hinst hr hslot).new
      rw [if_pos rfl, Option.some.injEq, hold]
      constructor
      · rintro rfl
        exact .inr ⟨m, by simp, rfl, rfl⟩
      · rintro (hold | ⟨m', hm', hname, rfl⟩)
        · cases hold
        · rcases List.mem_append.1 hm' with hm' | hlast
          · exact absurd hname (h.precedes_fill hjob hm' hm hload hslot).name
          · rw [List.mem_singleton.1 hlast]
    · rw [if_neg hname, h.slot]
      simp [Ne.symm hname]
  isSlot v := by
    rw [Slots.isSlot_remember, h.isSlot]
    constructor
    · rintro (rfl | hold | ⟨m', hm', rfl⟩)
      · exact .inr ⟨m, by simp, rfl⟩
      · exact .inl hold
      · exact .inr ⟨m', List.mem_append_left _ hm', rfl⟩
    · rintro (hold | ⟨m', hm', rfl⟩)
      · exact .inr (.inl hold)
      · rcases List.mem_append.1 hm' with hm' | hlast
        · exact .inr (.inr ⟨m', hm', rfl⟩)
        · exact .inl (congrArg Filling.slot (List.mem_singleton.1 hlast))

end Step

end Progress

/-- Of two slots, one was made before the other. -/
theorem Progress.precedes_or (h : Progress oracle p slots done made q table) {m m' : Filling}
    (hm : m ∈ made) (hm' : m' ∈ made) : m = m' ∨ m.Precedes m' ∨ m'.Precedes m := by
  have hordered : made.Pairwise fun m m' => m.Precedes m' ∨ m'.Precedes m :=
    h.ordered.imp fun hprecedes => Or.inl hprecedes
  have hsymm : Std.Symm fun m m' : Filling => m.Precedes m' ∨ m'.Precedes m :=
    ⟨fun _ _ => Or.symm⟩
  by_cases heq : m = m'
  · exact .inl heq
  · exact .inr (hordered.forall hm hm' heq)

/-- The numbers of slots grow in the order in which they are made. -/
theorem Progress.eq_of_slot_eq (h : Progress oracle p slots done made q table) {m m' : Filling}
    (hm : m ∈ made) (hm' : m' ∈ made) (heq : m.slot = m'.slot) : m = m' := by
  have hslot : m.slot.index = m.content.index + 1 := rfl
  have hslot' : m'.slot.index = m'.content.index + 1 := rfl
  have hindex := ValueId.eq_iff.1 heq
  rcases h.precedes_or hm hm' with hsame | hprecedes | hprecedes
  · exact hsame
  · have := hprecedes.values
    omega
  · have := hprecedes.values
    omega

/-- A step adds a slot to those that were made, or nothing. -/
theorem Progress.step_cases (hp : p.Coherent) (h : Progress oracle p slots done made q table)
    {job : Job} (hlt : job.load.index < p.insts.size)
    (hjob : ∀ earlier ∈ done, earlier.load ≠ job.load) {b : Bool} {later : Program × Slots}
    (hstep : Step oracle job (q, table) b later) :
    (Progress oracle p slots (done ++ [job]) made later.1 later.2 ∧
      later.1.values = q.values ∧ later.2 = table) ∨
    ∃ m : Filling, Progress oracle p slots (done ++ [job]) (made ++ [m]) later.1 later.2 ∧
      m.Next q ∧ later.1.values.size = q.values.size + 2 ∧
      later.2 = table.remember m.request.name m.slot m.request.version := by
  cases hstep with
  | @pass _ _ inst hinst hnone =>
    refine .inl ⟨h.pass fun inst' v hinst' hreads hmemory => ?_, rfl, rfl⟩
    rw [h.inst?_job hlt hjob, hinst', Option.some.injEq] at hinst
    subst hinst
    -- a storage that is no slot would have been found
    by_contra hslot
    have hfree := (h.free_iff hp v).2 ⟨hmemory, Bool.eq_false_iff.2 hslot⟩
    rw [storage?_eq_some_iff.2 ⟨hreads, hfree⟩] at hnone
    cases hnone
  | reuse hasks hslot =>
    exact .inl ⟨h.reuse hlt hjob ((h.asks_iff hp hlt hjob _).1 hasks) hslot, rfl, rfl⟩
  | @fill _ _ m hasks hslot hload hinst hm =>
    refine .inr ⟨m, ?_, hm, ?_, rfl⟩
    · exact h.fill hlt hjob hp hm hload hinst ((h.asks_iff hp hlt hjob _).1 hasks) hslot
    · rw [Program.values_redirect, Program.size_values_filled hm, hm.content]

/-- **What a step does to a program and its slots.** -/
theorem Progress.step (hp : p.Coherent) (h : Progress oracle p slots done made q table) {job : Job}
    (hlt : job.load.index < p.insts.size) (hjob : ∀ earlier ∈ done, earlier.load ≠ job.load)
    {b : Bool} {later : Program × Slots} (hstep : Step oracle job (q, table) b later) :
    ∃ made', Progress oracle p slots (done ++ [job]) made' later.1 later.2 := by
  rcases h.step_cases hp hlt hjob hstep with ⟨hlater, -⟩ | ⟨m, hlater, -⟩
  · exact ⟨made, hlater⟩
  · exact ⟨made ++ [m], hlater⟩

end Progress

/-- What a run does to a program and its slots, together with whatever else its steps keep. -/
theorem Run.progress_and {J : List Job → Nat → Program × Slots → Prop} (hp : p.Coherent)
    {jobs : List Job} {n : Nat} (hlt : ∀ job ∈ jobs, job.load.index < p.insts.size)
    (hnodup : (jobs.map Job.load).Nodup)
    (hstep : ∀ done made job rest count b state next, jobs = done ++ job :: rest →
      (∀ earlier ∈ done, earlier.load ≠ job.load) →
      Progress oracle p slots done made state.1 state.2 → J done count state →
      Step oracle job state b next → J (done ++ [job]) (count + b.toNat) next)
    (hfirst : J [] 0 (p, slots)) (h : Run oracle jobs (p, slots) n (q, table)) :
    (∃ made, Progress oracle p slots jobs made q table) ∧ J jobs n (q, table) := by
  refine Run.invariant_nodup (I := fun done count state =>
    (∃ made, Progress oracle p slots done made state.1 state.2) ∧ J done count state) hnodup ?_
    ⟨⟨[], progress_nil⟩, hfirst⟩ h
  rintro done job rest count b ⟨q', table'⟩ next hjobs hother ⟨⟨made, hprogress⟩, hJ⟩ hjob
  exact ⟨hprogress.step hp (hlt job (by simp [hjobs])) hother hjob,
    hstep done made job rest count b _ next hjobs hother hprogress hJ hjob⟩

/-- **What a run does to a program and its slots.** -/
theorem Run.progress (hp : p.Coherent) {jobs : List Job} {n : Nat}
    (hlt : ∀ job ∈ jobs, job.load.index < p.insts.size) (hnodup : (jobs.map Job.load).Nodup)
    (h : Run oracle jobs (p, slots) n (q, table)) :
    ∃ made, Progress oracle p slots jobs made q table :=
  (h.progress_and (J := fun _ _ _ => True) hp hlt hnodup (by intros; trivial) trivial).1

/-- The answer of a step says whether its load has asked for a slot. -/
theorem Step.answer_iff {job : Job} {b : Bool} {later : Program × Slots}
    (h : Step oracle job (p, slots) b later) : b = true ↔ ∃ r, Asks oracle p slots job r := by
  cases h with
  | pass hinst hnone =>
    refine ⟨fun h => absurd h Bool.false_ne_true, ?_⟩
    rintro ⟨r, hr⟩
    exact absurd hr (not_asks_of_storage? hinst hnone r)
  | reuse hasks => exact ⟨fun _ => ⟨_, hasks⟩, fun _ => rfl⟩
  | fill hasks => exact ⟨fun _ => ⟨_, hasks⟩, fun _ => rfl⟩

/-- The answer of a run is the number of loads that have asked for a slot. -/
theorem Run.count_eq (hp : p.Coherent) {jobs : List Job} {n : Nat}
    (hlt : ∀ job ∈ jobs, job.load.index < p.insts.size) (hnodup : (jobs.map Job.load).Nodup)
    (h : Run oracle jobs (p, slots) n (q, table)) (asked : Job → Bool)
    (hasked : ∀ job ∈ jobs, asked job = true ↔ ∃ r, Asks oracle p slots job r) :
    n = jobs.countP asked := by
  refine (h.progress_and (J := fun done count _ => count = done.countP asked) hp hlt hnodup ?_
    rfl).2
  rintro done made job rest count b ⟨q', table'⟩ next hjobs hother hprogress rfl hjob
  have hmem : job ∈ jobs := by simp [hjobs]
  have hanswer : b = asked job := by
    rw [Bool.eq_iff_iff, hasked job hmem, hjob.answer_iff]
    exact exists_congr (hprogress.asks_iff hp (hlt job hmem) hother)
  rw [List.countP_append, hanswer]
  cases hasked' : asked job
  · simp [hasked']
  · simp [hasked']

end Versioning

end LevelIr
