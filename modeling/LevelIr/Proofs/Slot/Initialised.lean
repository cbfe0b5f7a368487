import LevelIr.Program.Flow
import LevelIr.Proofs.Slot.Versioned

/-!
# Where slots are initialised

A slot is filled right before the first load, in layout order, that asks for it, and all other loads
that ask for it read it without more ado.  Whether it was filled by then depends on the way that was
taken through the function: it was, just if this way goes through the block of that first load.

* `Program.IsPath` : the ways from the first block of a function to a block.
* `Program.executedBefore` : the instructions that are executed on such a way before an instruction
  of its last block.
* `Workspace.versionFunction_initialised` : on which ways a slot is initialised before it is read.
* `Workspace.versionFunction_forked` : a slot that is read on a way on which nothing was written to
  it.
-/

namespace LevelIr

namespace Program

variable {p : Program}

/-- A way from the first block of a function to a block, along the successors of terminators. -/
structure IsPath (p : Program) (function : Function) (path : List BlockId) (last : BlockId) :
    Prop where
  first : path.head? = function.blocks.head?
  edges : path.IsChain fun b c => p.isEdge b c = true
  last : path.getLast? = some last

/-- The instructions that are executed on a way through blocks before an instruction of the last
one. -/
def executedBefore (p : Program) (path : List BlockId) (i : InstId) : List InstId :=
  path.dropLast.flatMap p.instsOf ++ ((path.getLast?.map p.instsOf).getD []).takeWhile (· ≠ i)

/-- An instruction that stands in one block only is executed if the way goes through this block
before its end, or if it stands before the instruction in question. -/
theorem mem_executedBefore {path : List BlockId} {b c : BlockId} {s i : InstId}
    (hpath : path.getLast? = some c) (hs : ∀ d, s ∈ p.instsOf d ↔ d = b)
    (hi : c = b → s ∈ (p.instsOf c).takeWhile (· ≠ i)) :
    s ∈ p.executedBefore path i ↔ b ∈ path := by
  have hsplit : b ∈ path ↔ b ∈ path.dropLast ∨ b = c := by
    conv_lhs => rw [← List.dropLast_append_getLast? c hpath]
    rw [List.mem_append, List.mem_singleton]
  have hfront : s ∈ path.dropLast.flatMap p.instsOf ↔ b ∈ path.dropLast := by
    rw [List.mem_flatMap]
    constructor
    · rintro ⟨d, hd, hmem⟩
      exact (hs d).1 hmem ▸ hd
    · intro hb
      exact ⟨b, hb, (hs b).2 rfl⟩
  have hlast : s ∈ (p.instsOf c).takeWhile (· ≠ i) ↔ b = c := by
    constructor
    · intro h
      exact ((hs c).1 (List.takeWhile_subset _ h)).symm
    · rintro rfl
      exact hi rfl
  unfold executedBefore
  rw [List.mem_append, hfront, hpath, Option.map_some, Option.getD_some, hlast, hsplit]

end Program

namespace Versioning

variable {oracle : Oracle} {p q : Program} {slots table : Slots} {made : List Filling}
  {function : Function}

/-- An instruction that was placed to write to a slot. -/
structure Initialises (p q : Program) (s : InstId) (slot : ValueId) : Prop where
  placed : p.inst? s = none
  writes : ∃ inst content, q.inst? s = some inst ∧ inst.opcode = .store ∧
    inst.operands = [.value content, .value slot]

/-- There is one such instruction for each slot. -/
theorem Progress.initialises_iff {done : List Job}
    (h : Progress oracle p slots done made q table) {m : Filling} (hm : m ∈ made) (s : InstId) :
    Initialises p q s m.slot ↔ s = m.writer := by
  constructor
  · rintro ⟨hplaced, inst, content, hinst, hopcode, hoperands⟩
    have hnew : p.insts.size ≤ s.index := Program.inst?_eq_none_iff.1 hplaced
    obtain ⟨m', hm', hin⟩ := h.newInst s inst hnew hinst
    have hmade := h.filling m' hm'
    simp only [Filling.insts, List.mem_cons, List.not_mem_nil, or_false] at hin
    rcases hin with rfl | rfl | rfl
    · -- the first of the three instructions is a load, the second reserves the slot
      rw [hmade.reader, Option.some.injEq] at hinst
      subst hinst
      cases hopcode
    · rw [hmade.reserver, Option.some.injEq] at hinst
      subst hinst
      cases hopcode
    · rw [hmade.writer, Option.some.injEq] at hinst
      subst hinst
      have hslot : m'.slot = m.slot :=
        Arg.value.inj (List.cons.inj (List.cons.inj hoperands).2).1
      rw [h.eq_of_slot_eq hm' hm hslot]
  · rintro rfl
    have hmade := h.filling m hm
    refine ⟨Program.inst?_eq_none_iff.2 ?_, m.writerInst, m.content, hmade.writer, rfl, rfl⟩
    have hwriter : m.writer.index = m.reader.index + 2 := rfl
    have := hmade.reader_new
    omega

/-! From here on there are no slots at first. -/

section Empty

variable (h : Progress oracle p {} (jobsOf p function) made q table)

include h

/-- A load that reads a slot has asked for the slot that it reads. -/
theorem Progress.exists_filling {i : InstId} {storage slot : ValueId}
    (hi : Redirected p q i storage slot) :
    ∃ m ∈ made, m.slot = slot ∧ i ∈ p.loadsOf function ∧
      ∃ r, Asks oracle p {} ⟨function.name, i⟩ r ∧ r.name = m.request.name := by
  obtain ⟨job, hjob, r, rfl, hr, -, hslot⟩ := h.exists_request hi
  obtain ⟨hname, hload⟩ := mem_jobsOf.1 hjob
  rcases (h.slot r.name slot).1 hslot with hold | ⟨m, hm, hname', hslot'⟩
  · cases hold
  · exact ⟨m, hm, hslot', hload, r, hname ▸ hr, hname'.symm⟩

/-- The load that a slot was made for is the first one, in layout order, that reads it. -/
theorem Progress.exists_layout (hp : p.Coherent) {f : FunctionId}
    (hf : p.function? f = some function) {m : Filling} (hm : m ∈ made) :
    ∃ front back, p.layout function = front ++ m.job.load :: back ∧
      ∀ i ∈ front, ∀ storage, ¬Redirected p q i storage m.slot := by
  have hmem : m.job.load ∈ p.layout function :=
    Program.mem_layout_of_mem_loadsOf (mem_jobsOf.1 (h.mem_done hm)).2
  obtain ⟨front, back, hlayout⟩ := List.append_of_mem hmem
  refine ⟨front, back, hlayout, fun i hi storage hload => ?_⟩
  obtain ⟨m', hm', hslot, hloads, r, hr, hname⟩ := h.exists_filling hload
  obtain rfl : m' = m := h.eq_of_slot_eq hm' hm hslot
  have hpairwise := h.pairwise_layout (hp.layout_nodup hf) hm
  rw [hlayout, List.pairwise_append] at hpairwise
  have hisLoad := Program.isLoad_of_mem_loadsOf hloads
  exact hpairwise.2.2 i hi _ List.mem_cons_self rfl hisLoad r hr hname

end Empty

/-- The three instructions of a slot stand right before the load that it was made for. -/
theorem Progress.exists_instsOf {done : List Job} (h : Progress oracle p slots done made q table)
    (hp : p.Coherent) {m : Filling} (hm : m ∈ made) :
    ∃ front back, q.instsOf m.inst.block =
      front ++ [m.reader, m.reserver, m.writer, m.job.load] ++ back := by
  have hmem : m.job.load ∈ p.instsOf m.inst.block :=
    hp.mem_instsOf_iff.2 ⟨m.inst, (h.filling m hm).inst, rfl⟩
  obtain ⟨front, back, hinsts⟩ := List.append_of_mem hmem
  refine ⟨weave made front, weave made back, ?_⟩
  rw [h.instsOf_eq, hinsts, weave_append, weave_cons,
    inserted_of_mem (h.ordered.imp Filling.Precedes.load) hm]
  simp [Filling.insts]

/-- The instructions of a block that were there before are still in it, and in no other block. -/
theorem Progress.mem_instsOf_iff {done : List Job} (h : Progress oracle p slots done made q table)
    {i : InstId} (hi : i.index < p.insts.size) (b : BlockId) :
    i ∈ q.instsOf b ↔ i ∈ p.instsOf b := by
  rw [h.instsOf_eq]
  constructor
  · intro hmem
    obtain ⟨j, hj, hinserted | rfl⟩ := mem_weave.1 hmem
    · obtain ⟨m, hm, -, hin⟩ := mem_inserted.1 hinserted
      have := (Filling.index_of_mem_insts hin).1
      have := (h.filling m hm).reader_new
      omega
    · exact hj
  · exact mem_weave_of_mem

/-- Within a block, a slot is written before it is read. -/
theorem Progress.mem_takeWhile (h : Progress oracle p {} (jobsOf p function) made q table)
    (hp : p.Coherent) (hq : q.Coherent) {f : FunctionId} (hf : p.function? f = some function)
    {m : Filling} (hm : m ∈ made) {i : InstId} {storage : ValueId}
    (hi : Redirected p q i storage m.slot) {b : BlockId} (hb : b ∈ function.blocks)
    (hload : m.job.load ∈ p.instsOf b) (hmem : i ∈ p.instsOf b) :
    m.writer ∈ (q.instsOf b).takeWhile (· ≠ i) := by
  obtain ⟨front, back, hinsts⟩ := List.append_of_mem hmem
  have hsplit : q.instsOf b = (weave made front ++ inserted made i) ++ i :: weave made back := by
    rw [h.instsOf_eq, hinsts, weave_append, weave_cons, List.append_assoc]
  -- what stands before the load is executed before it
  have hnot : i ∉ weave made front ++ inserted made i := by
    have hnodup := hq.instsOf_nodup b
    rw [hsplit, List.nodup_middle, List.nodup_cons, List.mem_append, not_or] at hnodup
    exact hnodup.1.1
  have htake : (q.instsOf b).takeWhile (· ≠ i) = weave made front ++ inserted made i := by
    rw [hsplit, List.takeWhile_append_of_pos, List.takeWhile_cons_of_neg (by simp),
      List.append_nil]
    intro j hj
    rw [decide_eq_true_eq]
    rintro rfl
    exact hnot hj
  have hwriter : m.writer ∈ inserted made m.job.load :=
    mem_inserted.2 ⟨m, hm, rfl, by simp [Filling.insts]⟩
  rw [htake, List.mem_append]
  rw [hinsts, List.mem_append, List.mem_cons] at hload
  rcases hload with hfront | heq | hback
  · exact .inl (mem_weave.2 ⟨m.job.load, hfront, .inl hwriter⟩)
  · exact .inr (heq ▸ hwriter)
  · obtain ⟨m', hm', hslot, hloads, r, hr, hname⟩ := h.exists_filling hi
    obtain rfl : m' = m := h.eq_of_slot_eq hm' hm hslot
    exact absurd hback (h.load_not_mem_back (hp.layout_nodup hf) hm hloads hr hname hb hinsts)

end Versioning

namespace Workspace

open Versioning

variable {oracle : Oracle} {w later : Workspace} {n : Nat}

/-- **On which ways a slot is initialised before it is read.**  One instruction was placed that
writes to the slot.  It stands right before the first load, in layout order, that reads the slot,
and it is executed before a load on just the ways through the block of that first one. -/
theorem versionFunction_initialised (hp : w.program.Assembled) (hempty : w.context.slots = {})
    {f : FunctionId} {function : Function} (hf : w.program.function? f = some function)
    (h : (versionFunction oracle f).outcome w = (.ok n, later)) {i : InstId}
    {storage slot : ValueId} (hload : Redirected w.program later.program i storage slot) :
    ∃ store first b,
      (∀ s, Initialises w.program later.program s slot ↔ s = store) ∧
      (∃ front back, w.program.layout function = front ++ first :: back ∧
        (∃ storage', Redirected w.program later.program first storage' slot) ∧
        ∀ j ∈ front, ∀ storage', ¬Redirected w.program later.program j storage' slot) ∧
      b ∈ function.blocks ∧
      (∃ front back, later.program.instsOf b = front ++ store :: first :: back) ∧
      ∀ path c, later.program.IsPath function path c → i ∈ later.program.instsOf c →
        (store ∈ later.program.executedBefore path i ↔ b ∈ path) := by
  have hcoherent := hp.coherent
  have hlater : later.program.Coherent :=
    hcoherent.edits ((evolves_versionFunction oracle f).of_outcome h).edits
  obtain ⟨made, hprogress⟩ := progress_of_versionFunction hcoherent hf h
  rw [hempty] at hprogress
  obtain ⟨m, hm, rfl, -⟩ := hprogress.exists_filling hload
  have hmade := hprogress.filling m hm
  -- the block of the load that the slot was made for
  have hfirst : m.job.load ∈ w.program.instsOf m.inst.block :=
    hcoherent.mem_instsOf_iff.2 ⟨m.inst, hmade.inst, rfl⟩
  have hblock : m.inst.block ∈ function.blocks := by
    have hlayout := Program.mem_layout_of_mem_loadsOf (mem_jobsOf.1 (hprogress.mem_done hm)).2
    obtain ⟨c, hc, hin⟩ := List.mem_flatMap.1 hlayout
    obtain ⟨inst, hinst, rfl⟩ := hcoherent.mem_instsOf_iff.1 hin
    rw [hmade.inst, Option.some.injEq] at hinst
    exact hinst ▸ hc
  obtain ⟨front, back, hlayout, hbefore⟩ := hprogress.exists_layout hcoherent hf hm
  obtain ⟨front', back', hinsts⟩ := hprogress.exists_instsOf hcoherent hm
  refine ⟨m.writer, m.job.load, m.inst.block, hprogress.initialises_iff hm,
    ⟨front, back, hlayout, ⟨_, hprogress.redirected_job hm⟩, hbefore⟩, hblock,
    ⟨front' ++ [m.reader, m.reserver], back', ?_⟩, ?_⟩
  · rw [hinsts]
    simp
  · intro path c hpath hi
    refine Program.mem_executedBefore hpath.last (b := m.inst.block) (fun d => ?_) ?_
    · rw [hlater.mem_instsOf_iff]
      constructor
      · rintro ⟨inst, hinst, rfl⟩
        rw [hmade.writer, Option.some.injEq] at hinst
        rw [← hinst]
        rfl
      · rintro rfl
        exact ⟨m.writerInst, hmade.writer, rfl⟩
    · rintro rfl
      obtain ⟨inst, hinst, -⟩ := Program.source?_eq_some_iff.1 hload.before
      exact hprogress.mem_takeWhile hcoherent hlater hf hm hload hblock hfirst
        ((hprogress.mem_instsOf_iff (Program.index_lt_of_inst? hinst) _).1 hi)

/-- A function that forks into two blocks, each with a load of the same global variable. -/
def forked : Program := .ofEdits "forked"
  [.global "g" (.int 32),
    .value (.int 1) "" (.integer 1),
    .function "main" .void [],
    .block ⟨0⟩ "entry",
    .block ⟨0⟩ "left",
    .block ⟨0⟩ "right",
    .last ⟨0⟩ { opcode := .br, operands := [.value ⟨1⟩, .block ⟨2⟩, .block ⟨1⟩] },
    .last ⟨1⟩ { opcode := .load, operands := [.value ⟨0⟩], type := .int 32 },
    .last ⟨1⟩ { opcode := .ret },
    .last ⟨2⟩ { opcode := .load, operands := [.value ⟨0⟩], type := .int 32 },
    .last ⟨2⟩ { opcode := .ret }]

/-- The function. -/
def forkedMain : Function :=
  { name := "main", value := ⟨2⟩, params := [], blocks := [⟨0⟩, ⟨1⟩, ⟨2⟩], file := none }

/-- What versioning makes of it, with one version for all loads. -/
def forkedLater : Workspace :=
  ((versionFunction (fun _ => .definition 0) ⟨0⟩).outcome { program := forked }).2

theorem outcome_forked :
    (versionFunction (fun _ => .definition 0) ⟨0⟩).outcome { program := forked } =
      (.ok 2, forkedLater) := by
  unfold forkedLater
  exact Pass.outcome_eq_of_fst (by decide +kernel)

theorem versionFunction_initialised_forked :
    (versionFunction (fun _ => .definition 0) ⟨0⟩).outcome { program := forked } =
        (.ok 2, forkedLater) ∧
      Redirected forked forkedLater.program ⟨3⟩ ⟨0⟩ ⟨6⟩ ∧
      ∃ store b, Initialises forked forkedLater.program store ⟨6⟩ ∧
        ∀ path c, forkedLater.program.IsPath forkedMain path c →
          ⟨3⟩ ∈ forkedLater.program.instsOf c →
          (store ∈ forkedLater.program.executedBefore path ⟨3⟩ ↔ b ∈ path) := by
  have hload : Redirected forked forkedLater.program ⟨3⟩ ⟨0⟩ ⟨6⟩ := by decide +kernel
  have hmain : forked.function? ⟨0⟩ = some forkedMain := by decide +kernel
  obtain ⟨store, first, b, hstore, -, -, -, hpaths⟩ :=
    versionFunction_initialised (Program.assembled_ofEdits _ _) rfl hmain outcome_forked hload
  exact ⟨outcome_forked, hload, store, b, (hstore store).2 rfl, hpaths⟩

/-- **A slot is read on a way on which nothing was written to it.**  It is initialised in the first
block of the fork, and the second one reads it, too. -/
theorem versionFunction_forked :
    forked.Assembled ∧ forked.function? ⟨0⟩ = some forkedMain ∧
      (versionFunction (fun _ => .definition 0) ⟨0⟩).outcome { program := forked } =
        (.ok 2, forkedLater) ∧
      ∃ slot, Redirected forked forkedLater.program ⟨3⟩ ⟨0⟩ slot ∧
        (∃ store, Initialises forked forkedLater.program store slot) ∧
        ∃ path c, forkedLater.program.IsPath forkedMain path c ∧
          ⟨3⟩ ∈ forkedLater.program.instsOf c ∧
          ∀ s ∈ forkedLater.program.executedBefore path ⟨3⟩,
            ¬Initialises forked forkedLater.program s slot := by
  have hstore : forkedLater.program.inst? ⟨7⟩ = some
      { opcode := .store, operands := [.value ⟨5⟩, .value ⟨6⟩], result := none, type := .void
        predicate := none, indices := [], line := none, debug := false, metadata := false
        block := ⟨1⟩ } := by
    decide +kernel
  have hexecuted : forkedLater.program.executedBefore [⟨0⟩, ⟨2⟩] ⟨3⟩ = [⟨0⟩] := by decide +kernel
  refine ⟨Program.assembled_ofEdits _ _, by decide +kernel, outcome_forked, ⟨6⟩,
    by decide +kernel, ⟨⟨7⟩, by decide +kernel, _, ⟨5⟩, hstore, rfl, rfl⟩, [⟨0⟩, ⟨2⟩], ⟨2⟩,
    ⟨rfl, ?_, rfl⟩, by decide +kernel, ?_⟩
  · decide +kernel
  · intro s hs hinitialises
    rw [hexecuted, List.mem_singleton] at hs
    subst hs
    exact absurd hinitialises.placed (by decide +kernel)

end Workspace

end LevelIr
