import LevelIr.Proofs.Listing.Crossing
import LevelIr.Proofs.Listing.Excerpt
import LevelIr.Proofs.Slot.Initialised
import LevelIr.Proofs.Statement.Uses

/-!
# Slots after forwarding

Versioning fills a slot by three instructions: `t = *x`, the reservation of the slot `s`, and
`*s = t`.  What is read is used once, so forwarding drops the first of them and leaves `*s = *x`.
It never drops a load of a slot, because slots have versions.

* `Program.Closed` : all operands are values of the program.
* `Versioning.Progress.count_content` : what is read to fill a slot is mentioned once, where it is
  written to the slot.
* `Versioning.Fills` : the instructions that were placed for a slot.
* `Listing.forward_versioned` : what forwarding leaves of the slots and of their loads.
-/

namespace LevelIr

/-- The operands of an expression. -/
def Origin.operands : Origin → List ValueId
  | .expression _ operands => operands
  | _ => []

namespace Program

variable {p : Program}

/-- All operands of instructions and of expressions are values of the program.  A value that is
added is then an operand of nothing that was there before. -/
structure Closed (p : Program) : Prop where
  inst : ∀ inst ∈ p.insts.toList, ∀ v ∈ inst.valueOperands, v.index < p.values.size
  expression : ∀ value ∈ p.values.toList, ∀ v ∈ value.origin.operands, v.index < p.values.size

instance (p : Program) : Decidable p.Closed :=
  decidable_of_iff
    ((∀ inst ∈ p.insts.toList, ∀ v ∈ inst.valueOperands, v.index < p.values.size) ∧
      ∀ value ∈ p.values.toList, ∀ v ∈ value.origin.operands, v.index < p.values.size)
    ⟨fun h => ⟨h.1, h.2⟩, fun h => ⟨h.inst, h.expression⟩⟩

theorem Closed.lt_of_inst? (h : p.Closed) {i : InstId} {inst : Inst} (hi : p.inst? i = some inst)
    {v : ValueId} (hv : v ∈ inst.valueOperands) : v.index < p.values.size :=
  h.inst inst (Array.mem_toList_iff.2 (Array.mem_of_getElem? hi)) v hv

theorem Closed.lt_of_value? (h : p.Closed) {v : ValueId} {value : Value}
    (hv : p.value? v = some value) {u : ValueId} (hu : u ∈ value.origin.operands) :
    u.index < p.values.size :=
  h.expression value (Array.mem_toList_iff.2 (Array.mem_of_getElem? hv)) u hu

theorem refers_statementOf {slots : Slots} {i : InstId} {s : Statement}
    (h : p.statementOf slots i = .ok s) :
    ∃ inst, p.inst? i = some inst ∧ Statement.Refers p slots inst s := by
  obtain ⟨⟨inst, hinst, hrefers⟩, -⟩ := Statement.refers_ofInst i
    (Shared.standFor_empty _ _) (Pass.outcome_eq_of_fst h)
  rw [inst?_of_nameless p.nameless_registersNamed] at hinst
  exact ⟨inst, hinst, hrefers.of_nameless p.nameless_registersNamed.symm⟩

end Program

theorem Inst.mem_valueOperands_reading {inst : Inst} {u v : ValueId}
    (h : v ∈ (inst.reading u).valueOperands) : v = u ∨ v ∈ inst.valueOperands := by
  obtain ⟨arg, harg, hv⟩ := List.mem_filterMap.1 h
  rcases List.mem_or_eq_of_mem_set harg with harg | rfl
  · exact .inr (List.mem_filterMap.2 ⟨arg, harg, hv⟩)
  · cases hv
    exact .inl rfl

namespace Versioning

variable {oracle : Oracle} {p q : Program} {table : Slots} {done : List Job} {made : List Filling}

/-! ### What is read to fill a slot -/

namespace Progress

variable (h : Progress oracle p {} done made q table)

include h

theorem isSlot_iff (v : ValueId) : table.isSlot v = true ↔ ∃ m ∈ made, m.slot = v := by
  rw [h.isSlot]
  exact or_iff_right Bool.false_ne_true

theorem version?_eq_none {v : ValueId} (hv : ∀ m ∈ made, m.slot ≠ v) : table.version? v = none := by
  cases hversion : table.version? v with
  | none => rfl
  | some version =>
    have hslot : table.isSlot v = true := by rw [Slots.isSlot_eq_isSome, hversion]; rfl
    obtain ⟨m, hm, heq⟩ := (h.isSlot_iff v).1 hslot
    exact absurd heq (hv m hm)

theorem isParameter_slot {m : Filling} (hm : m ∈ made) : q.isParameter m.slot = false := by
  rw [Program.isParameter, (h.filling m hm).slot]
  rfl

theorem isParameter_content {m : Filling} (hm : m ∈ made) : q.isParameter m.content = false := by
  rw [Program.isParameter, (h.filling m hm).content]
  rfl

theorem slot_ne_of_lt {v : ValueId} (hv : v.index < p.values.size) : ∀ m ∈ made, m.slot ≠ v := by
  rintro m hm rfl
  have hslot : m.slot.index = m.content.index + 1 := rfl
  have hnew := (h.filling m hm).content_new
  omega

theorem content_ne_slot {m m' : Filling} (hm : m ∈ made) (hm' : m' ∈ made) :
    m'.slot ≠ m.content := by
  have hslot : m.slot.index = m.content.index + 1 := rfl
  have hslot' : m'.slot.index = m'.content.index + 1 := rfl
  intro heq
  have hindex := ValueId.eq_iff.1 heq
  rcases h.precedes_or hm hm' with rfl | hprecedes | hprecedes
  · omega
  · have := hprecedes.values
    omega
  · have := hprecedes.values
    omega

/-- What an instruction has as an operand was there before, is a slot, or is written to one. -/
theorem valueOperands_cases (hclosed : p.Closed) {i : InstId} {inst : Inst}
    (hi : q.inst? i = some inst) {v : ValueId} (hv : v ∈ inst.valueOperands) :
    v.index < p.values.size ∨ table.isSlot v = true ∨
      ∃ m ∈ made, i = m.writer ∧ v = m.content := by
  by_cases hold : i.index < p.insts.size
  · by_cases hasked : ∃ job ∈ done, job.load = i ∧ ∃ r, Asks oracle p {} job r
    · obtain ⟨job, hjob, rfl, r, hr⟩ := hasked
      obtain ⟨old, slot, hinst, hslot, hq⟩ := h.redirected job hjob r hr
      rw [hi, Option.some.injEq] at hq
      subst hq
      rcases Inst.mem_valueOperands_reading hv with rfl | hv
      · rcases (h.slot _ _).1 hslot with hempty | ⟨m, hm, -, hslot⟩
        · cases hempty
        · exact .inr (.inl ((h.isSlot_iff _).2 ⟨m, hm, hslot⟩))
      · exact .inl (hclosed.lt_of_inst? hinst hv)
    · rw [h.kept i hold fun job hjob hload r hr => hasked ⟨job, hjob, hload, r, hr⟩] at hi
      exact .inl (hclosed.lt_of_inst? hi hv)
  · obtain ⟨m, hm, hin⟩ := h.newInst i inst (Nat.le_of_not_lt hold) hi
    have hmade := h.filling m hm
    simp only [Filling.insts, List.mem_cons, List.not_mem_nil, or_false] at hin
    rcases hin with rfl | rfl | rfl
    · rw [hmade.reader, Option.some.injEq] at hi
      subst hi
      obtain ⟨value, hvalue, -⟩ := hmade.asks.memory
      rw [List.mem_singleton.1 hv]
      exact .inl (Program.index_lt_of_value? hvalue)
    · rw [hmade.reserver, Option.some.injEq] at hi
      subst hi
      cases hv
    · rw [hmade.writer, Option.some.injEq] at hi
      subst hi
      have hv : v = m.content ∨ v = m.slot := by
        simpa [Inst.valueOperands, Filling.writerInst, Filling.placedInst, Filling.writerDraft,
          Arg.value?] using hv
      rcases hv with rfl | rfl
      · exact .inr (.inr ⟨m, hm, rfl, rfl⟩)
      · exact .inr (.inl ((h.isSlot_iff _).2 ⟨m, hm, rfl⟩))

/-- No operator is applied to what is written to a slot. -/
theorem operates_cases (hclosed : p.Closed) {u v : ValueId} (hv : q.Operates v u) :
    u.index < p.values.size ∨ table.isSlot u = true := by
  obtain ⟨value, operator, operands, hvalue, hoperator, hu⟩ := hv
  unfold Program.operator? at hoperator
  cases horigin : value.origin with
  | expression name operands' =>
    simp only [horigin, Except.ok.injEq, Option.some.injEq, Prod.mk.injEq] at hoperator
    obtain ⟨rfl, rfl⟩ := hoperator
    by_cases hold : v.index < p.values.size
    · rw [h.value v hold] at hvalue
      exact .inl (hclosed.lt_of_value? hvalue (by rwa [horigin]))
    · -- the values that versioning adds are results of instructions
      obtain ⟨m, hm, rfl | rfl⟩ := h.newValue v value (Nat.le_of_not_lt hold) hvalue
      · rw [(h.filling m hm).content, Option.some.injEq] at hvalue
        rw [← hvalue] at horigin
        cases horigin
      · rw [(h.filling m hm).slot, Option.some.injEq] at hvalue
        rw [← hvalue] at horigin
        cases horigin
  | result i =>
    simp only [horigin] at hoperator
    obtain ⟨inst, hinst, hoperator⟩ := Pass.bind_eq_ok.1 hoperator
    rw [Program.inst_eq_ok_iff] at hinst
    obtain ⟨name, hname, heq⟩ := Option.map_eq_some_iff.1 (Except.ok.inj hoperator)
    cases heq
    rcases h.valueOperands_cases hclosed hinst hu with hlt | hslot | ⟨m, hm, rfl, -⟩
    · exact .inl hlt
    · exact .inr hslot
    · rw [(h.filling m hm).writer, Option.some.injEq] at hinst
      subst hinst
      cases hname
  | _ =>
    simp only [horigin] at hoperator
    cases hoperator

theorem not_operates_content (hclosed : p.Closed) {m : Filling} (hm : m ∈ made) (v : ValueId) :
    ¬q.Operates v m.content := by
  intro hv
  rcases h.operates_cases hclosed hv with hlt | hslot
  · have hnew := (h.filling m hm).content_new
    omega
  · obtain ⟨m', hm', heq⟩ := (h.isSlot_iff _).1 hslot
    exact h.content_ne_slot hm hm' heq

end Progress

end Versioning

/-! ### Statements of single instructions -/

namespace Program

variable {p : Program} {slots : Slots} {i : InstId} {inst : Inst} {ss : List Statement}

theorem ExactTranscript.source_eq (h : p.ExactTranscript slots i ss) {s : Statement} (hs : s ∈ ss) :
    s.source = i := by
  obtain ⟨inst, -, ⟨-, rfl⟩ | ⟨-, bindings, own, htranscript, -, rfl⟩⟩ := h
  · cases hs
  · exact htranscript.source_eq hs

theorem ExactTranscript.mem_mentions (h : p.ExactTranscript slots i ss) {v : ValueId}
    (hv : v ∈ ss.flatMap Statement.mentions) :
    ∃ inst, p.inst? i = some inst ∧ (v ∈ inst.valueOperands ∨ ∃ u, p.Operates u v) := by
  obtain ⟨s, hs, hmem⟩ := List.mem_flatMap.1 hv
  obtain ⟨_, -, ⟨-, rfl⟩ | ⟨-, bindings, own, htranscript, hown, rfl⟩⟩ := h
  · cases hs
  · obtain ⟨inst, hinst, hrefers⟩ := refers_statementOf hown
    exact ⟨inst, hinst, hrefers.mem_mentions (htranscript.mentions_subset hs hmem)⟩

/-- The statement `s` is the one of the instruction `i`. -/
structure States (p : Program) (slots : Slots) (i : InstId) (inst : Inst) (s : Statement) :
    Prop where
  exact : p.statementOf slots i = .ok s
  own : Statement.Transcribes p i inst s
  refers : Statement.Refers p slots inst s

/-- An instruction that is listed and calls nothing has one statement. -/
theorem ExactTranscript.exists_states (h : p.ExactTranscript slots i ss)
    (hi : p.inst? i = some inst) (hlisted : inst.isSkipped = false) (hcall : inst.opcode ≠ .call) :
    ∃ s, ss = [s] ∧ p.States slots i inst s := by
  obtain ⟨inst', hi', ⟨hskipped, -⟩ | ⟨-, bindings, s, htranscript, hs, rfl⟩⟩ := h
  · obtain rfl : inst = inst' := Option.some.inj (hi.symm.trans hi')
    exact absurd (hskipped.symm.trans hlisted) Bool.noConfusion
  · obtain rfl : inst = inst' := Option.some.inj (hi.symm.trans hi')
    obtain ⟨inst'', hi'', hrefers⟩ := refers_statementOf hs
    obtain rfl : inst = inst'' := Option.some.inj (hi.symm.trans hi'')
    have hnil : bindings = [] := by
      rw [← List.length_eq_zero_iff, htranscript.length, boundParams, if_neg hcall]
      exact Nat.zero_min _
    exact ⟨s, by rw [hnil]; rfl, hs, htranscript.own, hrefers⟩

theorem isParameter_of_isStorage {v : ValueId} (h : p.IsStorage v) : p.isParameter v = false := by
  obtain ⟨value, hvalue, hmemory⟩ := h
  rw [isParameter, hvalue, Option.any_some]
  unfold isMemory at hmemory
  split at hmemory
  · rename_i horigin
    rw [horigin]
    rfl
  · rename_i horigin
    rw [horigin]
    rfl
  · cases hmemory

end Program

theorem Statement.uses_of_store {s : Statement} (h : s.isStore = true) {r t : Reference}
    (hoperands : s.operands = [r]) (hresult : s.result = some t) : s.uses = [r, t] := by
  have haction : s.action = .store := by simpa [isStore] using h
  simp [uses, reads, target?, h, hoperands, hresult, callee?, haction, Action.callee?]

namespace Versioning

variable {oracle : Oracle} {p q : Program} {table : Slots} {done : List Job} {made : List Filling}

/-- What is read to fill a slot is mentioned once, where it is written to the slot. -/
theorem Progress.count_content (h : Progress oracle p {} done made q table) (hclosed : p.Closed)
    {m : Filling} (hm : m ∈ made) {i : InstId} {ss : List Statement}
    (hss : q.ExactTranscript table i ss) :
    (ss.flatMap Statement.mentions).count m.content = if i = m.writer then 1 else 0 := by
  have hmade := h.filling m hm
  split
  · rename_i heq
    obtain ⟨s, rfl, hs⟩ := hss.exists_states (heq ▸ hmade.writer) rfl (by intro hop; cases hop)
    obtain ⟨hstore, u, v, r, t, hu, hv, hoperands, hresult, ⟨-, hr⟩, -, ht⟩ := hs.refers.store rfl
    obtain rfl : m.content = u := Option.some.inj hu
    obtain rfl : m.slot = v := Option.some.inj hv
    rw [List.flatMap_singleton, Statement.mentions,
      Statement.uses_of_store hstore hoperands hresult, List.flatMap_cons, List.flatMap_singleton,
      List.count_append,
      hr.count_mentions (h.not_operates_content hclosed hm _),
      ht.count_mentions (h.not_operates_content hclosed hm _), if_pos rfl,
      if_neg (h.content_ne_slot hm hm)]
  · rename_i hne
    refine List.count_eq_zero.2 fun hmem => ?_
    obtain ⟨inst, hinst, hoperand | ⟨u, hoperates⟩⟩ := hss.mem_mentions hmem
    · rcases h.valueOperands_cases hclosed hinst hoperand with hlt | hslot | ⟨m', hm', rfl, heq⟩
      · have hnew := hmade.content_new
        omega
      · obtain ⟨m', hm', heq⟩ := (h.isSlot_iff _).1 hslot
        exact h.content_ne_slot hm hm' heq
      · -- what was read for another slot is another value
        have hsame : m'.slot = m.slot := by rw [Filling.slot, Filling.slot, heq]
        rw [h.eq_of_slot_eq hm' hm hsame] at hne
        exact hne rfl
    · exact h.not_operates_content hclosed hm u hoperates

end Versioning

/-! ### Statements of a block -/

theorem forall₂_append_left {α β : Type} {R : α → β → Prop} {xs xs' : List α} {ys : List β}
    (h : List.Forall₂ R (xs ++ xs') ys) :
    ∃ zs zs', ys = zs ++ zs' ∧ List.Forall₂ R xs zs ∧ List.Forall₂ R xs' zs' :=
  ⟨ys.take xs.length, ys.drop xs.length, (List.take_append_drop _ _).symm,
    (List.forall₂_take_append _ _ _ h.flip).flip, (List.forall₂_drop_append _ _ _ h.flip).flip⟩

namespace Program

/-- The statements of a block are those of its instructions. -/
def ExactBlock (p : Program) (slots : Slots) (b : BlockId) (all : List Statement) : Prop :=
  ∃ lists, List.Forall₂ (p.ExactTranscript slots) (p.instsOf b) lists ∧ all = lists.flatten

section ExactBlock

variable {p : Program} {slots : Slots} {b : BlockId} {all : List Statement} {i : InstId}
  {inst : Inst} {s : Statement}

theorem ExactBlock.exists_transcript (h : p.ExactBlock slots b all) (hs : s ∈ all) :
    s.source ∈ p.instsOf b ∧ ∃ ss, s ∈ ss ∧ p.ExactTranscript slots s.source ss := by
  obtain ⟨lists, hlists, rfl⟩ := h
  obtain ⟨ss, hss, hmem⟩ := List.mem_flatten.1 hs
  obtain ⟨k, hk, rfl⟩ := List.mem_iff_getElem.1 hss
  have hk' : k < (p.instsOf b).length := hlists.length_eq ▸ hk
  have htranscript := (List.forall₂_iff_get.1 hlists).2 k hk' hk
  rw [htranscript.source_eq hmem]
  exact ⟨List.getElem_mem hk', _, hmem, htranscript⟩

theorem ExactBlock.exists_states (h : p.ExactBlock slots b all) (hi : i ∈ p.instsOf b)
    (hinst : p.inst? i = some inst) (hlisted : inst.isSkipped = false)
    (hcall : inst.opcode ≠ .call) : ∃ s ∈ all, p.States slots i inst s := by
  obtain ⟨lists, hlists, rfl⟩ := h
  obtain ⟨k, hk, rfl⟩ := List.mem_iff_getElem.1 hi
  have hk' : k < lists.length := hlists.length_eq ▸ hk
  have htranscript := (List.forall₂_iff_get.1 hlists).2 k hk hk'
  obtain ⟨s, hss, hs⟩ := htranscript.exists_states hinst hlisted hcall
  have hmem : s ∈ lists.get ⟨k, hk'⟩ := by
    rw [hss]
    exact List.mem_singleton_self s
  exact ⟨s, List.mem_flatten.2 ⟨_, List.getElem_mem hk', hmem⟩, hs⟩

theorem ExactBlock.eq_of_source (h : p.ExactBlock slots b all) (hs : s ∈ all) {t : Statement}
    (ht : p.States slots i inst t) (hinst : p.inst? i = some inst)
    (hlisted : inst.isSkipped = false) (hcall : inst.opcode ≠ .call) (hsource : s.source = i) :
    s = t := by
  obtain ⟨-, ss, hmem, htranscript⟩ := h.exists_transcript hs
  rw [hsource] at htranscript
  obtain ⟨own, rfl, hown⟩ := htranscript.exists_states hinst hlisted hcall
  rw [List.mem_singleton.1 hmem]
  exact Except.ok.inj (hown.exact.symm.trans ht.exact)

/-- If the statements of an instruction mention a value once, and no others do, then the function
mentions it once. -/
theorem ListedAs.mentionCount_eq_one {l : Listing}
    (h : p.ListedAs (p.ExactBlock slots) false l) (hp : p.Coherent) {v : ValueId}
    (hcount : ∀ j ss, p.ExactTranscript slots j ss →
      (ss.flatMap Statement.mentions).count v = if j = i then 1 else 0)
    (hinst : p.inst? i = some inst) {place : Place} (hplace : place ∈ l.blocks)
    (hblock : place.block = inst.block) : l.mentionCount place.function v = 1 := by
  have hlists : ∀ {insts lists}, List.Forall₂ (p.ExactTranscript slots) insts lists →
      (lists.flatten.flatMap Statement.mentions).count v = insts.count i := by
    intro insts lists hall
    induction hall with
    | nil => rfl
    | cons hhead _ ih =>
      rw [List.flatten_cons, List.flatMap_append, List.count_append, ih, hcount _ _ hhead,
        List.count_cons, Nat.add_comm]
      simp only [beq_iff_eq]
  have hat : ∀ other ∈ l.blocks, ((l.statementsAt other).flatMap Statement.mentions).count v =
      (p.instsOf other.block).count i := by
    intro other hother
    obtain ⟨all, ⟨lists, hall, rfl⟩, -, heq⟩ := h.statements other hother
    rw [heq rfl, hlists hall]
  -- the blocks of the function hold the instruction once
  have hcounts : l.mentionCount place.function v =
      ((l.blocks.filter (·.function = place.function)).flatMap fun other =>
        p.instsOf other.block).count i := by
    rw [Listing.mentionCount_eq_count, Listing.statementsOf, List.flatMap_assoc, List.count_flatMap,
      List.count_flatMap]
    exact congrArg List.sum (List.map_congr_left fun other hother =>
      hat other (List.mem_of_mem_filter hother))
  have hmem : i ∈ (l.blocks.filter (·.function = place.function)).flatMap fun other =>
      p.instsOf other.block :=
    List.mem_flatMap.2 ⟨place, by simpa using hplace,
      hp.mem_instsOf_iff.2 ⟨inst, hinst, hblock.symm⟩⟩
  have hnodup : ((l.blocks.filter (·.function = place.function)).flatMap fun other =>
      p.instsOf other.block).Nodup := by
    refine List.nodup_flatMap.2 ⟨fun other _ => hp.instsOf_nodup _, ?_⟩
    refine (List.pairwise_map.1 h.contiguous.nodup).filter _ |>.imp ?_
    intro other other' hne j hj hj'
    obtain ⟨found, hfound, hb⟩ := hp.mem_instsOf_iff.1 hj
    obtain ⟨found', hfound', hb'⟩ := hp.mem_instsOf_iff.1 hj'
    obtain rfl : found = found' := Option.some.inj (hfound.symm.trans hfound')
    exact hne (hb.symm.trans hb')
  rw [hcounts, List.count_eq_one_of_mem hnodup hmem]

end ExactBlock

end Program

/-! ### The statements of a slot -/

namespace Versioning

variable {oracle : Oracle} {p q : Program} {table : Slots} {done : List Job} {made : List Filling}
  {m : Filling} {read reserve write : Statement}

/-- The statements of the three instructions that were placed for a slot. -/
structure Filling.Stated (m : Filling) (q : Program) (table : Slots)
    (read reserve write : Statement) : Prop where
  read : q.States table m.reader m.readerInst read
  reserve : q.States table m.reserver m.reserverInst reserve
  write : q.States table m.writer m.writerInst write

theorem Progress.exists_stated (h : Progress oracle p {} done made q table) (hp : p.Coherent)
    (hm : m ∈ made) {all : List Statement} (hall : q.ExactBlock table m.inst.block all) :
    ∃ front read reserve write back, all = front ++ read :: reserve :: write :: back ∧
      m.Stated q table read reserve write := by
  have hmade := h.filling m hm
  obtain ⟨front, back, hinsts⟩ := h.exists_instsOf hp hm
  obtain ⟨lists, hlists, rfl⟩ := hall
  rw [hinsts, List.append_assoc] at hlists
  obtain ⟨before, after, rfl, -, hafter⟩ := forall₂_append_left hlists
  obtain - | ⟨hreader, - | ⟨hreserver, - | ⟨hwriter, -⟩⟩⟩ := hafter
  rename_i rest
  obtain ⟨read, rfl, hread⟩ := hreader.exists_states hmade.reader rfl (by intro hop; cases hop)
  obtain ⟨reserve, rfl, hreserve⟩ :=
    hreserver.exists_states hmade.reserver rfl (by intro hop; cases hop)
  obtain ⟨write, rfl, hwrite⟩ := hwriter.exists_states hmade.writer rfl (by intro hop; cases hop)
  refine ⟨before.flatten, read, reserve, write, rest.flatten, ?_, hread, hreserve, hwrite⟩
  rw [List.flatten_append]
  rfl

theorem Filling.Stated.defined_reserve (h : m.Stated q table read reserve write) :
    (∃ type, reserve.action = .alloca type) ∧ reserve.defined? = some m.slot := by
  obtain ⟨type, haction⟩ := h.reserve.refers.alloca rfl
  refine ⟨⟨type, haction⟩, h.reserve.own.defined ?_⟩
  rw [Statement.isStore, haction]
  rfl

/-- The store of a slot can refer to the storage itself. -/
theorem Progress.folds (h : Progress oracle p {} done made q table) (hm : m ∈ made)
    (hstated : m.Stated q table read reserve write) {uses : ValueId → Nat}
    (huses : uses m.content = 1) {reach : Int} (hreach : 1 ≤ reach) :
    ∃ source use, source.StandsFor q table m.request.storage ∧ source.version = none ∧
      write.operands = [use] ∧ Forward.Folds uses reach read write use ⟨source, 1⟩ := by
  have hmade := h.filling m hm
  obtain ⟨hload, v, source, hv, hoperands, hlevel, hsource⟩ := hstated.read.refers.load rfl
  obtain rfl : m.request.storage = v := Option.some.inj hv
  obtain ⟨hstore, u, w, use, t, hu, -, huse, -, ⟨hzero, hstands⟩, -⟩ :=
    hstated.write.refers.store rfl
  obtain rfl : m.content = u := Option.some.inj hu
  have hisStore := Forward.isStore_of_isLoad hload
  -- neither the storage nor what is read is a slot, so they have no versions
  have hstorage : source.operand.version = none := by
    obtain ⟨value, hvalue, -⟩ := id hmade.asks.memory
    have hlt := Program.index_lt_of_value? hvalue
    have hparam : q.isParameter m.request.storage = false := by
      rw [Program.isParameter, h.value _ hlt]
      exact Program.isParameter_of_isStorage hmade.asks.memory
    rw [hsource.version hparam, h.version?_eq_none (h.slot_ne_of_lt hlt)]
  have hdefined : read.defined? = some m.content := hstated.read.own.defined hisStore
  rw [Statement.defined?, hisStore, if_neg Bool.false_ne_true, Option.bind_eq_some_iff] at hdefined
  obtain ⟨result, hresult, hvalue⟩ := hdefined
  obtain ⟨v, hv, hcontent⟩ := hstated.read.refers.result hisStore result hresult
  obtain rfl : m.content = v := Option.some.inj hv
  have hversion : result.operand.version = none := by
    rw [hcontent.version (h.isParameter_content hm),
      h.version?_eq_none fun m' hm' => h.content_ne_slot hm hm']
  obtain ⟨-, hresultLevel, -⟩ := hstated.read.own.regular.result hisStore result hresult
  refine ⟨source.operand, use, hsource, hstorage, huse, source, result, m.content,
    ⟨hload, hstated.read.own.ignored, hstated.read.own.binding, hoperands, hresult, hvalue,
      hstorage, hversion, huses⟩,
    ⟨hstore, hstated.write.own.ignored, ?_, hstands.value⟩, ?_⟩
  · rw [Statement.reads, huse]
    exact List.mem_append_left _ (List.mem_singleton_self use)
  · rw [hlevel, hzero, hresultLevel]
    exact ⟨by decide, hreach, rfl⟩

/-- The store of a slot refers to the storage after forwarding, and still writes to the slot. -/
theorem Progress.exists_write (h : Progress oracle p {} done made q table) (hm : m ∈ made)
    (hstated : m.Stated q table read reserve write) {uses : ValueId → Nat}
    (huses : uses m.content = 1) {reach : Int} (hreach : 1 ≤ reach) {ss front back : List Statement}
    (hss : ss = front ++ read :: reserve :: write :: back) (hsuitable : Forward.Suitable uses ss) :
    ∃ t ∈ Forward.remaining uses reach [] ss, ∃ source,
      source.StandsFor q table m.request.storage ∧ source.version = none ∧
      t.source = m.writer ∧ t.isStore = true ∧ t.operands = [⟨source, 1⟩] ∧
      t.result = write.result := by
  obtain ⟨source, use, hsource, hversion, huse, hfolds⟩ := h.folds hm hstated huses hreach
  have hat : ss[front.length + 2]? = some write := by simp [hss]
  have hbefore : ss.take (front.length + 2) = front ++ [read, reserve] := by
    rw [hss, List.take_length_add_append]
    rfl
  have hmem : ∀ s ∈ front ++ [read, reserve], s ∈ ss := by
    rw [← hbefore]
    exact fun _ => List.mem_of_mem_take
  obtain ⟨hstore, -, -⟩ := hfolds.isStore
  obtain ⟨t, ht, hrewritten⟩ := Forward.exists_rewritten hsuitable.regular hat
    (Forward.not_dropped_of_isStore hat hstore)
  rw [hbefore] at hrewritten
  refine ⟨t, ht, source, hsource, hversion, ?_, ?_, ?_, ?_⟩
  · rw [hrewritten.source_eq, hstated.write.own.source]
  · rw [Statement.isStore, hrewritten.action_eq]
    exact hstore
  · have hoperands := hrewritten.operands
    rw [huse] at hoperands
    generalize t.operands = new at hoperands ⊢
    obtain - | ⟨hreplaced, - | -⟩ := hoperands
    rw [hsuitable.eq_of_replaced hmem (by simp) hfolds hreplaced]
  · -- a load that sets the slot would be the statement that reserves it
    obtain ⟨-, _, v, _, target, -, hv, -, htarget, -, -, htargetStands⟩ :=
      hstated.write.refers.store rfl
    obtain rfl : m.slot = v := Option.some.inj hv
    have hresult := hrewritten.result
    rw [htarget] at hresult ⊢
    generalize t.result = new at hresult
    obtain ⟨hreplaced⟩ := hresult
    rcases hreplaced with ⟨load, hload, hfolds'⟩ | ⟨-, rfl⟩
    · obtain ⟨⟨type, haction⟩, hdefined⟩ := hstated.defined_reserve
      have hloadMem := hmem load hload
      obtain ⟨_, x, _, hisLoad, -, -, hdefined', -, -, hx, -⟩ :=
        hfolds'.shape (hsuitable.regular load hloadMem)
      obtain rfl : m.slot = x := Option.some.inj (htargetStands.value.symm.trans hx)
      have hsame : reserve = load := Forward.eq_of_defined hsuitable.apart (hmem reserve (by simp))
        hloadMem hdefined hdefined' hstated.reserve.own.binding
      rw [← hsame, Statement.isLoad, haction] at hisLoad
      cases hisLoad
    · rfl

/-! ### Versioning, listing and forwarding -/

/-- Versioning has made `q` of the program `p`, with the slots `table`, and `l` is the listing of
`q`. -/
structure Listed (oracle : Oracle) (p : Program) (made : List Filling) (q : Program)
    (table : Slots) (l : Listing) : Prop where
  progress : Progress oracle p {} (jobs p) made q table
  before : p.Coherent
  after : q.Coherent
  listed : q.ListedAs (q.ExactBlock table) false l
  wellBuilt : l.WellBuilt

namespace Listed

variable {l : Listing} (h : Listed oracle p made q table l)

include h

theorem exactBlock {place : Place} (hplace : place ∈ l.blocks) :
    q.ExactBlock table place.block (l.statementsAt place) := by
  obtain ⟨all, hall, -, heq⟩ := h.listed.statements place hplace
  rwa [heq rfl]

theorem statementsAt_forward (reach : Int) {place : Place} (hplace : place ∈ l.blocks) :
    (l.forward reach).statementsAt place =
      Forward.remaining (l.mentionCount place.function) reach [] (l.statementsAt place) := by
  obtain ⟨-, -, hat⟩ := h.wellBuilt.contiguous.forward reach
  rw [hat place hplace, Listing.forwardedAt,
    Forward.block_eq_remaining (h.wellBuilt.suitable hplace)]

/-- The block of a load that was looked at is listed. -/
theorem exists_place {job : Job} (hjob : job ∈ jobs p) {inst : Inst}
    (hinst : p.inst? job.load = some inst) : ∃ place ∈ l.blocks, place.block = inst.block := by
  obtain ⟨f, hf, function, hfunction, -, hload⟩ := mem_jobs.1 hjob
  obtain ⟨b, hb, hmem⟩ := List.mem_flatMap.1 (Program.mem_layout_of_mem_loadsOf hload)
  obtain ⟨inst', hinst', rfl⟩ := h.before.mem_instsOf_iff.1 hmem
  obtain rfl : inst = inst' := Option.some.inj (hinst.symm.trans hinst')
  refine ⟨⟨f, inst.block⟩, ?_, rfl⟩
  rw [h.listed.blocks]
  refine List.mem_flatMap.2 ⟨f, by rwa [h.progress.listedFunctions_eq], ?_⟩
  refine List.mem_map_of_mem ?_
  rwa [Program.blocksOf, h.progress.function?_eq, hfunction]

theorem version?_isSome {slot : ValueId} (hslot : table.isSlot slot = true) :
    ∃ version, table.version? slot = some version ∧ q.isParameter slot = false := by
  obtain ⟨m, hm, rfl⟩ := (h.progress.isSlot_iff slot).1 hslot
  rw [Slots.isSlot_eq_isSome] at hslot
  obtain ⟨version, hversion⟩ := Option.isSome_iff_exists.1 hslot
  exact ⟨version, hversion, h.progress.isParameter_slot hm⟩

/-- A load that reads a slot is the old one with another operand. -/
theorem exists_reading {i : InstId} {inst : Inst} {storage slot : ValueId}
    (hi : Redirected p q i storage slot) (hinst : p.inst? i = some inst) :
    q.inst? i = some (inst.reading slot) ∧ inst.opcode = .load ∧
      (inst.reading slot).valueOperands[0]? = some slot ∧ table.isSlot slot = true ∧
      ∃ place ∈ l.blocks, place.block = inst.block := by
  obtain ⟨job, hjob, request, rfl, hasks, -, hslot⟩ := h.progress.exists_request hi
  obtain ⟨inst', slot', hinst', hslot', hq⟩ := h.progress.redirected job hjob request hasks
  obtain rfl : inst = inst' := Option.some.inj (hinst.symm.trans hinst')
  obtain rfl : slot = slot' := Option.some.inj (hslot.symm.trans hslot')
  refine ⟨hq, ?_, ?_, ?_, h.exists_place hjob hinst⟩
  · obtain ⟨_, -, function, -, -, hload⟩ := mem_jobs.1 hjob
    exact Program.opcode_of_mem_loadsOf hload hinst
  · obtain ⟨found, hfound, hhead⟩ := Program.source?_eq_some_iff.1 hi.after
    obtain rfl : inst.reading slot = found := Option.some.inj (hq.symm.trans hfound)
    obtain ⟨rest, hrest⟩ := List.head?_eq_some_iff.1 hhead
    rw [Inst.valueOperands, hrest]
    rfl
  · rcases (h.progress.slot _ _).1 hslot with hempty | ⟨m, hm, -, rfl⟩
    · cases hempty
    · exact (h.progress.isSlot_iff _).2 ⟨m, hm, rfl⟩

/-- A load of a slot stays as it is. -/
theorem exists_load {i : InstId} {inst : Inst} {storage slot : ValueId}
    (hi : Redirected p q i storage slot) (hinst : p.inst? i = some inst)
    (hlisted : inst.isSkipped = false) (reach : Int) :
    ∃ place ∈ l.blocks, place.block = inst.block ∧ ∃ s ∈ (l.forward reach).statementsAt place,
      s.source = i ∧ s.isLoad = true ∧ ∃ r version, s.operands = [r] ∧ r.level = 1 ∧
        r.value = some slot ∧ table.version? slot = some version ∧
        r.operand.version = some version := by
  obtain ⟨hq, hop, hoperand, hslot, place, hplace, hblock⟩ := h.exists_reading hi hinst
  have hmem : i ∈ q.instsOf place.block := h.after.mem_instsOf_iff.2 ⟨_, hq, hblock.symm⟩
  obtain ⟨s, hs, hstates⟩ := (h.exactBlock hplace).exists_states hmem hq hlisted
    (by intro hcall; cases hop.symm.trans hcall)
  obtain ⟨hload, v, r, hv, hoperands, hlevel, hr⟩ := hstates.refers.load hop
  obtain rfl : slot = v := Option.some.inj (hoperand.symm.trans hv)
  obtain ⟨version, hversion, hparam⟩ := h.version?_isSome hslot
  have hrversion := (hr.version hparam).trans hversion
  refine ⟨place, hplace, hblock, s, ?_, hstates.own.source, hload, r, version, hoperands, hlevel,
    hr.value, hversion, hrversion⟩
  -- what a load with a version reads is never read in its place
  obtain ⟨n, hn⟩ := List.mem_iff_getElem?.1 hs
  have hsuitable := h.wellBuilt.suitable hplace
  rw [h.statementsAt_forward reach hplace]
  by_contra hnot
  obtain ⟨load, _, _, _, _, -, hload', -, source, _, _, ⟨-, -, -, hsource, -, -, hnone, -⟩, -⟩ :=
    (hsuitable.not_mem_remaining_iff hn hload).1 hnot
  obtain rfl : s = load := Option.some.inj (hn.symm.trans hload')
  obtain rfl : r = source := List.singleton_inj.1 (hoperands.symm.trans hsource)
  cases hrversion.symm.trans hnone

/-- Where the statements of a slot stand; what is read to fill it is used once. -/
theorem exists_stated (hclosed : p.Closed) (hm : m ∈ made) :
    ∃ place ∈ l.blocks, place.block = m.inst.block ∧
      l.mentionCount place.function m.content = 1 ∧
      ∃ front read reserve write back,
        l.statementsAt place = front ++ read :: reserve :: write :: back ∧
        m.Stated q table read reserve write := by
  have hmade := h.progress.filling m hm
  obtain ⟨place, hplace, hblock⟩ := h.exists_place (h.progress.mem_done hm) hmade.inst
  refine ⟨place, hplace, hblock, ?_, h.progress.exists_stated h.before hm ?_⟩
  · exact h.listed.mentionCount_eq_one h.after
      (fun _ _ => h.progress.count_content hclosed hm) hmade.writer hplace hblock
  · rw [← hblock]
    exact h.exactBlock hplace

/-- Nothing is left of the load that reads the storage of a slot. -/
theorem source_ne_reader (hclosed : p.Closed) (hm : m ∈ made) {reach : Int} (hreach : 1 ≤ reach) :
    ∀ s ∈ (l.forward reach).statements, s.source ≠ m.reader := by
  intro s hs hsource
  have hmade := h.progress.filling m hm
  obtain ⟨place, hplace, hblock, huses, front, read, reserve, write, back, hall, hstated⟩ :=
    h.exists_stated hclosed hm
  obtain ⟨hcontiguous, hblocks, -⟩ := h.wellBuilt.contiguous.forward reach
  rw [← hcontiguous.statements, hblocks] at hs
  obtain ⟨other, hother, hs⟩ := List.mem_flatMap.1 hs
  rw [h.statementsAt_forward reach hother] at hs
  obtain ⟨k, t, ht, -, hrewritten⟩ :=
    Forward.exists_origin (h.wellBuilt.suitable hother).regular hs
  have htmem := List.mem_of_getElem? ht
  have htsource : t.source = m.reader := hrewritten.source_eq.symm.trans hsource
  obtain rfl : t = read := (h.exactBlock hother).eq_of_source htmem hstated.read hmade.reader rfl
    (by intro hop; cases hop) htsource
  -- the statement stands in the block of its instruction
  obtain rfl : other = place := by
    have hin := ((h.exactBlock hother).exists_transcript htmem).1
    rw [htsource] at hin
    obtain ⟨inst, hinst, hb⟩ := h.after.mem_instsOf_iff.1 hin
    rw [hmade.reader, Option.some.injEq] at hinst
    refine List.inj_on_of_nodup_map h.wellBuilt.contiguous.nodup hother hplace ?_
    rw [← hb, ← hinst, hblock]
    rfl
  obtain ⟨hload, -⟩ := hstated.read.refers.load rfl
  rw [hrewritten.eq_of_not_isStore (Forward.isStore_of_isLoad hload)] at hs
  obtain ⟨_, use, -, -, -, hfolds⟩ := h.progress.folds hm hstated huses hreach
  have hsuitable := h.wellBuilt.suitable hplace
  have hread : (l.statementsAt other)[front.length]? = some t := by simp [hall]
  have hwrite : (l.statementsAt other)[front.length + 2]? = some write := by simp [hall]
  exact (hsuitable.moved (by omega) hread hwrite hfolds).dropped hs

/-- What is left of the statements of a slot. -/
theorem exists_slot (hclosed : p.Closed) (hm : m ∈ made) {reach : Int} (hreach : 1 ≤ reach) :
    (∃ s ∈ l.statements, s.source = m.reader ∧ s.isLoad = true) ∧
      ∃ place ∈ l.blocks,
        (∃ s ∈ (l.forward reach).statementsAt place, s.source = m.reserver ∧
          (∃ type, s.action = .alloca type) ∧ s.defined? = some m.slot) ∧
        ∃ s ∈ (l.forward reach).statementsAt place, s.source = m.writer ∧ s.isStore = true ∧
          ∃ stored target, s.operands = [stored] ∧ s.result = some target ∧
            stored.level = 1 ∧ stored.value = some m.request.storage ∧
            stored.operand.version = none ∧ target.level = 1 ∧ target.value = some m.slot ∧
            target.operand.version = table.version? m.slot := by
  obtain ⟨place, hplace, -, huses, front, read, reserve, write, back, hall, hstated⟩ :=
    h.exists_stated hclosed hm
  have hsuitable := h.wellBuilt.suitable hplace
  obtain ⟨t, ht, source, hsource, hversion, htsource, hstore, hoperands, hresult⟩ :=
    h.progress.exists_write hm hstated huses hreach hall hsuitable
  obtain ⟨hload, -⟩ := hstated.read.refers.load rfl
  obtain ⟨⟨type, haction⟩, hdefined⟩ := hstated.defined_reserve
  refine ⟨⟨read, ?_, hstated.read.own.source, hload⟩, place, hplace,
    ⟨reserve, ?_, hstated.reserve.own.source, ⟨type, haction⟩, hdefined⟩, ?_⟩
  · rw [← h.wellBuilt.contiguous.statements]
    exact List.mem_flatMap.2 ⟨place, hplace, by simp [hall]⟩
  · -- neither a load nor a store, so it is kept as it is
    have hat : (l.statementsAt place)[front.length + 1]? = some reserve := by simp [hall]
    have hkept : ¬Forward.Dropped (l.mentionCount place.function) reach (l.statementsAt place)
        (front.length + 1) := by
      rintro ⟨load, _, _, _, _, -, hload, -, _, _, _, ⟨hisLoad, -⟩, -⟩
      obtain rfl : reserve = load := Option.some.inj (hat.symm.trans hload)
      rw [Statement.isLoad, haction] at hisLoad
      cases hisLoad
    obtain ⟨s, hs, hrewritten⟩ := Forward.exists_rewritten hsuitable.regular hat hkept
    have hnot : reserve.isStore = false := by
      rw [Statement.isStore, haction]
      rfl
    rw [h.statementsAt_forward reach hplace, ← hrewritten.eq_of_not_isStore hnot]
    exact hs
  · obtain ⟨-, _, v, _, target, -, hv, -, htarget, -, hlevel, hstands⟩ :=
      hstated.write.refers.store rfl
    obtain rfl : m.slot = v := Option.some.inj hv
    refine ⟨t, by rwa [h.statementsAt_forward reach hplace], htsource, hstore, ⟨source, 1⟩, target,
      hoperands, hresult.trans htarget, rfl, hsource.value, hversion, hlevel, hstands.value,
      hstands.version (h.progress.isParameter_slot hm)⟩

end Listed

/-- The instructions that were placed for a slot: one reads the storage, one reserves the slot, and
the only one that writes to the slot writes what was read. -/
structure Fills (p q : Program) (storage slot : ValueId) (reader reserver writer : InstId) :
    Prop where
  placed : ∀ i ∈ [reader, reserver, writer], p.inst? i = none
  copies : ∃ load store content, q.inst? reader = some load ∧ load.opcode = .load ∧
    load.operands = [.value storage] ∧ load.result = some content ∧
    q.inst? writer = some store ∧ store.opcode = .store ∧
    store.operands = [.value content, .value slot]
  reserves : ∃ alloca, q.inst? reserver = some alloca ∧ alloca.opcode = .alloca ∧
    alloca.result = some slot
  only : ∀ i, Initialises p q i slot → i = writer

theorem Progress.fills (h : Progress oracle p {} done made q table) (hm : m ∈ made) :
    Fills p q m.request.storage m.slot m.reader m.reserver m.writer := by
  have hmade := h.filling m hm
  refine ⟨fun i hi => Program.inst?_eq_none_iff.2 ?_,
    ⟨_, _, m.content, hmade.reader, rfl, rfl, rfl, hmade.writer, rfl, rfl⟩,
    ⟨_, hmade.reserver, rfl, rfl⟩, fun i => (h.initialises_iff hm i).1⟩
  exact Nat.le_trans hmade.reader_new (Filling.index_of_mem_insts hi).1

section Congr

variable {later : Program} (hinst : ∀ i, later.inst? i = q.inst? i)

include hinst

theorem redirected_congr {i : InstId} {storage slot : ValueId} :
    Redirected p later i storage slot ↔ Redirected p q i storage slot := by
  have hsource : later.source? i = q.source? i := by rw [Program.source?, Program.source?, hinst]
  exact ⟨fun h => ⟨h.before, hsource ▸ h.after, h.ne⟩, fun h => ⟨h.before, hsource ▸ h.after, h.ne⟩⟩

theorem Fills.congr {storage slot : ValueId} {reader reserver writer : InstId}
    (h : Fills p q storage slot reader reserver writer) :
    Fills p later storage slot reader reserver writer where
  placed := h.placed
  copies := by simpa only [hinst] using h.copies
  reserves := by simpa only [hinst] using h.reserves
  only i hi := h.only i ⟨hi.placed, by simpa only [hinst] using hi.writes⟩

end Congr

/-- Versioning a program and listing it. -/
theorem exists_listed {l : Listing} {later : Workspace} (hp : p.Assembled)
    (h : (Workspace.produce { versioning := true } (some oracle)).outcome { program := p } =
      (.ok l, later)) :
    ∃ made q, Listed oracle p made q later.context.slots l ∧
      ∀ i, later.program.inst? i = q.inst? i := by
  obtain ⟨_, w, hversion, htranscribe⟩ := Pass.outcome_bind_ok.1 h
  obtain ⟨n, w₁, hversioned, hreport⟩ := Pass.outcome_bind_ok.1 hversion
  cases hreport
  have hcoherent := hp.coherent
  obtain ⟨made, hprogress⟩ := Workspace.progress_of_versionProgram hcoherent hversioned
  have hq : w₁.program.Coherent :=
    (hp.edits ((Workspace.evolves_versionProgram oracle).of_outcome hversioned).edits).coherent
  -- versioning leaves a context in which there are slots and nothing else
  have htidy : Workspace.Tidy w₁.program w₁.context.slots w₁ := by
    have hrun := Workspace.run_of_versionProgram hcoherent hversioned
    obtain ⟨events, hevents⟩ := Workspace.versionProgram_of_run hcoherent hrun
    have hw₁ : w₁ = Workspace.advance { program := p } (w₁.program, w₁.context.slots) events :=
      congrArg Prod.snd (hversioned.symm.trans hevents)
    rw [hw₁]
    exact (Workspace.tidy_fresh _ _).log _
  have hwalks := Workspace.walks_exactTranscript w₁.program w₁.context.slots
  have hlater := (hwalks.transcribe false (htidy.log _) htranscribe).2
  refine ⟨made, w₁.program, ?_, fun i => Program.inst?_of_nameless hlater.nameless i⟩
  rw [hlater.slots]
  exact ⟨hprogress, hcoherent, hq, hwalks.listedAs hq (htidy.log _) htranscribe,
    (Listing.Produced.simplified _ _ hp h).wellBuilt⟩

end Versioning

namespace Listing

open Versioning

/-- **What forwarding leaves of versioned loads.**  A load that reads a slot is kept, and reads the
slot with its version.  Of the instructions that were placed for a slot, the one that reserves it
and the one that writes to it are kept; the latter now refers to the storage itself, so that the
load of the storage is gone. -/
theorem forward_versioned {p : Program} (hp : p.Assembled) (hclosed : p.Closed) {oracle : Oracle}
    {l : Listing} {later : Workspace}
    (h : (Workspace.produce { versioning := true } (some oracle)).outcome { program := p } =
      (.ok l, later)) {reach : Int} (hreach : 1 ≤ reach) :
    (∀ i inst storage slot, Redirected p later.program i storage slot → p.inst? i = some inst →
      inst.isSkipped = false →
      ∃ place ∈ l.blocks, place.block = inst.block ∧ ∃ s ∈ (l.forward reach).statementsAt place,
        s.source = i ∧ s.isLoad = true ∧ ∃ r version, s.operands = [r] ∧ r.level = 1 ∧
          r.value = some slot ∧ later.context.slots.version? slot = some version ∧
          r.operand.version = some version) ∧
    ∀ slot, later.context.slots.isSlot slot = true →
      ∃ storage reader reserver writer,
        Fills p later.program storage slot reader reserver writer ∧
        (∃ i, Redirected p later.program i storage slot) ∧
        (∃ s ∈ l.statements, s.source = reader ∧ s.isLoad = true) ∧
        (∀ s ∈ (l.forward reach).statements, s.source ≠ reader) ∧
        ∃ place ∈ l.blocks,
          (∃ s ∈ (l.forward reach).statementsAt place, s.source = reserver ∧
            (∃ type, s.action = .alloca type) ∧ s.defined? = some slot) ∧
          ∃ s ∈ (l.forward reach).statementsAt place, s.source = writer ∧ s.isStore = true ∧
            ∃ stored target, s.operands = [stored] ∧ s.result = some target ∧
              stored.level = 1 ∧ stored.value = some storage ∧
              stored.operand.version = none ∧ target.level = 1 ∧ target.value = some slot ∧
              target.operand.version = later.context.slots.version? slot := by
  obtain ⟨made, q, hlisted, hinst⟩ := exists_listed hp h
  constructor
  · intro i inst storage slot hi hold hskipped
    exact hlisted.exists_load ((redirected_congr hinst).1 hi) hold hskipped reach
  · intro slot hslot
    obtain ⟨m, hm, rfl⟩ := (hlisted.progress.isSlot_iff slot).1 hslot
    obtain ⟨hread, hleft⟩ := hlisted.exists_slot hclosed hm hreach
    exact ⟨m.request.storage, m.reader, m.reserver, m.writer,
      (hlisted.progress.fills hm).congr hinst,
      ⟨m.job.load, (redirected_congr hinst).2 (hlisted.progress.redirected_job hm)⟩, hread,
      hlisted.source_ne_reader hclosed hm hreach, hleft⟩

theorem forward_versioned_forked :
    Workspace.forked.Assembled ∧ Workspace.forked.Closed ∧ ∃ l later,
      (Workspace.produce { versioning := true } (some fun _ => .definition 0)).outcome
        { program := Workspace.forked } = (.ok l, later) ∧
      Redirected Workspace.forked later.program ⟨3⟩ ⟨0⟩ ⟨6⟩ ∧
      later.context.slots.isSlot ⟨6⟩ = true ∧
      (∃ place ∈ l.blocks, ∃ s ∈ (l.forward 1).statementsAt place, s.source = ⟨3⟩ ∧
        ∃ r version, s.operands = [r] ∧ r.level = 1 ∧ r.value = some ⟨6⟩ ∧
          r.operand.version = some version) ∧
      ∃ storage reader reserver writer,
        Fills Workspace.forked later.program storage ⟨6⟩ reader reserver writer ∧
        (∃ s ∈ l.statements, s.source = reader) ∧
        (∀ s ∈ (l.forward 1).statements, s.source ≠ reader) ∧
        ∃ place ∈ l.blocks, ∃ s ∈ (l.forward 1).statementsAt place, s.source = writer ∧
          ∃ stored, s.operands = [stored] ∧ stored.level = 1 ∧ stored.value = some storage := by
  have hassembled : Workspace.forked.Assembled := Program.assembled_ofEdits _ _
  have hclosed : Workspace.forked.Closed := by decide +kernel
  have hrun : ((Workspace.produce { versioning := true } (some fun _ => .definition 0)).outcome
      { program := Workspace.forked }).1.isOk = true := by decide +kernel
  have hload : Redirected Workspace.forked
      ((Workspace.produce { versioning := true } (some fun _ => .definition 0)).outcome
        { program := Workspace.forked }).2.program ⟨3⟩ ⟨0⟩ ⟨6⟩ := by decide +kernel
  have hslot : ((Workspace.produce { versioning := true } (some fun _ => .definition 0)).outcome
      { program := Workspace.forked }).2.context.slots.isSlot ⟨6⟩ = true := by decide +kernel
  have hinst : ∃ inst, Workspace.forked.inst? ⟨3⟩ = some inst ∧ inst.isSkipped = false :=
    ⟨_, rfl, rfl⟩
  obtain ⟨l, later, hl⟩ := Pass.exists_outcome_of_isOk hrun
  rw [hl] at hload hslot
  obtain ⟨inst, hinst, hlisted⟩ := hinst
  obtain ⟨hloads, hslots⟩ := forward_versioned hassembled hclosed hl (Int.le_refl 1)
  obtain ⟨place, hplace, -, s, hs, hsource, -, r, version, hr, hlevel, hvalue, -, hversion⟩ :=
    hloads _ inst _ _ hload hinst hlisted
  obtain ⟨storage, reader, reserver, writer, hfills, -, ⟨t, ht, htsource, -⟩, hgone, place',
    hplace', -, u, hu, husource, -, stored, _, hstored, -, hstoredLevel, hstoredValue, -⟩ :=
    hslots _ hslot
  exact ⟨hassembled, hclosed, l, later, hl, hload, hslot,
    ⟨place, hplace, s, hs, hsource, r, version, hr, hlevel, hvalue, hversion⟩,
    storage, reader, reserver, writer, hfills, ⟨t, ht, htsource⟩, hgone, place', hplace', u, hu,
    husource, stored, hstored, hstoredLevel, hstoredValue⟩

end Listing

end LevelIr
