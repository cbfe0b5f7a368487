import LevelIr.Proofs.Listing.Discarded
import LevelIr.Proofs.Listing.Handover
import LevelIr.Proofs.Listing.Reached
import LevelIr.Proofs.Statement.Uses

/-!
# Calls without pointers

A call and the statements that hand over its arguments are left out for different reasons: the call
may give a pointer of the source program, a parameter may be one, or an argument may depend on one.
Whether a value is a pointer of the source program is a matter of its type.  So if arguments have
the types of their parameters, a statement that hands over an argument is left out together with
its call, and stays together with it.

* `Workspace.walks_typed` : pointer flags in a listing are those of the types.
* `Statement.tainted_iff_of_binding` : what hands over an argument depends on pointers if and only
  if its call does.
* `Workspace.transcribe_discards_calls` : a call stays with all its arguments, or none of it does.
* `Workspace.transcribe_making` : a call that has no argument to hand over can still be left out.
-/

namespace LevelIr

/-! ### Pointers and types -/

/-- The operand of the value `v` is a pointer of the source program if the type of `v` says so. -/
def Operand.Typed (p : Program) (v : ValueId) (operand : Operand) : Prop :=
  operand.value = some v ∧ (p.value? v).map (·.type.isSourcePointer) = some operand.pointer

/-- The references of a statement are pointers of the source program as the types of their values
say. -/
def Statement.Typed (p : Program) (s : Statement) : Prop :=
  ∀ r ∈ s.operands ++ s.result.toList, ∀ v, r.value = some v →
    (p.value? v).map (·.type.isSourcePointer) = some r.operand.pointer

section Typed

variable {p : Program}

/-- Names do not matter for pointers. -/
theorem Operand.typed_ofValue {q : Program} (hq : q.nameless = p.nameless) {v : ValueId}
    {operand : Operand} (h : ofValue q v = .ok operand) : operand.Typed p v := by
  unfold ofValue at h
  obtain ⟨value, hvalue, h⟩ := Pass.bind_eq_ok.1 h
  obtain ⟨operator, -, h⟩ := Pass.bind_eq_ok.1 h
  obtain ⟨address, -, h⟩ := Pass.bind_eq_ok.1 h
  obtain ⟨memory, -, h⟩ := Pass.bind_eq_ok.1 h
  cases h
  obtain ⟨name, hp⟩ :=
    Program.value?_of_nameless hq.symm ((Program.value_eq_ok_iff q).1 hvalue)
  exact ⟨rfl, by rw [hp]; rfl⟩

theorem Statement.Cites.typed {inst : Inst} {s : Statement}
    (h : s.Cites (fun v operand => operand.Typed p v) inst) : s.Typed p := by
  intro r hr v hv
  have hcited {u : ValueId} (hu : r.operand.Typed p u) :
      (p.value? v).map (·.type.isSourcePointer) = some r.operand.pointer := by
    obtain rfl : u = v := Option.some.inj (hu.1.symm.trans hv)
    exact hu.2
  have hused (hr : r ∈ s.reads) :
      (p.value? v).map (·.type.isSourcePointer) = some r.operand.pointer := by
    rcases h.uses r (List.mem_append_left _ hr) with rfl | ⟨u, -, hu⟩
    · cases hv
    · exact hcited hu
  rcases List.mem_append.1 hr with hr | hr
  · exact hused (List.mem_append_left _ hr)
  · -- a store reads its target, and every other statement defines its result
    cases hstore : s.isStore with
    | true => exact hused (List.mem_append_right _ (by rwa [target?, if_pos hstore]))
    | false =>
      obtain ⟨u, -, hu⟩ := h.result hstore r (Option.mem_toList.1 hr)
      exact hcited hu

/-- Pointer flags in the listing of a program are those of the types. -/
theorem Workspace.walks_typed (p : Program) (slots : Slots) :
    Walks p (Carries p slots (Shared.All fun v operand => operand.Typed p v))
      fun _ statements => ∀ s ∈ statements, s.Typed p :=
  StatesAll.walks (Q := fun v operand => operand.Typed p v) {
    ofInst := by
      intro q hq i shared s later hshared h
      have hresolve := Operand.yields_resolve_all (p := q) (Q := fun v operand => operand.Typed p v)
        (fun _ _ => Operand.typed_ofValue hq) (fun _ _ _ hoperand => hoperand) slots
      obtain ⟨⟨inst, -, hcites⟩, hlater⟩ := Statement.yields_ofInst hresolve i hshared h
      exact ⟨hcites.typed, hlater⟩
    operand := fun q hq v => Shared.yields_operand (fun _ _ => Operand.typed_ofValue hq) v
    bind := by
      intro call hcall f formals _ pair hpair operand hoperand r hr v hv
      have hr : r = pair.2 ∨ r = ⟨operand, 0⟩ := by
        simpa [Statement.bindArgument, Statement.make] using hr
      rcases hr with rfl | rfl
      · exact hcall pair.2 (List.mem_append_left _ (List.of_mem_zip hpair).2) v hv
      · obtain rfl : pair.1 = v := Option.some.inj (hoperand.1.symm.trans hv)
        exact hoperand.2 }

end Typed

/-! ### The statements of a call -/

namespace Statement

/-- The statement hands the argument of the pair to its parameter. -/
def HandsOver (b : Statement) (pair : ValueId × Reference) : Prop :=
  b.binding = true ∧ b.defined? = some pair.1 ∧ b.operands = [pair.2]

/-- What hands over an argument of a call depends on pointers if and only if the call does, unless
the parameter is a pointer and the argument is not. -/
theorem tainted_iff_of_binding {ss : List Statement} {call b : Statement} (hcall : call ∈ ss)
    (hisCall : call.isCall = true) (hbinding : b.binding = true) (hsource : b.source = call.source)
    (hpointer : b.pointer = true → call.pointer = true) (hreads : b.reads ⊆ call.reads)
    (hunique : ∀ u ∈ ss, u.isCall = true → u.source = call.source → u = call) :
    b.Tainted ss ↔ call.Tainted ss := by
  constructor
  · intro h
    cases h with
    | pointer h => exact .pointer (hpointer h)
    | reads hu h hdefined hr hv => exact .reads hu h hdefined (hreads hr) hv
    | binding hu h hisCall _ heq => exact hunique _ hu hisCall (heq.trans hsource) ▸ h
  · intro h
    exact .binding hcall h hisCall hbinding hsource.symm

end Statement

theorem Machine.Binds.value_of_mem {b : Statement} {pair : ValueId × ValueId} (h : Binds b pair)
    {r : Reference} (hr : r ∈ b.operands ++ b.result.toList) :
    r.value = some pair.1 ∨ r.value = some pair.2 := by
  obtain ⟨actual, hoperands, hactual⟩ := h.actual
  rcases List.mem_append.1 hr with hr | hr
  · rw [hoperands, List.mem_singleton] at hr
    exact .inr (hr ▸ hactual.2)
  · have hdefined := h.formal
    rw [Statement.defined?, Option.mem_toList.1 hr] at hdefined
    split at hdefined
    · cases hdefined
    · exact .inl hdefined

namespace Program

/-- The arguments that calls hand over have the types of their parameters. -/
def CallsTyped (p : Program) : Prop :=
  ∀ inst ∈ p.insts, ∀ pair ∈ (p.boundParams inst).zip inst.arguments,
    (p.value? pair.1).map Value.type = (p.value? pair.2).map Value.type

variable {p : Program} {i : InstId} {inst : Inst} {bindings : List Statement} {s b : Statement}

theorem Transcript.forall₂_handsOver (h : p.Transcript i inst bindings s) {f : FunctionId}
    {formals : List ValueId} (haction : s.action = .call (.direct f formals)) :
    List.Forall₂ Statement.HandsOver bindings (formals.zip s.operands) := by
  have hparams := h.boundParams_eq haction
  obtain ⟨-, -, hargs, -⟩ := h.own.call f formals haction
  refine List.forall₂_iff_get.2 ⟨?_, fun k hk hk' => ?_⟩
  · rw [h.length, hparams, List.length_zip, hargs.length_eq]
  · obtain ⟨formal, operand, actual, hformal, hoperand, hactual, hb⟩ :=
      h.binding k _ (List.getElem?_eq_getElem hk)
    rw [hparams] at hformal
    obtain ⟨_, rfl⟩ := List.getElem?_eq_some_iff.1 hformal
    obtain ⟨_, rfl⟩ := List.getElem?_eq_some_iff.1 hactual
    rw [List.get_eq_getElem, hb]
    exact ⟨rfl, hoperand.trans (by simp), by simp [Statement.bindArgument, Statement.make]⟩

theorem Transcript.reads_subset (h : p.Transcript i inst bindings s) (hb : b ∈ bindings) :
    b.reads ⊆ s.operands := by
  obtain ⟨k, hk⟩ := List.mem_iff_getElem?.1 hb
  obtain ⟨_, _, actual, -, -, hactual, rfl⟩ := h.binding k b hk
  intro r hr
  obtain rfl : r = actual := List.mem_singleton.1 hr
  exact List.mem_of_getElem? hactual

theorem Transcript.exists_pair (h : p.Transcript i inst bindings s) (hb : b ∈ bindings) :
    ∃ pair ∈ (p.boundParams inst).zip inst.arguments, Machine.Binds b pair := by
  obtain ⟨k, hk, rfl⟩ := List.mem_iff_getElem.1 hb
  obtain ⟨hlength, hall⟩ := List.forall₂_iff_get.1 h.binds
  exact ⟨_, List.get_mem _ ⟨k, hlength ▸ hk⟩, hall k hk (hlength ▸ hk)⟩

/-- Where an argument is handed over, a pointer is an argument of the call, too. -/
theorem Transcript.pointer_of_binding (h : p.Transcript i inst bindings s)
    (hinst : p.inst? i = some inst) (htyped : p.CallsTyped) (hb : b ∈ bindings)
    (hflagged : b.Flagged) (htypes : b.Typed p) (hflagged' : s.Flagged)
    (hpointer : b.pointer = true) : s.pointer = true := by
  obtain ⟨pair, hpair, hbinds⟩ := h.exists_pair hb
  obtain ⟨actual, hoperands, hactual⟩ := hbinds.actual
  have hmem : actual ∈ b.operands := hoperands ▸ List.mem_singleton_self actual
  obtain ⟨r, hr, hrpointer⟩ := hflagged.iff.1 hpointer
  -- the parameter and the argument have one type, so both are pointers
  have htype := htyped inst (Array.mem_of_getElem? hinst) pair hpair
  have hvalue : ∃ v, r.value = some v ∧
      (p.value? v).map Value.type = (p.value? pair.2).map Value.type := by
    rcases hbinds.value_of_mem hr with hv | hv
    · exact ⟨pair.1, hv, htype⟩
    · exact ⟨pair.2, hv, rfl⟩
  obtain ⟨v, hv, htype⟩ := hvalue
  have hsame := congrArg (Option.map Ty.isSourcePointer) htype
  rw [Option.map_map, Option.map_map] at hsame
  have heq : r.operand.pointer = actual.operand.pointer := by
    have hflag := htypes r hr v hv
    have hflag' := htypes actual (List.mem_append_left _ hmem) pair.2 hactual.2
    exact Option.some.inj (hflag.symm.trans (hsame.trans hflag'))
  have hactual' : actual ∈ s.operands := h.reads_subset hb (List.mem_append_left _ hmem)
  exact hflagged'.iff.2 ⟨actual, List.mem_append_left _ hactual', heq ▸ hrpointer⟩

/-! ### What stays of a call -/

/-- A listed instruction belongs to the block that it is listed in. -/
theorem Coherent.block_of_mem_listedInsts (hp : p.Coherent) {b : BlockId}
    (h : i ∈ p.listedInsts b) : (p.inst? i).map Inst.block = some b := by
  have hmem := (List.mem_filter.1 h).1
  cases hblock : p.block? b with
  | none => simp [hblock] at hmem
  | some block =>
    obtain ⟨inst, hinst, rfl⟩ := hp.inst_of_mem hblock (by simpa [hblock] using hmem)
    rw [hinst, Option.map_some]

section Listed

variable {all : Listing} (hlisted : p.ListedAs p.BlockTranscript false all) (hp : p.Coherent)
  {place : Place} (hplace : place ∈ all.blocks)

include hlisted hplace

theorem ListedAs.blockTranscript : p.BlockTranscript place.block (all.statementsAt place) := by
  obtain ⟨statements, htranscript, -, hsame⟩ := hlisted.statements place hplace
  exact hsame rfl ▸ htranscript

include hp

/-- No two statements are the own ones of an instruction. -/
theorem ListedAs.eq_of_source (hs : s ∈ all.statementsAt place) (hbinding : s.binding = false)
    {other : Place} (hother : other ∈ all.blocks) {t : Statement} (ht : t ∈ all.statementsAt other)
    (hbinding' : t.binding = false) (hsource : t.source = s.source) : t = s := by
  have hlists {place : Place} (hplace : place ∈ all.blocks) {s : Statement}
      (hs : s ∈ all.statementsAt place) (hbinding : s.binding = false) :
      (p.inst? s.source).map Inst.block = some place.block := by
    refine hp.block_of_mem_listedInsts ?_
    rw [← (hlisted.blockTranscript hplace).map_source]
    exact List.mem_map_of_mem (List.mem_filter.2 ⟨hs, by simp [hbinding]⟩)
  have hblock : other.block = place.block := by
    have hinst := hlists hother ht hbinding'
    rw [hsource, hlists hplace hs hbinding] at hinst
    exact (Option.some.inj hinst).symm
  have hnodup : (all.blocks.map Place.block).Nodup := hlisted.blocks ▸ hp.listedPlaces_nodup
  obtain rfl : other = place := List.inj_on_of_nodup_map hnodup hother hplace hblock
  obtain ⟨inst, bindings, before, after, -, hown, hsplit, hothers⟩ :=
    (hlisted.blockTranscript hplace).exists_split hp hs hbinding
  rw [hsplit] at ht
  simp only [List.mem_append, List.mem_cons] at ht hothers
  rcases ht with (ht | ht) | rfl | ht
  · exact absurd hsource (hothers t (.inl ht))
  · exact absurd (hown.binding_of_mem ht) (by simp [hbinding'])
  · rfl
  · exact absurd hsource (hothers t (.inr ht))

/-- What hands over an argument of a call depends on pointers if and only if the call does. -/
theorem ListedAs.tainted_iff (htyped : p.CallsTyped) (hflagged : ∀ t ∈ all.statements, t.Flagged)
    (htypes : ∀ t ∈ all.statements, t.Typed p) (hs : s ∈ all.statementsAt place)
    (hcall : s.isCall = true) (hinst : p.inst? s.source = some inst)
    (hown : p.Transcript s.source inst bindings s) (hb : b ∈ bindings)
    (hlists : b ∈ all.statementsAt place) :
    b.Tainted (all.statementsOf place.function) ↔ s.Tainted (all.statementsOf place.function) := by
  have hbinding := (hlisted.blockTranscript hplace).binding_of_isCall hs hcall
  have hpointer : b.pointer = true → s.pointer = true :=
    hown.pointer_of_binding hinst htyped hb
      (hflagged b (Listing.mem_statements_of_mem_statementsAt hlists))
      (htypes b (Listing.mem_statements_of_mem_statementsAt hlists))
      (hflagged s (Listing.mem_statements_of_mem_statementsAt hs))
  have hreads : b.reads ⊆ s.reads := fun r hr => List.mem_append_left _ (hown.reads_subset hb hr)
  refine Statement.tainted_iff_of_binding ?_ hcall (hown.binding_of_mem hb)
    (hown.source_eq (List.mem_append_left _ hb)) hpointer hreads ?_
  · exact List.mem_flatMap.2 ⟨place, List.mem_filter.2 ⟨hplace, by simp⟩, hs⟩
  · intro u hu hucall hsource
    obtain ⟨other, hother, hu⟩ := List.mem_flatMap.1 hu
    have hother := (List.mem_filter.1 hother).1
    exact hlisted.eq_of_source hp hplace hs hbinding hother hu
      ((hlisted.blockTranscript hother).binding_of_isCall hu hucall) hsource

end Listed

end Program

namespace Workspace

section Discarding

variable {p : Program} (hp : p.Coherent) {l all : Listing}
  (h : Discarding p {} {} p.listedFunctions l all) {place : Place}
  (hplace : place ∈ p.listedPlaces)

include hp h hplace

/-- What stands in a row and stays still stands in a row. -/
theorem Discarding.exists_split {before kept after : List Statement}
    (hsplit : all.statementsAt place = before ++ kept ++ after)
    (hkept : ∀ t ∈ kept, t ∈ l.statementsAt place) :
    ∃ before' after', l.statementsAt place = before' ++ kept ++ after' := by
  rw [h.statementsAt hp hplace, hsplit, Taint.untainted] at hkept ⊢
  have hself := List.filter_eq_self.2 fun t ht => (List.mem_filter.1 (hkept t ht)).2
  rw [List.filter_append, List.filter_append, hself]
  exact ⟨_, _, rfl⟩

end Discarding

/-- A direct call in `all` stays in `l`, or is left out of it, together with what hands over its
arguments. -/
structure WholeCall (p : Program) (l all : Listing) (place : Place) (call : Statement)
    (f : FunctionId) (formals : List ValueId) : Prop where
  callee : ∃ function, p.function? f = some function ∧
    formals = if function.isDeclaration then [] else function.params
  handsOver : List.Forall₂ Statement.HandsOver (all.bindingsFor place call.source)
    (formals.zip call.operands)
  kept : call ∈ l.statementsAt place → ∃ before after,
    l.statementsAt place = before ++ all.bindingsFor place call.source ++ call :: after
  dropped : call ∉ l.statementsAt place → l.bindingsFor place call.source = []
  mem_iff : all.bindingsFor place call.source ≠ [] → (call ∈ l.statementsAt place ↔
    ∀ b ∈ all.bindingsFor place call.source, b ∈ l.statementsAt place)

/-- The blocks of `l` are those of `all`, and all direct calls stay or go as a whole. -/
structure KeepsCallsWhole (p : Program) (l all : Listing) : Prop where
  blocks : l.blocks = all.blocks
  calls : ∀ place ∈ all.blocks, ∀ call ∈ all.statementsAt place, ∀ f formals,
    call.action = .call (.direct f formals) → WholeCall p l all place call f formals

/-- **Calls stay or go as a whole.**  Let arguments have the types of their parameters, and let a
program be listed without what depends on pointers.  A call of a known function that stays still
has right before it what hands over its arguments, one statement for each parameter and in their
order; a call that is left out takes all of this along.  So a call that has arguments to hand over
stays if and only if all that hands them over does. -/
theorem transcribe_discards_calls {p : Program} (hp : p.Assembled) (htyped : p.CallsTyped)
    {l : Listing} {later : Workspace}
    (h : (transcribe true).outcome { program := p } = (.ok l, later)) :
    ∃ all w, (transcribe false).outcome { program := p } = (.ok all, w) ∧
      KeepsCallsWhole p l all := by
  have hw : Views { program := p } p := ⟨rfl, Shared.sound_empty⟩
  obtain ⟨all, w, hall, hdiscarding, -⟩ := simulates_transcribe p ⟨rfl, rfl, rfl⟩ h
  have hl := listedAs_of_transcribe hw hp.coherent h
  have hlisted := listedAs_of_transcribe hw hp.coherent hall
  have hflagged := ((walks_flagged p {}).listedAs hp.coherent ⟨rfl, rfl, trivial⟩ hall).forall_mem
  have htypes := ((walks_typed p {}).listedAs hp.coherent
    ⟨rfl, rfl, Shared.all_empty _⟩ hall).forall_mem
  refine ⟨all, w, hall, hl.blocks.trans hlisted.blocks.symm, ?_⟩
  intro place hplace call hcall f formals haction
  have hisCall : call.isCall = true := by rw [Statement.isCall, haction]
  have htranscript := hlisted.blockTranscript hplace
  obtain ⟨inst, bindings, before, after, hinst, hown, hsplit, hothers⟩ :=
    htranscript.exists_split hp.coherent hcall (htranscript.binding_of_call hcall haction)
  have hbindings : all.bindingsFor place call.source = bindings := by
    rw [Listing.bindingsFor, hsplit]
    exact hown.filter_split hothers
  have hmem {b : Statement} (hb : b ∈ bindings) : b ∈ all.statementsAt place := by
    rw [hsplit]
    exact List.mem_append_left _ (List.mem_append_right _ hb)
  have hlistedPlace : place ∈ p.listedPlaces := hlisted.blocks ▸ hplace
  -- each statement that hands over an argument shares the fate of the call
  have hshares {b : Statement} (hb : b ∈ bindings) :
      b ∈ l.statementsAt place ↔ call ∈ l.statementsAt place := by
    rw [hdiscarding.mem_statementsAt_iff hp.coherent hlistedPlace (hmem hb),
      hdiscarding.mem_statementsAt_iff hp.coherent hlistedPlace hcall]
    exact not_congr (hlisted.tainted_iff hp.coherent hplace htyped hflagged htypes hcall hisCall
      hinst hown hb (hmem hb))
  obtain ⟨-, -, -, hfunction⟩ := hown.own.call f formals haction
  refine ⟨hfunction, hbindings ▸ hown.forall₂_handsOver haction, fun hkept => ?_,
    fun hdropped => ?_, fun hsome => ?_⟩
  · have hrow : all.statementsAt place = before ++ (bindings ++ [call]) ++ after := by
      simp [hsplit]
    have hall : ∀ t ∈ bindings ++ [call], t ∈ l.statementsAt place :=
      List.forall_mem_append.2
        ⟨fun b hb => (hshares hb).2 hkept, List.forall_mem_singleton.2 hkept⟩
    obtain ⟨before', after', heq⟩ :=
      hdiscarding.exists_split hp.coherent hlistedPlace hrow hall
    exact ⟨before', after', by simp [hbindings, heq]⟩
  · refine List.filter_eq_nil_iff.2 fun b hb hbinding => hdropped ((hshares ?_).1 hb)
    rw [hdiscarding.statementsAt hp.coherent hlistedPlace] at hb
    exact hbindings ▸ List.mem_filter.2 ⟨(List.mem_filter.1 hb).1, hbinding⟩
  · rw [hbindings] at hsome ⊢
    obtain ⟨b, hb⟩ := List.exists_mem_of_ne_nil bindings hsome
    exact ⟨fun hkept c hc => (hshares hc).2 hkept, fun hkept => (hshares hb).1 (hkept b hb)⟩

/-- Calls of functions that return a pointer to a pointer, without and with an argument, and of one
that returns a number. -/
def making : Program := .ofEdits "making"
  [.value (.int 32) "" (.integer 1),
    .value (.pointer (.pointer (.int 32))) "" .null,
    .function "make" (.pointer (.pointer (.int 32))) [],
    .block ⟨0⟩ "entry",
    .last ⟨0⟩ { opcode := .ret, operands := [.value ⟨1⟩] },
    .function "wrap" (.pointer (.pointer (.int 32))) [("n", .int 32)],
    .block ⟨1⟩ "entry",
    .last ⟨1⟩ { opcode := .ret, operands := [.value ⟨1⟩] },
    .function "next" (.int 32) [("n", .int 32)],
    .block ⟨2⟩ "entry",
    .last ⟨2⟩ { opcode := .ret, operands := [.value ⟨6⟩] },
    .function "main" .void [],
    .block ⟨3⟩ "entry",
    .last ⟨3⟩ { opcode := .call, operands := [.value ⟨2⟩],
                type := .pointer (.pointer (.int 32)) },
    .last ⟨3⟩ { opcode := .call, operands := [.value ⟨0⟩, .value ⟨3⟩],
                type := .pointer (.pointer (.int 32)) },
    .last ⟨3⟩ { opcode := .call, operands := [.value ⟨0⟩, .value ⟨5⟩], type := .int 32 },
    .last ⟨3⟩ { opcode := .ret }]

theorem callsTyped_making : making.CallsTyped := by
  unfold Program.CallsTyped
  decide +kernel

theorem transcribe_discards_calls_making :
    making.Assembled ∧ making.CallsTyped ∧ ∃ l later,
      (transcribe true).outcome { program := making } = (.ok l, later) ∧
      ∃ all w, (transcribe false).outcome { program := making } = (.ok all, w) ∧
        KeepsCallsWhole making l all := by
  have hassembled : making.Assembled := Program.assembled_ofEdits _ _
  have hok : ((transcribe true).outcome { program := making }).1.isOk = true := by decide +kernel
  obtain ⟨l, later, h⟩ := Pass.exists_outcome_of_isOk hok
  exact ⟨hassembled, callsTyped_making, l, later, h,
    transcribe_discards_calls hassembled callsTyped_making h⟩

/-- **A call without arguments goes alone.**  The first call gives a pointer to a pointer and is
left out, although nothing is missing that hands over an argument of it. -/
theorem transcribe_making :
    making.Assembled ∧ making.CallsTyped ∧ ∃ l later,
      (transcribe true).outcome { program := making } = (.ok l, later) ∧
      ∃ all w, (transcribe false).outcome { program := making } = (.ok all, w) ∧
        (making.function? ⟨0⟩).any (!·.isDeclaration) = true ∧
        ∃ call ∈ all.statementsAt ⟨⟨3⟩, ⟨3⟩⟩, call.action = .call (.direct ⟨0⟩ []) ∧
          call ∉ l.statementsAt ⟨⟨3⟩, ⟨3⟩⟩ ∧
          ∀ b ∈ all.bindingsFor ⟨⟨3⟩, ⟨3⟩⟩ call.source, b ∈ l.statementsAt ⟨⟨3⟩, ⟨3⟩⟩ := by
  have hdiscarded : ((transcribe true).outcome { program := making }).1.isOk = true := by
    decide +kernel
  have hlisted : ((transcribe false).outcome { program := making }).1.isOk = true := by
    decide +kernel
  have hcall : (match ((transcribe true).outcome { program := making }).1,
        ((transcribe false).outcome { program := making }).1 with
      | .ok l, .ok all => decide (∃ call ∈ all.statementsAt ⟨⟨3⟩, ⟨3⟩⟩,
          call.action = .call (.direct ⟨0⟩ []) ∧ call ∉ l.statementsAt ⟨⟨3⟩, ⟨3⟩⟩ ∧
          ∀ b ∈ all.bindingsFor ⟨⟨3⟩, ⟨3⟩⟩ call.source, b ∈ l.statementsAt ⟨⟨3⟩, ⟨3⟩⟩)
      | _, _ => false) = true := by
    decide +kernel
  obtain ⟨l, later, hl⟩ := Pass.exists_outcome_of_isOk hdiscarded
  obtain ⟨all, w, hall⟩ := Pass.exists_outcome_of_isOk hlisted
  rw [hl, hall] at hcall
  exact ⟨Program.assembled_ofEdits _ _, callsTyped_making, l, later, hl, all, w, hall,
    by decide +kernel, of_decide_eq_true hcall⟩

end Workspace

end LevelIr
