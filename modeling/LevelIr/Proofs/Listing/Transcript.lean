import LevelIr.Proofs.Listing.Walk
import LevelIr.Proofs.Produce

/-!
# What a listing says of its program

Listing walks over functions, blocks and instructions, and gives names on its way.  The names do
not matter for what is listed, so each step of the walk is compared with the program that the walk
started from.

* `Program.Transcript` : the statements of an instruction: one for each argument that a call hands
  to a parameter, and then the one of the instruction itself.
* `Workspace.transcribe_ok` : a listing is made of the bodies of the functions that are listed.
* `Workspace.transcribe_exact` : what is listed, for every program and every history of its
  context.
-/

namespace LevelIr

namespace Program

variable (p : Program)

/-- The parameters that an instruction hands arguments to: those of the function that it calls, if
it is a plain call of a function with a body. -/
def boundParams (inst : Inst) : List ValueId :=
  if inst.opcode = .call then
    match (p.directCallee? inst).bind p.function? with
    | some function => if function.isDeclaration then [] else function.params
    | none => []
  else []

/-- The statement `s` is made from the instruction `i`, in a program that differs from `p` at most
in its names. -/
def Makes (i : InstId) (s : Statement) : Prop :=
  ∃ (q : Program) (slots : Slots) (shared later : Shared), q.nameless = p.nameless ∧
    shared.Sound ∧ (Statement.ofInst q slots i).outcome shared = (.ok s, later)

/-- The statements of an instruction: `bindings` hand its arguments to parameters, and `s` is its
own. -/
structure Transcript (i : InstId) (inst : Inst) (bindings : List Statement) (s : Statement) :
    Prop where
  made : p.Makes i s
  own : Statement.Transcribes p i inst s
  length : bindings.length = min (p.boundParams inst).length inst.arguments.length
  /-- Each argument is handed over as it stands in the call. -/
  binding : ∀ (k : Nat) (b : Statement), bindings[k]? = some b →
    ∃ (formal : ValueId) (operand : Operand) (actual : Reference),
      (p.boundParams inst)[k]? = some formal ∧ operand.value = some formal ∧
      s.operands[k]? = some actual ∧ b = Statement.bindArgument i operand actual inst.line

/-- The instructions of a block that are listed: those that neither serve debugging nor carry
further metadata. -/
def listedInsts (b : BlockId) : List InstId :=
  (((p.block? b).map Block.insts).getD []).filter fun i =>
    (p.inst? i).any fun inst => !inst.isSkipped

/-- The statements of a block: those of its listed instructions, in order. -/
def BlockTranscript (b : BlockId) (statements : List Statement) : Prop :=
  ∃ groups : List (List Statement × Statement),
    List.Forall₂ (fun i group => ∃ inst, p.inst? i = some inst ∧
      p.Transcript i inst group.1 group.2) (p.listedInsts b) groups ∧
    statements = groups.flatMap fun group => group.1 ++ [group.2]

/-- The statements of a function: those of its blocks, in layout order. -/
def BodyTranscript (f : FunctionId) (body : Body) : Prop :=
  List.Forall₂ (fun b part => part.1 = b ∧ p.BlockTranscript b part.2) (p.blocksOf f) body

end Program

namespace Statement

theorem Transcribes.of_nameless {p q : Program} (hpq : p.nameless = q.nameless) {i : InstId}
    {inst : Inst} {s : Statement} (h : Transcribes p i inst s) : Transcribes q i inst s where
  source := h.source
  line := h.line
  binding := h.binding
  ignored := h.ignored
  regular := h.regular
  defined := h.defined
  call f formals haction := by
    obtain ⟨hop, hcallee, hargs, function, hfunction, hformals⟩ := h.call f formals haction
    rw [Program.directCallee?_of_nameless hpq] at hcallee
    rw [Program.function?_of_nameless hpq] at hfunction
    exact ⟨hop, hcallee, hargs, function, hfunction, hformals⟩
  direct hop f hcallee := h.direct hop f (by rwa [Program.directCallee?_of_nameless hpq])

end Statement

namespace Workspace

/-- The program of the workspace is `p`, up to names, and its shared operands are sound. -/
structure Views (w : Workspace) (p : Program) : Prop where
  nameless : w.program.nameless = p.nameless
  sound : w.context.shared.Sound

theorem Views.continues {w later : Workspace} {p : Program} (h : w.Views p)
    (hc : w.Continues later) : later.Views p :=
  ⟨hc.nameless.trans h.nameless, hc.shared h.sound⟩

section Steps

variable {p : Program} {w later : Workspace}

theorem toStatement_ok (hw : w.Views p) {i : InstId} {s : Statement}
    (h : Pass.outcome (toStatement i) w = (.ok s, later)) :
    p.Makes i s ∧ ∃ inst, p.inst? i = some inst ∧ Statement.Transcribes p i inst s := by
  rw [outcome_toStatement, outcome_onShared] at h
  have hmade := Pass.outcome_eq_of_fst (Prod.mk.inj h).1
  obtain ⟨inst, hinst, htranscribes⟩ := Statement.ofInst_ok hw.sound hmade
  rw [Program.inst?_of_nameless hw.nameless] at hinst
  exact ⟨⟨_, _, _, _, hw.nameless, hw.sound, hmade⟩, inst, hinst,
    htranscribes.of_nameless hw.nameless⟩

theorem bindArgument_ok (hw : w.Views p) {call b : Statement} {formal : ValueId}
    {actual : Reference}
    (h : Pass.outcome (bindArgument call formal actual) w = (.ok b, later)) :
    ∃ operand, operand.value = some formal ∧
      b = .bindArgument call.source operand actual call.line := by
  obtain ⟨_, w₁, hname, h⟩ := Pass.outcome_bind_ok.1 h
  obtain ⟨operand, w₂, hoperand, h⟩ := Pass.outcome_bind_ok.1 h
  cases h
  have hw₁ := hw.continues ((keeps_nameValue formal).of_outcome hname)
  rw [outcome_sharedOperand, outcome_onShared] at hoperand
  obtain ⟨hshared, -⟩ := Prod.mk.inj hoperand
  exact ⟨operand, (Shared.operand_sound w₁.program formal hw₁.sound).2 operand hshared, rfl⟩

theorem boundParams_of_direct {i : InstId} {inst : Inst} {s : Statement} {f : FunctionId}
    {formals : List ValueId} (hs : Statement.Transcribes p i inst s)
    (haction : s.action = .call (.direct f formals)) : p.boundParams inst = formals := by
  obtain ⟨hop, hcallee, -, function, hfunction, hformals⟩ := hs.call f formals haction
  simp [Program.boundParams, hop, hcallee, hfunction, hformals]

theorem boundParams_of_not_direct {i : InstId} {inst : Inst} {s : Statement}
    (hs : Statement.Transcribes p i inst s)
    (hnone : ∀ f formals, s.action ≠ .call (.direct f formals)) : p.boundParams inst = [] := by
  unfold Program.boundParams
  split
  · rename_i hop
    cases hcallee : p.directCallee? inst with
    | none => rfl
    | some f =>
      obtain ⟨formals, e⟩ := hs.direct hop f hcallee
      exact absurd e (hnone f formals)
  · rfl

/-- A statement calls a function with a body directly, with known parameters, or has none to hand
arguments to. -/
theorem boundParams_of_transcribes {i : InstId} {inst : Inst} {s : Statement}
    (hs : Statement.Transcribes p i inst s) :
    (∃ f formals, s.action = .call (.direct f formals) ∧ p.boundParams inst = formals) ∨
      ((∀ f formals, s.action ≠ .call (.direct f formals)) ∧ p.boundParams inst = []) := by
  by_cases haction : ∃ f formals, s.action = .call (.direct f formals)
  · obtain ⟨f, formals, haction⟩ := haction
    exact .inl ⟨f, formals, haction, boundParams_of_direct hs haction⟩
  · have hnone : ∀ f formals, s.action ≠ .call (.direct f formals) := by
      intro f formals e
      exact haction ⟨f, formals, e⟩
    exact .inr ⟨hnone, boundParams_of_not_direct hs hnone⟩

theorem bindArguments_ok (hw : w.Views p) {i : InstId} {inst : Inst} {s : Statement}
    (hmade : p.Makes i s) (hs : Statement.Transcribes p i inst s) {bindings : List Statement}
    (h : Pass.outcome (bindArguments s) w = (.ok bindings, later)) :
    p.Transcript i inst bindings s := by
  rcases keptBySteps_continues.parts.exists_of_bindArguments h with
    ⟨f, formals, w₁, haction, hcontinues, hmap⟩ | ⟨hnone, rfl⟩
  · have hw₁ := hw.continues hcontinues
    have hparams := boundParams_of_direct hs haction
    have hall := Pass.outcome_mapM_ok
      (fun pair : ValueId × Reference => keeps_bindArgument s pair.1 pair.2) hmap
    obtain ⟨-, -, hargs, -⟩ := hs.call f formals haction
    refine ⟨hmade, hs, ?_, ?_⟩
    · rw [hparams, ← hall.length_eq, List.length_zip, hargs.length_eq]
    · intro k b hb
      have hk : k < (formals.zip s.operands).length := by
        rw [hall.length_eq]
        exact (List.getElem?_eq_some_iff.1 hb).1
      obtain ⟨u, v, hu, hbind, -⟩ := List.forall₂_iff_get.1 hall |>.2 k hk
        (List.getElem?_eq_some_iff.1 hb).1
      obtain ⟨operand, hoperand, heq⟩ := bindArgument_ok (hw₁.continues hu) hbind
      have hlt : k < formals.length ∧ k < s.operands.length := by
        rw [List.length_zip] at hk
        omega
      refine ⟨formals[k], operand, s.operands[k], ?_, ?_, ?_, ?_⟩
      · rw [hparams]
        exact List.getElem?_eq_getElem hlt.1
      · simpa using hoperand
      · exact List.getElem?_eq_getElem hlt.2
      · have hb' : bindings.get ⟨k, (List.getElem?_eq_some_iff.1 hb).1⟩ = b :=
          (List.getElem?_eq_some_iff.1 hb).2
        rw [← hb', heq, hs.source, hs.line]
        simp
  · refine ⟨hmade, hs, ?_, ?_⟩
    · rw [boundParams_of_not_direct hs hnone]
      rfl
    · intro k b hb
      cases hb

theorem transcribeInst_ok (hw : w.Views p) {i : InstId} {statements : List Statement}
    (h : Pass.outcome (transcribeInst i) w = (.ok statements, later)) :
    ∃ inst, p.inst? i = some inst ∧
      ((inst.isSkipped = true ∧ statements = []) ∨
        (inst.isSkipped = false ∧ ∃ bindings s, p.Transcript i inst bindings s ∧
          statements = bindings ++ [s])) := by
  obtain ⟨inst, hinst, hskipped | ⟨hskipped, w₁, w₂, w₃, s, bindings, hnames, hs, hreport,
    hbindings, rfl⟩⟩ := keptBySteps_continues.parts.exists_of_transcribeInst h
  all_goals
    rw [Program.inst?_of_nameless hw.nameless] at hinst
    refine ⟨inst, hinst, ?_⟩
  · exact .inl hskipped
  · -- names are given before the statement is made, and they are all that changes in the program
    have hw₁ := hw.continues ((keeps_nameRegisters inst).of_outcome hnames)
    have hw₂ := hw₁.continues ((keeps_toStatement i).of_outcome hs)
    obtain ⟨hmade, inst', hinst', htranscribes⟩ := toStatement_ok hw₁ hs
    obtain rfl : inst = inst' := Option.some.inj (hinst.symm.trans hinst')
    exact .inr ⟨hskipped, bindings, s,
      bindArguments_ok (hw₂.continues hreport) hmade htranscribes hbindings, rfl⟩

/-- Instructions that are passed over add nothing. -/
theorem exists_groups {insts : List InstId} {lists : List (List Statement)}
    (h : List.Forall₂ (fun i statements => ∃ inst, p.inst? i = some inst ∧
      ((inst.isSkipped = true ∧ statements = []) ∨
        (inst.isSkipped = false ∧ ∃ bindings s, p.Transcript i inst bindings s ∧
          statements = bindings ++ [s]))) insts lists) :
    ∃ groups : List (List Statement × Statement),
      List.Forall₂ (fun i group => ∃ inst, p.inst? i = some inst ∧
          p.Transcript i inst group.1 group.2)
        (insts.filter fun i => (p.inst? i).any fun inst => !inst.isSkipped) groups ∧
      lists.flatten = groups.flatMap fun group => group.1 ++ [group.2] := by
  induction h with
  | nil => exact ⟨[], .nil, rfl⟩
  | cons hi _ ih =>
    obtain ⟨groups, hgroups, hflatten⟩ := ih
    obtain ⟨inst, hinst, ⟨hskipped, rfl⟩ | ⟨hskipped, bindings, s, htranscript, rfl⟩⟩ := hi
    · refine ⟨groups, ?_, by simpa using hflatten⟩
      rw [List.filter_cons_of_neg (by simp [hinst, hskipped])]
      exact hgroups
    · refine ⟨(bindings, s) :: groups, ?_, by simp [hflatten]⟩
      rw [List.filter_cons_of_pos (by simp [hinst, hskipped])]
      exact .cons ⟨inst, hinst, htranscript⟩ hgroups

theorem walks_views (p : Program) : Walks p (·.Views p) fun i statements =>
    ∃ inst, p.inst? i = some inst ∧
      ((inst.isSkipped = true ∧ statements = []) ∨
        (inst.isSkipped = false ∧ ∃ bindings s, p.Transcript i inst bindings s ∧
          statements = bindings ++ [s])) where
  nameless _ hw := hw.nameless
  log _ _ hw := ⟨hw.nameless, hw.sound⟩
  inst i _ _ _ hw h :=
    ⟨transcribeInst_ok hw h, hw.continues ((keeps_transcribeInst i).of_outcome h)⟩

/-- A listing is made of the bodies of the functions that are listed. -/
theorem transcribe_ok (hw : w.Views p) {discard : Bool} {l : Listing}
    (h : Pass.outcome (transcribe discard) w = (.ok l, later)) :
    ∃ bodies : List (FunctionId × Body),
      List.Forall₂ (fun f function => function.1 = f ∧ p.BodyTranscript f function.2)
        p.listedFunctions bodies ∧
      l = Listing.addBodies {}
        (bodies.map fun function => (function.1, function.2.listed discard)) := by
  obtain ⟨⟨bodies, hbodies, hl⟩, -⟩ := (walks_views p).transcribe discard hw h
  refine ⟨bodies, hbodies.imp fun f function hfunction => ⟨hfunction.1, ?_⟩, hl⟩
  refine hfunction.2.imp ?_
  rintro b part ⟨hb, lists, hlists, hpart⟩
  obtain ⟨groups, hgroups, hflatten⟩ := exists_groups hlists
  exact ⟨hb, groups, hgroups, hpart.trans hflatten⟩

end Steps

end Workspace

/-! ### The places of a listing -/

namespace Program

/-- The blocks of the functions that are listed, in order. -/
def listedPlaces (p : Program) : List Place :=
  p.listedFunctions.flatMap fun f => (p.blocksOf f).map (Place.mk f)

theorem listedFunctions_nodup (p : Program) : p.listedFunctions.Nodup := by
  refine List.Nodup.filter _ (List.Nodup.map ?_ List.nodup_range)
  intro m n h
  exact congrArg FunctionId.index h

theorem Coherent.function_of_mem_blocksOf {p : Program} (hp : p.Coherent) {f : FunctionId}
    {b : BlockId} (h : b ∈ p.blocksOf f) : (p.block? b).map Block.function = some f := by
  unfold blocksOf at h
  cases hfunction : p.function? f with
  | none => simp [hfunction] at h
  | some function =>
    obtain ⟨block, hblock, rfl⟩ := hp.block_of_mem hfunction (by simpa [hfunction] using h)
    simp [hblock]

theorem Coherent.blocksOf_nodup {p : Program} (hp : p.Coherent) (f : FunctionId) :
    (p.blocksOf f).Nodup := by
  unfold blocksOf
  cases hfunction : p.function? f with
  | none => exact List.nodup_nil
  | some function => exact hp.blocks_nodup hfunction

/-- No block is listed under two functions. -/
theorem Coherent.listedPlaces_nodup {p : Program} (hp : p.Coherent) :
    (p.listedPlaces.map Place.block).Nodup := by
  have hblocks : p.listedPlaces.map Place.block = p.listedFunctions.flatMap p.blocksOf := by
    simp [listedPlaces, List.map_flatMap, Function.comp_def]
  rw [hblocks, List.nodup_flatMap]
  refine ⟨fun f _ => hp.blocksOf_nodup f, p.listedFunctions_nodup.imp ?_⟩
  intro f g hne b hf hg
  have hsame : some f = some g :=
    (hp.function_of_mem_blocksOf hf).symm.trans (hp.function_of_mem_blocksOf hg)
  exact hne (Option.some.inj hsame)

/-- What is known of a listing of a program, if the statements of each block have `B`. -/
structure ListedAs (p : Program) (B : BlockId → List Statement → Prop) (discard : Bool)
    (l : Listing) : Prop where
  functions : l.functions = p.listedFunctions
  blocks : l.blocks = p.listedPlaces
  contiguous : l.Contiguous
  returns : l.RecordsReturns
  /-- A block is listed with all its statements, unless some are discarded. -/
  statements : ∀ place ∈ l.blocks, ∃ all, B place.block all ∧
    (l.statementsAt place).Sublist all ∧ (discard = false → l.statementsAt place = all)

/-- The listing says exactly what is in the program. -/
structure ListedExactly (p : Program) (l : Listing) : Prop where
  functions : l.functions = p.listedFunctions
  blocks : l.blocks = p.listedPlaces
  /-- The numbers run through the blocks, -/
  numbers : l.blocks.flatMap l.numbersAt = List.range l.size
  /-- and so do the statements. -/
  statements : l.blocks.flatMap l.statementsAt = l.statements
  /-- Each block lists the statements of its instructions. -/
  transcript : ∀ place ∈ l.blocks, p.BlockTranscript place.block (l.statementsAt place)
  /-- What a function returns is the operand of its last return that has one. -/
  returned : ∀ f, l.returned? f = ((l.statementsOf f).filterMap Statement.returned?).getLast?

end Program

/-- Lists whose entries carry the entries of another list as keys. -/
theorem forall₂_fst {α β : Type} {Q : α → β → Prop} {xs : List α} {ys : List (α × β)}
    (h : List.Forall₂ (fun x y => y.1 = x ∧ Q x y.2) xs ys) :
    ys.map Prod.fst = xs ∧ ∀ y ∈ ys, Q y.1 y.2 := by
  induction h with
  | nil => simp
  | cons hxy _ ih =>
    obtain ⟨rfl, hQ⟩ := hxy
    refine ⟨by rw [List.map_cons, ih.1], ?_⟩
    intro y hy
    rcases List.mem_cons.1 hy with rfl | hy
    · exact hQ
    · exact ih.2 y hy

namespace Workspace

variable {p : Program} {w later : Workspace}

theorem map_fst_allParts (discard : Bool) {bodies : List (FunctionId × Body)}
    (hfunctions : bodies.map Prod.fst = p.listedFunctions)
    (hblocks : ∀ function ∈ bodies, function.2.map Prod.fst = p.blocksOf function.1) :
    (Body.allParts (bodies.map fun function => (function.1, function.2.listed discard))).map
      Prod.fst = p.listedPlaces := by
  unfold Program.listedPlaces Body.allParts
  rw [← hfunctions, List.flatMap_map, List.flatMap_map, List.map_flatMap]
  refine List.flatMap_congr fun function hfunction => ?_
  rw [← hblocks function hfunction, ← Body.map_fst_listed discard, Body.parts, List.map_map,
    List.map_map]
  rfl

/-- A listing that is made of the bodies of the functions of a coherent program. -/
theorem listedAs_addBodies (hp : p.Coherent) {B : BlockId → List Statement → Prop}
    {bodies : List (FunctionId × Body)}
    (hall : List.Forall₂ (fun f function => function.1 = f ∧
      List.Forall₂ (fun b part => part.1 = b ∧ B b part.2) (p.blocksOf f) function.2)
      p.listedFunctions bodies) (discard : Bool) :
    p.ListedAs B discard (Listing.addBodies {}
      (bodies.map fun function => (function.1, function.2.listed discard))) := by
  obtain ⟨hfunctions, hbodies⟩ := forall₂_fst hall
  have hplaces := map_fst_allParts discard hfunctions fun function hfunction =>
    (forall₂_fst (hbodies function hfunction)).1
  have hempty : Listing.Contiguous {} := Listing.contiguous_of_empty rfl rfl
  have hnodup : ((([] : List Place) ++ (Body.allParts (bodies.map fun function =>
      (function.1, function.2.listed discard))).map Prod.fst).map Place.block).Nodup := by
    rw [hplaces]
    exact hp.listedPlaces_nodup
  have hblocks := (hempty.addParts hnodup).2
  refine ⟨?_, ?_, hempty.addBodies hnodup, ?_, ?_⟩
  · have hfst : (bodies.map fun function => (function.1, function.2.listed discard)).map Prod.fst =
        p.listedFunctions := by
      rw [List.map_map, ← hfunctions]
      rfl
    refine (Listing.functions_addBodies ?_).trans hfst
    exact (congrArg List.Nodup hfst).mpr p.listedFunctions_nodup
  · exact Listing.blocks_addBodies.trans (hblocks.trans hplaces)
  · exact Listing.RecordsReturns.addBodies hempty (fun f => rfl) hnodup
  · -- a listed block stands in one body only, so its statements are those that it has there
    intro place hplace
    rw [Listing.blocks_addBodies, hblocks] at hplace
    obtain ⟨part, hpart, rfl⟩ := List.mem_map.1 hplace
    obtain ⟨function', hfunction', hin⟩ := List.mem_flatMap.1 hpart
    obtain ⟨function, hfunction, rfl⟩ := List.mem_map.1 hfunction'
    obtain ⟨listed, hlisted, rfl⟩ := List.mem_map.1 hin
    obtain ⟨all, hmem, hsub, heq⟩ := Body.exists_of_mem_listed hlisted
    have hat := hempty.statementsAt_part hnodup hpart
    rw [← Listing.statementsAt_addBodies] at hat
    refine ⟨all, (forall₂_fst (hbodies function hfunction)).2 _ hmem, ?_, ?_⟩
    · exact hat ▸ hsub
    · intro hdiscard
      exact hat.trans (heq hdiscard)

/-- What is known of the statements of each instruction is known of the listing. -/
theorem Walks.listedAs {I : Workspace → Prop} {Q : InstId → List Statement → Prop}
    (hQ : Walks p I Q) (hp : p.Coherent) (hw : I w) {discard : Bool} {l : Listing}
    (h : Pass.outcome (Workspace.transcribe discard) w = (.ok l, later)) :
    p.ListedAs (fun b all => ∃ lists, List.Forall₂ Q (p.instsOf b) lists ∧ all = lists.flatten)
      discard l := by
  obtain ⟨⟨bodies, hall, rfl⟩, -⟩ := hQ.transcribe discard hw h
  refine listedAs_addBodies hp ?_ discard
  exact hall

/-- A listing says of a coherent program what it should. -/
theorem listedAs_of_transcribe (hw : w.Views p) (hp : p.Coherent) {discard : Bool} {l : Listing}
    (h : Pass.outcome (transcribe discard) w = (.ok l, later)) :
    p.ListedAs p.BlockTranscript discard l := by
  obtain ⟨bodies, hall, rfl⟩ := transcribe_ok hw h
  exact listedAs_addBodies hp hall discard

/-- **Listing a program says exactly what is in it.**  The functions are those with a body that are
not the compiler's own, in order, and the blocks are theirs, in layout order.  The numbers run
through the blocks, and each block lists the statements of its instructions, in order, without
those that serve debugging or carry further metadata: for each argument that a call hands to a
parameter a statement that does so, and then the statement of the instruction.  What a function
returns is the operand of its last return that has one. -/
theorem transcribe_exact {l : Listing} (hw : w.Reused)
    (h : (transcribe false).outcome w = (.ok l, later)) : w.program.ListedExactly l := by
  have hlisted := listedAs_of_transcribe ⟨rfl, hw.sound⟩ hw.coherent h
  refine ⟨hlisted.functions, hlisted.blocks, hlisted.contiguous.numbers,
    hlisted.contiguous.statements, fun place hplace => ?_, hlisted.returns⟩
  obtain ⟨all, htranscript, -, hsame⟩ := hlisted.statements place hplace
  rw [hsame rfl]
  exact htranscript

/-- A function that calls itself with an argument too few, a function of the compiler's own, and
one that is only declared. -/
def selfCalling : Program := .ofEdits "calls"
  [.function "walk" (.int 32) [("n", .pointer (.int 32)), ("depth", .int 32)],
    .block ⟨0⟩ "entry",
    .last ⟨0⟩ { opcode := .load, operands := [.value ⟨1⟩], type := .int 32, line := some 1 },
    .last ⟨0⟩ { opcode := .call, operands := [.value ⟨1⟩, .value ⟨0⟩], type := .int 32,
                line := some 2 },
    .last ⟨0⟩ { opcode := .fence, debug := true },
    .last ⟨0⟩ { opcode := .ret, operands := [.value ⟨4⟩], line := some 3 },
    .function "llvm.trap" .void [],
    .block ⟨1⟩ "entry",
    .last ⟨1⟩ { opcode := .ret },
    .function "puts" .void []]

/-- The workspace after the program has been listed once. -/
def selfCallingListed : Workspace := ((transcribe false).outcome { program := selfCalling }).2

theorem transcribe_exact_selfCalling :
    ∃ l later, (transcribe false).outcome selfCallingListed = (.ok l, later) ∧
      selfCallingListed.program.ListedExactly l := by
  have hreused : selfCallingListed.Reused :=
    .listed (.fresh (Program.assembled_ofEdits _ _)) false
  have hok : ((transcribe false).outcome selfCallingListed).1.isOk = true := by decide +kernel
  obtain ⟨l, later, h⟩ := Pass.exists_outcome_of_isOk hok
  exact ⟨l, later, h, transcribe_exact hreused h⟩

end Workspace

end LevelIr
