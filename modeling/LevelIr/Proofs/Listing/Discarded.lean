import LevelIr.Proofs.Listing.Rebuild
import LevelIr.Proofs.Listing.Transcript

/-!
# What is discarded with pointers

A listing can leave out what depends on pointers of the source program.  In each function it then
leaves out, round after round, the statements that touch a pointer, those that read what a statement
that is left out defines, and those that hand an argument to a call that is left out.

Operands and the target of a store are looked at, by their own values.  The value that an indirect
call goes through is not, and neither are the parts of an element address: a statement that stays
can mention a value in these ways whose definition is left out.

* `Statement.Tainted` : statements that depend on pointers, by induction.
* `Taint.spoils_of_iff` : these are the statements that are left out in the end.
* `Workspace.simulates_transcribe` : the listings of a program with and without them are made from
  the same bodies.
* `Workspace.transcribe_discards` : what exactly is left out, and what can still be mentioned.
* `Workspace.transcribe_through` : an indirect call through a value that nothing defines any more.
-/

namespace LevelIr

/-! ### What is missing in the end -/

/-- A statement among `ss` depends on a pointer of the source program: it touches one, it reads a
value that a statement defines that depends on one, or it hands an argument to a call that does. -/
inductive Statement.Tainted (ss : List Statement) : Statement → Prop where
  | pointer {s : Statement} (h : s.pointer = true) : Tainted ss s
  | reads {s u : Statement} {r : Reference} {v : ValueId} (hu : u ∈ ss) (h : Tainted ss u)
      (hdefined : u.defined? = some v) (hr : r ∈ s.reads) (hv : r.value = some v) : Tainted ss s
  | binding {s u : Statement} (hu : u ∈ ss) (h : Tainted ss u) (hcall : u.isCall = true)
      (hbinding : s.binding = true) (hsource : u.source = s.source) : Tainted ss s

namespace Taint

variable {taint later : Taint} {s : Statement} {left : List Statement}

/-- Whatever is missing from `taint` is missing from `later`. -/
structure Within (taint later : Taint) : Prop where
  values : taint.values ⊆ later.values
  calls : taint.calls ⊆ later.calls

theorem within_refl (taint : Taint) : taint.Within taint := ⟨fun _ h => h, fun _ h => h⟩

theorem Within.trans {last : Taint} (h : taint.Within later) (h' : later.Within last) :
    taint.Within last :=
  ⟨List.Subset.trans h.values h'.values, List.Subset.trans h.calls h'.calls⟩

theorem spoils_iff : taint.spoils s = true ↔ s.pointer = true ∨
    (∃ r ∈ s.reads, ∃ v, r.value = some v ∧ v ∈ taint.values) ∨
      (s.binding = true ∧ s.source ∈ taint.calls) := by
  simp [spoils, Option.any_eq_true, or_assoc]

theorem Within.spoils (h : taint.Within later) (hs : taint.spoils s = true) :
    later.spoils s = true := by
  rw [spoils_iff] at hs ⊢
  refine hs.imp_right (Or.imp ?_ ?_)
  · rintro ⟨r, hr, v, hv, hmem⟩
    exact ⟨r, hr, v, hv, h.values hmem⟩
  · rintro ⟨hbinding, hmem⟩
    exact ⟨hbinding, h.calls hmem⟩

theorem mem_values_foldl {out : List Statement} {v : ValueId} :
    v ∈ (out.foldl leaveOut taint).values ↔
      v ∈ taint.values ∨ ∃ s ∈ out, s.defined? = some v := by
  induction out generalizing taint with
  | nil => simp
  | cons s out ih =>
    rw [List.foldl_cons, ih]
    simp [leaveOut]
    tauto

theorem mem_calls_foldl {out : List Statement} {i : InstId} :
    i ∈ (out.foldl leaveOut taint).calls ↔
      i ∈ taint.calls ∨ ∃ s ∈ out, s.isCall = true ∧ s.source = i := by
  induction out generalizing taint with
  | nil => simp
  | cons s out ih =>
    rw [List.foldl_cons, ih]
    by_cases hs : s.isCall = true <;> simp [leaveOut, hs]
    tauto

theorem within_foldl (out : List Statement) : taint.Within (out.foldl leaveOut taint) :=
  ⟨fun _ h => mem_values_foldl.2 (.inl h), fun _ h => mem_calls_foldl.2 (.inl h)⟩

/-- Induction along the rounds. -/
theorem spread_rounds {motive : Taint → List Statement → Prop}
    (round : ∀ taint left, (∃ s ∈ left, taint.spoils s = true) →
      motive ((left.filter taint.spoils).foldl leaveOut taint) (left.filter (!taint.spoils ·)) →
      motive taint left)
    (done : ∀ taint left, (¬∃ s ∈ left, taint.spoils s = true) → motive taint left)
    (taint : Taint) (left : List Statement) : motive taint left := by
  induction hn : left.length using Nat.strongRecOn generalizing taint left with
  | _ n ih =>
    by_cases h : ∃ s ∈ left, taint.spoils s = true
    · refine round taint left h (ih _ ?_ _ _ rfl)
      obtain ⟨s, hs, hspoiled⟩ := h
      exact hn ▸ List.length_filter_lt_length_iff_exists.2 ⟨s, hs, by simp [hspoiled]⟩
    · exact done taint left h

theorem spread_of_exists (h : ∃ s ∈ left, taint.spoils s = true) :
    taint.spread left =
      ((left.filter taint.spoils).foldl leaveOut taint).spread (left.filter (!taint.spoils ·)) := by
  rw [spread, dif_pos h]

theorem spread_of_not_exists (h : ¬∃ s ∈ left, taint.spoils s = true) :
    taint.spread left = taint := by
  rw [spread, dif_neg h]

theorem within_spread (taint : Taint) (left : List Statement) :
    taint.Within (taint.spread left) := by
  induction taint, left using spread_rounds with
  | round taint left h ih =>
    rw [spread_of_exists h]
    exact (within_foldl _).trans ih
  | done taint left h =>
    rw [spread_of_not_exists h]
    exact within_refl taint

/-- What the statements define that are left out in the end is missing. -/
theorem mem_spread_of_spoils (taint : Taint) {left : List Statement} {s : Statement}
    (hs : s ∈ left) (hspoiled : (taint.spread left).spoils s = true) :
    (∀ v, s.defined? = some v → v ∈ (taint.spread left).values) ∧
      (s.isCall = true → s.source ∈ (taint.spread left).calls) := by
  induction taint, left using spread_rounds with
  | round taint left h ih =>
    rw [spread_of_exists h] at hspoiled ⊢
    by_cases hnow : taint.spoils s = true
    · -- left out in this round, so what it defines is missing from now on
      have hout : s ∈ left.filter taint.spoils := List.mem_filter.2 ⟨hs, hnow⟩
      have hlater := within_spread ((left.filter taint.spoils).foldl leaveOut taint)
        (left.filter (!taint.spoils ·))
      exact ⟨fun v hv => hlater.values (mem_values_foldl.2 (.inr ⟨s, hout, hv⟩)),
        fun hcall => hlater.calls (mem_calls_foldl.2 (.inr ⟨s, hout, hcall, rfl⟩))⟩
    · exact ih (List.mem_filter.2 ⟨hs, by simpa using hnow⟩) hspoiled
  | done taint left h =>
    rw [spread_of_not_exists h] at hspoiled
    exact absurd ⟨s, hs, hspoiled⟩ h

/-- All that is missing belongs to statements that depend on pointers. -/
structure Sound (ss : List Statement) (taint : Taint) : Prop where
  values : ∀ v ∈ taint.values, ∃ u ∈ ss, u.Tainted ss ∧ u.defined? = some v
  calls : ∀ i ∈ taint.calls, ∃ u ∈ ss, u.Tainted ss ∧ u.isCall = true ∧ u.source = i

theorem Sound.tainted {ss : List Statement} (h : taint.Sound ss) (hs : taint.spoils s = true) :
    s.Tainted ss := by
  rcases spoils_iff.1 hs with hpointer | ⟨r, hr, v, hv, hmem⟩ | ⟨hbinding, hmem⟩
  · exact .pointer hpointer
  · obtain ⟨u, hu, htainted, hdefined⟩ := h.values v hmem
    exact .reads hu htainted hdefined hr hv
  · obtain ⟨u, hu, htainted, hcall, hsource⟩ := h.calls _ hmem
    exact .binding hu htainted hcall hbinding hsource

theorem Sound.spread {ss : List Statement} (h : taint.Sound ss) (hleft : left ⊆ ss) :
    (taint.spread left).Sound ss := by
  induction taint, left using spread_rounds with
  | round taint left hexists ih =>
    rw [spread_of_exists hexists]
    have hout {s : Statement} (hs : s ∈ left.filter taint.spoils) : s ∈ ss ∧ s.Tainted ss := by
      obtain ⟨hs, hspoiled⟩ := List.mem_filter.1 hs
      exact ⟨hleft hs, h.tainted hspoiled⟩
    refine ih ⟨fun v hv => ?_, fun i hi => ?_⟩ fun s hs => hleft (List.mem_filter.1 hs).1
    · rcases mem_values_foldl.1 hv with hv | ⟨s, hs, hdefined⟩
      · exact h.values v hv
      · exact ⟨s, (hout hs).1, (hout hs).2, hdefined⟩
    · rcases mem_calls_foldl.1 hi with hi | ⟨s, hs, hcall⟩
      · exact h.calls i hi
      · exact ⟨s, (hout hs).1, (hout hs).2, hcall⟩
  | done taint left hnone =>
    rw [spread_of_not_exists hnone]
    exact h

/-- **The statements that are left out in the end are those that depend on pointers.** -/
theorem spoils_of_iff (ss : List Statement) (s : Statement) :
    (Taint.of ss).spoils s = true ↔ s.Tainted ss := by
  constructor
  · have hempty : Sound ss {} := ⟨by simp, by simp⟩
    exact (hempty.spread (List.Subset.refl ss)).tainted
  · intro h
    induction h with
    | pointer hpointer => exact spoils_iff.2 (.inl hpointer)
    | reads hu _ hdefined hr hv ih =>
      exact spoils_iff.2 (.inr (.inl ⟨_, hr, _, hv, (mem_spread_of_spoils {} hu ih).1 _ hdefined⟩))
    | binding hu _ hcall hbinding hsource ih =>
      have hmem := (mem_spread_of_spoils {} hu ih).2 hcall
      exact spoils_iff.2 (.inr (.inr ⟨hbinding, hsource ▸ hmem⟩))

end Taint

/-! ### The log does not matter -/

namespace Workspace

/-- The workspaces differ in their logs at most, and their program is `p` up to names. -/
structure Alike (p : Program) (w u : Workspace) : Prop where
  program : u.program = w.program
  context : u.context = w.context
  nameless : w.program.nameless = p.nameless

section Alike

variable {p : Program}

theorem simulates_report (event other : Event) :
    Pass.Simulates (Alike p) Eq (report event) (report other) := by
  intro w u _ later h hlater
  cases hlater
  exact ⟨(), _, rfl, rfl, h.program, h.context, h.nameless⟩

theorem simulates_nameValue (v : ValueId) :
    Pass.Simulates (Alike p) Eq (nameValue v) (nameValue v) := by
  intro w u _ later h hlater
  have hnameless := ((keeps_nameValue v).of_outcome hlater).nameless.trans h.nameless
  rw [outcome_nameValue] at hlater
  cases hassign : w.context.names.assign w.program v with
  | error fault =>
    rw [hassign] at hlater
    cases hlater
  | ok assigned =>
    obtain ⟨names, q⟩ := assigned
    rw [hassign] at hlater
    cases hlater
    refine ⟨(), { u with program := q, context := { u.context with names } }, ?_, rfl, rfl, ?_,
      hnameless⟩
    · rw [outcome_nameValue, h.program, h.context, hassign]
    · rw [h.context]

theorem simulates_onShared {α : Type} (pass : Pass Shared α) :
    Pass.Simulates (Alike p) Eq (onShared pass) (onShared pass) := by
  intro w u a later h hlater
  rw [outcome_onShared] at hlater
  obtain ⟨hanswer, rfl⟩ := Prod.mk.inj hlater
  refine ⟨a, { u with context := { w.context with shared := (pass.outcome w.context.shared).2 } },
    ?_, rfl, h.program, rfl, h.nameless⟩
  rw [outcome_onShared, h.context, hanswer]

theorem simulates_toStatement (i : InstId) :
    Pass.Simulates (Alike p) Eq (toStatement i) (toStatement i) :=
  Pass.simulates_get_bind fun w u h => by
    rw [h.program, h.context]
    exact simulates_onShared _

theorem simulates_sharedOperand (v : ValueId) :
    Pass.Simulates (Alike p) Eq (sharedOperand v) (sharedOperand v) :=
  Pass.simulates_get_bind fun w u h => by
    rw [h.program]
    exact simulates_onShared _

theorem simulates_bindArguments (call : Statement) :
    Pass.Simulates (Alike p) Eq (bindArguments call) (bindArguments call) := by
  have hR := Pass.Congruence.simulates (Alike p)
  unfold bindArguments
  split
  · rename_i f formals _
    have hbindings : Pass.Simulates (Alike p) Eq
        ((formals.zip call.operands).mapM fun pair => bindArgument call pair.1 pair.2)
        ((formals.zip call.operands).mapM fun pair => bindArgument call pair.1 pair.2) :=
      hR.mapM fun pair _ => hR.bind (simulates_nameValue pair.1) fun _ =>
        hR.bind (simulates_sharedOperand pair.1) fun _ => hR.pure _
    refine Pass.simulates_get_bind fun w u h => ?_
    rw [h.program]
    refine hR.lift_bind fun function _ => ?_
    split
    · exact hR.bind (simulates_report _ _) fun _ => hbindings
    · exact hbindings
  · exact hR.pure _

theorem simulates_transcribeBlock (b : BlockId) :
    Pass.Simulates (Alike p) Eq (transcribeBlock b) (transcribeBlock b) := by
  have hR := Pass.Congruence.simulates (Alike p)
  have hinst (i : InstId) : Pass.Simulates (Alike p) Eq (transcribeInst i) (transcribeInst i) := by
    refine Pass.simulates_get_bind fun w u h => ?_
    rw [h.program]
    refine hR.lift_bind fun inst _ => ?_
    split
    · exact hR.pure _
    · exact hR.bind (hR.forM fun v _ => simulates_nameValue v) fun _ =>
        hR.bind (simulates_toStatement i) fun s => hR.bind (simulates_report _ _) fun _ =>
          hR.bind (simulates_bindArguments s) fun _ => hR.pure _
  refine Pass.simulates_get_bind fun w u h => ?_
  rw [h.program]
  exact hR.lift_bind fun block _ => hR.bind (hR.mapM fun i _ => hinst i) fun _ => hR.pure _

end Alike

/-! ### Listings with and without pointers -/

section Discard

variable {p : Program}

/-- The same bodies are added, once without what depends on pointers, and once as they are. -/
def Discarding (p : Program) (l all : Listing) (functions : List FunctionId)
    (l' all' : Listing) : Prop :=
  ∃ bodies : List (FunctionId × Body), bodies.map Prod.fst = functions ∧
    (∀ function ∈ bodies, function.2.map Prod.fst = p.blocksOf function.1) ∧
    l' = l.addBodies (bodies.map fun function => (function.1, function.2.listed true)) ∧
    all' = all.addBodies (bodies.map fun function => (function.1, function.2.listed false))

theorem Discarding.append {l all l₁ all₁ l₂ all₂ : Listing} {functions functions' : List FunctionId}
    (h : Discarding p l all functions l₁ all₁) (h' : Discarding p l₁ all₁ functions' l₂ all₂) :
    Discarding p l all (functions ++ functions') l₂ all₂ := by
  obtain ⟨bodies, rfl, hblocks, rfl, rfl⟩ := h
  obtain ⟨bodies', rfl, hblocks', rfl, rfl⟩ := h'
  refine ⟨bodies ++ bodies', List.map_append, ?_, ?_, ?_⟩
  · intro function hfunction
    rcases List.mem_append.1 hfunction with hfunction | hfunction
    · exact hblocks function hfunction
    · exact hblocks' function hfunction
  · rw [List.map_append, Listing.addBodies, Listing.addBodies, Listing.addBodies, List.foldl_append]
  · rw [List.map_append, Listing.addBodies, Listing.addBodies, Listing.addBodies, List.foldl_append]

theorem walks_nameless (p : Program) :
    Walks p (fun w => w.program.nameless = p.nameless) fun _ _ => True where
  nameless _ hw := hw
  log _ _ hw := hw
  inst i _ _ _ hw h := ⟨trivial, ((keeps_transcribeInst i).of_outcome h).nameless.trans hw⟩

theorem simulates_transcribeBody (f : FunctionId) :
    Pass.Simulates (Alike p) (fun kept all => ∃ body : Body, body.map Prod.fst = p.blocksOf f ∧
      kept = body.listed true ∧ all = body.listed false) (transcribeBody true f)
      (transcribeBody false f) := by
  have hR := Pass.Congruence.simulates (Alike p)
  refine Pass.simulates_get_bind fun w u h => ?_
  rw [h.program]
  refine Pass.Simulates.bind (A := fun function other =>
    function = other ∧ p.blocksOf f = function.blocks) (Pass.simulates_lift ?_) ?_
  · intro function hfunction
    refine ⟨function, hfunction, rfl, ?_⟩
    rw [Program.function_eq_ok_iff, Program.function?_of_nameless h.nameless] at hfunction
    rw [Program.blocksOf, hfunction]
    rfl
  · rintro function _ ⟨rfl, hblocks⟩
    have hbody := Pass.yields_mapM (walks_nameless p).transcribeBlock function.blocks
    refine ((hR.mapM fun b _ => simulates_transcribeBlock b).and_yields
      (fun _ _ h => h.nameless) hbody).bind ?_
    rintro body _ ⟨rfl, hbody⟩
    have hkeys := (forall₂_fst (Q := fun _ _ => True) (hbody.imp fun _ _ h => ⟨h.1, trivial⟩)).1
    exact (simulates_report _ _).bind fun _ _ _ =>
      Pass.simulates_pure ⟨body, hkeys.trans hblocks.symm, rfl, rfl⟩

theorem simulates_transcribeFunction (l all : Listing) (f : FunctionId) :
    Pass.Simulates (Alike p) (Discarding p l all [f]) (transcribeFunction true l f)
      (transcribeFunction false all f) := by
  refine (simulates_transcribeBody f).bind ?_
  rintro _ _ ⟨body, hblocks, hkept, hall⟩
  rw [hkept, hall]
  refine Pass.simulates_pure ⟨[(f, body)], rfl, ?_, rfl, rfl⟩
  rintro _ (_ | ⟨_, ⟨⟩⟩)
  exact hblocks

theorem simulates_transcribe (p : Program) :
    Pass.Simulates (Alike p) (Discarding p {} {} p.listedFunctions) (transcribe true)
      (transcribe false) := by
  have hfunctions (functions : List FunctionId) (l all : Listing) :
      Pass.Simulates (Alike p) (Discarding p l all functions)
        (functions.foldlM (transcribeFunction true) l)
        (functions.foldlM (transcribeFunction false) all) := by
    induction functions generalizing l all with
    | nil => exact Pass.simulates_pure ⟨[], rfl, by simp, rfl, rfl⟩
    | cons f functions ih =>
      rw [List.foldlM_cons, List.foldlM_cons]
      exact (simulates_transcribeFunction l all f).bind fun l₁ all₁ hf =>
        (ih l₁ all₁).imp fun _ _ => hf.append
  refine Pass.simulates_get_bind fun w u h => ?_
  rw [h.program, Program.listedFunctions_of_nameless h.nameless]
  exact (hfunctions _ {} {}).bind fun l all hl =>
    (simulates_report _ _).bind fun _ _ _ => Pass.simulates_pure hl

end Discard

end Workspace

/-! ### The statements of a function -/

theorem Body.statements_listed (body : Body) : (body.listed true).statements =
    (Taint.of body.statements).untainted body.statements := by
  rw [Taint.untainted]
  conv_rhs => rw [Body.statements, List.filter_flatMap]
  rw [Body.listed, if_pos rfl, Body.withoutPointers, Body.statements, List.flatMap_map]
  rfl

namespace Workspace

section Bodies

variable {p : Program} (hp : p.Coherent) {bodies : List (FunctionId × Body)}
  (hfunctions : bodies.map Prod.fst = p.listedFunctions)
  (hblocks : ∀ function ∈ bodies, function.2.map Prod.fst = p.blocksOf function.1)
  (discard : Bool)

include hp hfunctions hblocks

theorem nodup_allParts : ((([] : List Place) ++ (Body.allParts (bodies.map fun function =>
    (function.1, function.2.listed discard))).map Prod.fst).map Place.block).Nodup := by
  rw [map_fst_allParts discard hfunctions hblocks]
  exact hp.listedPlaces_nodup

theorem statementsAt_of_mem_body {f : FunctionId} {body : Body} (hbody : (f, body) ∈ bodies)
    {b : BlockId} {statements : List Statement} (hpart : (b, statements) ∈ body.listed discard) :
    (Listing.addBodies {} (bodies.map fun function =>
      (function.1, function.2.listed discard))).statementsAt ⟨f, b⟩ = statements := by
  have hmem : (⟨f, b⟩, statements) ∈ Body.allParts (bodies.map fun function =>
      (function.1, function.2.listed discard)) :=
    List.mem_flatMap.2 ⟨_, List.mem_map_of_mem hbody, List.mem_map_of_mem hpart⟩
  rw [Listing.statementsAt_addBodies]
  exact (Listing.contiguous_of_empty rfl rfl).statementsAt_part
    (nodup_allParts hp hfunctions hblocks discard) hmem

theorem statementsOf_eq_flatMap (f : FunctionId) : (Listing.addBodies {} (bodies.map fun function =>
      (function.1, function.2.listed discard))).statementsOf f =
    bodies.flatMap fun function =>
      if function.1 = f then (function.2.listed discard).statements else [] := by
  rw [Listing.statementsOf_addBodies (Listing.contiguous_of_empty rfl rfl)
    (nodup_allParts hp hfunctions hblocks discard), List.flatMap_map]
  rfl

theorem statementsOf_of_mem_bodies {f : FunctionId} {body : Body} (hbody : (f, body) ∈ bodies) :
    (Listing.addBodies {} (bodies.map fun function =>
      (function.1, function.2.listed discard))).statementsOf f =
      (body.listed discard).statements := by
  have hkeys : (bodies.map Prod.fst).Nodup := hfunctions ▸ p.listedFunctions_nodup
  rw [statementsOf_eq_flatMap hp hfunctions hblocks]
  exact Listing.flatMap_part (fun body : Body => (body.listed discard).statements) hkeys hbody

end Bodies

variable {p : Program} (hp : p.Coherent) {l all : Listing}
  (h : Discarding p {} {} p.listedFunctions l all)

include hp h

theorem Discarding.statementsOf (f : FunctionId) :
    l.statementsOf f = (Taint.of (all.statementsOf f)).untainted (all.statementsOf f) := by
  obtain ⟨bodies, hfunctions, hblocks, rfl, rfl⟩ := h
  by_cases hf : ∃ body, (f, body) ∈ bodies
  · obtain ⟨body, hbody⟩ := hf
    rw [statementsOf_of_mem_bodies hp hfunctions hblocks true hbody,
      statementsOf_of_mem_bodies hp hfunctions hblocks false hbody]
    exact body.statements_listed
  · have hother (discard : Bool) : (bodies.flatMap fun function =>
        if function.1 = f then (function.2.listed discard).statements else []) = [] := by
      refine List.flatMap_eq_nil_iff.2 fun function hfunction => if_neg ?_
      rintro rfl
      exact hf ⟨function.2, hfunction⟩
    rw [statementsOf_eq_flatMap hp hfunctions hblocks,
      statementsOf_eq_flatMap hp hfunctions hblocks, hother, hother]
    rfl

/-- What is left of a block is decided by its function as a whole. -/
theorem Discarding.statementsAt {place : Place} (hplace : place ∈ p.listedPlaces) :
    l.statementsAt place =
      (Taint.of (all.statementsOf place.function)).untainted (all.statementsAt place) := by
  obtain ⟨bodies, hfunctions, hblocks, rfl, rfl⟩ := h
  rw [Program.listedPlaces, ← hfunctions] at hplace
  obtain ⟨_, hf, hb⟩ := List.mem_flatMap.1 hplace
  obtain ⟨⟨f, body⟩, hbody, rfl⟩ := List.mem_map.1 hf
  rw [← hblocks _ hbody, List.map_map] at hb
  obtain ⟨⟨b, statements⟩, hpart, rfl⟩ := List.mem_map.1 hb
  have hleft : (b, (Taint.of body.statements).untainted statements) ∈ body.listed true :=
    List.mem_map.2 ⟨_, hpart, rfl⟩
  have hstatements := statementsOf_of_mem_bodies hp hfunctions hblocks false hbody
  have hall := statementsAt_of_mem_body hp hfunctions hblocks false hbody hpart
  calc _ = (Taint.of body.statements).untainted statements :=
        statementsAt_of_mem_body hp hfunctions hblocks true hbody hleft
    _ = _ := (congrArg₂ (fun ss part => (Taint.of ss).untainted part) hstatements hall).symm

theorem Discarding.mem_statementsAt_iff {place : Place} (hplace : place ∈ p.listedPlaces)
    {t : Statement} (ht : t ∈ all.statementsAt place) :
    t ∈ l.statementsAt place ↔ ¬t.Tainted (all.statementsOf place.function) := by
  rw [h.statementsAt hp hplace, Taint.untainted, List.mem_filter, ← Taint.spoils_of_iff]
  simp [ht]

end Workspace

/-! ### What is discarded, and what is not -/

/-- The values that the address of an element is made of. -/
def Operand.addressParts (operand : Operand) : List ValueId :=
  (operand.address.map ElementAddress.base).toList ++ operand.subscripts.map Subscript.value

/-- The values that a statement mentions without being left out for them: what it refers to in order
to find the function that it calls, and the values that element addresses are made of. -/
def Statement.overlooked (s : Statement) : List ValueId :=
  (s.callee?.bind Callee.target?).toList.flatMap (·.operand.mentions) ++
    s.reads.flatMap (·.operand.addressParts)

theorem Statement.mem_overlooked {s : Statement} {v : ValueId} (hv : v ∈ s.mentions)
    (hreads : ∀ r ∈ s.reads, r.value ≠ some v) : v ∈ s.overlooked := by
  obtain ⟨r, hr, hv⟩ := List.mem_flatMap.1 hv
  rcases List.mem_append.1 hr with hr | hr
  · have hparts : v ∈ r.operand.addressParts := by
      rw [Operand.mentions, List.append_assoc] at hv
      rcases List.mem_append.1 hv with hv | hv
      · exact absurd (Option.mem_toList.1 hv) (hreads r hr)
      · exact hv
    exact List.mem_append_right _ (List.mem_flatMap.2 ⟨r, hr, hparts⟩)
  · exact List.mem_append_left _ (List.mem_flatMap.2 ⟨r, hr, hv⟩)

/-- The listing `l` is `all` without what depends on pointers. -/
structure Listing.LacksTainted (l all : Listing) : Prop where
  functions : l.functions = all.functions
  blocks : l.blocks = all.blocks
  sublist : ∀ f, (l.statementsOf f).Sublist (all.statementsOf f)
  /-- Just those statements are left out that depend on pointers. -/
  not_mem_iff : ∀ f, ∀ t ∈ all.statementsOf f,
    t ∉ l.statementsOf f ↔ t.Tainted (all.statementsOf f)
  /-- What they define is not read any more, but can be overlooked. -/
  mentions : ∀ f, ∀ t ∈ all.statementsOf f, t ∉ l.statementsOf f → ∀ v, t.defined? = some v →
    ∀ s ∈ l.statementsOf f, (∀ r ∈ s.reads, r.value ≠ some v) ∧ (v ∈ s.mentions → v ∈ s.overlooked)

namespace Workspace

/-- **What is discarded with pointers.**  If a program can be listed without what depends on
pointers, then it can be listed as it is, with the same functions and blocks.  In each function just
those statements are left out that depend on pointers.  A statement that stays reads no value that a
statement defines that is left out, neither in an operand nor as the target of a store; it can
mention such a value only in order to find the function that it calls, or in an element address. -/
theorem transcribe_discards {p : Program} (hp : p.Assembled) {l : Listing} {later : Workspace}
    (h : (transcribe true).outcome { program := p } = (.ok l, later)) :
    ∃ all w, (transcribe false).outcome { program := p } = (.ok all, w) ∧ l.LacksTainted all := by
  have hw : Views { program := p } p := ⟨rfl, Shared.sound_empty⟩
  obtain ⟨all, w, hall, hdiscarding, -⟩ := simulates_transcribe p ⟨rfl, rfl, rfl⟩ h
  have hl := listedAs_of_transcribe hw hp.coherent h
  have hl' := listedAs_of_transcribe hw hp.coherent hall
  have hleft (f : FunctionId) := hdiscarding.statementsOf hp.coherent f
  have hmem (f : FunctionId) (t : Statement) : t ∈ l.statementsOf f ↔
      t ∈ all.statementsOf f ∧ ¬t.Tainted (all.statementsOf f) := by
    rw [hleft, Taint.untainted, List.mem_filter, ← Taint.spoils_of_iff]
    simp
  have hout (f : FunctionId) (t : Statement) (ht : t ∈ all.statementsOf f) :
      t ∉ l.statementsOf f ↔ t.Tainted (all.statementsOf f) := by
    rw [hmem]
    tauto
  refine ⟨all, w, hall, hl.functions.trans hl'.functions.symm, hl.blocks.trans hl'.blocks.symm,
    fun f => hleft f ▸ List.filter_sublist, hout, fun f t ht htl v hv s hs => ?_⟩
  have hreads : ∀ r ∈ s.reads, r.value ≠ some v := by
    intro r hr hrv
    exact ((hmem f s).1 hs).2 (.reads ht ((hout f t ht).1 htl) hv hr hrv)
  exact ⟨hreads, fun hmentions => Statement.mem_overlooked hmentions hreads⟩

/-- A loop that loads a function pointer and calls through it; the phi of the loop reads what is
loaded further down. -/
def through : Program := .ofEdits "through"
  [.function "main" .void [],
    .block ⟨0⟩ "entry",
    .block ⟨0⟩ "loop",
    .last ⟨0⟩ { opcode := .alloca, type := .pointer (.pointer (.function .void [])), name := "p" },
    .last ⟨0⟩ { opcode := .br, operands := [.block ⟨1⟩] },
    .last ⟨1⟩ { opcode := .phi, operands := [.value ⟨3⟩, .block ⟨1⟩],
                type := .pointer (.function .void []) },
    .last ⟨1⟩ { opcode := .load, operands := [.value ⟨1⟩], type := .pointer (.function .void []) },
    .last ⟨1⟩ { opcode := .call, operands := [.value ⟨3⟩] },
    .last ⟨1⟩ { opcode := .br, operands := [.block ⟨1⟩] }]

theorem transcribe_discards_through :
    through.Assembled ∧ ∃ l later, (transcribe true).outcome { program := through } =
        (.ok l, later) ∧
      ∃ all w, (transcribe false).outcome { program := through } = (.ok all, w) ∧
        l.LacksTainted all := by
  have hassembled : through.Assembled := Program.assembled_ofEdits _ _
  have hok : ((transcribe true).outcome { program := through }).1.isOk = true := by decide +kernel
  obtain ⟨l, later, h⟩ := Pass.exists_outcome_of_isOk hok
  exact ⟨hassembled, l, later, h, transcribe_discards hassembled h⟩

/-- **A call stays although its target is gone.**  The load of the function pointer is left out, and
with it the phi, but the call through what was loaded is not. -/
theorem transcribe_through :
    through.Assembled ∧ ∃ l later, (transcribe true).outcome { program := through } =
        (.ok l, later) ∧
      ∃ all w, (transcribe false).outcome { program := through } = (.ok all, w) ∧
        ∃ s ∈ l.statementsOf ⟨0⟩, ∃ t ∈ all.statementsOf ⟨0⟩, t ∉ l.statementsOf ⟨0⟩ ∧
          s.isCall = true ∧ t.isLoad = true ∧ ∃ v ∈ s.mentions, t.defined? = some v := by
  have hdiscarded : ((transcribe true).outcome { program := through }).1.isOk = true := by
    decide +kernel
  have hlisted : ((transcribe false).outcome { program := through }).1.isOk = true := by
    decide +kernel
  have hcall : (match ((transcribe true).outcome { program := through }).1,
        ((transcribe false).outcome { program := through }).1 with
      | .ok l, .ok all => decide (∃ s ∈ l.statementsOf ⟨0⟩, ∃ t ∈ all.statementsOf ⟨0⟩,
          t ∉ l.statementsOf ⟨0⟩ ∧ s.isCall = true ∧ t.isLoad = true ∧
            ∃ v ∈ s.mentions, t.defined? = some v)
      | _, _ => false) = true := by
    decide +kernel
  obtain ⟨l, later, hl⟩ := Pass.exists_outcome_of_isOk hdiscarded
  obtain ⟨all, w, hall⟩ := Pass.exists_outcome_of_isOk hlisted
  rw [hl, hall] at hcall
  exact ⟨Program.assembled_ofEdits _ _, l, later, hl, all, w, hall, of_decide_eq_true hcall⟩

end Workspace

end LevelIr
