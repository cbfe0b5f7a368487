import LevelIr.Proofs.Listing.WellBuilt
import LevelIr.Proofs.Machine

/-!
# Handing over arguments

Before a call of a function with a body, a listing hands the arguments to the parameters, one after
the other and in their order.  A call hands them over all at once.  The two differ if an argument is
a parameter that has been given another word before, as it can be where a function calls itself.

* `Machine.handOver` : assignments one after the other.
* `Machine.handOver_eq_iff` : when each of them gives the word that there was at the start.
* `Program.BlockTranscript.exists_split` : where the statements of an instruction stand.
* `Program.BlockTranscript.exists_bindings` : the statements that hand over the arguments of a call.
* `Workspace.run_bindings_iff` : when they do what the call does.
* `Workspace.run_bindings_shifted` : a function that calls itself with its own parameter in another
  place.
-/

namespace LevelIr

/-! ### Assignments one after the other -/

namespace Machine

/-- Gives the first value of each pair the word of the second one, one after the other. -/
def handOver {W : Type} (env : ValueId → W) (pairs : List (ValueId × ValueId)) : ValueId → W :=
  pairs.foldl (fun env pair => Function.update env pair.1 (env pair.2)) env

section HandOver

variable {W : Type} (env : ValueId → W) {pairs : List (ValueId × ValueId)}

theorem handOver_concat (pairs : List (ValueId × ValueId)) (last : ValueId × ValueId) :
    handOver env (pairs ++ [last]) =
      Function.update (handOver env pairs) last.1 (handOver env pairs last.2) := by
  rw [handOver, List.foldl_append]
  rfl

theorem handOver_of_not_mem {v : ValueId} (h : v ∉ pairs.map Prod.fst) :
    handOver env pairs v = env v := by
  induction pairs using List.reverseRecOn with
  | nil => rfl
  | append_singleton pairs last ih =>
    rw [List.map_append, List.mem_append, not_or] at h
    have hne : v ≠ last.1 := fun e => h.2 (e ▸ List.mem_singleton_self _)
    rw [handOver_concat, Function.update_of_ne hne, ih h.1]

end HandOver

/-- **Assignments one after the other act like assignments all at once** if and only if no value is
read after it has been given the word of another one. -/
theorem handOver_eq_iff {pairs : List (ValueId × ValueId)} (hnodup : (pairs.map Prod.fst).Nodup) :
    (∀ (W : Type) (env : ValueId → W), ∀ pair ∈ pairs, handOver env pairs pair.1 = env pair.2) ↔
      pairs.Pairwise fun earlier later => later.2 = earlier.1 → earlier.2 = earlier.1 := by
  induction pairs using List.reverseRecOn with
  | nil => simp
  | append_singleton pairs last ih =>
    rw [List.map_append, List.nodup_append] at hnodup
    have hne {pair : ValueId × ValueId} (hpair : pair ∈ pairs) : pair.1 ≠ last.1 :=
      hnodup.2.2 _ (List.mem_map_of_mem hpair) _ (List.mem_singleton_self _)
    -- the last assignment leaves the values alone that were set before it
    have hlast {W : Type} (env : ValueId → W) :
        (∀ pair ∈ pairs ++ [last], handOver env (pairs ++ [last]) pair.1 = env pair.2) ↔
          (∀ pair ∈ pairs, handOver env pairs pair.1 = env pair.2) ∧
            handOver env pairs last.2 = env last.2 := by
      rw [handOver_concat, List.forall_mem_append, List.forall_mem_singleton, Function.update_self]
      refine and_congr_left' (forall₂_congr fun pair hpair => ?_)
      rw [Function.update_of_ne (hne hpair)]
    simp only [hlast]
    rw [List.pairwise_append, ← ih hnodup.1]
    constructor
    · intro h
      refine ⟨fun W env => (h W env).1, List.pairwise_singleton _ _, ?_⟩
      rintro earlier hearlier _ (_ | ⟨_, ⟨⟩⟩) hread
      -- tell the word of the overwritten value from all others
      obtain ⟨hpairs, hend⟩ := h Bool fun v => decide (v = earlier.1)
      rw [hread, hpairs earlier hearlier, decide_eq_true (rfl : earlier.1 = earlier.1)] at hend
      exact of_decide_eq_true hend
    · rintro ⟨hpairs, -, hread⟩ W env
      refine ⟨hpairs W env, ?_⟩
      by_cases hset : last.2 ∈ pairs.map Prod.fst
      · obtain ⟨earlier, hearlier, heq⟩ := List.mem_map.1 hset
        have hsame := hread earlier hearlier last (List.mem_singleton_self _) heq.symm
        rw [← heq, hpairs W env earlier hearlier, hsame]
      · exact handOver_of_not_mem env hset

/-! ### The statements that hand over arguments -/

/-- The statement gives the first value of the pair the word of the second one. -/
structure Binds (b : Statement) (pair : ValueId × ValueId) : Prop where
  load : b.isLoad = true
  formal : b.defined? = some pair.1
  actual : ∃ reference, b.operands = [reference] ∧ reference.IsAt 0 pair.2

section Run

variable {W : Type} {σ : Machine W}

theorem read?_of_isAt {r : Reference} {v : ValueId} (h : r.IsAt 0 v) :
    σ.read? r = some (σ.env v) := by
  rw [read?, h.2, h.1]
  rfl

theorem run_of_binds [DecidableEq W] {effect : Effect W} {bs : List Statement}
    {pairs : List (ValueId × ValueId)} (h : List.Forall₂ Binds bs pairs) :
    run effect σ bs = { σ with env := handOver σ.env pairs } := by
  induction h generalizing σ with
  | nil => rfl
  | @cons b pair bs pairs hb _ ih =>
    obtain ⟨reference, hoperands, hat⟩ := hb.actual
    have hexec : exec effect σ b =
        { σ with env := Function.update σ.env pair.1 (σ.env pair.2) } := by
      rw [exec, if_pos hb.load, hoperands, hb.formal, List.head?_cons, Option.bind_some,
        read?_of_isAt hat]
    have hstep : run effect σ (b :: bs) = run effect (exec effect σ b) bs := rfl
    rw [hstep, ih, hexec]
    rfl

end Run

end Machine

namespace Program

variable {p : Program}

theorem Coherent.params_nodup (hp : p.Coherent) {f : FunctionId} {function : Function}
    (h : p.function? f = some function) : function.params.Nodup := by
  refine List.nodup_iff_getElem?_ne_getElem?.2 fun j k hjk hk heq => ?_
  have hv : function.params[k]? = some function.params[k] := List.getElem?_eq_getElem hk
  obtain ⟨value, hvalue, horigin⟩ := hp.value_of_param h hv
  obtain ⟨value', hvalue', horigin'⟩ := hp.value_of_param h (heq.trans hv)
  obtain rfl : value = value' := Option.some.inj (hvalue.symm.trans hvalue')
  have hsame : j = k := by
    rw [horigin] at horigin'
    cases horigin'
    rfl
  omega

section Transcript

variable {i : InstId} {inst : Inst} {bindings : List Statement} {s : Statement}

/-- The statements before a call hand its arguments to the parameters of the function. -/
theorem Transcript.binds (h : p.Transcript i inst bindings s) :
    List.Forall₂ Machine.Binds bindings ((p.boundParams inst).zip inst.arguments) := by
  refine List.forall₂_iff_get.2 ⟨by rw [h.length, List.length_zip], fun k hk hk' => ?_⟩
  obtain ⟨formal, operand, actual, hformal, hoperand, hactual, hb⟩ :=
    h.binding k _ (List.getElem?_eq_getElem hk)
  rw [List.length_zip] at hk'
  obtain ⟨_, rfl⟩ := List.getElem?_eq_some_iff.1 hformal
  obtain ⟨hlt, rfl⟩ := List.getElem?_eq_some_iff.1 hactual
  rcases Workspace.boundParams_of_transcribes h.own with ⟨f, formals, haction, -⟩ | ⟨-, hparams⟩
  · obtain ⟨-, -, hargs, -⟩ := h.own.call f formals haction
    have hat := (List.forall₂_iff_get.1 hargs).2 k (by omega) hlt
    rw [List.get_eq_getElem, hb]
    refine ⟨rfl, ?_, _, rfl, ?_⟩
    · simpa [Statement.bindArgument, Statement.make, Statement.defined?, Statement.isStore,
        Reference.value] using hoperand
    · simpa using hat
  · simp [hparams] at hformal

section Call

variable {f : FunctionId} {formals : List ValueId}

theorem Transcript.boundParams_eq (h : p.Transcript i inst bindings s)
    (haction : s.action = .call (.direct f formals)) : p.boundParams inst = formals := by
  rcases Workspace.boundParams_of_transcribes h.own with
    ⟨f', formals', haction', hparams⟩ | ⟨hnone, -⟩
  · rw [haction] at haction'
    cases haction'
    exact hparams
  · exact absurd haction (hnone f formals)

theorem Transcript.formals_nodup (h : p.Transcript i inst bindings s) (hp : p.Coherent)
    (haction : s.action = .call (.direct f formals)) : formals.Nodup := by
  obtain ⟨-, -, -, function, hfunction, rfl⟩ := h.own.call f formals haction
  split
  · exact List.nodup_nil
  · exact hp.params_nodup hfunction

/-- The references of a call are words of the arguments. -/
theorem Transcript.forall₂_zip_operands (h : p.Transcript i inst bindings s)
    (haction : s.action = .call (.direct f formals)) :
    List.Forall₂ (fun pair values => pair.1 = values.1 ∧ pair.2.IsAt 0 values.2)
      (formals.zip s.operands) (formals.zip inst.arguments) := by
  obtain ⟨-, -, hargs, -⟩ := h.own.call f formals haction
  refine List.forall₂_iff_get.2 ⟨?_, fun k hk hk' => ?_⟩
  · rw [List.length_zip, List.length_zip, hargs.length_eq]
  · rw [List.length_zip] at hk hk'
    have hat := (List.forall₂_iff_get.1 hargs).2 k (by omega) (by omega)
    simpa using hat

theorem BlockTranscript.binding_of_isCall {b : BlockId} {all : List Statement}
    (h : p.BlockTranscript b all) (hs : s ∈ all) (hcall : s.isCall = true) : s.binding = false := by
  obtain ⟨i, inst, bindings, own, -, hgroup, hmem⟩ := h.exists_group hs
  rcases List.mem_append.1 hmem with hb | hown
  · obtain ⟨_, _, _, -, -, -, rfl⟩ := hgroup.exists_binding hb
    cases hcall
  · rw [List.mem_singleton.1 hown]
    exact hgroup.own.binding

theorem BlockTranscript.binding_of_call {b : BlockId} {all : List Statement}
    (h : p.BlockTranscript b all) (hs : s ∈ all)
    (haction : s.action = .call (.direct f formals)) : s.binding = false :=
  h.binding_of_isCall hs (by rw [Statement.isCall, haction])

end Call

end Transcript

theorem source_mem_of_groups {insts : List InstId} {groups : List (List Statement × Statement)}
    (h : List.Forall₂ (fun i group => ∃ inst, p.inst? i = some inst ∧
      p.Transcript i inst group.1 group.2) insts groups) {t : Statement}
    (ht : t ∈ groups.flatMap fun group => group.1 ++ [group.2]) : t.source ∈ insts := by
  induction h with
  | nil => cases ht
  | cons hgroup _ ih =>
    obtain ⟨inst, -, htranscript⟩ := hgroup
    rw [List.flatMap_cons] at ht
    rcases List.mem_append.1 ht with ht | ht
    · exact htranscript.source_eq ht ▸ List.mem_cons_self
    · exact List.mem_cons_of_mem _ (ih ht)

theorem Transcript.binding_of_mem {i : InstId} {inst : Inst} {bindings : List Statement}
    {s b : Statement} (h : p.Transcript i inst bindings s) (hb : b ∈ bindings) :
    b.binding = true := by
  obtain ⟨_, _, _, -, -, -, rfl⟩ := h.exists_binding hb
  rfl

/-- What is handed over in a block, if the other statements belong to other instructions. -/
theorem Transcript.filter_split {i : InstId} {inst : Inst} {bindings before after : List Statement}
    {s : Statement} (h : p.Transcript i inst bindings s)
    (hothers : ∀ t ∈ before ++ after, t.source ≠ i) :
    (before ++ bindings ++ s :: after).filter (fun t => t.binding && t.source = i) = bindings := by
  have hbefore : before.filter (fun t => t.binding && t.source = i) = [] :=
    List.filter_eq_nil_iff.2 fun t ht => by simp [hothers t (List.mem_append_left _ ht)]
  have hafter : after.filter (fun t => t.binding && t.source = i) = [] :=
    List.filter_eq_nil_iff.2 fun t ht => by simp [hothers t (List.mem_append_right _ ht)]
  have hkept : bindings.filter (fun t => t.binding && t.source = i) = bindings := by
    refine List.filter_eq_self.2 fun t ht => ?_
    simp [h.binding_of_mem ht, h.source_eq (List.mem_append_left _ ht)]
  rw [List.filter_append, List.filter_append, hbefore, hkept,
    List.filter_cons_of_neg (by simp [h.own.binding]), hafter, List.nil_append, List.append_nil]

section Split

variable {b : BlockId} {all : List Statement} (h : p.BlockTranscript b all) (hp : p.Coherent)
  {s : Statement} (hs : s ∈ all) (hbinding : s.binding = false)

include h hp hs hbinding

/-- What an instruction hands over stands right before its own statement, and nothing else in the
block is made from it. -/
theorem BlockTranscript.exists_split :
    ∃ inst bindings before after, p.inst? s.source = some inst ∧
      p.Transcript s.source inst bindings s ∧ all = before ++ bindings ++ s :: after ∧
      ∀ t ∈ before ++ after, t.source ≠ s.source := by
  have hnodup := hp.listedInsts_nodup b
  obtain ⟨groups, hgroups, rfl⟩ := h
  generalize p.listedInsts b = insts at hgroups hnodup
  induction hgroups with
  | nil => cases hs
  | @cons i group insts groups hgroup hgroups ih =>
    obtain ⟨inst, hinst, htranscript⟩ := hgroup
    rw [List.nodup_cons] at hnodup
    rw [List.flatMap_cons] at hs ⊢
    rcases List.mem_append.1 hs with hmem | hmem
    · obtain rfl : s = group.2 := by
        rcases List.mem_append.1 hmem with ht | ht
        · exact absurd (htranscript.binding_of_mem ht) (by simp [hbinding])
        · exact List.mem_singleton.1 ht
      have hsource : group.2.source = i := htranscript.own.source
      refine ⟨inst, group.1, [], groups.flatMap fun group => group.1 ++ [group.2], hsource ▸ hinst,
        hsource ▸ htranscript, by simp, fun t ht heq => ?_⟩
      exact hnodup.1 (hsource ▸ heq ▸ source_mem_of_groups hgroups ht)
    · -- the statements before belong to another instruction
      obtain ⟨inst', bindings, before, after, hinst', hown, heq, hothers⟩ := ih hmem hnodup.2
      refine ⟨inst', bindings, group.1 ++ [group.2] ++ before, after, hinst', hown, by simp [heq],
        fun t ht => ?_⟩
      rw [List.append_assoc, List.mem_append] at ht
      rcases ht with ht | ht
      · intro e
        exact hnodup.1 (htranscript.source_eq ht ▸ e ▸ source_mem_of_groups hgroups hmem)
      · exact hothers t ht

/-- The statements of a block that hand over the arguments of a call are those that stand right
before it. -/
theorem BlockTranscript.exists_bindings :
    ∃ inst bindings, p.Transcript s.source inst bindings s ∧
      all.filter (fun t => t.binding && t.source = s.source) = bindings := by
  obtain ⟨inst, bindings, before, after, -, hown, rfl, hothers⟩ := h.exists_split hp hs hbinding
  exact ⟨inst, bindings, hown, hown.filter_split hothers⟩

end Split

end Program

/-! ### The calls of a listing -/

/-- The statements of a block that hand over the arguments of a call. -/
def Listing.bindingsFor (l : Listing) (place : Place) (call : InstId) : List Statement :=
  (l.statementsAt place).filter fun b => b.binding && b.source = call

section Forall₂

variable {α β : Type} {R : α → β → Prop} {xs : List α} {ys : List β}

theorem forall_mem_iff_of_forall₂ {P : α → Prop} {Q : β → Prop} (h : List.Forall₂ R xs ys)
    (hPQ : ∀ x y, R x y → (P x ↔ Q y)) : (∀ x ∈ xs, P x) ↔ ∀ y ∈ ys, Q y := by
  induction h with
  | nil => simp
  | cons hxy _ ih => rw [List.forall_mem_cons, List.forall_mem_cons, hPQ _ _ hxy, ih]

theorem pairwise_iff_of_forall₂ {P : α → α → Prop} {Q : β → β → Prop} (h : List.Forall₂ R xs ys)
    (hPQ : ∀ x y x' y', R x y → R x' y' → (P x x' ↔ Q y y')) : xs.Pairwise P ↔ ys.Pairwise Q := by
  induction h with
  | nil => simp
  | cons hxy hrest ih =>
    rw [List.pairwise_cons, List.pairwise_cons, ih,
      forall_mem_iff_of_forall₂ hrest fun x' y' hxy' => hPQ _ _ x' y' hxy hxy']

end Forall₂

/-- Run one after the other, the statements that hand over the arguments of a call leave every
parameter with the word that its argument had before them, whatever the words are. -/
def Listing.HandsOverAll (l : Listing) (place : Place) (call : Statement)
    (formals : List ValueId) : Prop :=
  ∀ (W : Type) [DecidableEq W] (effect : Effect W) (σ : Machine W),
    ∀ pair ∈ formals.zip call.operands, σ.read? pair.2 =
      some ((Machine.run effect σ (l.bindingsFor place call.source)).env pair.1)

/-- No argument of the call is an earlier parameter that is given anything but itself. -/
def Statement.PassesUnchanged (call : Statement) (formals : List ValueId) : Prop :=
  (formals.zip call.operands).Pairwise fun earlier later =>
    later.2.value = some earlier.1 → earlier.2.value = some earlier.1

namespace Workspace

/-- **When handing over arguments does what a call does.**  In a listing, the statements that hand
over the arguments of a call, run one after the other, leave every parameter with the word that its
argument had before them, whatever the words are, if and only if no argument is an earlier parameter
of the call that is given anything but itself. -/
theorem run_bindings_iff {p : Program} (hp : p.Assembled) {l : Listing} {later : Workspace}
    (h : (transcribe false).outcome { program := p } = (.ok l, later)) {place : Place}
    (hplace : place ∈ l.blocks) {s : Statement} (hs : s ∈ l.statementsAt place) {f : FunctionId}
    {formals : List ValueId} (haction : s.action = .call (.direct f formals)) :
    l.HandsOverAll place s formals ↔ s.PassesUnchanged formals := by
  have hlisted := listedAs_of_transcribe ⟨rfl, Shared.sound_empty⟩ hp.coherent h
  obtain ⟨all, htranscript, -, hall⟩ := hlisted.statements place hplace
  obtain rfl := hall rfl
  obtain ⟨inst, bindings, hgroup, hbindings⟩ :=
    htranscript.exists_bindings hp.coherent hs (htranscript.binding_of_call hs haction)
  have hbinds := hgroup.boundParams_eq haction ▸ hgroup.binds
  have hpairs := hgroup.forall₂_zip_operands haction
  have hnodup : ((formals.zip inst.arguments).map Prod.fst).Nodup := by
    rw [List.zip_eq_zip_take_min, List.map_fst_zip (by simp)]
    exact (hgroup.formals_nodup hp.coherent haction).sublist (List.take_sublist _ _)
  -- the statements assign to the parameters, one after the other
  have hwords {W : Type} [DecidableEq W] (effect : Effect W) (σ : Machine W) :
      (∀ pair ∈ formals.zip s.operands, σ.read? pair.2 =
        some ((Machine.run effect σ (l.bindingsFor place s.source)).env pair.1)) ↔
      ∀ pair ∈ formals.zip inst.arguments,
        Machine.handOver σ.env (formals.zip inst.arguments) pair.1 = σ.env pair.2 := by
    rw [Listing.bindingsFor, hbindings, Machine.run_of_binds hbinds]
    refine forall_mem_iff_of_forall₂ hpairs fun pair values ⟨hformal, hactual⟩ => ?_
    rw [Machine.read?_of_isAt hactual, hformal, Option.some.injEq, eq_comm]
  have hoverwritten := pairwise_iff_of_forall₂ hpairs
    (P := fun earlier later => later.2.value = some earlier.1 → earlier.2.value = some earlier.1)
    (Q := fun earlier later => later.2 = earlier.1 → earlier.2 = earlier.1) (by
      rintro earlier values later values' ⟨hformal, hactual⟩ ⟨-, hactual'⟩
      rw [hactual.2, hactual'.2, hformal, Option.some.injEq, Option.some.injEq])
  rw [Statement.PassesUnchanged, hoverwritten, ← Machine.handOver_eq_iff hnodup]
  constructor
  · intro hrun W env pair hpair
    have : DecidableEq W := Classical.decEq W
    exact (hwords (fun _ _ mem => (mem, env pair.1)) ⟨env, id⟩).1 (hrun W _ _) pair hpair
  · intro hhandOver W _ effect σ
    exact (hwords effect σ).2 (hhandOver W σ.env)

/-- A function that calls itself with a number for its first parameter, and with its first parameter
for the second one. -/
def shifted : Program := .ofEdits "shifted"
  [.value (.int 32) "" (.integer 1),
    .function "f" .void [("a", .int 32), ("b", .int 32)],
    .block ⟨0⟩ "entry",
    .last ⟨0⟩ { opcode := .call, operands := [.value ⟨0⟩, .value ⟨2⟩, .value ⟨1⟩] },
    .last ⟨0⟩ { opcode := .ret }]

/-- The call in the function. -/
def shiftedCall : Statement := (shifted.listing.statementsAt ⟨⟨0⟩, ⟨0⟩⟩).getD 2 default

theorem run_bindings_iff_shifted :
    shifted.Assembled ∧ ∃ later, (transcribe false).outcome { program := shifted } =
        (.ok shifted.listing, later) ∧
      ⟨⟨0⟩, ⟨0⟩⟩ ∈ shifted.listing.blocks ∧
      shiftedCall ∈ shifted.listing.statementsAt ⟨⟨0⟩, ⟨0⟩⟩ ∧
      shiftedCall.action = .call (.direct ⟨0⟩ [⟨2⟩, ⟨3⟩]) ∧
      (shifted.listing.HandsOverAll ⟨⟨0⟩, ⟨0⟩⟩ shiftedCall [⟨2⟩, ⟨3⟩] ↔
        shiftedCall.PassesUnchanged [⟨2⟩, ⟨3⟩]) := by
  have hassembled : shifted.Assembled := Program.assembled_ofEdits _ _
  have hok : ((transcribe false).outcome { program := shifted }).1.isOk = true := by decide +kernel
  obtain ⟨later, hlisting⟩ := Program.outcome_listing hok
  have hplace : ⟨⟨0⟩, ⟨0⟩⟩ ∈ shifted.listing.blocks := by decide +kernel
  have hcall : shiftedCall ∈ shifted.listing.statementsAt ⟨⟨0⟩, ⟨0⟩⟩ := by decide +kernel
  have haction : shiftedCall.action = .call (.direct ⟨0⟩ [⟨2⟩, ⟨3⟩]) := by decide +kernel
  exact ⟨hassembled, later, hlisting, hplace, hcall, haction,
    run_bindings_iff hassembled hlisting hplace hcall haction⟩

/-- **An argument can get lost.**  The first parameter is set to the number before it is handed to
the second one, which gets the number, too. -/
theorem run_bindings_shifted :
    shifted.Assembled ∧ ∃ later, (transcribe false).outcome { program := shifted } =
        (.ok shifted.listing, later) ∧
      ⟨⟨0⟩, ⟨0⟩⟩ ∈ shifted.listing.blocks ∧
      shiftedCall ∈ shifted.listing.statementsAt ⟨⟨0⟩, ⟨0⟩⟩ ∧
      shiftedCall.action = .call (.direct ⟨0⟩ [⟨2⟩, ⟨3⟩]) ∧
      ∃ (effect : Effect Bool) (σ : Machine Bool),
        ∃ pair ∈ [⟨2⟩, ⟨3⟩].zip shiftedCall.operands, σ.read? pair.2 ≠
          some ((Machine.run effect σ
            (shifted.listing.bindingsFor ⟨⟨0⟩, ⟨0⟩⟩ shiftedCall.source)).env pair.1) := by
  have hok : ((transcribe false).outcome { program := shifted }).1.isOk = true := by decide +kernel
  obtain ⟨later, hlisting⟩ := Program.outcome_listing hok
  refine ⟨Program.assembled_ofEdits _ _, later, hlisting, by decide +kernel, by decide +kernel,
    by decide +kernel, fun _ _ mem => (mem, false), ⟨fun v => decide (v = ⟨2⟩), id⟩, ?_⟩
  decide +kernel

end Workspace

end LevelIr
