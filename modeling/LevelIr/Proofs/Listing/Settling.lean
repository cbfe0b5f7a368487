import LevelIr.Proofs.Listing.Reads
import LevelIr.Proofs.Listing.SinglePass
import LevelIr.Proofs.Statement.Uses
import Mathlib.Logic.Function.Iterate

/-!
# Forwarding again and again

A pass can make way for another one: a store that refers to the source of a load may find that the
source is the value of a load itself.  Each time the store goes one level deeper, and no level lies
beyond the reach.  So after as many passes as the reach is wide nothing is left to do.

This needs that a reference that is not replaced in one pass is not replaced in a later one.  It was
not replaced because of its level, of a version, or because its value is used more than once.  A
pass takes away uses only of values that are used once, so the last reason persists too.

* `Statement.Plain` : references to values that loads set mention nothing else.
* `Forward.count_block` : a pass leaves the other values with as many uses as they had.
* `Forward.Deep` : a reference that can still be replaced is deep enough.
* `Listing.Ripe` : what holds of a listing after some passes.
* `Listing.forward_iterate` : after as many passes as the reach is wide, a pass changes nothing.
-/

namespace LevelIr

/-! ### References to loaded values -/

namespace Statement

/-- References to values with `V` mention nothing else, and loads set such values. -/
structure Plain (V : ValueId → Prop) (s : Statement) : Prop where
  uses : ∀ r ∈ s.uses, ∀ v, r.value = some v → V v → r.operand.mentions = [v]
  load : s.isLoad = true → s.binding = false → ∀ v, s.defined? = some v → V v

end Statement

/-- The result of a load is not computed by an operator. -/
theorem Program.Coherent.not_operates_of_load {p : Program} (hp : p.Coherent) {i : InstId}
    {inst : Inst} (hinst : p.inst? i = some inst) (hload : inst.opcode = .load) {v : ValueId}
    (hv : inst.result = some v) (u : ValueId) : ¬p.Operates v u := by
  rintro ⟨value, operator, operands, hvalue, hoperator, -⟩
  obtain ⟨value', hvalue', horigin, -⟩ := hp.value_of_result hinst hv
  obtain rfl : value = value' := Option.some.inj (hvalue.symm.trans hvalue')
  rw [operator?, horigin] at hoperator
  obtain ⟨inst', hfound, hnone⟩ := Pass.bind_eq_ok.1 hoperator
  obtain rfl : inst = inst' := Option.some.inj (hinst.symm.trans ((inst_eq_ok_iff p).1 hfound))
  rw [hload] at hnone
  cases hnone

/-- The operand of the value `v` mentions `v`, and what `v` is computed from. -/
def Operand.Spells (p : Program) (v : ValueId) (operand : Operand) : Prop :=
  operand.value = some v ∧ ∃ parts, operand.mentions = v :: parts ∧ ∀ u ∈ parts, p.Operates v u

theorem Statement.Cites.plain_of_spells {p : Program} (hp : p.Coherent) {i : InstId} {inst : Inst}
    (hinst : p.inst? i = some inst) {s : Statement} (h : s.Cites (Operand.Spells p) inst) :
    s.Plain fun v => ∀ u, ¬p.Operates v u where
  uses r hr v hv hplain := by
    rcases h.uses r hr with rfl | ⟨w, -, hvalue, parts, hparts, hoperates⟩
    · cases hv
    · obtain rfl : w = v := Option.some.inj (hvalue.symm.trans hv)
      rw [hparts, List.eq_nil_iff_forall_not_mem.2 fun u hu => hplain u (hoperates u hu)]
  load hload _ v hv := by
    have hstore := Forward.isStore_of_isLoad hload
    rw [defined?, hstore] at hv
    obtain ⟨r, hr, hvalue⟩ := Option.bind_eq_some_iff.1 hv
    obtain ⟨w, hresult, hvalue', -⟩ := h.result hstore r hr
    obtain rfl : w = v := Option.some.inj (hvalue'.symm.trans hvalue)
    exact hp.not_operates_of_load hinst (h.opcode hload) hresult

/-- In a context that shares no operands at first, references to loaded values are plain. -/
theorem Workspace.walks_plain {p : Program} (hp : p.Coherent) (slots : Slots) :
    Walks p (Carries p slots (Shared.All (Operand.Spells p))) fun _ statements =>
      ∀ s ∈ statements, s.Plain fun v => ∀ u, ¬p.Operates v u := by
  have hspells {q : Program} (hq : q.nameless = p.nameless) (v : ValueId) (operand : Operand)
      (h : Operand.ofValue q v = .ok operand) : operand.Spells p v := by
    obtain ⟨parts, hparts, hoperates⟩ := Operand.mentions_ofValue h
    exact ⟨Operand.value_ofValue h, parts, hparts, fun u hu => (hoperates u hu).of_nameless hq.symm⟩
  refine StatesAll.walks ⟨fun q hq i => ?_, fun q hq => Shared.yields_operand (hspells hq), ?_⟩
  · intro before s after hbefore h
    obtain ⟨⟨inst, hinst, hcites⟩, hafter⟩ := Statement.yields_ofInst
      (Operand.yields_resolve_all (hspells hq) (fun _ _ _ h => h) slots) i hbefore h
    rw [Program.inst?_of_nameless hq] at hinst
    exact ⟨hcites.plain_of_spells hp hinst, hafter⟩
  · intro call hcall f formals _ pair hpair operand _
    refine ⟨fun r hr => hcall.uses r ?_, fun _ h => by cases h⟩
    have hr : r = pair.2 := by
      simpa [Statement.bindArgument, Statement.make, Statement.uses, Statement.reads,
        Statement.target?, Statement.isStore, Statement.callee?, Action.callee?] using hr
    rw [hr]
    exact List.mem_append_left _ (List.mem_append_left _ (List.of_mem_zip hpair).2)

namespace Forward

variable {uses : ValueId → Nat} {reach a b k : Int} {V : ValueId → Prop} {done ss : List Statement}

/-! ### Uses of other values -/

theorem redirect_sublist (uses : ValueId → Nat) (reach : Int) (done : List Statement)
    (r : Reference) :
    (redirect uses reach done r).2.Sublist done := by
  rcases redirect_eq_or uses reach done r with hsame |
    ⟨load, replacement, later, earlier, rfl, -, hnew⟩
  · rw [hsame]
  · rw [hnew]
    exact (List.Sublist.refl later).append (List.sublist_cons_self load earlier)

/-- What is plain stays so: references are replaced by others that were there, and loads are not
changed. -/
theorem plain_block (h : ∀ s ∈ ss, s.Plain V) : ∀ t ∈ block uses reach ss, t.Plain V := by
  have hload : ∀ t ∈ block uses reach ss, t.isLoad = true → t.binding = false →
      ∀ v, t.defined? = some v → V v := by
    refine forall_mem_block (fun s hs => (h s hs).load) fun s _ hstore operands result hload => ?_
    exact absurd hstore (by simp [isStore_of_isLoad (show s.isLoad = true from hload)])
  refine fun t ht => ⟨fun r hr => ?_, hload t ht⟩
  have hsheds : Sheds uses ss (block uses reach ss) := sheds_block ss
  obtain ⟨r', hr', heq⟩ := hsheds.operand r (List.mem_flatMap.2 ⟨t, ht, hr⟩)
  obtain ⟨s, hs, hr'⟩ := List.mem_flatMap.1 hr'
  have hplain := (h s hs).uses r' hr'
  rw [Reference.value, heq] at hplain
  exact hplain

/-- If a reference is replaced, what it mentioned is gone, and what the load mentioned moves to the
reference. -/
theorem count_redirect (reach : Int) (hlevelled : ∀ s ∈ done, s.Levelled a b)
    (hplain : ∀ s ∈ done, s.Plain V)
    {r : Reference} (hr : ∀ v, r.value = some v → V v → r.operand.mentions = [v]) {v : ValueId}
    (hv : uses v ≠ 1) :
    (redirect uses reach done r).1.operand.mentions.count v +
        ((redirect uses reach done r).2.flatMap Statement.mentions).count v =
      r.operand.mentions.count v + (done.flatMap Statement.mentions).count v := by
  rcases redirect_eq_or uses reach done r with hsame |
    ⟨load, replacement, later, earlier, rfl, hsubstitute, hnew⟩
  · rw [hsame]
  · rw [hnew]
    obtain ⟨x, hx, hload, hbinding, hdefined, hone⟩ := exists_of_substitute? hsubstitute
    obtain ⟨source, result, _, ⟨-, -, -, hsource, -⟩, -, -, -, rfl⟩ :=
      substitute?_eq_some_iff.1 hsubstitute
    obtain ⟨source', hoperands, -⟩ := (hlevelled load (by simp)).load hload hbinding
    obtain rfl : source' = source := by simpa [hoperands] using hsource
    have haction : load.action = .load := by simpa [Statement.isLoad] using hload
    have hmentions : load.mentions = source'.operand.mentions := by
      simp [Statement.mentions, Statement.uses, Statement.reads, Statement.target?,
        isStore_of_isLoad hload, hoperands, Statement.callee?, haction, Action.callee?]
    have hgone : r.operand.mentions.count v = 0 := by
      rw [hr x hx ((hplain load (by simp)).load hload hbinding x hdefined), List.count_eq_zero,
        List.mem_singleton]
      rintro rfl
      exact hv hone
    simp only [List.flatMap_append, List.flatMap_cons, List.count_append, hmentions, hgone]
    omega

theorem mentions_of_isStore {s : Statement} (hs : s.isStore = true) {stored target : Reference}
    (hoperands : s.operands = [stored]) (hresult : s.result = some target) :
    s.mentions = stored.operand.mentions ++ target.operand.mentions := by
  rw [Statement.mentions, uses_of_isStore hs, hoperands, hresult]
  simp

theorem count_step (hlevelled : ∀ s ∈ done, s.Levelled a b) (hplain : ∀ s ∈ done, s.Plain V)
    {s : Statement} (hs : s.Levelled a b) (hsplain : s.Plain V) {v : ValueId} (hv : uses v ≠ 1) :
    ((step uses reach done s).flatMap Statement.mentions).count v =
      ((s :: done).flatMap Statement.mentions).count v := by
  by_cases hactive : (s.isStore && !s.ignored) = true
  · have hstore : s.isStore = true := (Bool.and_eq_true_iff.1 hactive).1
    obtain ⟨stored, target, hoperands, hresult, -⟩ := hs.store hstore
    have huses : s.uses = [stored, target] := by
      rw [uses_of_isStore hstore, hoperands, hresult]
      rfl
    have hsub := (redirect_sublist uses reach done stored).subset
    have hstored := count_redirect reach hlevelled hplain
      (hsplain.uses stored (by simp [huses])) hv
    have htarget := count_redirect reach (fun t ht => hlevelled t (hsub ht))
      (fun t ht => hplain t (hsub ht)) (hsplain.uses target (by simp [huses])) hv
    have hnew (r t : Reference) :
        (referring s r t).mentions = r.operand.mentions ++ t.operand.mentions :=
      mentions_of_isStore (s := referring s r t) hstore rfl rfl
    rw [step_store hactive hoperands hresult, List.flatMap_cons, List.flatMap_cons,
      mentions_of_isStore hstore hoperands hresult, hnew]
    simp only [List.count_append]
    omega
  · rw [step, if_neg hactive]

theorem count_reverse_flatMap (ss : List Statement) (v : ValueId) :
    (ss.reverse.flatMap Statement.mentions).count v = (ss.flatMap Statement.mentions).count v :=
  ((List.reverse_perm ss).flatMap_right Statement.mentions).count_eq v

/-- Values that are not used once are mentioned as often after a pass as before. -/
theorem count_block (hlevelled : ∀ s ∈ ss, s.Levelled a b) (hplain : ∀ s ∈ ss, s.Plain V)
    (ha : reach ≤ a) (hb : reach ≤ b) {v : ValueId} (hv : uses v ≠ 1) :
    ((block uses reach ss).flatMap Statement.mentions).count v =
      (ss.flatMap Statement.mentions).count v := by
  induction ss using List.reverseRecOn with
  | nil => rfl
  | append_singleton ss s ih =>
    rw [List.forall_mem_append, List.forall_mem_singleton] at hlevelled hplain
    have hdone : ∀ t ∈ (block uses reach ss).reverse, t.Levelled a b :=
      fun t ht => levelled_block ha hb hlevelled.1 t (List.mem_reverse.1 ht)
    have hdone' : ∀ t ∈ (block uses reach ss).reverse, t.Plain V :=
      fun t ht => plain_block hplain.1 t (List.mem_reverse.1 ht)
    rw [block_append_singleton, count_reverse_flatMap,
      count_step hdone hdone' hlevelled.2 hplain.2 hv, List.flatMap_cons, List.flatMap_append,
      List.count_append, List.count_append, count_reverse_flatMap, ih hlevelled.1 hplain.1]
    simp [Nat.add_comm]

/-! ### References that can still be replaced -/

/-- Two statements do not define the same value, unless arguments are handed to it, and a reference
of the second one that can be replaced because of the first one lies at the level `k` at least. -/
structure Deep (uses : ValueId → Nat) (reach k : Int) (t s : Statement) : Prop where
  apart : t.Apart s
  level : s.isStore = true → s.ignored = false → ∀ r ∈ s.reads,
    k ≤ r.level ∨ substitute? uses reach r t = none

/-- Nothing is replaced because of a store, and a store defines nothing. -/
theorem deep_of_isStore {t s : Statement} (h : t.isStore = true) : Deep uses reach k t s where
  apart v hv := by simp [Statement.defined?, h] at hv
  level _ _ r _ := by
    refine .inr (substitute?_of_not_isLoad ?_)
    by_contra hload
    simp [isStore_of_isLoad (by simpa using hload)] at h

/-- A reference that could be replaced and was not can not be replaced in the next pass either. -/
theorem Deep.of_uses {uses' : ValueId → Nat} {t s : Statement} (h : Deep uses reach k t s)
    (huses : ∀ v, uses' v = 1 → uses v = 1) : Deep uses' reach k t s where
  apart := h.apart
  level hstore hignored r hr := by
    refine (h.level hstore hignored r hr).imp_right fun hnone => ?_
    by_contra hne
    obtain ⟨replacement, hsome⟩ := Option.ne_none_iff_exists'.1 hne
    obtain ⟨source, result, x, ⟨hload, hignored, hbinding, hsource, hresult, hvalue, hversion,
      hversion', hone⟩, hrest⟩ := substitute?_eq_some_iff.1 hsome
    have hold := substitute?_eq_some_iff.2 ⟨source, result, x, ⟨hload, hignored, hbinding, hsource,
      hresult, hvalue, hversion, hversion', huses x hone⟩, hrest⟩
    rw [hnone] at hold
    cases hold

/-- A reference that is replaced goes one level deeper; one that stays can not be replaced. -/
theorem deep_redirect (hapart : done.Pairwise Statement.Apart)
    (hlevelled : ∀ s ∈ done, s.Levelled a b) {r : Reference}
    (hr : ∀ t ∈ done, k ≤ r.level ∨ substitute? uses reach r t = none) :
    ∀ t ∈ done, k + 1 ≤ (redirect uses reach done r).1.level ∨
      substitute? uses reach (redirect uses reach done r).1 t = none := by
  intro t ht
  rcases redirect_eq_or uses reach done r with hsame |
    ⟨load, replacement, later, earlier, hsplit, hsubstitute, hnew⟩
  · have hfilter : done.filter (fun load => (substitute? uses reach r load).isNone) = done := by
      rw [redirect_eq hapart] at hsame
      exact (Prod.mk.inj hsame).2
    rw [hsame]
    exact .inr (by simpa using List.filter_eq_self.1 hfilter t ht)
  · have hload : load ∈ done := by simp [hsplit]
    have hlevel := (level_substitute? (hlevelled load hload) hsubstitute).1
    rw [hnew]
    rcases hr load hload with hk | hnone
    · exact .inl (show k + 1 ≤ replacement.level by omega)
    · rw [hnone] at hsubstitute
      cases hsubstitute

theorem deep_step (hdone : done.Pairwise fun s t => Deep uses reach (k + 1) t s)
    (hlevelled : ∀ s ∈ done, s.Levelled a b) {s : Statement} (hs : s.Levelled a b)
    (hdeep : ∀ t ∈ done, Deep uses reach k t s) :
    (step uses reach done s).Pairwise fun s t => Deep uses reach (k + 1) t s := by
  by_cases hactive : (s.isStore && !s.ignored) = true
  · obtain ⟨hstore, hignored⟩ : s.isStore = true ∧ s.ignored = false := by simpa using hactive
    obtain ⟨stored, target, hoperands, hresult, -⟩ := hs.store hstore
    have hreads := reads_of_isStore hstore hoperands hresult
    have hapart : done.Pairwise Statement.Apart :=
      hdone.imp fun hst => Std.Symm.symm _ _ hst.apart
    have hfirst := redirect_sublist uses reach done stored
    have hsecond := redirect_sublist uses reach (redirect uses reach done stored).2 target
    have hstored := deep_redirect hapart hlevelled fun t ht =>
      (hdeep t ht).level hstore hignored stored (by simp [hreads])
    have htarget := deep_redirect (hapart.sublist hfirst)
      (fun t ht => hlevelled t (hfirst.subset ht)) fun t ht =>
        (hdeep t (hfirst.subset ht)).level hstore hignored target (by simp [hreads])
    rw [step_store hactive hoperands hresult]
    refine List.pairwise_cons.2 ⟨fun t ht => ⟨?_, fun _ _ r hr => ?_⟩,
      hdone.sublist (hsecond.trans hfirst)⟩
    · intro v _ hv
      have hstill {r t : Reference} : (referring s r t).isStore = true := hstore
      exact absurd hv (by simp [Statement.defined?, hstill])
    · rw [reads_of_isStore (s := referring s _ _) hstore rfl rfl] at hr
      rcases List.mem_pair.1 hr with rfl | rfl
      · exact hstored t (hfirst.subset (hsecond.subset ht))
      · exact htarget t (hsecond.subset ht)
  · rw [step, if_neg hactive]
    refine List.pairwise_cons.2 ⟨fun t ht => ⟨(hdeep t ht).apart, fun hstore hignored => ?_⟩, hdone⟩
    exact absurd (by simp [hstore, hignored]) hactive

/-- **A pass leaves no reference behind that can be replaced, except deeper ones.** -/
theorem deep_block (hdeep : ss.Pairwise (Deep uses reach k)) (ha : reach ≤ a) (hb : reach ≤ b)
    (hlevelled : ∀ s ∈ ss, s.Levelled a b) :
    (block uses reach ss).Pairwise (Deep uses reach (k + 1)) := by
  induction ss using List.reverseRecOn with
  | nil => exact .nil
  | append_singleton ss s ih =>
    rw [List.forall_mem_append, List.forall_mem_singleton] at hlevelled
    rw [List.pairwise_append] at hdeep
    have hbefore : ∀ t ∈ block uses reach ss, Deep uses reach k t s :=
      forall_mem_block (fun t ht => hdeep.2.2 t ht s (by simp)) fun t _ ht operands result =>
        deep_of_isStore ht
    rw [block_append_singleton, List.pairwise_reverse]
    refine deep_step (List.pairwise_reverse.2 (ih hdeep.1 hlevelled.1)) (fun t ht => ?_) hlevelled.2
      fun t ht => hbefore t (List.mem_reverse.1 ht)
    exact levelled_block ha hb hlevelled.1 t (List.mem_reverse.1 ht)

end Forward

namespace Listing

variable {l : Listing} {V : ValueId → Prop} {reach k : Int}

/-! ### Listings after some passes -/

/-- A listing in which all references that a pass can replace lie at the level `k` at least. -/
structure Ripe (V : ValueId → Prop) (reach k : Int) (l : Listing) : Prop where
  contiguous : l.Contiguous
  flagged : ∀ s ∈ l.statements, s.Flagged
  levelled : ∀ s ∈ l.statements, s.Levelled (max 0 reach) (max 1 reach)
  plain : ∀ s ∈ l.statements, s.Plain V
  deep : ∀ place ∈ l.blocks, (l.statementsAt place).Pairwise
    (Forward.Deep (l.mentionCount place.function) reach k)

theorem Ripe.levelledAt (h : l.Ripe V reach k) (place : Place) :
    ∀ s ∈ l.statementsAt place, s.Levelled (max 0 reach) (max 1 reach) :=
  fun s hs => h.levelled s (mem_statements_of_mem_statementsAt hs)

theorem Ripe.plainAt (h : l.Ripe V reach k) (place : Place) :
    ∀ s ∈ l.statementsAt place, s.Plain V :=
  fun s hs => h.plain s (mem_statements_of_mem_statementsAt hs)

/-- Values that are not used once are used as often after a pass as before. -/
theorem Ripe.mentionCount_forward (h : l.Ripe V reach k) {f : FunctionId} {v : ValueId}
    (hv : l.mentionCount f v ≠ 1) :
    (l.forward reach).mentionCount f v = l.mentionCount f v := by
  obtain ⟨-, hblocks, hat⟩ := h.contiguous.forward reach
  have hone {place : Place} (hplace : place ∈ l.blocks.filter (·.function = f)) :
      ((((l.forward reach).statementsAt place).flatMap Statement.mentions).count v) =
        ((l.statementsAt place).flatMap Statement.mentions).count v := by
    obtain ⟨hmem, hf⟩ := List.mem_filter.1 hplace
    obtain rfl : place.function = f := by simpa using hf
    rw [hat place hmem]
    exact Forward.count_block (h.levelledAt place) (h.plainAt place) (Int.le_max_right _ _)
      (Int.le_max_right _ _) hv
  rw [mentionCount, mentionCount, hblocks, List.count_flatMap, List.count_flatMap]
  exact congrArg List.sum (List.map_congr_left fun place hplace => hone hplace)

/-- A pass takes everything that can still be replaced one level deeper. -/
theorem Ripe.forward (h : l.Ripe V reach k) : (l.forward reach).Ripe V reach (k + 1) := by
  obtain ⟨hcontiguous, hblocks, hat⟩ := h.contiguous.forward reach
  have horderly : l.Orderly := ⟨h.contiguous.nodup, h.flagged⟩
  refine ⟨hcontiguous, (horderly.forward reach).flagged, ?_, ?_, fun place hplace => ?_⟩
  · exact forall_mem_forward h.contiguous.nodup reach fun place _ =>
      Forward.levelled_block (Int.le_max_right _ _) (Int.le_max_right _ _) (h.levelledAt place)
  · exact forall_mem_forward h.contiguous.nodup reach fun place _ =>
      Forward.plain_block (h.plainAt place)
  · rw [hblocks] at hplace
    rw [hat place hplace]
    refine (Forward.deep_block (h.deep place hplace) (Int.le_max_right _ _) (Int.le_max_right _ _)
      (h.levelledAt place)).imp fun hdeep => hdeep.of_uses fun v hv => ?_
    -- a value that is used once afterwards was used once before
    by_contra hne
    rw [h.mentionCount_forward hne] at hv
    exact hne hv

theorem Ripe.iterate (h : l.Ripe V reach 0) (n : Nat) :
    ((·.forward reach)^[n] l).Ripe V reach n := by
  induction n with
  | zero => exact h
  | succ n ih =>
    rw [Function.iterate_succ_apply']
    exact ih.forward

/-- What lies as deep as the reach is not replaced. -/
theorem Ripe.forward_eq_self (h : l.Ripe V reach k) (hk : reach ≤ k) : l.forward reach = l := by
  refine h.contiguous.forward_eq_self fun place hplace => Forward.block_eq_self (h.levelledAt place)
    (fun s hs => h.flagged s (mem_statements_of_mem_statementsAt hs)) ?_
  refine (List.Pairwise.and_mem.1 (h.deep place hplace)).imp ?_
  rintro t s ⟨ht, -, hdeep⟩ hstore hignored r hr
  rcases hdeep.level hstore hignored r hr with hlevel | hnone
  · exact Forward.substitute?_eq_none_of_le (h.levelledAt place t ht) (by omega)
  · exact hnone

/-- Every listing of a program with a fresh context, before the first pass. -/
theorem Produced.ripe (h : l.Produced) (reach : Int) : ∃ V, l.Ripe V reach 0 := by
  obtain ⟨w, later, discard, hp, hshared, htranscribe⟩ := h.exists_transcribe
  have horderly := (Reached.transcribed discard hp htranscribe).orderly
  have hplain := (Workspace.walks_plain hp.coherent w.context.slots).listedAs hp.coherent
    ⟨rfl, rfl, hshared ▸ Shared.all_empty _⟩ htranscribe
  have hlevelled := (Workspace.walks_levelled w.program w.context.slots).listedAs hp.coherent
    ⟨rfl, rfl, trivial⟩ htranscribe
  refine ⟨_, h.wellBuilt.contiguous, horderly.flagged, fun s hs => ?_, hplain.forall_mem,
    fun place hplace => ?_⟩
  · exact (hlevelled.forall_mem s hs).mono (Int.le_max_left _ _) (Int.le_max_left _ _)
  · refine (List.Pairwise.and_mem.1 (h.wellBuilt.apart place hplace)).imp ?_
    rintro t s ⟨-, hs, hapart⟩
    refine ⟨hapart, fun hstore _ r hr => .inl ?_⟩
    obtain ⟨stored, target, hoperands, hresult, hstored, htarget⟩ :=
      (hlevelled.forall_mem s (mem_statements_of_mem_statementsAt hs)).store hstore
    rw [Forward.reads_of_isStore hstore hoperands hresult] at hr
    rcases List.mem_pair.1 hr with rfl | rfl
    · omega
    · omega

/-- **Forwarding settles.**  After as many passes as the reach is wide, another pass leaves the
listing as it is, with all its numbers, blocks and returned operands. -/
theorem forward_iterate (h : l.Produced) (reach : Nat) :
    ((·.forward (reach : Int))^[reach] l).forward reach = (·.forward (reach : Int))^[reach] l := by
  obtain ⟨V, hripe⟩ := h.ripe reach
  exact (hripe.iterate reach).forward_eq_self (Int.le_refl _)

/-- Three passes are needed for a reach of three. -/
theorem forward_iterate_chased : chased.listing.Produced ∧
    ((·.forward (3 : Nat))^[3] chased.listing).forward (3 : Nat) =
      (·.forward (3 : Nat))^[3] chased.listing ∧
    ((·.forward (3 : Nat))^[2] chased.listing).forward (3 : Nat) ≠
      (·.forward (3 : Nat))^[2] chased.listing := by
  have hok : ((Workspace.transcribe false).outcome { program := chased }).1.isOk = true := by
    decide +kernel
  have hproduced : chased.listing.Produced :=
    Program.produced_listing (Program.assembled_ofEdits _ _) hok
  exact ⟨hproduced, forward_iterate hproduced 3, by decide +kernel⟩

end Listing

end LevelIr
