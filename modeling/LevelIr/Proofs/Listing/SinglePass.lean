import LevelIr.Proofs.Listing.Levels

/-!
# One pass over a fresh listing

In a listing that has just been made, stores read at level zero and write at level one, and a pass
takes a reference at most one level deeper.  So a reach below one does nothing, a reach of one
replaces what is stored and leaves the targets alone, and a reach above two does the same as two.

* `Forward.block_eq_self` : a block stays as it is if no load is dropped for a later statement.
* `Forward.redirect_congr` : a reference within two reaches is treated alike by both.
* `Forward.KeepsTargets` : what is left if only the values that are stored are replaced.
* `Listing.forward_fresh` : the three kinds of reaches.
-/

namespace LevelIr

/-- A statement without the value that it stores, if it is a store. -/
def Statement.unstored (s : Statement) : Statement :=
  if s.isStore then { s with operands := [], pointer := false } else s

theorem Statement.unstored_of_isStore {s : Statement} (h : s.isStore = true) :
    s.unstored = { s with operands := [], pointer := false } := if_pos h

namespace Forward

variable {uses : ValueId → Nat} {reach reach' a b : Int} {done : List Statement}

/-! ### References and the reach -/

/-- A reference that no load can replace stays as it is. -/
theorem redirect_eq_self {r : Reference}
    (h : ∀ load ∈ done, substitute? uses reach r load = none) :
    redirect uses reach done r = (r, done) := by
  rcases redirect_eq_or uses reach done r with hsame |
    ⟨load, replacement, later, earlier, rfl, hsubstitute, -⟩
  · exact hsame
  · have hnone := h load (by simp)
    rw [hsubstitute] at hnone
    cases hnone

/-- A reference that is as deep as the reach is not replaced. -/
theorem substitute?_eq_none_of_le {load : Statement} (h : load.Levelled a b) {r : Reference}
    (hr : reach ≤ r.level) : substitute? uses reach r load = none := by
  cases hsubstitute : substitute? uses reach r load with
  | none => rfl
  | some replacement =>
    have hlevel := (level_substitute? h hsubstitute).2
    omega

theorem replacement?_congr {load : Statement} (h : load.Levelled a b) (hload : load.isLoad = true)
    {level : Int} (hlevel : level < reach) (hlevel' : level < reach') (v : ValueId) :
    replacement? uses reach v level load = replacement? uses reach' v level load := by
  cases hbinding : load.binding with
  | true => rw [replacement?_of_binding hbinding, replacement?_of_binding hbinding]
  | false =>
    obtain ⟨source, hoperands, hsource, hresult⟩ := h.load hload hbinding
    unfold replacement?
    rw [hoperands, List.head?_cons]
    cases hr : load.result with
    | none => rfl
    | some result =>
      have hzero := hresult result hr
      have hle : level - result.level + source.level ≤ reach := by omega
      have hle' : level - result.level + source.level ≤ reach' := by omega
      simp only [hle, hle']

/-- A reference that is not as deep as either reach is replaced alike. -/
theorem redirect_congr (h : ∀ s ∈ done, s.Levelled a b) {r : Reference} (hr : r.level < reach)
    (hr' : r.level < reach') : redirect uses reach done r = redirect uses reach' done r := by
  unfold redirect
  cases r.value with
  | none => rfl
  | some v =>
    have hsame : (producer? v done).bind (replacement? uses reach v r.level) =
        (producer? v done).bind (replacement? uses reach' v r.level) := by
      cases hload : producer? v done with
      | none => rfl
      | some load =>
        have hproduces := (produces_iff.1 (List.find?_some hload)).1
        exact replacement?_congr (h load (List.mem_of_find?_eq_some hload)) hproduces hr hr' v
    simp only [hsame]

/-! ### Blocks that stay as they are -/

/-- A load is not dropped for a statement. -/
def Spares (uses : ValueId → Nat) (reach : Int) (load s : Statement) : Prop :=
  s.isStore = true → s.ignored = false → ∀ r ∈ s.reads, substitute? uses reach r load = none

theorem step_eq_cons {s : Statement} (hs : s.Levelled a b) (hflagged : s.Flagged)
    (hspares : ∀ load ∈ done, Spares uses reach load s) : step uses reach done s = s :: done := by
  by_cases hactive : (s.isStore && !s.ignored) = true
  · obtain ⟨hstore, hignored⟩ : s.isStore = true ∧ s.ignored = false := by simpa using hactive
    obtain ⟨stored, target, hoperands, hresult, -⟩ := hs.store hstore
    have hreads := reads_of_isStore hstore hoperands hresult
    have hstored : redirect uses reach done stored = (stored, done) :=
      redirect_eq_self fun load hload =>
        hspares load hload hstore hignored stored (by simp [hreads])
    have htarget : redirect uses reach done target = (target, done) :=
      redirect_eq_self fun load hload =>
        hspares load hload hstore hignored target (by simp [hreads])
    rw [step_store hactive hoperands hresult, hstored, htarget, referring, ← hoperands, ← hresult]
    exact congrArg (fun pointer => { s with pointer } :: done) hflagged.symm
  · rw [step, if_neg hactive]

/-- The levels in what is left of the statements so far. -/
theorem levelled_before {ss before : List Statement} {s : Statement}
    (h : ∀ s ∈ ss, s.Levelled 0 1) (hpre : before ++ [s] <+: ss) (hreach : 1 ≤ reach) :
    ∀ t ∈ (block uses reach before).reverse, t.Levelled reach reach := by
  intro t ht
  refine levelled_block (Int.le_refl _) (Int.le_refl _) (fun t ht => ?_) t (List.mem_reverse.1 ht)
  exact (h t (hpre.subset (List.mem_append_left _ ht))).mono (by omega) hreach

/-- If no load is dropped for a later statement, a block stays as it is. -/
theorem block_eq_self {ss : List Statement} (hlevelled : ∀ s ∈ ss, s.Levelled a b)
    (hflagged : ∀ s ∈ ss, s.Flagged) (hspares : ss.Pairwise (Spares uses reach)) :
    block uses reach ss = ss := by
  refine List.reverse_injective (block_invariant uses reach
    (I := fun before done => done = before.reverse) rfl fun before s hpre hdone => ?_)
  have hs : s ∈ ss := hpre.subset (by simp)
  have hbefore : ∀ load ∈ before.reverse, Spares uses reach load s := fun load hload =>
    (List.pairwise_append.1 (hspares.sublist hpre.sublist)).2.2 load (List.mem_reverse.1 hload) s
      (by simp)
  rw [hdone, step_eq_cons (hlevelled s hs) (hflagged s hs) hbefore, List.reverse_append]
  rfl

/-! ### A reach of one -/

/-- What is left of some statements if loads are dropped, and if of the others nothing is replaced
but the values that are stored. -/
structure KeepsTargets (before after : List Statement) : Prop where
  /-- What is left stands in the same order, with the same targets. -/
  sublist : (after.map Statement.unstored).Sublist (before.map Statement.unstored)
  /-- Nothing but loads is dropped. -/
  others : (after.filter (!·.isLoad)).map Statement.unstored =
    (before.filter (!·.isLoad)).map Statement.unstored

theorem keepsTargets_refl (ss : List Statement) : KeepsTargets ss ss := ⟨.refl _, rfl⟩

theorem KeepsTargets.cons {before after : List Statement} (h : KeepsTargets before after)
    {s t : Statement} (hload : t.isLoad = s.isLoad) (hst : t.unstored = s.unstored) :
    KeepsTargets (s :: before) (t :: after) where
  sublist := by
    rw [List.map_cons, List.map_cons, hst]
    exact h.sublist.cons_cons _
  others := by
    rw [List.filter_cons, List.filter_cons, hload]
    split
    · rw [List.map_cons, List.map_cons, hst, h.others]
    · exact h.others

theorem KeepsTargets.reverse {before after : List Statement} (h : KeepsTargets before after) :
    KeepsTargets before.reverse after.reverse where
  sublist := by
    rw [List.map_reverse, List.map_reverse]
    exact h.sublist.reverse
  others := by rw [List.filter_reverse, List.filter_reverse, List.map_reverse, List.map_reverse,
    h.others]

theorem KeepsTargets.redirect {before : List Statement} (h : KeepsTargets before done)
    (r : Reference) : KeepsTargets before (redirect uses reach done r).2 := by
  rcases redirect_eq_or uses reach done r with hsame |
    ⟨load, replacement, later, earlier, rfl, hsubstitute, hnew⟩
  · rw [hsame]
    exact h
  · rw [hnew]
    obtain ⟨-, -, hload, -⟩ := exists_of_substitute? hsubstitute
    have hsub : (later ++ earlier).Sublist (later ++ load :: earlier) :=
      (List.Sublist.refl later).append (List.sublist_cons_self load earlier)
    refine ⟨(hsub.map _).trans h.sublist, h.others ▸ ?_⟩
    rw [List.filter_append, List.filter_append, List.filter_cons_of_neg (by simp [hload])]

theorem KeepsTargets.step {before : List Statement} (h : KeepsTargets before done)
    (hdone : ∀ s ∈ done, s.Levelled a b) {s : Statement} (hs : s.Levelled 0 1) :
    KeepsTargets (s :: before) (step uses 1 done s) := by
  by_cases hactive : (s.isStore && !s.ignored) = true
  · have hstore : s.isStore = true := (Bool.and_eq_true_iff.1 hactive).1
    obtain ⟨stored, target, hoperands, hresult, -, hone, -⟩ := hs.store hstore
    have hfirst : ∀ t ∈ (Forward.redirect uses 1 done stored).2, t.Levelled a b :=
      forall_mem_redirect hdone stored
    rw [step_store hactive hoperands hresult, redirect_eq_self fun load hload =>
      substitute?_eq_none_of_le (hfirst load hload) hone]
    refine (h.redirect stored).cons rfl ?_
    rw [Statement.unstored_of_isStore hstore, hresult]
    exact Statement.unstored_of_isStore hstore
  · rw [Forward.step, if_neg hactive]
    exact h.cons rfl rfl

theorem keepsTargets_block {ss : List Statement} (h : ∀ s ∈ ss, s.Levelled 0 1) :
    KeepsTargets ss (block uses 1 ss) := by
  have hall := block_invariant uses 1 (I := fun before => KeepsTargets before.reverse)
    (keepsTargets_refl []) fun before s hpre hdone => by
      rw [List.reverse_append]
      exact hdone.step (fun t ht => levelled_before h hpre (Int.le_refl 1) t ht)
        (h s (hpre.subset (by simp)))
  simpa using hall.reverse

/-! ### A reach of two and more -/

theorem step_congr (hdone : ∀ t ∈ done, t.Levelled a b) {s : Statement} (hs : s.Levelled 0 1)
    (hreach : 2 ≤ reach) (hreach' : 2 ≤ reach') :
    step uses reach done s = step uses reach' done s := by
  by_cases hactive : (s.isStore && !s.ignored) = true
  · have hstore : s.isStore = true := (Bool.and_eq_true_iff.1 hactive).1
    obtain ⟨stored, target, hoperands, hresult, ⟨-, hzero⟩, -, hone⟩ := hs.store hstore
    have hstored : redirect uses reach done stored = redirect uses reach' done stored :=
      redirect_congr hdone (by omega) (by omega)
    have hfirst : ∀ t ∈ (redirect uses reach' done stored).2, t.Levelled a b :=
      forall_mem_redirect hdone stored
    rw [step_store hactive hoperands hresult, step_store hactive hoperands hresult, hstored,
      redirect_congr hfirst (show target.level < reach by omega)
        (show target.level < reach' by omega)]
  · rw [step, step, if_neg hactive, if_neg hactive]

theorem block_congr {ss : List Statement} (h : ∀ s ∈ ss, s.Levelled 0 1) (hreach : 2 ≤ reach)
    (hreach' : 2 ≤ reach') : block uses reach ss = block uses reach' ss := by
  refine List.reverse_injective (block_invariant uses reach
    (I := fun before done => done = (block uses reach' before).reverse) rfl
    fun before s hpre hdone => ?_)
  rw [block_append_singleton, List.reverse_reverse, ← hdone]
  exact step_congr (levelled_before h hpre (by omega)) (h s (hpre.subset (by simp))) hreach hreach'

end Forward

namespace Listing

variable {l : Listing}

/-- If no block changes, the listing does not change either, with all its numbers. -/
theorem Contiguous.forward_eq_self (h : l.Contiguous) {reach : Int}
    (hat : ∀ place ∈ l.blocks, l.forwardedAt reach place = l.statementsAt place) :
    l.forward reach = l := by
  obtain ⟨hcontiguous, hblocks, hforwarded⟩ := h.forward reach
  refine hcontiguous.ext h ?_ hblocks ?_ fun place hplace => ?_
  · rw [forward_eq_addParts]
  · rw [forward_eq_addParts]
  · rw [hblocks] at hplace
    rw [hforwarded place hplace, hat place hplace]

/-- **On a fresh listing only three reaches differ**, whatever the context.  A reach of zero or less
leaves the listing as it is.  A reach of one replaces only values that are stored, and never a
target.  All other reaches do the same as the one that is used if none is given. -/
theorem forward_fresh {w later : Workspace} {discard : Bool} (hp : w.program.Assembled)
    (h : (Workspace.transcribe discard).outcome w = (.ok l, later)) :
    (∀ reach, reach ≤ 0 → l.forward reach = l) ∧
    ((l.forward 1).functions = l.functions ∧ (l.forward 1).blocks = l.blocks ∧
      (l.forward 1).returns = l.returns ∧ (∀ s ∈ (l.forward 1).statements, s.Flagged) ∧
      ∀ place ∈ l.blocks,
        Forward.KeepsTargets (l.statementsAt place) ((l.forward 1).statementsAt place)) ∧
    ∀ reach, 2 ≤ reach → l.forward reach = l.forward Forward.defaultReach := by
  have hlisted := (Workspace.walks_levelled _ _).listedAs hp.coherent ⟨rfl, rfl, trivial⟩ h
  have horderly : l.Orderly := (Reached.transcribed discard hp h).orderly
  have hlevelled (place : Place) : ∀ s ∈ l.statementsAt place, s.Levelled 0 1 :=
    fun s hs => hlisted.forall_mem s (mem_statements_of_mem_statementsAt hs)
  refine ⟨fun reach hreach => ?_, ⟨?_, ?_, ?_, (horderly.forward 1).flagged, ?_⟩,
    fun reach hreach => ?_⟩
  · refine hlisted.contiguous.forward_eq_self fun place _ => ?_
    refine Forward.block_eq_self (hlevelled place)
      (fun s hs => horderly.flagged s (mem_statements_of_mem_statementsAt hs))
      (List.pairwise_of_forall_mem_list ?_)
    intro load hload s hs hstore _ r hr
    refine Forward.substitute?_eq_none_of_le (hlevelled place load hload) ?_
    obtain ⟨stored, target, hoperands, hresult, hstored, htarget⟩ :=
      (hlevelled place s hs).store hstore
    rw [Forward.reads_of_isStore hstore hoperands hresult] at hr
    rcases List.mem_pair.1 hr with rfl | rfl
    · omega
    · omega
  · rw [forward_eq_addParts]
  · exact (hlisted.contiguous.forward 1).2.1
  · rw [forward_eq_addParts]
  · intro place hplace
    rw [(hlisted.contiguous.forward 1).2.2 place hplace]
    exact Forward.keepsTargets_block (hlevelled place)
  · have hat : ∀ place, l.forwardedAt reach place = l.forwardedAt Forward.defaultReach place :=
      fun place => Forward.block_congr (hlevelled place) hreach (Int.le_refl 2)
    rw [forward_eq_addParts, forward_eq_addParts, funext hat]

/-- The three reaches do differ. -/
theorem forward_fresh_copies : copies.Assembled ∧ copies.listing.forward 0 = copies.listing ∧
    copies.listing.size = 11 ∧ (copies.listing.forward 1).size = 8 ∧
    Forward.KeepsTargets (copies.listing.statementsAt ⟨⟨0⟩, ⟨0⟩⟩)
      ((copies.listing.forward 1).statementsAt ⟨⟨0⟩, ⟨0⟩⟩) ∧
    (copies.listing.forward 2).size = 7 ∧
    copies.listing.forward 5 = copies.listing.forward Forward.defaultReach := by
  have hok : ((Workspace.transcribe false).outcome { program := copies }).1.isOk = true := by
    decide +kernel
  obtain ⟨later, hl⟩ := Program.outcome_listing hok
  have hassembled : copies.Assembled := Program.assembled_ofEdits _ _
  obtain ⟨hzero, ⟨-, -, -, -, hone⟩, htwo⟩ := forward_fresh hassembled hl
  exact ⟨hassembled, hzero 0 (Int.le_refl 0), by decide +kernel, by decide +kernel,
    hone _ (by decide +kernel), by decide +kernel, htwo 5 (by decide)⟩

end Listing

end LevelIr
