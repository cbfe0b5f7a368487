import LevelIr.Proofs.Listing.Transcript

/-!
# Listings that passes can rely on

Passes that work on a listing never see its program again.  What they rely on is said here of the
listing alone.

* `Statement.Apart` : two statements define different values, unless both hand an argument to the
  same parameter.
* `Listing.WellBuilt` : the numbers run through the blocks, the statements have their usual shape,
  and those of a block define different values.
* `Listing.Marked` : a listing with other statements marked as ignored.
* `Listing.Produced.wellBuilt`, `Listing.WellBuilt.marked` : every listing is well built, and stays
  so whatever is marked.
-/

namespace LevelIr

namespace Statement

/-- Two statements define different values, unless both hand over arguments. -/
def Apart (s t : Statement) : Prop :=
  ∀ v, s.defined? = some v → t.defined? = some v → s.binding = true ∧ t.binding = true

end Statement

/-- What passes rely on in a listing. -/
structure Listing.WellBuilt (l : Listing) : Prop where
  contiguous : l.Contiguous
  regular : ∀ place ∈ l.blocks, ∀ s ∈ l.statementsAt place, s.Regular
  apart : ∀ place ∈ l.blocks, (l.statementsAt place).Pairwise Statement.Apart

namespace Program

variable {p : Program}

/-! ### The statements of an instruction -/

section Transcript

variable {i : InstId} {inst : Inst} {bindings : List Statement} {s : Statement}

theorem Transcript.exists_binding (h : p.Transcript i inst bindings s) {b : Statement}
    (hb : b ∈ bindings) : ∃ formal operand actual, formal ∈ p.boundParams inst ∧
      operand.value = some formal ∧ (∃ v, Reference.IsAt 0 v actual) ∧
      b = Statement.bindArgument i operand actual inst.line := by
  obtain ⟨k, hk⟩ := List.mem_iff_getElem?.1 hb
  obtain ⟨formal, operand, actual, hformal, hoperand, hactual, rfl⟩ := h.binding k b hk
  refine ⟨formal, operand, actual, List.mem_of_getElem? hformal, hoperand, ?_, rfl⟩
  -- there is a parameter, so the statement calls a known function with its arguments
  rcases Workspace.boundParams_of_transcribes h.own with ⟨f, formals, haction, -⟩ | ⟨-, hparams⟩
  · obtain ⟨-, -, hargs, -⟩ := h.own.call f formals haction
    obtain ⟨hk', rfl⟩ := List.getElem?_eq_some_iff.1 hactual
    exact ⟨_, (List.forall₂_iff_get.1 hargs).2 k (hargs.length_eq ▸ hk') hk'⟩
  · simp [hparams] at hformal

theorem Transcript.regular (h : p.Transcript i inst bindings s) :
    ∀ t ∈ bindings ++ [s], t.Regular := by
  intro t ht
  rcases List.mem_append.1 ht with hb | hs
  · obtain ⟨formal, operand, actual, -, hoperand, ⟨v, hv⟩, rfl⟩ := h.exists_binding hb
    refine ⟨rfl, fun _ => ⟨actual, v, rfl, hv⟩, fun hstore => ?_, fun _ r hr => ?_⟩
    · cases hstore
    · cases hr
      exact ⟨formal, rfl, hoperand⟩
  · rw [List.mem_singleton.1 hs]
    exact h.own.regular

theorem Transcript.source_eq (h : p.Transcript i inst bindings s) {t : Statement}
    (ht : t ∈ bindings ++ [s]) : t.source = i := by
  rcases List.mem_append.1 ht with hb | hs
  · obtain ⟨_, _, _, -, -, -, rfl⟩ := h.exists_binding hb
    rfl
  · rw [List.mem_singleton.1 hs, h.own.source]

/-- What is handed over is mentioned by the call, too. -/
theorem Transcript.mentions_subset (h : p.Transcript i inst bindings s) {t : Statement}
    (ht : t ∈ bindings ++ [s]) : t.mentions ⊆ s.mentions := by
  rcases List.mem_append.1 ht with hb | hs
  · obtain ⟨k, hk⟩ := List.mem_iff_getElem?.1 hb
    obtain ⟨formal, operand, actual, -, -, hactual, rfl⟩ := h.binding k t hk
    intro v hv
    obtain ⟨r, hr, hmem⟩ := List.mem_flatMap.1 hv
    have hr : r = actual := by
      simpa [Statement.uses, Statement.reads, Statement.target?, Statement.isStore,
        Statement.bindArgument, Statement.make, Statement.callee?, Action.callee?] using hr
    have hoperand : r ∈ s.operands := hr ▸ List.mem_of_getElem? hactual
    exact List.mem_flatMap.2 ⟨r, List.mem_append_left _ (List.mem_append_left _ hoperand), hmem⟩
  · rw [List.mem_singleton.1 hs]
    exact List.Subset.refl _

/-- A parameter that an argument is handed to comes from a function. -/
theorem Coherent.origin_of_boundParams (hp : p.Coherent) {formal : ValueId}
    (h : formal ∈ p.boundParams inst) :
    ∃ f k, (p.value? formal).map Value.origin = some (.argument f k) := by
  unfold boundParams at h
  split at h
  · split at h
    · rename_i function hfunction
      obtain ⟨f, -, hf⟩ := Option.bind_eq_some_iff.1 hfunction
      split at h
      · cases h
      · obtain ⟨k, hk⟩ := List.mem_iff_getElem?.1 h
        obtain ⟨value, hvalue, horigin⟩ := hp.value_of_param hf hk
        exact ⟨f, k, by rw [hvalue, Option.map_some, horigin]⟩
    · cases h
  · cases h

/-- What a statement of an instruction defines is a parameter, if it hands over an argument, and
otherwise the result of the instruction. -/
theorem Transcript.origin_defined (h : p.Transcript i inst bindings s) (hp : p.Coherent)
    (hinst : p.inst? i = some inst) {t : Statement} (ht : t ∈ bindings ++ [s]) {v : ValueId}
    (hv : t.defined? = some v) :
    (t.binding = true ∧ ∃ f k, (p.value? v).map Value.origin = some (.argument f k)) ∨
      (t.binding = false ∧ (p.value? v).map Value.origin = some (.result t.source)) := by
  rcases List.mem_append.1 ht with hb | hs
  · obtain ⟨formal, operand, actual, hformal, hoperand, -, rfl⟩ := h.exists_binding hb
    obtain rfl : formal = v := Option.some.inj (hoperand.symm.trans hv)
    exact .inl ⟨rfl, hp.origin_of_boundParams hformal⟩
  · rw [List.mem_singleton.1 hs] at hv ⊢
    refine .inr ⟨h.own.binding, ?_⟩
    have hstore : s.isStore = false := by
      cases hstore : s.isStore with
      | false => rfl
      | true => simp [Statement.defined?, hstore] at hv
    rw [h.own.defined hstore] at hv
    obtain ⟨value, hvalue, horigin, -⟩ := hp.value_of_result hinst hv
    rw [hvalue, h.own.source, Option.map_some, horigin]

end Transcript

/-! ### The statements of a block -/

section Block

variable {b : BlockId} {all : List Statement}

theorem BlockTranscript.exists_group (h : p.BlockTranscript b all) {t : Statement} (ht : t ∈ all) :
    ∃ i inst bindings s, p.inst? i = some inst ∧ p.Transcript i inst bindings s ∧
      t ∈ bindings ++ [s] := by
  obtain ⟨groups, hgroups, rfl⟩ := h
  obtain ⟨group, hgroup, hmem⟩ := List.mem_flatMap.1 ht
  obtain ⟨k, hk, rfl⟩ := List.mem_iff_getElem.1 hgroup
  obtain ⟨inst, hinst, htranscript⟩ :=
    (List.forall₂_iff_get.1 hgroups).2 k (hgroups.length_eq ▸ hk) hk
  exact ⟨_, inst, _, _, hinst, htranscript, hmem⟩

/-- Without those that hand over arguments, the statements of a block are made from its listed
instructions, one from each. -/
theorem BlockTranscript.map_source (h : p.BlockTranscript b all) :
    (all.filter (!·.binding)).map Statement.source = p.listedInsts b := by
  obtain ⟨groups, hgroups, rfl⟩ := h
  generalize p.listedInsts b = insts at hgroups
  induction hgroups with
  | nil => rfl
  | @cons i group insts groups hgroup _ ih =>
    obtain ⟨inst, hinst, htranscript⟩ := hgroup
    have hbindings : group.1.filter (!·.binding) = [] := by
      refine List.filter_eq_nil_iff.2 fun b hb => ?_
      obtain ⟨formal, operand, actual, -, -, -, rfl⟩ := htranscript.exists_binding hb
      simp [Statement.bindArgument]
    rw [List.flatMap_cons, List.filter_append, List.filter_append, hbindings, List.nil_append,
      List.map_append, ih, List.filter_cons_of_pos (by simp [htranscript.own.binding])]
    simp [htranscript.own.source]

theorem Coherent.listedInsts_nodup (hp : p.Coherent) (b : BlockId) : (p.listedInsts b).Nodup := by
  unfold listedInsts
  refine List.Nodup.filter _ ?_
  cases hblock : p.block? b with
  | none => exact List.nodup_nil
  | some block => exact hp.insts_nodup hblock

theorem BlockTranscript.apart (h : p.BlockTranscript b all) (hp : p.Coherent) :
    all.Pairwise Statement.Apart := by
  have hsources : all.Pairwise fun s t =>
      (!s.binding) = true → (!t.binding) = true → s.source ≠ t.source := by
    have hnodup := hp.listedInsts_nodup b
    rw [← h.map_source] at hnodup
    exact List.pairwise_filter.1 (List.pairwise_map.1 hnodup)
  refine hsources.imp_of_mem fun {s t} hs ht hne v hsv htv => ?_
  obtain ⟨i, inst, _, _, hinst, htranscript, hmem⟩ := h.exists_group hs
  obtain ⟨j, inst', _, _, hinst', htranscript', hmem'⟩ := h.exists_group ht
  -- a value has one origin: a parameter, or one instruction
  rcases htranscript.origin_defined hp hinst hmem hsv with ⟨hsb, f, k, hsv⟩ | ⟨hsb, hsv⟩ <;>
    rcases htranscript'.origin_defined hp hinst' hmem' htv with ⟨htb, g, m, htv⟩ | ⟨htb, htv⟩
  · exact ⟨hsb, htb⟩
  · rw [hsv] at htv
    cases htv
  · rw [hsv] at htv
    cases htv
  · rw [hsv] at htv
    refine absurd ?_ (hne (by simp [hsb]) (by simp [htb]))
    simpa using htv

end Block

theorem ListedAs.wellBuilt {l : Listing} {discard : Bool}
    (h : p.ListedAs p.BlockTranscript discard l) (hp : p.Coherent) : l.WellBuilt where
  contiguous := h.contiguous
  regular place hplace s hs := by
    obtain ⟨all, htranscript, hsub, -⟩ := h.statements place hplace
    obtain ⟨i, inst, _, _, -, hgroup, hmem⟩ := htranscript.exists_group (hsub.subset hs)
    exact hgroup.regular s hmem
  apart place hplace := by
    obtain ⟨all, htranscript, hsub, -⟩ := h.statements place hplace
    exact (htranscript.apart hp).sublist hsub

end Program

/-- Every listing is well built. -/
theorem Listing.Produced.wellBuilt {l : Listing} (h : l.Produced) : l.WellBuilt := by
  obtain ⟨w, later, discard, hassembled, hshared, htranscribe⟩ := h.exists_transcribe
  have hcoherent := hassembled.coherent
  have hsound : w.context.shared.Sound := hshared ▸ Shared.sound_empty
  exact (Workspace.listedAs_of_transcribe ⟨rfl, hsound⟩ hcoherent htranscribe).wellBuilt hcoherent

/-! ### Marks -/

/-- The statement, not ignored. -/
def Statement.unmarked (s : Statement) : Statement := { s with ignored := false }

/-- The entry with its statement not ignored. -/
def Entry.unmarked (entry : Entry) : Entry := { entry with statement := entry.statement.unmarked }

namespace Listing

variable {l l' : Listing}

/-- The listing with other statements ignored. -/
abbrev Marked : Listing → Listing → Prop :=
  Relation.ReflTransGen fun l l' => ∃ n ignored, l.setIgnored n ignored = .ok l'

theorem setIgnored_ok {n : Nat} {ignored : Bool} (h : l.setIgnored n ignored = .ok l') :
    l'.functions = l.functions ∧ l'.blocks = l.blocks ∧ l'.returns = l.returns ∧
      l'.entries.map Entry.unmarked = l.entries.map Entry.unmarked := by
  unfold setIgnored at h
  split at h
  · cases h
    refine ⟨rfl, rfl, rfl, Array.ext_getElem? fun k => ?_⟩
    simp only [Array.getElem?_map, Array.getElem?_modify]
    split
    · rw [Option.map_map]
      rfl
    · rfl
  · cases h

theorem numbersAt_of_unmarked (h : l'.entries.map Entry.unmarked = l.entries.map Entry.unmarked)
    (place : Place) : l'.numbersAt place = l.numbersAt place := by
  have hnumbers (l : Listing) : l.numbersAt place =
      (List.range (l.entries.map Entry.unmarked).size).filter fun n =>
        (l.entries.map Entry.unmarked)[n]?.any (·.place = place) := by
    rw [numbersAt, Array.size_map]
    refine List.filter_congr fun n _ => ?_
    rw [Array.getElem?_map, Option.any_map]
    rfl
  rw [hnumbers, hnumbers, h]

theorem statementsAt_of_unmarked
    (h : l'.entries.map Entry.unmarked = l.entries.map Entry.unmarked) (place : Place) :
    (l'.statementsAt place).map Statement.unmarked =
      (l.statementsAt place).map Statement.unmarked := by
  have hstatements (l : Listing) : (l.statementsAt place).map Statement.unmarked =
      ((l.entries.map Entry.unmarked).toList.filter (·.place = place)).map Entry.statement := by
    rw [statementsAt, Array.toList_map, List.filter_map, List.map_map, List.map_map]
    rfl
  rw [hstatements, hstatements, h]

theorem WellBuilt.setIgnored (h : l.WellBuilt) {n : Nat} {ignored : Bool}
    (hset : l.setIgnored n ignored = .ok l') : l'.WellBuilt := by
  obtain ⟨-, hblocks, -, hentries⟩ := setIgnored_ok hset
  have hsize : l'.size = l.size := by
    simpa [size] using congrArg Array.size hentries
  refine ⟨⟨hblocks ▸ h.contiguous.nodup, ?_⟩, ?_, ?_⟩
  · rw [hblocks, hsize, ← h.contiguous.numbers]
    exact List.flatMap_congr fun place _ => numbersAt_of_unmarked hentries place
  · intro place hplace s hs
    have hmem : s.unmarked ∈ (l.statementsAt place).map Statement.unmarked := by
      rw [← statementsAt_of_unmarked hentries]
      exact List.mem_map_of_mem hs
    obtain ⟨t, ht, hst⟩ := List.mem_map.1 hmem
    -- the shape of a statement does not depend on its mark
    have hregular : t.unmarked.Regular := by
      obtain ⟨hpointer, hload, hstore, hresult⟩ := h.regular place (hblocks ▸ hplace) t ht
      exact ⟨hpointer, hload, hstore, hresult⟩
    rw [hst] at hregular
    obtain ⟨hpointer, hload, hstore, hresult⟩ := hregular
    exact ⟨hpointer, hload, hstore, hresult⟩
  · intro place hplace
    have hapart (ss : List Statement) :
        (ss.map Statement.unmarked).Pairwise Statement.Apart ↔ ss.Pairwise Statement.Apart :=
      List.pairwise_map
    rw [← hapart, statementsAt_of_unmarked hentries, hapart]
    exact h.apart place (hblocks ▸ hplace)

/-- A well-built listing stays well built, whatever is marked in it. -/
theorem WellBuilt.marked (h : l.WellBuilt) (hm : l.Marked l') : l'.WellBuilt := by
  induction hm with
  | refl => exact h
  | tail _ hstep ih =>
    obtain ⟨n, ignored, hset⟩ := hstep
    exact ih.setIgnored hset

end Listing

end LevelIr
