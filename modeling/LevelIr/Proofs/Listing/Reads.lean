import LevelIr.Proofs.Listing.Reached

/-!
# What forwarding leaves to read

A load is dropped when its value is used once, by the store that refers to its source from then on.
Uses are counted by what operands mention: their own values, and the bases and the subscripts of
element addresses.  So no use that is counted is left without its load.

An expression that has no name is written in terms of its operands, and these in terms of theirs.
What stands below the first level is not counted, and can be left without the load that sets it.

* `Operand.Reads` : the values that an operand reads, at any depth.
* `Forward.Sheds` : what forwarding takes away from the statements of a function: with a load goes
  the only use of its value that is counted.
* `Listing.forward_reads` : what can be read after forwarding.
* `Listing.forward_nested` : a value that is read and not set any more.
-/

namespace LevelIr

/-- The values that an operand reads: those that it mentions, and for an expression without a name
those that its operands read. -/
inductive Operand.Reads (p : Program) : Operand → ValueId → Prop where
  /-- The value of the operand itself, the base or a subscript. -/
  | mentioned {operand : Operand} {v : ValueId} (h : v ∈ operand.mentions) : Reads p operand v
  /-- A value that an operand of the expression reads. -/
  | nested {operand inner : Operand} {u x v : ValueId} {value : Value} {operator : Operator}
      {operands : List ValueId} (hu : operand.value = some u) (hnamed : operand.named = false)
      (hvalue : p.value u = .ok value)
      (hoperator : p.operator? value = .ok (some (operator, operands))) (hx : x ∈ operands)
      (hinner : ofValue p x = .ok inner) (h : Reads p inner v) : Reads p operand v

/-- An operand with a name, or without a value, reads nothing but what it mentions. -/
theorem Operand.Reads.mem_mentions {p : Program} {operand : Operand} {v : ValueId}
    (h : operand.Reads p v) (hnamed : operand.named = true ∨ operand.value = none) :
    v ∈ operand.mentions := by
  cases h with
  | mentioned h => exact h
  | nested hu hunnamed => simp [hu, hunnamed] at hnamed

/-! ### What forwarding takes away -/

namespace Forward

/-- What is left of some statements when loads are dropped and stores refer to their sources. -/
structure Sheds (uses : ValueId → Nat) (before after : List Statement) : Prop where
  /-- No value is mentioned more often. -/
  count : ∀ v, (after.flatMap Statement.mentions).count v ≤
    (before.flatMap Statement.mentions).count v
  /-- If a load is gone, its value is used once, and mentioned less often. -/
  load : ∀ s ∈ before, s.isLoad = true → ∀ v, s.defined? = some v → s ∈ after ∨
    uses v = 1 ∧ (after.flatMap Statement.mentions).count v <
      (before.flatMap Statement.mentions).count v
  /-- What is neither a load nor a store stays. -/
  other : ∀ s ∈ before, s.isLoad = false → s.isStore = false → s ∈ after
  /-- What is used was used before. -/
  operand : ∀ r ∈ after.flatMap Statement.uses, ∃ r' ∈ before.flatMap Statement.uses,
    r'.operand = r.operand

variable {uses : ValueId → Nat} {reach : Int} {xs ys zs : List Statement}

theorem sheds_of_perm (h : xs.Perm ys) : Sheds uses xs ys where
  count v := Nat.le_of_eq ((h.flatMap_right Statement.mentions).symm.count_eq v)
  load _ hs _ _ _ := .inl (h.subset hs)
  other _ hs _ _ := h.subset hs
  operand r hr := ⟨r, (h.flatMap_right Statement.uses).symm.subset hr, rfl⟩

theorem Sheds.trans (hxy : Sheds uses xs ys) (hyz : Sheds uses ys zs) : Sheds uses xs zs where
  count v := Nat.le_trans (hyz.count v) (hxy.count v)
  load s hs hload v hv := by
    rcases hxy.load s hs hload v hv with hs | ⟨huses, hlt⟩
    · rcases hyz.load s hs hload v hv with hs | ⟨huses, hlt⟩
      · exact .inl hs
      · exact .inr ⟨huses, Nat.lt_of_lt_of_le hlt (hxy.count v)⟩
    · exact .inr ⟨huses, Nat.lt_of_le_of_lt (hyz.count v) hlt⟩
  other s hs hload hstore := hyz.other s (hxy.other s hs hload hstore) hload hstore
  operand r hr := by
    obtain ⟨r', hr', heq⟩ := hyz.operand r hr
    obtain ⟨r'', hr'', heq'⟩ := hxy.operand r' hr'
    exact ⟨r'', hr'', heq'.trans heq⟩

theorem Sheds.append_left (h : Sheds uses xs ys) (zs : List Statement) :
    Sheds uses (zs ++ xs) (zs ++ ys) where
  count v := by
    simp only [List.flatMap_append, List.count_append]
    exact Nat.add_le_add_left (h.count v) _
  load s hs hload v hv := by
    simp only [List.flatMap_append, List.count_append, List.mem_append]
    rcases List.mem_append.1 hs with hs | hs
    · exact .inl (.inl hs)
    · rcases h.load s hs hload v hv with hs | ⟨huses, hlt⟩
      · exact .inl (.inr hs)
      · exact .inr ⟨huses, Nat.add_lt_add_left hlt _⟩
  other s hs hload hstore := by
    rcases List.mem_append.1 hs with hs | hs
    · exact List.mem_append_left _ hs
    · exact List.mem_append_right _ (h.other s hs hload hstore)
  operand r hr := by
    simp only [List.flatMap_append, List.mem_append] at hr ⊢
    rcases hr with hr | hr
    · exact ⟨r, .inl hr, rfl⟩
    · obtain ⟨r', hr', heq⟩ := h.operand r hr
      exact ⟨r', .inr hr', heq⟩

theorem Sheds.append {xs' ys' : List Statement} (h : Sheds uses xs ys) (h' : Sheds uses xs' ys') :
    Sheds uses (xs ++ xs') (ys ++ ys') := by
  have hleft : Sheds uses (xs' ++ xs) (xs' ++ ys) := h.append_left xs'
  have hswap : Sheds uses (xs ++ xs') (ys ++ xs') :=
    (sheds_of_perm List.perm_append_comm).trans (hleft.trans (sheds_of_perm List.perm_append_comm))
  exact hswap.trans (h'.append_left ys)

theorem sheds_flatMap {α : Type} {f g : α → List Statement} {as : List α}
    (h : ∀ a ∈ as, Sheds uses (f a) (g a)) : Sheds uses (as.flatMap f) (as.flatMap g) := by
  induction as with
  | nil => exact sheds_of_perm (.refl _)
  | cons a as ih =>
    rw [List.forall_mem_cons] at h
    exact h.1.append (ih h.2)

/-! ### A step and a run -/

/-- A reference stays as it is, or the load that sets its value goes and the reference gets the
source of the load. -/
theorem redirect_cases (uses : ValueId → Nat) (reach : Int) (done : List Statement)
    (r : Reference) :
    redirect uses reach done r = (r, done) ∨
      ∃ v load source level earlier later, r.value = some v ∧ uses v = 1 ∧
        done = later ++ load :: earlier ∧ produces v load = true ∧ source ∈ load.operands ∧
        redirect uses reach done r = (⟨source.operand, level⟩, later ++ earlier) := by
  refine (redirect_eq_or uses reach done r).imp_right ?_
  rintro ⟨load, replacement, later, earlier, rfl, hsubstitute, hnew⟩
  obtain ⟨source, result, v, ⟨hload, hignored, -, hsource, hresult, hvalue, -, -, hone⟩, hv, -, -,
    rfl⟩ := substitute?_eq_some_iff.1 hsubstitute
  have hproduces : produces v load = true := by simp [produces, hload, hignored, hresult, hvalue]
  exact ⟨v, load, source, _, earlier, later, hv, hone, rfl, hproduces,
    List.mem_of_mem_head? hsource, hnew⟩

section Store

variable {done : List Statement} {s s' : Statement}

theorem ne_of_isStore (hs : s.isStore = true) {t : Statement}
    (ht : t.isLoad = true ∨ t.isStore = false) : t ≠ s := by
  rintro rfl
  rcases ht with ht | ht
  · rw [isStore_of_isLoad ht] at hs
    cases hs
  · rw [hs] at ht
    cases ht

theorem sheds_of_uses_eq (hs : s.isStore = true) (huses : s'.uses = s.uses) :
    Sheds uses (s :: done) (s' :: done) where
  count v := by simp [Statement.mentions, huses]
  load t ht hload _ _ :=
    .inl <| List.mem_cons_of_mem _ <|
      (List.mem_cons.1 ht).resolve_left (ne_of_isStore hs (.inl hload))
  other t ht _ hstore :=
    List.mem_cons_of_mem _ ((List.mem_cons.1 ht).resolve_left (ne_of_isStore hs (.inr hstore)))
  operand r hr := by
    rw [List.flatMap_cons, huses, ← List.flatMap_cons] at hr
    exact ⟨r, hr, rfl⟩

variable {r : Reference} {before after : List Reference}

/-- A load is dropped, and a store refers to the source of the load in place of `r`.  What the load
mentioned moves to the store, and what `r` mentioned is gone. -/
theorem sheds_of_moved {v : ValueId} {load : Statement} {source : Reference} {level : Int}
    {earlier later : List Statement} (hs : s.isStore = true) (hv : r.value = some v)
    (hone : uses v = 1) (hproduces : produces v load = true) (hsource : source ∈ load.operands)
    (huses : s.uses = before ++ r :: after)
    (huses' : s'.uses = before ++ ⟨source.operand, level⟩ :: after) :
    Sheds uses (s :: (later ++ load :: earlier)) (s' :: (later ++ earlier)) := by
  obtain ⟨hload, -, hdefined⟩ := produces_iff.1 hproduces
  have hmoved : source ∈ load.uses := List.mem_append_left _ (List.mem_append_left _ hsource)
  have hsub : source.operand.mentions.Sublist load.mentions :=
    List.sublist_flatten_of_mem (List.mem_map.2 ⟨source, hmoved, rfl⟩)
  have hcount (u : ValueId) :
      ((s' :: (later ++ earlier)).flatMap Statement.mentions).count u +
        r.operand.mentions.count u ≤
      ((s :: (later ++ load :: earlier)).flatMap Statement.mentions).count u := by
    have hle := hsub.count_le u
    simp only [List.flatMap_cons, List.flatMap_append, List.count_append, Statement.mentions,
      huses, huses'] at hle ⊢
    omega
  constructor
  · intro u
    exact Nat.le_trans (Nat.le_add_right _ _) (hcount u)
  · intro t ht htload u hu
    by_cases htl : t = load
    · obtain rfl : v = u := Option.some.inj (hdefined.symm.trans (htl ▸ hu))
      have hmentioned : v ∈ r.operand.mentions := by
        rw [Operand.mentions, show r.operand.value = some v from hv]
        simp
      have hpos := List.count_pos_iff.2 hmentioned
      have hle := hcount v
      exact .inr ⟨hone, by omega⟩
    · have hts := ne_of_isStore hs (.inl htload)
      exact .inl (List.mem_cons_of_mem _ (by simpa [hts, htl] using ht))
  · intro t ht htload hstore
    have hts := ne_of_isStore hs (.inr hstore)
    have htl : t ≠ load := by
      rintro rfl
      rw [hload] at htload
      cases htload
    exact List.mem_cons_of_mem _ (by simpa [hts, htl] using ht)
  · intro q hq
    simp only [List.flatMap_cons, List.flatMap_append, huses, huses', List.mem_append,
      List.mem_cons] at hq ⊢
    rcases hq with (hq | rfl | hq) | hq | hq
    · exact ⟨q, .inl (.inl hq), rfl⟩
    · exact ⟨source, .inr (.inr (.inl hmoved)), rfl⟩
    · exact ⟨q, .inl (.inr (.inr hq)), rfl⟩
    · exact ⟨q, .inr (.inl hq), rfl⟩
    · exact ⟨q, .inr (.inr (.inr hq)), rfl⟩

theorem sheds_redirect (before after : List Reference) (hs : s.isStore = true)
    (huses : s.uses = before ++ r :: after)
    (huses' : s'.uses = before ++ (redirect uses reach done r).1 :: after) :
    Sheds uses (s :: done) (s' :: (redirect uses reach done r).2) := by
  rcases redirect_cases uses reach done r with hsame | ⟨v, load, source, level, earlier, later, hv,
    hone, rfl, hproduces, hsource, hnew⟩
  · rw [hsame] at huses' ⊢
    exact sheds_of_uses_eq hs (huses'.trans huses.symm)
  · rw [hnew] at huses' ⊢
    exact sheds_of_moved hs hv hone hproduces hsource huses huses'

theorem uses_of_isStore (hs : s.isStore = true) : s.uses = s.operands ++ s.result.toList := by
  have haction : s.action = .store := by simpa [Statement.isStore] using hs
  simp [Statement.uses, Statement.reads, Statement.target?, Statement.callee?, hs, haction,
    Action.callee?]

variable (uses reach done)

theorem sheds_redirectFirst (hs : s.isStore = true) :
    Sheds uses (s :: done) ({ s with operands := (redirectFirst uses reach done s.operands).1 } ::
      (redirectFirst uses reach done s.operands).2) := by
  cases hoperands : s.operands with
  | nil =>
    refine sheds_of_uses_eq hs ?_
    rw [uses_of_isStore hs, hoperands]
    exact uses_of_isStore hs
  | cons r rest =>
    refine sheds_redirect (r := r) [] (rest ++ s.result.toList) hs ?_ ?_
    · rw [uses_of_isStore hs, hoperands]
      rfl
    · exact uses_of_isStore hs

theorem sheds_redirect? (hs : s.isStore = true) :
    Sheds uses (s :: done) ({ s with result := (redirect? uses reach done s.result).1 } ::
      (redirect? uses reach done s.result).2) := by
  cases hresult : s.result with
  | none =>
    refine sheds_of_uses_eq hs ?_
    rw [uses_of_isStore hs, hresult]
    exact uses_of_isStore hs
  | some r =>
    refine sheds_redirect (r := r) s.operands [] hs ?_ ?_
    · rw [uses_of_isStore hs, hresult]
      rfl
    · exact uses_of_isStore hs

end Store

theorem sheds_step (done : List Statement) (s : Statement) :
    Sheds uses (s :: done) (step uses reach done s) := by
  unfold step
  split
  · rename_i hstore
    have hs : s.isStore = true := (Bool.and_eq_true_iff.1 hstore).1
    have hfirst := sheds_redirectFirst uses reach done hs
    have hsecond := sheds_redirect? uses reach (redirectFirst uses reach done s.operands).2
      (s := { s with operands := (redirectFirst uses reach done s.operands).1 }) hs
    exact hfirst.trans (hsecond.trans (sheds_of_uses_eq hs rfl))
  · exact sheds_of_perm (.refl _)

/-- The statements of a block after forwarding. -/
theorem sheds_block (ss : List Statement) : Sheds uses ss (block uses reach ss) := by
  have hall : Sheds uses ss (block uses reach ss).reverse :=
    block_invariant uses reach (sheds_of_perm (.refl [])) fun before s _ hdone =>
      (sheds_of_perm List.perm_append_comm).trans ((hdone.append_left [s]).trans (sheds_step _ s))
  exact hall.trans (sheds_of_perm (List.reverse_perm _))

end Forward

namespace Listing

variable {l : Listing}

theorem sheds_forward (h : (l.blocks.map Place.block).Nodup) (reach : Int) (f : FunctionId) :
    Forward.Sheds (l.mentionCount f) (l.statementsOf f) ((l.forward reach).statementsOf f) := by
  obtain ⟨-, hblocks, hat⟩ := contiguous_forward h reach
  have hout : (l.forward reach).statementsOf f =
      (l.blocks.filter (·.function = f)).flatMap (l.forwardedAt reach) := by
    rw [statementsOf, hblocks]
    exact List.flatMap_congr fun place hplace => hat place (List.mem_of_mem_filter hplace)
  rw [hout]
  refine Forward.sheds_flatMap fun place hplace => ?_
  obtain rfl : place.function = f := by simpa using (List.mem_filter.1 hplace).2
  exact Forward.sheds_block _

/-! ### What functions return -/

/-- What a function returns is the operand of a return that is listed under it. -/
def ReturnsListed (l : Listing) : Prop :=
  ∀ f r, l.returned? f = some r → ∃ s ∈ l.statementsOf f, s.action = .ret ∧ r ∈ s.operands

theorem RecordsReturns.returnsListed (h : l.RecordsReturns) : l.ReturnsListed := by
  intro f r hr
  rw [h f] at hr
  obtain ⟨s, hs, hreturned⟩ := List.mem_filterMap.1 (List.mem_of_getLast? hr)
  unfold Statement.returned? at hreturned
  split at hreturned
  · rename_i haction
    exact ⟨s, hs, haction, List.mem_of_mem_head? (Option.filter_eq_some_iff.1 hreturned).1⟩
  · cases hreturned

theorem mem_statementsOf {f : FunctionId} {s : Statement} :
    s ∈ l.statementsOf f ↔ ∃ place ∈ l.blocks, place.function = f ∧ s ∈ l.statementsAt place := by
  simp [statementsOf, and_assoc]

section Returns

variable {l' : Listing}

/-- Returns stay listed as long as no block and no statement goes. -/
theorem ReturnsListed.mono (h : l.ReturnsListed) (hreturns : l'.returns = l.returns)
    (hblocks : l.blocks ⊆ l'.blocks) (hat : ∀ place, ∀ s ∈ l.statementsAt place,
      ∃ t ∈ l'.statementsAt place, t.action = s.action ∧ t.operands = s.operands) :
    l'.ReturnsListed := by
  intro f r hr
  rw [returned?, hreturns] at hr
  obtain ⟨s, hs, haction, hmem⟩ := h f r hr
  obtain ⟨place, hplace, hf, hs⟩ := mem_statementsOf.1 hs
  obtain ⟨t, ht, haction', hoperands⟩ := hat place s hs
  exact ⟨t, mem_statementsOf.2 ⟨place, hblocks hplace, hf, ht⟩, haction'.trans haction,
    hoperands ▸ hmem⟩

theorem ReturnsListed.addFunction (h : l.ReturnsListed) (f : FunctionId) :
    (l.addFunction f).ReturnsListed := by
  unfold Listing.addFunction
  split
  · exact h
  · exact h.mono rfl (List.Subset.refl _) fun _ s hs => ⟨s, hs, rfl, rfl⟩

theorem ReturnsListed.addBlock (h : l.ReturnsListed) (place : Place) :
    (l.addBlock place).ReturnsListed := by
  unfold Listing.addBlock
  split
  · exact h
  · exact h.mono rfl (List.subset_append_left _ _) fun _ s hs => ⟨s, hs, rfl, rfl⟩

theorem ReturnsListed.pushAll (h : l.ReturnsListed) (place : Place) (statements : List Statement) :
    (l.pushAll place statements).ReturnsListed := by
  induction statements generalizing l with
  | nil => exact h
  | cons s rest ih =>
    refine ih (l := l.push place s) (h.mono rfl (List.Subset.refl _) fun other t ht => ?_)
    rw [statementsAt_push]
    exact ⟨t, List.mem_append_left _ ht, rfl, rfl⟩

theorem ReturnsListed.setIgnored (h : l.ReturnsListed) {n : Nat} {ignored : Bool}
    (hset : l.setIgnored n ignored = .ok l') : l'.ReturnsListed := by
  obtain ⟨-, hblocks, hreturns, hentries⟩ := setIgnored_ok hset
  refine h.mono hreturns (hblocks ▸ List.Subset.refl _) fun place s hs => ?_
  have hmem : s.unmarked ∈ (l'.statementsAt place).map Statement.unmarked := by
    rw [statementsAt_of_unmarked hentries]
    exact List.mem_map_of_mem hs
  obtain ⟨t, ht, heq⟩ := List.mem_map.1 hmem
  have haction : t.unmarked.action = s.unmarked.action := congrArg Statement.action heq
  have hoperands : t.unmarked.operands = s.unmarked.operands := congrArg Statement.operands heq
  exact ⟨t, ht, haction, hoperands⟩

theorem ReturnsListed.forward (h : l.ReturnsListed) (hnodup : (l.blocks.map Place.block).Nodup)
    (reach : Int) : (l.forward reach).ReturnsListed := by
  intro f r hr
  rw [forward_eq_addParts] at hr
  obtain ⟨s, hs, haction, hmem⟩ := h f r hr
  have hload : s.isLoad = false := by simp [Statement.isLoad, haction]
  have hstore : s.isStore = false := by simp [Statement.isStore, haction]
  exact ⟨s, (sheds_forward hnodup reach f).other s hs hload hstore, haction, hmem⟩

end Returns

theorem Reached.returnsListed (h : l.Reached) : l.ReturnsListed := by
  induction h with
  | transcribed discard hp h =>
    have hlisted := (Workspace.walks_flagged _ _).listedAs hp.coherent ⟨rfl, rfl, trivial⟩ h
    exact hlisted.returns.returnsListed
  | empty => exact fun f r hr => by cases hr
  | @excerpted l _ place w ih =>
    obtain ⟨statements, -, heq⟩ := Excerpt.exists_pushAll place l w
    rw [heq]
    exact ((ih.addFunction place.function).addBlock place).pushAll place statements
  | ignored _ hset ih => exact ih.setIgnored hset
  | forwarded h reach ih => exact ih.forward h.orderly.nodup reach

/-! ### What can be read -/

/-- What the statements of a function use, and what it returns. -/
def usesOf (l : Listing) (f : FunctionId) : List Reference :=
  (l.statementsOf f).flatMap Statement.uses ++ (l.returned? f).toList

theorem Reached.mem_uses_of_mem_usesOf (h : l.Reached) {f : FunctionId} {r : Reference}
    (hr : r ∈ l.usesOf f) : r ∈ (l.statementsOf f).flatMap Statement.uses := by
  rcases List.mem_append.1 hr with hr | hr
  · exact hr
  · obtain ⟨s, hs, -, hmem⟩ := h.returnsListed f r (Option.mem_toList.1 hr)
    exact List.mem_flatMap.2 ⟨s, hs, List.mem_append_left _ (List.mem_append_left _ hmem)⟩

/-- **A load that is dropped leaves no use behind that is counted.**  If a load that sets `v` is
missing after forwarding, then nothing in its function mentions `v` any more: no operand, no target
of a store, no callee and no returned operand, neither as its own value nor as a base or a
subscript.  What still reads `v` does so below an expression, and did so before: if all that read
`v` in the function mentioned it, then nothing reads it. -/
theorem forward_reads (h : l.Reached) (reach : Int) {f : FunctionId} {s : Statement} {v : ValueId}
    (hs : s ∈ l.statementsOf f) (hload : s.isLoad = true) (hv : s.defined? = some v)
    (hgone : s ∉ (l.forward reach).statementsOf f) :
    (∀ r ∈ (l.forward reach).usesOf f, v ∉ r.operand.mentions) ∧
      ∀ p : Program, (∀ r ∈ l.usesOf f, r.operand.Reads p v → v ∈ r.operand.mentions) →
        ∀ r ∈ (l.forward reach).usesOf f, ¬r.operand.Reads p v := by
  have hsheds := sheds_forward h.orderly.nodup reach f
  have hmentions : ∀ r ∈ (l.forward reach).usesOf f, v ∉ r.operand.mentions := by
    obtain ⟨hone, hlt⟩ := (hsheds.load s hs hload v hv).resolve_left hgone
    rw [mentionCount_eq_count] at hone
    rw [hone, Nat.lt_one_iff, List.count_eq_zero] at hlt
    intro r hr hmem
    obtain ⟨t, ht, hr⟩ := List.mem_flatMap.1 ((h.forwarded reach).mem_uses_of_mem_usesOf hr)
    exact hlt (List.mem_flatMap.2 ⟨t, ht, List.mem_flatMap.2 ⟨r, hr, hmem⟩⟩)
  refine ⟨hmentions, fun p hcounted r hr hreads => ?_⟩
  obtain ⟨r', hr', heq⟩ := hsheds.operand r ((h.forwarded reach).mem_uses_of_mem_usesOf hr)
  have hmem := hcounted r' (List.mem_append_left _ hr') (heq ▸ hreads)
  exact hmentions r hr (heq ▸ hmem)

theorem forward_reads_copies : copies.listing.Reached ∧
    ∃ s ∈ copies.listing.statementsOf ⟨0⟩, s.isLoad = true ∧ s.defined? = some ⟨4⟩ ∧
      s ∉ (copies.listing.forward 2).statementsOf ⟨0⟩ ∧
      (∀ r ∈ (copies.listing.forward 2).usesOf ⟨0⟩, ⟨4⟩ ∉ r.operand.mentions) ∧
      ∀ r ∈ (copies.listing.forward 2).usesOf ⟨0⟩, ¬r.operand.Reads copies ⟨4⟩ := by
  have hok : ((Workspace.transcribe false).outcome { program := copies }).1.isOk = true := by
    decide +kernel
  obtain ⟨later, hl⟩ := Program.outcome_listing hok
  have hreached : copies.listing.Reached := .transcribed false (Program.assembled_ofEdits _ _) hl
  obtain ⟨s, hs, hload, hv, hgone⟩ : ∃ s ∈ copies.listing.statementsOf ⟨0⟩, s.isLoad = true ∧
      s.defined? = some ⟨4⟩ ∧ s ∉ (copies.listing.forward 2).statementsOf ⟨0⟩ := by decide +kernel
  have hnamed : ∀ r ∈ copies.listing.usesOf ⟨0⟩,
      r.operand.named = true ∨ r.operand.value = none := by decide +kernel
  obtain ⟨hmentions, hreads⟩ := forward_reads hreached 2 hs hload hv hgone
  exact ⟨hreached, s, hs, hload, hv, hgone, hmentions,
    hreads copies fun r hr h => h.mem_mentions (hnamed r hr)⟩

/-- A variable that is copied, and whose value selects a row of a table; the cell that is written to
is an element of that row. -/
def nested : Program := .ofEdits "nested"
  [.value (.int 32) "" (.integer 0),
    .value (.int 32) "" (.integer 5),
    .function "main" .void [],
    .block ⟨0⟩ "entry",
    .last ⟨0⟩ { opcode := .alloca, type := .pointer (.int 32), name := "a" },
    .last ⟨0⟩ { opcode := .alloca, type := .pointer (.int 32), name := "c" },
    .last ⟨0⟩
      { opcode := .alloca, type := .pointer (.array 4 (.array 4 (.int 32))), name := "arr" },
    .last ⟨0⟩ { opcode := .load, operands := [.value ⟨3⟩], type := .int 32, name := "t" },
    .last ⟨0⟩ { opcode := .store, operands := [.value ⟨6⟩, .value ⟨4⟩] },
    .value (.pointer (.array 4 (.int 32))) "" (.expression .getElementPtr [⟨5⟩, ⟨6⟩]),
    .value (.pointer (.int 32)) "" (.expression .getElementPtr [⟨7⟩, ⟨0⟩]),
    .last ⟨0⟩ { opcode := .store, operands := [.value ⟨1⟩, .value ⟨8⟩] },
    .last ⟨0⟩ { opcode := .ret }]

/-- The only statement that sets `t` is dropped, and the row that `t` selects is still written to:
`*c = *a; *arr[t][0] = 5`. -/
theorem forward_nested : nested.listing.Reached ∧
    (∃ s ∈ nested.listing.statementsOf ⟨0⟩, s.isLoad = true ∧ s.defined? = some ⟨6⟩) ∧
    (∀ s ∈ (nested.listing.forward 2).statements, s.defined? ≠ some ⟨6⟩) ∧
    ∃ s ∈ (nested.listing.forward 2).statements, ∃ r ∈ s.uses, r.operand.Reads nested ⟨6⟩ := by
  have hok : ((Workspace.transcribe false).outcome { program := nested }).1.isOk = true := by
    decide +kernel
  obtain ⟨later, hl⟩ := Program.outcome_listing hok
  refine ⟨.transcribed false (Program.assembled_ofEdits _ _) hl, by decide +kernel,
    by decide +kernel, ?_⟩
  obtain ⟨s, hs, r, hr, hvalue, hnamed⟩ : ∃ s ∈ (nested.listing.forward 2).statements, ∃ r ∈ s.uses,
      r.operand.value = some ⟨8⟩ ∧ r.operand.named = false := by decide +kernel
  have hrow : ∃ row, Operand.ofValue nested ⟨7⟩ = .ok row ∧ ⟨6⟩ ∈ row.mentions :=
    ⟨_, rfl, by decide⟩
  obtain ⟨row, hrow, hmem⟩ := hrow
  exact ⟨s, hs, r, hr, .nested hvalue hnamed rfl rfl List.mem_cons_self hrow (.mentioned hmem)⟩

end Listing

end LevelIr
