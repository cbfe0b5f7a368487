import LevelIr.Proofs.Listing.Reads

/-!
# Statements at places that are not listed

A block that is added to an excerpt is listed once, under the function that it is first added under.
Its statements stand at the place that they are added at, though, which can be the block under
another function.  Such a place has a list of statements, but walks over the listed blocks do not
come to it: what stands there is not forwarded, but lost.

* `Listing.ofExcerpts` : the excerpt that is made by adding blocks one after another.
* `Listing.mem_blocks_ofExcerpts` : a place is listed if it is the first one with its block.
* `Forward.Thins` : what forwarding can do to the statements of a place.
* `Listing.forward_ofExcerpts` : which statements of an excerpt are left after forwarding.
* `Listing.forward_stray` : a return that is lost.
-/

namespace LevelIr

/-! ### Excerpts -/

namespace Listing

/-- The excerpt that is made by adding blocks one after another, each in some workspace, whether
that ends well or not. -/
def ofExcerpts (calls : List (Place × Workspace)) : Listing :=
  calls.foldl (fun l call => ((Excerpt.add call.1).outcome (l, call.2)).2.1) {}

/-- The statements at listed places, block by block. -/
def listed (l : Listing) : List Statement := l.blocks.flatMap l.statementsAt

/-- The statements at places that are not listed, by number. -/
def unlisted (l : Listing) : List Statement :=
  (l.entries.toList.filter (·.place ∉ l.blocks)).map Entry.statement

theorem reached_ofExcerpts (calls : List (Place × Workspace)) : (ofExcerpts calls).Reached := by
  induction calls using List.reverseRecOn with
  | nil => exact .empty
  | append_singleton calls call ih =>
    rw [ofExcerpts, List.foldl_append]
    exact ih.excerpted call.1 call.2

theorem blocks_addFunction (l : Listing) (f : FunctionId) :
    (l.addFunction f).blocks = l.blocks := by
  unfold addFunction
  split <;> rfl

theorem entries_addFunction (l : Listing) (f : FunctionId) :
    (l.addFunction f).entries = l.entries := by
  unfold addFunction
  split <;> rfl

/-- A block that is added is listed if it is not listed already, and its statements are added at the
place that it is added at. -/
theorem ofExcerpts_append_singleton (calls : List (Place × Workspace)) (call : Place × Workspace) :
    (ofExcerpts (calls ++ [call])).blocks =
        ((ofExcerpts calls).addBlock call.1).blocks ∧
      ∃ statements : List Statement, (ofExcerpts (calls ++ [call])).entries.toList =
        (ofExcerpts calls).entries.toList ++ statements.map (Entry.mk call.1) := by
  obtain ⟨statements, -, heq⟩ := Excerpt.exists_pushAll call.1 (ofExcerpts calls) call.2
  have hlast : ofExcerpts (calls ++ [call]) = (((ofExcerpts calls).addFunction
      call.1.function).addBlock call.1).pushAll call.1 statements := by
    rw [← heq, ofExcerpts, List.foldl_append]
    rfl
  have hentries (l : Listing) : (l.pushAll call.1 statements).entries.toList =
      l.entries.toList ++ statements.map (Entry.mk call.1) := by
    clear heq hlast
    induction statements generalizing l with
    | nil => simp [pushAll]
    | cons s rest ih =>
      have hstep : l.pushAll call.1 (s :: rest) = (l.push call.1 s).pushAll call.1 rest := rfl
      rw [hstep, ih]
      simp [push]
  refine ⟨?_, statements, ?_⟩
  · rw [hlast, blocks_pushAll, addBlock, addBlock, blocks_addFunction]
    split
    · exact blocks_addFunction _ _
    · rfl
  · rw [hlast, hentries, entries_addBlock, entries_addFunction]

/-- **A place is listed if it is the first one with its block.** -/
theorem mem_blocks_ofExcerpts (calls : List (Place × Workspace)) (place : Place) :
    place ∈ (ofExcerpts calls).blocks ↔
      (calls.map Prod.fst).find? (·.block = place.block) = some place := by
  induction calls using List.reverseRecOn generalizing place with
  | nil => simp [ofExcerpts]
  | append_singleton calls call ih =>
    rw [(ofExcerpts_append_singleton calls call).1, List.map_append, List.find?_append]
    by_cases hlisted : call.1.block ∈ (ofExcerpts calls).blocks.map Place.block
    · -- the block is listed already, under a place that comes earlier
      obtain ⟨first, hfirst, hblock⟩ := List.mem_map.1 hlisted
      have hany : (ofExcerpts calls).blocks.any (·.block = call.1.block) = true :=
        List.any_eq_true.2 ⟨first, hfirst, decide_eq_true hblock⟩
      rw [addBlock, if_pos hany, ih place]
      by_cases hplace : place.block = call.1.block
      · rw [hplace, ← hblock, (ih first).1 hfirst]
        rfl
      · have hnone : ([call.1].find? (·.block = place.block)) = none := by
          simpa using Ne.symm hplace
        rw [List.map_singleton, hnone, Option.or_none]
    · rw [blocks_addBlock _ hlisted, List.mem_append, List.mem_singleton]
      by_cases hplace : place.block = call.1.block
      · -- no earlier place has this block
        have hearlier : (calls.map Prod.fst).find? (·.block = place.block) = none := by
          cases hfound : (calls.map Prod.fst).find? (·.block = place.block) with
          | none => rfl
          | some first =>
            have hblock : first.block = place.block := by simpa using List.find?_some hfound
            have hmem := (ih first).2 (hblock ▸ hfound)
            exact absurd (hplace ▸ hblock ▸ List.mem_map_of_mem hmem) hlisted
        have hnot : place ∉ (ofExcerpts calls).blocks := fun hmem =>
          hlisted (hplace ▸ List.mem_map_of_mem hmem)
        have hfound : ([call.1].find? (·.block = place.block)) = some call.1 := by simp [hplace]
        rw [hearlier, Option.none_or, List.map_singleton, hfound, Option.some.injEq]
        exact ⟨fun h => (h.resolve_left hnot).symm, fun h => .inr h.symm⟩
      · have hne : place ≠ call.1 := fun h => hplace (congrArg Place.block h)
        have hnone : ([call.1].find? (·.block = place.block)) = none := by
          simpa using Ne.symm hplace
        rw [List.map_singleton, hnone, Option.or_none, ih place]
        exact or_iff_left hne

/-- Every statement stands at a place that was added. -/
theorem place_mem_of_mem_entries (calls : List (Place × Workspace)) {entry : Entry}
    (h : entry ∈ (ofExcerpts calls).entries.toList) : entry.place ∈ calls.map Prod.fst := by
  induction calls using List.reverseRecOn with
  | nil => cases h
  | append_singleton calls call ih =>
    obtain ⟨-, statements, hentries⟩ := ofExcerpts_append_singleton calls call
    rw [hentries] at h
    rw [List.map_append]
    rcases List.mem_append.1 h with h | h
    · exact List.mem_append_left _ (ih h)
    · obtain ⟨s, -, rfl⟩ := List.mem_map.1 h
      exact List.mem_append_right _ List.mem_cons_self

/-- Every place with a list of statements was added. -/
theorem mem_of_mem_places (calls : List (Place × Workspace)) {place : Place}
    (h : place ∈ (ofExcerpts calls).places) : place ∈ calls.map Prod.fst := by
  rcases List.mem_append.1 (List.mem_eraseDups.1 h) with h | h
  · exact List.mem_of_find?_eq_some ((mem_blocks_ofExcerpts calls place).1 h)
  · obtain ⟨entry, hentry, rfl⟩ := List.mem_map.1 h
    exact place_mem_of_mem_entries calls hentry

/-! ### Listed and unlisted statements -/

variable {l : Listing}

theorem unlisted_eq_nil_iff : l.unlisted = [] ↔ ∀ place ∈ l.places, place ∈ l.blocks := by
  rw [unlisted, List.map_eq_nil_iff, List.filter_eq_nil_iff]
  constructor
  · intro h place hplace
    rcases List.mem_append.1 (List.mem_eraseDups.1 hplace) with hmem | hmem
    · exact hmem
    · obtain ⟨entry, hentry, rfl⟩ := List.mem_map.1 hmem
      simpa using h entry hentry
  · intro h entry hentry
    have hplace : entry.place ∈ l.places :=
      List.mem_eraseDups.2 (List.mem_append_right _ (List.mem_map_of_mem hentry))
    simpa using h _ hplace

/-- The entries at one of several places are those at the single places, if these differ. -/
theorem length_flatMap_filter (entries : List Entry) {places : List Place} (h : places.Nodup) :
    (places.flatMap fun place => entries.filter (·.place = place)).length =
      entries.countP (·.place ∈ places) := by
  induction places with
  | nil => simp
  | cons place places ih =>
    rw [List.nodup_cons] at h
    have hsplit : entries.countP (·.place ∈ place :: places) =
        entries.countP (·.place = place) + entries.countP (·.place ∈ places) := by
      clear ih
      induction entries with
      | nil => rfl
      | cons entry entries ih =>
        rw [List.countP_cons, List.countP_cons, List.countP_cons, ih]
        by_cases hentry : entry.place = place
        · simp only [hentry, List.mem_cons_self, h.1, decide_true, decide_false, if_true]
          simp
          omega
        · simp only [List.mem_cons, hentry, false_or, decide_false]
          simp
          omega
    rw [List.flatMap_cons, List.length_append, ih h.2, hsplit, ← List.countP_eq_length_filter]

/-- A statement stands at a listed place or at one that is not listed. -/
theorem size_eq_listed (h : l.blocks.Nodup) : l.size = l.listed.length + l.unlisted.length := by
  have hlisted : l.listed.length = l.entries.toList.countP (·.place ∈ l.blocks) := by
    rw [← length_flatMap_filter l.entries.toList h, listed]
    simp [List.length_flatMap, statementsAt]
  rw [hlisted, unlisted, List.length_map, ← List.countP_eq_length_filter, size,
    ← Array.length_toList, List.length_eq_countP_add_countP (fun e : Entry => e.place ∈ l.blocks)]
  simp

end Listing

/-! ### What forwarding leaves at a place -/

/-- A statement without what forwarding can replace: the references of a store. -/
def Statement.bare (s : Statement) : Statement :=
  if s.isStore then { s with operands := [], result := none, pointer := false } else s

namespace Forward

/-- Between the two lists some loads were dropped, and references of stores were replaced; all else
stands there as it was, in order. -/
structure Thins (before after : List Statement) : Prop where
  loads : (after.filter (·.isLoad)).Sublist (before.filter (·.isLoad))
  others : (after.filter (!·.isLoad)).map Statement.bare =
    (before.filter (!·.isLoad)).map Statement.bare

variable {xs ys zs : List Statement}

theorem thins_refl (xs : List Statement) : Thins xs xs := ⟨.refl _, rfl⟩

theorem Thins.trans (h : Thins xs ys) (h' : Thins ys zs) : Thins xs zs :=
  ⟨h'.loads.trans h.loads, h'.others.trans h.others⟩

theorem Thins.append {xs' ys' : List Statement} (h : Thins xs ys) (h' : Thins xs' ys') :
    Thins (xs ++ xs') (ys ++ ys') where
  loads := by
    rw [List.filter_append, List.filter_append]
    exact h.loads.append h'.loads
  others := by
    simp only [List.filter_append, List.map_append, h.others, h'.others]

theorem Thins.reverse (h : Thins xs ys) : Thins xs.reverse ys.reverse where
  loads := by
    rw [List.filter_reverse, List.filter_reverse]
    exact h.loads.reverse
  others := by
    simp only [List.filter_reverse, List.map_reverse, h.others]

theorem thins_singleton {s t : Statement} (hs : s.isLoad = false) (ht : t.isLoad = false)
    (h : t.bare = s.bare) : Thins [s] [t] where
  loads := by simp [hs, ht]
  others := by simp [hs, ht, h]

/-- Only loads get fewer. -/
theorem Thins.length (h : Thins xs ys) : ys.countP (·.isLoad) ≤ xs.countP (·.isLoad) ∧
    ys.length + (xs.countP (·.isLoad) - ys.countP (·.isLoad)) = xs.length := by
  have hloads := h.loads.length_le
  have hothers := congrArg List.length h.others
  simp only [List.length_map, ← List.countP_eq_length_filter] at hloads hothers
  have hxs := List.length_eq_countP_add_countP (·.isLoad) (l := xs)
  have hys := List.length_eq_countP_add_countP (·.isLoad) (l := ys)
  simp only [decide_not, Bool.decide_eq_true] at hxs hys
  omega

/-- A load that is dropped for a reference. -/
theorem thins_redirect (uses : ValueId → Nat) (reach : Int) (done : List Statement)
    (r : Reference) : Thins done (redirect uses reach done r).2 := by
  rcases redirect_cases uses reach done r with heq |
    ⟨v, load, source, level, earlier, later, -, -, rfl, hproduces, -, heq⟩
  · rw [heq]
    exact thins_refl done
  · have hload : load.isLoad = true := by
      simp only [produces, Bool.and_eq_true] at hproduces
      exact hproduces.1.1
    rw [heq]
    constructor
    · rw [List.filter_append, List.filter_append, List.filter_cons_of_pos hload]
      exact (List.Sublist.refl _).append (List.sublist_cons_self _ _)
    · rw [List.filter_append, List.filter_append, List.filter_cons_of_neg (by simp [hload])]

theorem thins_step (uses : ValueId → Nat) (reach : Int) (done : List Statement) (s : Statement) :
    Thins (s :: done) (step uses reach done s) := by
  unfold step
  split
  · rename_i hstore
    have hstore : s.isStore = true := (Bool.and_eq_true_iff.1 hstore).1
    have hload : s.isLoad = false := by
      simp_all [Statement.isLoad, Statement.isStore]
    have hfirst : Thins done (redirectFirst uses reach done s.operands).2 := by
      unfold redirectFirst
      split
      · exact thins_redirect uses reach done _
      · exact thins_refl done
    have hboth : Thins done
        (redirect? uses reach (redirectFirst uses reach done s.operands).2 s.result).2 := by
      refine hfirst.trans ?_
      cases s.result with
      | none => exact thins_refl _
      | some target => exact thins_redirect uses reach _ target
    refine Thins.append (thins_singleton hload ?_ ?_) hboth
    · exact hload
    · have hbare (operands : List Reference) (result : Option Reference) :
          ({ s with operands, result } : Statement).refreshPointer.bare = s.bare := by
        have hsame : ({ s with operands, result } : Statement).refreshPointer.isStore = true :=
          hstore
        rw [Statement.bare, Statement.bare, if_pos hsame, if_pos hstore]
        rfl
      exact hbare _ _
  · exact thins_refl _

/-- **Forwarding drops loads and replaces references of stores**, and does nothing else to the
statements of a block. -/
theorem thins_block (uses : ValueId → Nat) (reach : Int) (ss : List Statement) :
    Thins ss (block uses reach ss) := by
  have hall : Thins ss.reverse (block uses reach ss).reverse :=
    block_invariant uses reach (I := fun before => Thins before.reverse) (thins_refl [])
      fun before s _ hdone => by
        rw [List.reverse_append]
        exact ((thins_refl [s]).append hdone).trans (thins_step uses reach _ s)
  simpa using hall.reverse

theorem thins_flatMap {α : Type} {f g : α → List Statement} {as : List α}
    (h : ∀ a ∈ as, Thins (f a) (g a)) : Thins (as.flatMap f) (as.flatMap g) := by
  induction as with
  | nil => exact thins_refl []
  | cons a as ih =>
    rw [List.forall_mem_cons] at h
    exact h.1.append (ih h.2)

end Forward

namespace Listing

variable {l : Listing}

/-- What forwarding leaves of a listing is what it leaves at the listed places. -/
theorem thins_forward (h : (l.blocks.map Place.block).Nodup) (reach : Int) :
    (∀ place ∈ l.blocks,
        Forward.Thins (l.statementsAt place) ((l.forward reach).statementsAt place)) ∧
      Forward.Thins l.listed (l.forward reach).statements := by
  obtain ⟨hcontiguous, hblocks, hat⟩ := contiguous_forward h reach
  have hplace (place : Place) (hmem : place ∈ l.blocks) :
      Forward.Thins (l.statementsAt place) ((l.forward reach).statementsAt place) := by
    rw [hat place hmem]
    exact Forward.thins_block _ reach _
  refine ⟨hplace, ?_⟩
  rw [← hcontiguous.statements, hblocks]
  exact Forward.thins_flatMap hplace

/-- **What is left of an excerpt after forwarding.**  Blocks are added one after another, under
whatever functions, and some of them may fail.  A place with statements is listed just if it is the
first one with its block.  At the listed places only loads are dropped, and only references of
stores are replaced; at all other places nothing is left.  So the statements that are missing in the
end are the loads that were dropped and those that stood at places that are not listed. -/
theorem forward_ofExcerpts (calls : List (Place × Workspace)) (reach : Int) :
    (∀ place ∈ (ofExcerpts calls).places, place ∈ calls.map Prod.fst) ∧
      (∀ place, place ∈ (ofExcerpts calls).blocks ↔
        (calls.map Prod.fst).find? (·.block = place.block) = some place) ∧
      ((∀ place ∈ (ofExcerpts calls).places, place ∈ (ofExcerpts calls).blocks) ↔
        (ofExcerpts calls).unlisted = []) ∧
      ((ofExcerpts calls).forward reach).blocks = (ofExcerpts calls).blocks ∧
      (∀ place ∈ (ofExcerpts calls).blocks, Forward.Thins ((ofExcerpts calls).statementsAt place)
        (((ofExcerpts calls).forward reach).statementsAt place)) ∧
      (∀ place, place ∉ (ofExcerpts calls).blocks →
        ((ofExcerpts calls).forward reach).statementsAt place = []) ∧
      ((ofExcerpts calls).forward reach).statements.countP (·.isLoad) ≤
        (ofExcerpts calls).listed.countP (·.isLoad) ∧
      ((ofExcerpts calls).forward reach).size +
          ((ofExcerpts calls).listed.countP (·.isLoad) -
            ((ofExcerpts calls).forward reach).statements.countP (·.isLoad)) +
          (ofExcerpts calls).unlisted.length = (ofExcerpts calls).size := by
  have hnodup := (reached_ofExcerpts calls).orderly.nodup
  obtain ⟨hcontiguous, hblocks, -⟩ := contiguous_forward hnodup reach
  obtain ⟨hplaces, hthins⟩ := thins_forward hnodup reach
  have hsize : ((ofExcerpts calls).forward reach).size =
      ((ofExcerpts calls).forward reach).statements.length := by
    simp [size, statements]
  obtain ⟨hloads, hlength⟩ := hthins.length
  refine ⟨fun place => mem_of_mem_places calls, mem_blocks_ofExcerpts calls,
    unlisted_eq_nil_iff.symm, hblocks, hplaces, fun place hplace => ?_, hloads, ?_⟩
  · exact hcontiguous.statementsAt_of_not_mem (hblocks ▸ hplace)
  · rw [hsize, hlength, size_eq_listed hnodup.of_map]

/-- A function whose only block returns, and another function without blocks. -/
def stray : Program := .ofEdits "stray"
  [.function "main" .void [],
    .block ⟨0⟩ "entry",
    .last ⟨0⟩ { opcode := .ret },
    .function "other" .void []]

/-- The block of the first function is added under both functions. -/
def strayExcerpt : Listing :=
  ofExcerpts [(⟨⟨0⟩, ⟨0⟩⟩, { program := stray }), (⟨⟨1⟩, ⟨0⟩⟩, { program := stray })]

/-- **A return that is lost.**  The block stands under both functions but is listed under the first
one only, and after forwarding one of the two returns is gone, although there are no loads. -/
theorem forward_stray :
    (⟨⟨1⟩, ⟨0⟩⟩ : Place) ∈ strayExcerpt.places ∧ (⟨⟨1⟩, ⟨0⟩⟩ : Place) ∉ strayExcerpt.blocks ∧
      strayExcerpt.statements.map Statement.action = [.ret, .ret] ∧ strayExcerpt.size = 2 ∧
      (strayExcerpt.forward 2).size = 1 := by
  decide +kernel

end Listing

end LevelIr
