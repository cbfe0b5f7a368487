import LevelIr.Listing.Forward
import LevelIr.Listing.Transcribe
import Mathlib.Data.List.Induction
import Mathlib.Data.List.Nodup

/-!
# Numbers that run through the blocks

Listings are built block by block: a block is added, and then all its statements.  So the numbers
run through the listed blocks in order, and the statements of a block are those that were added
with it.

* `Listing.addParts` : adds blocks, each with its statements; listing a program and forwarding
  both build their listings in this way.
* `Listing.Contiguous` : no block is listed twice, and the numbers run through the blocks.
* `Listing.Contiguous.addParts` : adding new blocks keeps that so.
-/

namespace LevelIr

namespace Listing

variable (l : Listing)

/-! ### The numbers of a place -/

theorem numbersAt_push (place other : Place) (s : Statement) :
    (l.push place s).numbersAt other =
      l.numbersAt other ++ if place = other then [l.size] else [] := by
  have hold : (List.range l.entries.size).filter
      (fun n => (l.entries.push ⟨place, s⟩)[n]?.any (·.place = other)) = l.numbersAt other := by
    refine List.filter_congr fun n hn => ?_
    have hlt : n < l.entries.size := List.mem_range.1 hn
    rw [Array.getElem?_push, if_neg (by omega)]
  have hsize : (l.push place s).entries.size = l.entries.size + 1 := Array.size_push ..
  unfold numbersAt
  rw [hsize, List.range_succ, List.filter_append]
  congr 1
  by_cases h : place = other
  · simp [push, size, h]
  · simp [push, h]

theorem numbersAt_pushAll (place other : Place) (statements : List Statement) :
    (l.pushAll place statements).numbersAt other = l.numbersAt other ++
      if place = other then (List.range statements.length).map (l.size + ·) else [] := by
  induction statements generalizing l with
  | nil => simp [pushAll]
  | cons s rest ih =>
    have hstep : l.pushAll place (s :: rest) = (l.push place s).pushAll place rest := rfl
    rw [hstep, ih, numbersAt_push, size_push]
    by_cases h : place = other
    · simp only [h, if_true, List.length_cons, List.range_succ_eq_map, List.map_cons, List.map_map,
        List.append_assoc, List.singleton_append, Nat.add_zero]
      congr 2
      refine List.map_congr_left fun n _ => ?_
      simp only [Function.comp_apply]
      omega
    · simp [h]

theorem blocks_pushAll (place : Place) (statements : List Statement) :
    (l.pushAll place statements).blocks = l.blocks := by
  induction statements generalizing l with
  | nil => rfl
  | cons s rest ih => exact ih (l.push place s)

theorem blocks_addBlock {place : Place} (h : place.block ∉ l.blocks.map Place.block) :
    (l.addBlock place).blocks = l.blocks ++ [place] := by
  have hnone : l.blocks.any (·.block = place.block) = false := by
    refine List.any_eq_false.2 fun other hother => ?_
    rw [decide_eq_true_iff]
    intro e
    exact h (e ▸ List.mem_map_of_mem hother)
  simp [addBlock, hnone]

theorem entries_addBlock (place : Place) : (l.addBlock place).entries = l.entries := by
  unfold addBlock
  split <;> rfl

/-! ### Listings that are built block by block -/

/-- Adds blocks, each with its statements. -/
def addParts (parts : List (Place × List Statement)) : Listing :=
  parts.foldl (fun l part => (l.addBlock part.1).pushAll part.1 part.2) l

/-- No block is listed twice, and the numbers run through the listed blocks in order. -/
structure Contiguous : Prop where
  nodup : (l.blocks.map Place.block).Nodup
  numbers : l.blocks.flatMap l.numbersAt = List.range l.size

variable {l}

theorem contiguous_of_empty (hblocks : l.blocks = []) (hentries : l.entries = #[]) :
    l.Contiguous := by
  constructor
  · simp [hblocks]
  · simp [hblocks, size, hentries]

theorem filterMap_range_getElem? {α : Type} (xs : List α) :
    (List.range xs.length).filterMap (xs[·]?) = xs := by
  induction xs using List.reverseRecOn with
  | nil => rfl
  | append_singleton xs x ih =>
    have hold : (List.range xs.length).filterMap ((xs ++ [x])[·]?) =
        (List.range xs.length).filterMap (xs[·]?) := by
      refine List.filterMap_congr fun n hn => ?_
      exact List.getElem?_append_left (List.mem_range.1 hn)
    rw [List.length_append, List.length_singleton, List.range_succ, List.filterMap_append, hold, ih]
    simp

/-- The entries of a place are those with its numbers. -/
theorem filter_entries_eq_filterMap (l : Listing) (place : Place) :
    l.entries.toList.filter (·.place = place) = (l.numbersAt place).filterMap (l.entries[·]?) := by
  have hentries := filterMap_range_getElem? l.entries.toList
  rw [numbersAt]
  nth_rewrite 1 [← hentries]
  rw [List.filter_filterMap, List.filterMap_filter, Array.length_toList]
  refine List.filterMap_congr fun n hn => ?_
  rw [Array.getElem?_toList]
  cases l.entries[n]? with
  | none => rfl
  | some entry => by_cases h : entry.place = place <;> simp [h]

/-- The statements of a place are those with its numbers. -/
theorem statementsAt_eq_filterMap (l : Listing) (place : Place) :
    l.statementsAt place =
      (l.numbersAt place).filterMap fun n => l.entries[n]?.map Entry.statement := by
  rw [statementsAt, filter_entries_eq_filterMap, List.map_filterMap]

/-- The entries are those of the listed blocks, in order. -/
theorem Contiguous.entries (h : l.Contiguous) :
    l.blocks.flatMap (fun place => (l.statementsAt place).map (Entry.mk place)) =
      l.entries.toList := by
  have hat (place : Place) : (l.statementsAt place).map (Entry.mk place) =
      (l.numbersAt place).filterMap (l.entries[·]?) := by
    rw [← filter_entries_eq_filterMap, statementsAt, List.map_map]
    refine (List.map_congr_left fun entry hentry => ?_).trans (List.map_id _)
    obtain rfl : entry.place = place := by simpa using (List.mem_filter.1 hentry).2
    rfl
  have hentries := filterMap_range_getElem? l.entries.toList
  simp only [hat]
  rw [← List.filterMap_flatMap, h.numbers, ← hentries]
  simp [size]

theorem Contiguous.statements (h : l.Contiguous) :
    l.blocks.flatMap l.statementsAt = l.statements := by
  rw [Listing.statements, ← h.entries, List.map_flatMap]
  simp [Function.comp_def]

/-- A listing whose numbers run through its blocks is known by the statements of its blocks. -/
theorem Contiguous.ext {l' : Listing} (h : l.Contiguous) (h' : l'.Contiguous)
    (hfunctions : l.functions = l'.functions) (hblocks : l.blocks = l'.blocks)
    (hreturns : l.returns = l'.returns)
    (hat : ∀ place ∈ l.blocks, l.statementsAt place = l'.statementsAt place) : l = l' := by
  have hentries : l.entries.toList = l'.entries.toList := by
    rw [← h.entries, ← h'.entries, ← hblocks]
    exact List.flatMap_congr fun place hplace => by rw [hat place hplace]
  obtain ⟨functions, blocks, entries, returns⟩ := l
  obtain ⟨functions', blocks', entries', returns'⟩ := l'
  obtain rfl : entries = entries' := Array.toList_inj.1 hentries
  cases hfunctions
  cases hblocks
  cases hreturns
  rfl

theorem Contiguous.place_mem (h : l.Contiguous) {entry : Entry} (he : entry ∈ l.entries) :
    entry.place ∈ l.blocks := by
  obtain ⟨n, hn, rfl⟩ := Array.mem_iff_getElem.1 he
  have hmem : n ∈ l.blocks.flatMap l.numbersAt := by
    rw [h.numbers]
    exact List.mem_range.2 hn
  obtain ⟨place, hplace, hat⟩ := List.mem_flatMap.1 hmem
  have heq : l.entries[n].place = place := by simpa [numbersAt, hn] using hat
  exact heq ▸ hplace

theorem Contiguous.numbersAt_of_not_mem (h : l.Contiguous) {place : Place}
    (hplace : place ∉ l.blocks) : l.numbersAt place = [] := by
  refine List.filter_eq_nil_iff.2 fun n hn => ?_
  have hlt : n < l.entries.size := List.mem_range.1 hn
  have hne : l.entries[n].place ≠ place := fun e => hplace (e ▸ h.place_mem (Array.getElem_mem hlt))
  simp [hlt, hne]

theorem Contiguous.statementsAt_of_not_mem (h : l.Contiguous) {place : Place}
    (hplace : place ∉ l.blocks) : l.statementsAt place = [] := by
  refine List.map_eq_nil_iff.2 (List.filter_eq_nil_iff.2 fun entry he => ?_)
  have hne : entry.place ≠ place := fun e => hplace (e ▸ h.place_mem (Array.mem_def.2 he))
  simpa using hne

theorem Contiguous.addPart (h : l.Contiguous) {place : Place}
    (hnew : place.block ∉ l.blocks.map Place.block) (statements : List Statement) :
    ((l.addBlock place).pushAll place statements).Contiguous := by
  have hplace : place ∉ l.blocks := by
    intro hmem
    exact hnew (List.mem_map_of_mem hmem)
  have hnumbers (other : Place) : (l.addBlock place).numbersAt other = l.numbersAt other := by
    simp only [numbersAt, entries_addBlock]
  have hsize : (l.addBlock place).size = l.size := by simp only [size, entries_addBlock]
  have hne {other : Place} (hother : other ∈ l.blocks) : place ≠ other := fun e =>
    hplace (e ▸ hother)
  constructor
  · rw [blocks_pushAll, blocks_addBlock l hnew, List.map_append, List.nodup_append]
    refine ⟨h.nodup, by simp, ?_⟩
    rintro b hb _ (_ | ⟨_, ⟨⟩⟩) rfl
    exact hnew hb
  · -- the numbers of the blocks before stay, and the new block gets those that follow
    have hold : l.blocks.flatMap ((l.addBlock place).pushAll place statements).numbersAt =
        l.blocks.flatMap l.numbersAt := by
      refine List.flatMap_congr fun other hother => ?_
      rw [numbersAt_pushAll, hnumbers, if_neg (hne hother), List.append_nil]
    rw [blocks_pushAll, blocks_addBlock l hnew, List.flatMap_append, hold, h.numbers,
      List.flatMap_singleton, numbersAt_pushAll, hnumbers, h.numbersAt_of_not_mem hplace,
      if_pos rfl, size_pushAll, hsize, List.nil_append, List.range_add]

/-- Adding new blocks keeps a listing contiguous. -/
theorem Contiguous.addParts (h : l.Contiguous) {parts : List (Place × List Statement)}
    (hnodup : ((l.blocks ++ parts.map Prod.fst).map Place.block).Nodup) :
    (l.addParts parts).Contiguous ∧ (l.addParts parts).blocks = l.blocks ++ parts.map Prod.fst := by
  induction parts generalizing l with
  | nil => exact ⟨h, (List.append_nil _).symm⟩
  | cons part parts ih =>
    obtain ⟨place, statements⟩ := part
    have hnew : place.block ∉ l.blocks.map Place.block := by
      intro hmem
      rw [List.map_append, List.nodup_append] at hnodup
      exact hnodup.2.2 _ hmem _ (by simp) rfl
    have hblocks : ((l.addBlock place).pushAll place statements).blocks = l.blocks ++ [place] := by
      rw [blocks_pushAll, blocks_addBlock l hnew]
    have hstep : l.addParts ((place, statements) :: parts) =
        ((l.addBlock place).pushAll place statements).addParts parts := rfl
    rw [hstep]
    have hrest := ih (h.addPart hnew statements) (by simpa [hblocks] using hnodup)
    refine ⟨hrest.1, ?_⟩
    rw [hrest.2, hblocks]
    simp

variable (l)

theorem statementsAt_addParts (parts : List (Place × List Statement)) (place : Place) :
    (l.addParts parts).statementsAt place = l.statementsAt place ++
      parts.flatMap fun part => if part.1 = place then part.2 else [] := by
  induction parts generalizing l with
  | nil => exact (List.append_nil _).symm
  | cons part parts ih =>
    have hadd : (l.addBlock part.1).statementsAt place = l.statementsAt place := by
      simp only [statementsAt, entries_addBlock]
    have hstep : l.addParts (part :: parts) =
        ((l.addBlock part.1).pushAll part.1 part.2).addParts parts := rfl
    rw [hstep, ih, statementsAt_pushAll, hadd, List.flatMap_cons, List.append_assoc]

theorem addBlock_with (place : Place) (functions : List FunctionId)
    (returns : Table FunctionId Reference) :
    ({ l with functions, returns } : Listing).addBlock place =
      { l.addBlock place with functions, returns } := by
  simp only [addBlock]
  split <;> rfl

/-- What a listing says of its functions does not matter for the blocks that are added. -/
theorem addParts_with (parts : List (Place × List Statement)) (functions : List FunctionId)
    (returns : Table FunctionId Reference) :
    ({ l with functions, returns } : Listing).addParts parts =
      { l.addParts parts with functions, returns } := by
  have hpush (l : Listing) (place : Place) (ss : List Statement) :
      ({ l with functions, returns } : Listing).pushAll place ss =
        { l.pushAll place ss with functions, returns } := by
    induction ss generalizing l with
    | nil => rfl
    | cons s ss ih => exact ih (l.push place s)
  induction parts generalizing l with
  | nil => rfl
  | cons part parts ih =>
    have hstep (l : Listing) : l.addParts (part :: parts) =
        ((l.addBlock part.1).pushAll part.1 part.2).addParts parts := rfl
    rw [hstep, hstep, addBlock_with, hpush, ih]

/-- What stands under a key, if no key occurs twice. -/
theorem flatMap_part {α β γ : Type} [DecidableEq α] (g : β → List γ) {parts : List (α × β)}
    (hnodup : (parts.map Prod.fst).Nodup) {part : α × β} (hmem : part ∈ parts) :
    (parts.flatMap fun other => if other.1 = part.1 then g other.2 else []) = g part.2 := by
  induction parts with
  | nil => cases hmem
  | cons first parts ih =>
    rw [List.map_cons, List.nodup_cons] at hnodup
    rw [List.flatMap_cons]
    rcases List.mem_cons.1 hmem with rfl | hmem
    · have hrest :
          (parts.flatMap fun other => if other.1 = part.1 then g other.2 else []) = [] := by
        refine List.flatMap_eq_nil_iff.2 fun other hother => ?_
        have hne : other.1 ≠ part.1 := fun e => hnodup.1 (e ▸ List.mem_map_of_mem hother)
        rw [if_neg hne]
      rw [if_pos rfl, hrest, List.append_nil]
    · have hne : first.1 ≠ part.1 := fun e => hnodup.1 (e ▸ List.mem_map_of_mem hmem)
      rw [if_neg hne, List.nil_append, ih hnodup.2 hmem]

section Parts

variable {l} {parts : List (Place × List Statement)}

theorem Contiguous.statementsAt_part (h : l.Contiguous)
    (hnodup : ((l.blocks ++ parts.map Prod.fst).map Place.block).Nodup)
    {part : Place × List Statement} (hmem : part ∈ parts) :
    (l.addParts parts).statementsAt part.1 = part.2 := by
  have hplaces : (l.blocks ++ parts.map Prod.fst).Nodup := hnodup.of_map
  rw [List.nodup_append] at hplaces
  have hnew : part.1 ∉ l.blocks := fun hold =>
    hplaces.2.2 _ hold _ (List.mem_map_of_mem hmem) rfl
  rw [statementsAt_addParts, h.statementsAt_of_not_mem hnew, List.nil_append]
  exact flatMap_part id hplaces.2.1 hmem

theorem statementsAt_addParts_of_mem
    (hnodup : ((l.blocks ++ parts.map Prod.fst).map Place.block).Nodup)
    {place : Place} (hmem : place ∈ l.blocks) :
    (l.addParts parts).statementsAt place = l.statementsAt place := by
  have hplaces : (l.blocks ++ parts.map Prod.fst).Nodup := hnodup.of_map
  rw [List.nodup_append] at hplaces
  have hnone : (parts.flatMap fun part => if part.1 = place then part.2 else []) = [] := by
    refine List.flatMap_eq_nil_iff.2 fun part hpart => ?_
    rw [if_neg fun e => hplaces.2.2 _ hmem _ (List.mem_map_of_mem hpart) e.symm]
  rw [statementsAt_addParts, hnone, List.append_nil]

end Parts

end Listing

/-! ### Listings that are built function by function -/

/-- The blocks of the body of a function, with their statements. -/
def Body.parts (f : FunctionId) (body : Body) : List (Place × List Statement) :=
  body.map fun part => (⟨f, part.1⟩, part.2)

theorem Body.flatMap_filter_parts (f g : FunctionId) (body : Body) :
    ((body.parts f).filter (·.1.function = g)).flatMap Prod.snd =
      if f = g then body.statements else [] := by
  by_cases hf : f = g
  · have hall : (body.parts f).filter (·.1.function = g) = body.parts f := by
      refine List.filter_eq_self.2 fun part hpart => ?_
      obtain ⟨_, -, rfl⟩ := List.mem_map.1 hpart
      simpa using hf
    rw [hall, if_pos hf, Body.parts, List.flatMap_map]
    rfl
  · have hnone : (body.parts f).filter (·.1.function = g) = [] := by
      refine List.filter_eq_nil_iff.2 fun part hpart => ?_
      obtain ⟨_, -, rfl⟩ := List.mem_map.1 hpart
      simpa using hf
    rw [hnone, if_neg hf, List.flatMap_nil]

namespace Listing

variable (l : Listing)

/-- The statements of a function, block after block. -/
def statementsOf (f : FunctionId) : List Statement :=
  (l.blocks.filter (·.function = f)).flatMap l.statementsAt

/-- What a function returns is the operand of its last return that has one. -/
def RecordsReturns : Prop :=
  ∀ f, l.returned? f = ((l.statementsOf f).filterMap Statement.returned?).getLast?

theorem addFunction_eq (f : FunctionId) : l.addFunction f =
    { l with functions := (l.addFunction f).functions, returns := l.returns } := by
  unfold addFunction
  split <;> rfl

theorem addBody_eq (f : FunctionId) (body : Body) :
    l.addBody f body =
      { l.addParts (body.parts f) with
        functions := (l.addFunction f).functions
        returns := (body.returned?.map (l.returns.insert f)).getD l.returns } := by
  have hblocks (l : Listing) : l.addBlocks f body = l.addParts (body.parts f) := by
    rw [addParts, Body.parts, List.foldl_map]
    rfl
  unfold addBody
  rw [hblocks, addFunction_eq, addParts_with]
  cases body.returned? with
  | none => rfl
  | some r => rfl

theorem statementsOf_addParts {l : Listing} (h : l.Contiguous)
    {parts : List (Place × List Statement)}
    (hnodup : ((l.blocks ++ parts.map Prod.fst).map Place.block).Nodup) (f : FunctionId) :
    (l.addParts parts).statementsOf f =
      l.statementsOf f ++ (parts.filter (·.1.function = f)).flatMap Prod.snd := by
  have hold : (l.blocks.filter (·.function = f)).flatMap (l.addParts parts).statementsAt =
      l.statementsOf f :=
    List.flatMap_congr fun place hplace =>
      statementsAt_addParts_of_mem hnodup (List.mem_of_mem_filter hplace)
  have hnew : ((parts.map Prod.fst).filter (·.function = f)).flatMap
      (l.addParts parts).statementsAt = (parts.filter (·.1.function = f)).flatMap Prod.snd := by
    rw [List.filter_map, List.flatMap_map]
    exact List.flatMap_congr fun part hpart =>
      h.statementsAt_part hnodup (List.mem_of_mem_filter hpart)
  rw [statementsOf, (h.addParts hnodup).2, List.filter_append, List.flatMap_append, hold, hnew]

theorem RecordsReturns.addBody {l : Listing} (h : l.Contiguous) (hreturns : l.RecordsReturns)
    {f : FunctionId} {body : Body}
    (hnodup : ((l.blocks ++ (body.parts f).map Prod.fst).map Place.block).Nodup) :
    (l.addBody f body).RecordsReturns := by
  intro g
  have hstatements : (l.addBody f body).statementsOf g =
      l.statementsOf g ++ ((body.parts f).filter (·.1.function = g)).flatMap Prod.snd := by
    rw [addBody_eq]
    exact statementsOf_addParts h hnodup g
  have hreturned : (l.addBody f body).returned? g =
      (if g = f then body.returned? else none).or (l.returned? g) := by
    rw [addBody_eq]
    cases hbody : body.returned? with
    | none => simp [Listing.returned?]
    | some r => by_cases hg : g = f <;> simp [Listing.returned?, hg]
  have hparts :
      (((body.parts f).filter (·.1.function = g)).flatMap Prod.snd).filterMap Statement.returned? =
        if g = f then body.statements.filterMap Statement.returned? else [] := by
    rw [Body.flatMap_filter_parts]
    by_cases hg : g = f
    · simp [hg]
    · simp [hg, Ne.symm hg]
  -- a body without a return that has an operand leaves what was recorded before
  rw [hstatements, hreturned, List.filterMap_append, List.getLast?_append, ← hreturns g, hparts]
  by_cases hg : g = f
  · rw [if_pos hg, if_pos hg]
    rfl
  · rw [if_neg hg, if_neg hg]
    rfl

/-- Adds functions with their bodies. -/
def addBodies (bodies : List (FunctionId × Body)) : Listing :=
  bodies.foldl (fun l function => l.addBody function.1 function.2) l

end Listing

/-- The blocks of several functions, with their statements. -/
def Body.allParts (bodies : List (FunctionId × Body)) : List (Place × List Statement) :=
  bodies.flatMap fun function => function.2.parts function.1

namespace Listing

theorem addBodies_eq (l : Listing) (bodies : List (FunctionId × Body)) :
    l.addBodies bodies =
      { l.addParts (Body.allParts bodies) with
        functions := (l.addBodies bodies).functions
        returns := (l.addBodies bodies).returns } := by
  induction bodies generalizing l with
  | nil => rfl
  | cons function bodies ih =>
    obtain ⟨f, body⟩ := function
    have hstep : l.addBodies ((f, body) :: bodies) = (l.addBody f body).addBodies bodies := rfl
    have hparts : l.addParts (Body.allParts ((f, body) :: bodies)) =
        (l.addParts (body.parts f)).addParts (Body.allParts bodies) := by
      simp only [Body.allParts, List.flatMap_cons, addParts, List.foldl_append]
    rw [hstep, hparts]
    conv_lhs => rw [ih, addBody_eq, addParts_with]
    rw [addBody_eq]

variable {l : Listing} {bodies : List (FunctionId × Body)}

theorem blocks_addBodies :
    (l.addBodies bodies).blocks = (l.addParts (Body.allParts bodies)).blocks := by
  rw [addBodies_eq]

theorem statementsAt_addBodies (place : Place) :
    (l.addBodies bodies).statementsAt place =
      (l.addParts (Body.allParts bodies)).statementsAt place := by
  rw [addBodies_eq]
  rfl

theorem Contiguous.addBodies (h : l.Contiguous)
    (hnodup : ((l.blocks ++ (Body.allParts bodies).map Prod.fst).map Place.block).Nodup) :
    (l.addBodies bodies).Contiguous := by
  obtain ⟨hblocks, hnumbers⟩ := (h.addParts hnodup).1
  rw [addBodies_eq]
  exact ⟨hblocks, hnumbers⟩

theorem statementsOf_addBodies (h : l.Contiguous)
    (hnodup : ((l.blocks ++ (Body.allParts bodies).map Prod.fst).map Place.block).Nodup)
    (f : FunctionId) :
    (l.addBodies bodies).statementsOf f = l.statementsOf f ++
      bodies.flatMap fun function => if function.1 = f then function.2.statements else [] := by
  have hparts : (l.addBodies bodies).statementsOf f =
      (l.addParts (Body.allParts bodies)).statementsOf f := by
    rw [addBodies_eq]
    rfl
  rw [hparts, statementsOf_addParts h hnodup, Body.allParts, List.filter_flatMap,
    List.flatMap_assoc]
  simp only [Body.flatMap_filter_parts]

theorem functions_addBodies (hnodup : (l.functions ++ bodies.map Prod.fst).Nodup) :
    (l.addBodies bodies).functions = l.functions ++ bodies.map Prod.fst := by
  induction bodies generalizing l with
  | nil => exact (List.append_nil _).symm
  | cons function bodies ih =>
    obtain ⟨f, body⟩ := function
    have hnew : f ∉ l.functions := by
      intro hmem
      rw [List.nodup_append] at hnodup
      exact hnodup.2.2 _ hmem f (by simp) rfl
    have hfunctions : (l.addBody f body).functions = l.functions ++ [f] := by
      rw [addBody_eq]
      simp [addFunction, hnew]
    have hstep : l.addBodies ((f, body) :: bodies) = (l.addBody f body).addBodies bodies := rfl
    rw [hstep, ih (by simpa [hfunctions] using hnodup), hfunctions]
    simp

theorem RecordsReturns.addBodies (h : l.Contiguous) (hreturns : l.RecordsReturns)
    (hnodup : ((l.blocks ++ (Body.allParts bodies).map Prod.fst).map Place.block).Nodup) :
    (l.addBodies bodies).RecordsReturns := by
  induction bodies generalizing l with
  | nil => exact hreturns
  | cons function bodies ih =>
    obtain ⟨f, body⟩ := function
    have hparts : Body.allParts ((f, body) :: bodies) = body.parts f ++ Body.allParts bodies :=
      List.flatMap_cons
    have hall : (((l.blocks ++ (body.parts f).map Prod.fst) ++
        (Body.allParts bodies).map Prod.fst).map Place.block).Nodup := by
      simpa only [hparts, List.map_append, List.append_assoc] using hnodup
    have hfirst : ((l.blocks ++ (body.parts f).map Prod.fst).map Place.block).Nodup := by
      rw [List.map_append] at hall
      exact hall.of_append_left
    have hsingle : l.addBody f body = l.addBodies [(f, body)] := rfl
    have hcontiguous : (l.addBody f body).Contiguous := by
      rw [hsingle]
      exact h.addBodies (by simpa [Body.allParts] using hfirst)
    have hblocks : (l.addBody f body).blocks = l.blocks ++ (body.parts f).map Prod.fst := by
      rw [addBody_eq]
      exact (h.addParts hfirst).2
    exact ih hcontiguous (hreturns.addBody h hfirst) (by rw [hblocks]; exact hall)

end Listing

end LevelIr
