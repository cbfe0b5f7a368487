import LevelIr.Listing.Ledger
import LevelIr.Proofs.Listing.Reached

/-!
# Tables that fit together

A ledger keeps a listing in tables that know nothing of each other.  What holds them together is
that all of them represent one listing, in which numbers, places and blocks are not stored but read
off.  Every operation on a ledger does to its tables what the operation on listings does to the
listing that they represent, and so do the passes that are made of operations, whether they end well
or not.

* `Ledger.Represents` : the tables say what the listing says; `Represents.addBlock`,
  `Represents.push`, `Represents.setIgnored`, `Represents.forward` : each operation keeps that so.
* `Ledger.inStep_transcribe`, `Ledger.inStep_excerpt` : the passes run in step with those that make
  listings.
* `Ledger.Reached.exists_represents` : a ledger that can be reached represents a listing that can be
  reached.
* `Ledger.indexed_of_reached` : in a ledger that can be reached all tables fit together.
-/

namespace LevelIr

namespace Listing

variable {l l' : Listing} {place : Place}

/-! ### Numbers and places -/

theorem mem_numbersAt {n : Nat} :
    n ∈ l.numbersAt place ↔ l.entries[n]?.map Entry.place = some place := by
  rw [numbersAt, List.mem_filter, List.mem_range]
  by_cases hn : n < l.entries.size
  · simp [hn]
  · simp [hn]

theorem pairwise_numbersAt (l : Listing) (place : Place) :
    (l.numbersAt place).Pairwise (· < ·) :=
  List.pairwise_lt_range.sublist List.filter_sublist

theorem mem_places : place ∈ l.places ↔ place ∈ l.blocks ∨ ∃ n, n ∈ l.numbersAt place := by
  simp only [places, List.mem_eraseDups, List.mem_append, mem_numbersAt, List.mem_map,
    Array.mem_toList_iff, Option.map_eq_some_iff, Array.mem_iff_getElem?]
  exact or_congr_right ⟨fun ⟨entry, ⟨n, hn⟩, hplace⟩ => ⟨n, entry, hn, hplace⟩,
    fun ⟨n, entry, hn, hplace⟩ => ⟨entry, ⟨n, hn⟩, hplace⟩⟩

theorem numbersAt_of_not_mem_places (h : place ∉ l.places) : l.numbersAt place = [] :=
  List.eq_nil_iff_forall_not_mem.2 fun n hn => h (mem_places.2 (.inr ⟨n, hn⟩))

theorem numbersOf_eq_ok_iff {numbers : List Nat} :
    l.numbersOf place = .ok numbers ↔ place ∈ l.places ∧ numbers = l.numbersAt place := by
  unfold numbersOf
  split
  · rename_i hplace
    simp [hplace, eq_comm]
  · rename_i hplace
    simp [hplace]

theorem mem_places_push {other : Place} {s : Statement} :
    other ∈ (l.push place s).places ↔ other = place ∨ other ∈ l.places := by
  simp only [mem_places, numbersAt_push, List.mem_append]
  by_cases h : place = other
  · simp [h]
  · have hne : ¬ other = place := fun e => h e.symm
    simp [h, hne, push]

theorem nodup_eraseDups {α : Type} [DecidableEq α] (xs : List α) : xs.eraseDups.Nodup := by
  induction hn : xs.length using Nat.strongRecOn generalizing xs with
  | _ n ih =>
    cases xs with
    | nil => exact List.nodup_nil
    | cons x xs =>
      rw [List.eraseDups_cons, List.nodup_cons]
      have hshort : (xs.filter fun y => !y == x).length < n := by
        rw [← hn, List.length_cons]
        exact Nat.lt_succ_of_le (List.length_filter_le _ _)
      exact ⟨by simp [List.mem_eraseDups], ih _ hshort _ rfl⟩

theorem blockNumber_eq_ok_iff (h : (l.blocks.map Place.block).Nodup) {b : BlockId} {n : Nat} :
    l.blockNumber b = .ok n ↔ (l.blocks[n]?).map Place.block = some b := by
  have hfind : l.blockNumber b = .ok n ↔ l.blocks.findIdx? (·.block = b) = some n := by
    unfold Listing.blockNumber
    cases l.blocks.findIdx? (·.block = b) with
    | none => simp
    | some m => simp
  rw [hfind, ← List.getElem?_map, List.findIdx?_eq_some_iff_getElem]
  constructor
  · rintro ⟨hn, heq, -⟩
    simpa [List.getElem?_map, hn] using heq
  · intro hb
    obtain ⟨hn, heq⟩ := List.getElem?_eq_some_iff.1 hb
    rw [List.length_map] at hn
    refine ⟨hn, by simpa using heq, fun k hk heq' => ?_⟩
    have hsame : (l.blocks.map Place.block)[k] = (l.blocks.map Place.block)[n] := by
      rw [heq]
      simpa using heq'
    exact absurd (h.getElem_inj_iff.1 hsame) (by omega)

theorem Reached.nodup_functions (h : l.Reached) : l.functions.Nodup := by
  have hpushAll (l : Listing) (place : Place) (ss : List Statement) :
      (l.pushAll place ss).functions = l.functions := by
    induction ss generalizing l with
    | nil => rfl
    | cons s ss ih => exact ih (l.push place s)
  have haddBlock (l : Listing) (place : Place) :
      (l.addBlock place).functions = l.functions := by
    unfold Listing.addBlock
    split <;> rfl
  induction h with
  | transcribed discard hp h =>
    have hlisted := (Workspace.walks_flagged _ _).listedAs hp.coherent ⟨rfl, rfl, trivial⟩ h
    rw [hlisted.functions]
    exact Program.listedFunctions_nodup _
  | empty => exact List.nodup_nil
  | @excerpted l _ place w ih =>
    obtain ⟨statements, -, heq⟩ := Excerpt.exists_pushAll place l w
    rw [heq, hpushAll, haddBlock, Listing.addFunction]
    split
    · exact ih
    · rename_i hnew
      rw [List.nodup_append]
      refine ⟨ih, by simp, ?_⟩
      rintro f hf _ (_ | ⟨_, ⟨⟩⟩) rfl
      exact hnew hf
  | ignored _ hset ih => rwa [(setIgnored_ok hset).1]
  | @forwarded l _ reach ih =>
    rw [forward_eq_addParts]
    exact ih

end Listing

namespace Ledger

variable {d d' : Ledger} {l : Listing}

/-! ### Tables of a listing -/

/-- The tables say what the listing says. -/
structure Represents (d : Ledger) (l : Listing) : Prop where
  functions : d.functions = l.functions
  blocks : d.blocks = l.blocks
  returns : d.returns = l.returns
  lists : ∀ place,
    d.lists.get? place = if place ∈ l.places then some (l.numbersAt place) else none
  filed : ∀ n, d.filed.get? n = l.entries[n]?.map fun entry => ⟨n, entry.statement⟩
  blockNumbers : ∀ b, d.blockNumbers.get? b = l.blocks.findIdx? (·.block = b)
  nextNumber : d.nextNumber = l.size
  nextBlock : d.nextBlock = l.blocks.length

theorem represents_empty : Represents {} {} where
  functions := rfl
  blocks := rfl
  returns := rfl
  lists _ := rfl
  filed _ := rfl
  blockNumbers _ := rfl
  nextNumber := rfl
  nextBlock := rfl

namespace Represents

theorem listAt (h : d.Represents l) (place : Place) : d.listAt place = l.numbersAt place := by
  rw [Ledger.listAt, h.lists]
  split
  · rfl
  · rename_i hplace
    rw [Listing.numbersAt_of_not_mem_places hplace]
    rfl

theorem statementsAt (h : d.Represents l) (place : Place) :
    d.statementsAt place = l.statementsAt place := by
  rw [Ledger.statementsAt, h.listAt, Listing.statementsAt_eq_filterMap]
  refine List.filterMap_congr fun n _ => ?_
  rw [h.filed, Option.map_map]
  rfl

/-! ### Operations -/

theorem addFunction (h : d.Represents l) (f : FunctionId) :
    (d.addFunction f).Represents (l.addFunction f) := by
  unfold Ledger.addFunction Listing.addFunction
  rw [h.functions]
  split
  · exact h
  · exact { h with functions := rfl }

theorem addBlock (h : d.Represents l) (place : Place) :
    (d.addBlock place).Represents (l.addBlock place) := by
  have hany : (d.blockNumbers.get? place.block).isSome = l.blocks.any (·.block = place.block) := by
    rw [h.blockNumbers, List.findIdx?_isSome]
  unfold Ledger.addBlock Listing.addBlock
  cases hnumber : d.blockNumbers.get? place.block with
  | some n =>
    rw [hnumber] at hany
    rwa [← hany, if_pos Option.isSome_some]
  | none =>
    rw [hnumber] at hany
    rw [← hany, if_neg (by simp)]
    have hnone : l.blocks.findIdx? (·.block = place.block) = none := by
      rw [← h.blockNumbers, hnumber]
    exact {
      h with
      blocks := by rw [h.blocks]
      lists := fun other => by
        rw [Table.get?_insert, h.listAt, h.lists]
        by_cases hother : other = place
        · subst hother
          rw [if_pos rfl, if_pos (Listing.mem_places.2 (.inl (by simp)))]
          rfl
        · have hmem : other ∈ ({ l with blocks := l.blocks ++ [place] } : Listing).places ↔
              other ∈ l.places := by
            simp [Listing.mem_places, hother, Listing.numbersAt]
          rw [if_neg hother]
          simp only [hmem]
          rfl
      blockNumbers := fun b => by
        rw [Table.get?_insert, h.blockNumbers, h.nextBlock, List.findIdx?_append]
        by_cases hb : b = place.block
        · subst hb
          simp [hnone]
        · have hne : ¬ place.block = b := fun e => hb e.symm
          simp [hb, hne]
      nextBlock := by rw [h.nextBlock, List.length_append, List.length_singleton] }

theorem push (h : d.Represents l) (place : Place) (s : Statement) :
    (d.push place s).Represents (l.push place s) where
  functions := h.functions
  blocks := h.blocks
  returns := h.returns
  lists other := by
    rw [Ledger.push, Table.get?_insert, h.listAt, h.nextNumber, h.lists, Listing.numbersAt_push]
    by_cases hother : other = place
    · subst hother
      rw [if_pos rfl, if_pos (Listing.mem_places_push.2 (.inl rfl)), if_pos rfl]
    · have hne : ¬ place = other := fun e => hother e.symm
      rw [if_neg hother, if_neg hne, List.append_nil]
      simp only [Listing.mem_places_push, hother, false_or]
  filed n := by
    rw [Ledger.push, Table.get?_insert, h.filed, h.nextNumber, Listing.size, Listing.push,
      Array.getElem?_push]
    by_cases hn : n = l.entries.size
    · subst hn
      rw [if_pos rfl, if_pos rfl]
      rfl
    · rw [if_neg hn, if_neg hn]
  blockNumbers := h.blockNumbers
  nextNumber := by rw [Ledger.push, h.nextNumber, Listing.size_push]
  nextBlock := h.nextBlock

theorem pushAll (h : d.Represents l) (place : Place) (statements : List Statement) :
    (d.pushAll place statements).Represents (l.pushAll place statements) := by
  induction statements generalizing d l with
  | nil => exact h
  | cons s rest ih => exact ih (h.push place s)

/-! ### Queries -/

theorem perm_keys_filed (h : d.Represents l) : d.filed.keys.Perm (List.range l.size) := by
  refine (List.perm_ext_iff_of_nodup d.filed.nodup List.nodup_range).2 fun n => ?_
  change n ∈ d.filed.keys ↔ n ∈ List.range l.size
  rw [Table.mem_keys, h.filed, Option.isSome_map, List.mem_range]
  simp [Listing.size]

theorem size_filed (h : d.Represents l) : d.filed.size = l.size := by
  have hlength := h.perm_keys_filed.length_eq
  rwa [Table.keys, List.length_map, List.length_range] at hlength

theorem size_lists (h : d.Represents l) : d.lists.size = l.places.length := by
  have hperm : d.lists.keys.Perm l.places := by
    refine (List.perm_ext_iff_of_nodup d.lists.nodup (Listing.nodup_eraseDups _)).2 fun place => ?_
    change place ∈ d.lists.keys ↔ place ∈ l.places
    rw [Table.mem_keys, h.lists]
    by_cases hplace : place ∈ l.places
    · simp [hplace]
    · simp [hplace]
  have hlength := hperm.length_eq
  rwa [Table.keys, List.length_map] at hlength

theorem size_blockNumbers (h : d.Represents l) (hnodup : (l.blocks.map Place.block).Nodup) :
    d.blockNumbers.size = l.blocks.length := by
  have hperm : d.blockNumbers.keys.Perm (l.blocks.map Place.block) := by
    refine (List.perm_ext_iff_of_nodup d.blockNumbers.nodup hnodup).2 fun b => ?_
    change b ∈ d.blockNumbers.keys ↔ b ∈ l.blocks.map Place.block
    rw [Table.mem_keys, h.blockNumbers, List.findIdx?_isSome]
    simp
  have hlength := hperm.length_eq
  rwa [Table.keys, List.length_map, List.length_map] at hlength

theorem statement (h : d.Represents l) (n : Nat) :
    d.statement n = (l.statement n).map (Filed.mk n) := by
  unfold Ledger.statement Listing.statement
  rw [h.filed, h.size_filed]
  cases l.entries[n]? with
  | none => rfl
  | some entry => rfl

theorem numbersOf (h : d.Represents l) (place : Place) :
    d.numbersOf place = l.numbersOf place := by
  unfold Ledger.numbersOf Listing.numbersOf
  rw [h.lists, h.size_lists]
  by_cases hplace : place ∈ l.places
  · rw [if_pos hplace, if_pos hplace]
  · rw [if_neg hplace, if_neg hplace]

theorem blockNumber (h : d.Represents l) (hnodup : (l.blocks.map Place.block).Nodup)
    (b : BlockId) : d.blockNumber b = l.blockNumber b := by
  have hnumber := h.blockNumbers b
  have hsize := h.size_blockNumbers hnodup
  cases hn : l.blocks.findIdx? (·.block = b) with
  | none => simp [Ledger.blockNumber, Listing.blockNumber, hnumber, hsize, hn]
  | some n => simp [Ledger.blockNumber, Listing.blockNumber, hnumber, hn]

theorem setIgnored (h : d.Represents l) (n : Nat) (ignored : Bool) :
    Pass.SameEnd Represents (d.setIgnored n ignored) (l.setIgnored n ignored) := by
  by_cases hn : n < l.entries.size
  · have hfiled : d.filed.get? n = some ⟨n, l.entries[n].statement⟩ := by simp [h.filed, hn]
    obtain ⟨l', hset⟩ : ∃ l', l.setIgnored n ignored = .ok l' := ⟨_, if_pos hn⟩
    obtain ⟨hfunctions, hblocks, hreturns, hentries⟩ := Listing.setIgnored_ok hset
    -- marking a statement moves no statement
    have hnumbers (place : Place) : l'.numbersAt place = l.numbersAt place :=
      Listing.numbersAt_of_unmarked hentries place
    have hplaces (place : Place) : place ∈ l'.places ↔ place ∈ l.places := by
      rw [Listing.mem_places, Listing.mem_places, hblocks, hnumbers]
    have hsize : l'.size = l.size := by simpa [Listing.size] using congrArg Array.size hentries
    rw [Ledger.setIgnored, hfiled, hset]
    refine .ok {
      functions := h.functions.trans hfunctions.symm
      blocks := h.blocks.trans hblocks.symm
      returns := h.returns.trans hreturns.symm
      lists := fun place => by simp only [h.lists, hplaces, hnumbers]
      filed := fun m => ?_
      blockNumbers := fun b => by rw [h.blockNumbers, hblocks]
      nextNumber := h.nextNumber.trans hsize.symm
      nextBlock := by rw [h.nextBlock, hblocks] }
    rw [Listing.setIgnored, if_pos hn] at hset
    cases hset
    rw [Table.get?_insert, h.filed, Array.getElem?_modify]
    by_cases hm : m = n
    · subst hm
      simp [hn]
    · have hne : ¬ n = m := fun e => hm e.symm
      rw [if_neg hm, if_neg hne]
  · have hfiled : d.filed.get? n = none := by simp [h.filed, hn]
    rw [Ledger.setIgnored, hfiled, Listing.setIgnored, if_neg hn, h.size_filed]
    exact .error _

end Represents

/-! ### The ledger of a program -/

/-- What is recorded of a function when it comes to a statement. -/
def record (f : FunctionId) (returns : Table FunctionId Reference) (s : Statement) :
    Table FunctionId Reference :=
  (s.returned?.map (returns.insert f)).getD returns

/-- What is recorded last counts. -/
theorem foldl_record (f : FunctionId) (returns : Table FunctionId Reference)
    (statements : List Statement) : statements.foldl (record f) returns =
      ((statements.filterMap Statement.returned?).getLast?.map (returns.insert f)).getD
        returns := by
  induction statements using List.reverseRecOn with
  | nil => rfl
  | append_singleton statements s ih =>
    rw [List.foldl_concat, List.filterMap_append, ih, record]
    cases hs : s.returned? with
    | none => simp [hs]
    | some reference =>
      cases (statements.filterMap Statement.returned?).getLast? with
      | none => simp [hs]
      | some earlier => simp [hs, Table.insert_insert]

namespace Represents

section Body

variable {functions : List FunctionId} {returns : Table FunctionId Reference}

theorem file (h : d.Represents { l with functions, returns }) (place : Place) (s : Statement) :
    (d.file place s).Represents
      { l.push place s with functions, returns := record place.function returns s } := by
  unfold Ledger.file record
  cases s.returned? with
  | none => exact h.push place s
  | some reference =>
    have hreturned : (d.setReturned place.function reference).Represents
        { l with functions, returns := returns.insert place.function reference } :=
      { h with returns := by rw [Ledger.setReturned, h.returns] }
    exact hreturned.push place s

theorem foldl_file (h : d.Represents { l with functions, returns }) (place : Place)
    (statements : List Statement) : (statements.foldl (Ledger.file place) d).Represents
      { l.pushAll place statements with
        functions, returns := statements.foldl (record place.function) returns } := by
  induction statements generalizing d l returns with
  | nil => exact h
  | cons s rest ih => exact ih (h.file place s)

theorem foldl_body (h : d.Represents { l with functions, returns }) (f : FunctionId) (body : Body) :
    (body.foldl (fun d part => part.2.foldl (Ledger.file ⟨f, part.1⟩) (d.addBlock ⟨f, part.1⟩))
      d).Represents { l.addParts (body.parts f) with
        functions, returns := body.statements.foldl (record f) returns } := by
  induction body generalizing d l returns with
  | nil => exact h
  | cons part body ih =>
    have hblock := h.addBlock ⟨f, part.1⟩
    rw [Listing.addBlock_with] at hblock
    have hstatements : Body.statements (part :: body) = part.2 ++ Body.statements body := rfl
    rw [hstatements, List.foldl_append]
    exact ih (hblock.foldl_file ⟨f, part.1⟩ part.2)

end Body

theorem addBody (h : d.Represents l) (f : FunctionId) (body : Body) :
    (d.addBody f body).Represents (l.addBody f body) := by
  have hfunction := h.addFunction f
  rw [Listing.addFunction_eq] at hfunction
  rw [Listing.addBody_eq, Body.returned?, ← foldl_record]
  exact hfunction.foldl_body f body

end Represents

/-- The ledger of a program is made in step with its listing. -/
theorem inStep_transcribe (discard : Bool) :
    Pass.InStep Eq Represents (transcribe discard) (Workspace.transcribe discard) := by
  refine Pass.inStep_get_bind fun w _ hw => ?_
  subst hw
  refine (Pass.inStep_foldlM (fun d l f h => ?_) _ represents_empty).bind fun d l h => ?_
  · refine (Pass.inStep_refl _).bind fun body _ hbody => ?_
    subst hbody
    exact Pass.inStep_pure (h.addBody f body)
  · rw [h.functions, h.nextBlock, h.nextNumber]
    exact (Pass.inStep_refl _).bind fun _ _ _ => Pass.inStep_pure h

/-! ### The ledger of single blocks -/

/-- A ledger that represents the listing, beside the same workspace. -/
def BesideWorkspace (state : Ledger × Workspace) (other : Listing × Workspace) : Prop :=
  state.1.Represents other.1 ∧ state.2 = other.2

theorem inStep_within {α : Type} (x : Pass Workspace α) :
    Pass.InStep BesideWorkspace Eq (x.within Prod.snd fun w state => (state.1, w))
      (x.within Prod.snd fun w state => (state.1, w)) := by
  rintro ⟨d, w⟩ ⟨l, _⟩ ⟨h, rfl⟩
  exact ⟨(Pass.inStep_refl x rfl).1, h, rfl⟩

theorem inStep_excerptInst (place : Place) (i : InstId) :
    Pass.InStep BesideWorkspace Eq (excerptInst place i) (Excerpt.addInst place i) := by
  refine (inStep_within _).bind fun found _ hfound => ?_
  subst hfound
  cases found with
  | none => exact Pass.inStep_pure rfl
  | some s =>
    exact (Pass.inStep_modify fun _ _ h => ⟨h.1.push place s, h.2⟩).bind fun _ _ _ =>
      Pass.inStep_pure rfl

/-- A block is added to a ledger in step with the listing, also if that fails half-way. -/
theorem inStep_excerpt (place : Place) :
    Pass.InStep BesideWorkspace Eq (excerpt place) (Excerpt.add place) := by
  refine (Pass.inStep_modify fun _ _ h =>
    ⟨(h.1.addFunction place.function).addBlock place, h.2⟩).bind fun _ _ _ => ?_
  refine Pass.inStep_get_bind fun state other h => ?_
  rw [h.2]
  refine (Pass.inStep_lift _).bind fun block _ hblock => ?_
  subst hblock
  refine Pass.inStep_foldlM (fun count _ i hcount => ?_) block.insts rfl
  subst hcount
  refine (inStep_excerptInst place i).bind fun added _ hadded => ?_
  subst hadded
  exact Pass.inStep_pure rfl

/-! ### Forwarding -/

theorem foldl_addFunction {functions : List FunctionId}
    (hnodup : (d.functions ++ functions).Nodup) :
    functions.foldl addFunction d = { d with functions := d.functions ++ functions } := by
  induction functions generalizing d with
  | nil => simp
  | cons f functions ih =>
    have hnew : f ∉ d.functions := fun hf =>
      (List.nodup_append.1 hnodup).2.2 f hf f List.mem_cons_self rfl
    rw [List.foldl_cons, addFunction, if_neg hnew, ih (by simpa using hnodup)]
    simp

namespace Represents

theorem addParts (h : d.Represents l) (parts : List (Place × List Statement)) :
    (parts.foldl (fun d part => (d.addBlock part.1).pushAll part.1 part.2) d).Represents
      (l.addParts parts) := by
  induction parts generalizing d l with
  | nil => exact h
  | cons part parts ih => exact ih ((h.addBlock part.1).pushAll part.1 part.2)

theorem mentionCount (h : d.Represents l) : d.mentionCount = l.mentionCount := by
  funext f v
  simp only [Ledger.mentionCount, Listing.mentionCount, h.blocks, h.statementsAt]

theorem forward (h : d.Represents l) (hnodup : l.functions.Nodup) (reach : Int) :
    (d.forward reach).Represents (l.forward reach) := by
  have hfunctions : (d.functions.foldl Ledger.addFunction {}).Represents
      { ({} : Listing) with functions := l.functions, returns := {} } := by
    rw [foldl_addFunction (by simpa [h.functions] using hnodup)]
    exact { represents_empty with functions := h.functions }
  have hparts := hfunctions.addParts
    (l.blocks.map fun place => (place, l.forwardedAt reach place))
  rw [Listing.addParts_with, List.foldl_map] at hparts
  rw [Listing.forward_eq_addParts, Ledger.forward, h.blocks, h.mentionCount]
  simp only [h.statementsAt]
  exact { hparts with returns := h.returns }

end Represents

/-! ### What can be reached -/

/-- The ledgers that can be reached. -/
inductive Reached : Ledger → Prop where
  /-- The ledger of a program, in any context. -/
  | transcribed {w later : Workspace} {d : Ledger} (discard : Bool) (hp : w.program.Assembled)
      (h : (transcribe discard).outcome w = (.ok d, later)) : Reached d
  /-- The ledger of an excerpt without blocks. -/
  | empty : Reached {}
  /-- A block is added, in any workspace; it does not matter whether that fails. -/
  | excerpted {d : Ledger} (h : Reached d) (place : Place) (w : Workspace) :
      Reached ((excerpt place).outcome (d, w)).2.1
  /-- A statement is marked. -/
  | ignored {d d' : Ledger} {n : Nat} {ignored : Bool} (h : Reached d)
      (hset : d.setIgnored n ignored = .ok d') : Reached d'
  /-- Loads are forwarded. -/
  | forwarded {d : Ledger} (h : Reached d) (reach : Int) : Reached (d.forward reach)

/-- **A ledger that can be reached represents a listing that can be reached**, in the same way. -/
theorem Reached.exists_represents (h : d.Reached) : ∃ l : Listing, l.Reached ∧ d.Represents l := by
  induction h with
  | @transcribed w later d discard hp h =>
    obtain ⟨hend, hlater⟩ := inStep_transcribe discard (rfl : w = w)
    rw [h] at hend hlater
    generalize hl : (Workspace.transcribe discard).outcome w = result at hend hlater
    obtain ⟨answer, _⟩ := result
    cases hend with
    | @ok _ l hrepresents => exact ⟨l, .transcribed discard hp hl, hrepresents⟩
  | empty => exact ⟨{}, .empty, represents_empty⟩
  | excerpted _ place w ih =>
    obtain ⟨l, hl, hrepresents⟩ := ih
    have hstate : BesideWorkspace (_, w) (l, w) := ⟨hrepresents, rfl⟩
    exact ⟨_, hl.excerpted place w, (inStep_excerpt place hstate).2.1⟩
  | @ignored d d' n ignored _ hset ih =>
    obtain ⟨l, hl, hrepresents⟩ := ih
    have hend := hrepresents.setIgnored n ignored
    rw [hset] at hend
    generalize hl' : l.setIgnored n ignored = result at hend
    cases hend with
    | ok h' => exact ⟨_, hl.ignored hl', h'⟩
  | forwarded _ reach ih =>
    obtain ⟨l, hl, hrepresents⟩ := ih
    exact ⟨_, hl.forwarded reach, hrepresents.forward hl.nodup_functions reach⟩

/-! ### Numbers, places and blocks -/

/-- How the tables and the counters of a ledger fit together. -/
structure Indexed (d : Ledger) : Prop where
  /-- There are statements under the numbers that have been given out, -/
  keys : d.filed.keys.Perm (List.range d.nextNumber)
  /-- and each carries its number. -/
  number : ∀ n filed, d.statement n = .ok filed → filed.number = n
  /-- A number stands once, in the list of one place. -/
  place : ∀ n, n < d.nextNumber → ∃ place numbers, d.numbersOf place = .ok numbers ∧
    numbers.count n = 1 ∧
    ∀ other others, d.numbersOf other = .ok others → n ∈ others → other = place
  /-- The numbers of a place have been given out, and go up. -/
  numbers : ∀ place numbers, d.numbersOf place = .ok numbers →
    (∀ n ∈ numbers, n < d.nextNumber) ∧ numbers.Pairwise (· < ·)
  /-- No block is listed twice, -/
  nodup : (d.blocks.map Place.block).Nodup
  /-- the number of a block is its position, -/
  blockNumber : ∀ b n, d.blockNumber b = .ok n ↔ (d.blocks[n]?).map Place.block = some b
  /-- and as many numbers have been given out as there are blocks. -/
  nextBlock : d.nextBlock = d.blocks.length
  /-- The pointer flag says what the references say. -/
  pointer : ∀ n filed, d.statement n = .ok filed → (filed.statement.pointer = true ↔
    ∃ r ∈ filed.statement.operands ++ filed.statement.result.toList, r.operand.pointer = true)

theorem Represents.statement_eq_ok_iff (h : d.Represents l) {n : Nat} {filed : Filed} :
    d.statement n = .ok filed ↔ ∃ entry, l.entries[n]? = some entry ∧
      filed = ⟨n, entry.statement⟩ := by
  rw [h.statement, Listing.statement]
  cases l.entries[n]? with
  | none => simp [Except.map]
  | some entry => simp [Except.map, eq_comm]

/-- **The tables of a ledger fit together**, however the ledger was made, whatever was marked in it,
and however often loads were forwarded. -/
theorem indexed_of_reached (h : d.Reached) : d.Indexed := by
  obtain ⟨l, hl, hd⟩ := h.exists_represents
  have horderly := hl.orderly
  refine {
    keys := by rw [hd.nextNumber]; exact hd.perm_keys_filed
    number := fun n filed hfiled => ?_
    place := fun n hn => ?_
    numbers := fun place numbers hnumbers => ?_
    nodup := by rw [hd.blocks]; exact horderly.nodup
    blockNumber := fun b n => ?_
    nextBlock := by rw [hd.nextBlock, hd.blocks]
    pointer := fun n filed hfiled => ?_ }
  · obtain ⟨entry, -, rfl⟩ := hd.statement_eq_ok_iff.1 hfiled
    rfl
  · rw [hd.nextNumber] at hn
    simp only [hd.numbersOf, Listing.numbersOf_eq_ok_iff]
    have hentry : l.entries[n]? = some l.entries[n] := Array.getElem?_eq_getElem hn
    have hat : n ∈ l.numbersAt l.entries[n].place := Listing.mem_numbersAt.2 (by rw [hentry]; rfl)
    refine ⟨l.entries[n].place, _, ⟨Listing.mem_places.2 (.inr ⟨n, hat⟩), rfl⟩, ?_, ?_⟩
    · exact List.count_eq_one_of_mem ((l.pairwise_numbersAt _).imp Nat.ne_of_lt) hat
    · rintro other _ ⟨-, rfl⟩ hmem
      rw [Listing.mem_numbersAt, hentry] at hmem
      exact (Option.some.inj hmem).symm
  · rw [hd.numbersOf, Listing.numbersOf_eq_ok_iff] at hnumbers
    obtain ⟨-, rfl⟩ := hnumbers
    rw [hd.nextNumber]
    exact ⟨fun n hn => List.mem_range.1 (List.mem_of_mem_filter hn), l.pairwise_numbersAt place⟩
  · rw [hd.blockNumber horderly.nodup, hd.blocks]
    exact Listing.blockNumber_eq_ok_iff horderly.nodup
  · obtain ⟨entry, hentry, rfl⟩ := hd.statement_eq_ok_iff.1 hfiled
    refine (horderly.flagged _ (List.mem_map_of_mem ?_)).iff
    exact Array.mem_toList_iff.2 (Array.mem_of_getElem? hentry)

/-- Adds blocks to a ledger one after another, whichever of them fail. -/
def excerptAll (places : List Place) (state : Ledger × Workspace) : Ledger × Workspace :=
  places.foldl (fun state place => ((excerpt place).outcome state).2) state

theorem Reached.excerptAll (h : d.Reached) (places : List Place) (w : Workspace) :
    (excerptAll places (d, w)).1.Reached := by
  induction places generalizing d w with
  | nil => exact h
  | cons place places ih => exact ih (h.excerpted place w) _

/-- Two functions; the block of the second one has an instruction with an operand that is not
there. -/
def scattered : Program := .ofEdits "scattered"
  [.function "main" .void [("p", .pointer (.pointer (.int 32)))],
    .block ⟨0⟩ "entry",
    .last ⟨0⟩ { opcode := .load, operands := [.value ⟨1⟩], type := .pointer (.int 32) },
    .last ⟨0⟩ { opcode := .store, operands := [.value ⟨2⟩, .value ⟨1⟩] },
    .last ⟨0⟩ { opcode := .ret },
    .function "other" .void [("q", .pointer (.pointer (.int 32)))],
    .block ⟨1⟩ "entry",
    .last ⟨1⟩ { opcode := .load, operands := [.value ⟨4⟩], type := .pointer (.int 32) },
    .last ⟨1⟩ { opcode := .store, operands := [.value ⟨9⟩, .value ⟨4⟩] }]

/-- An excerpt of the two functions: the second block fails half-way, and the first one is added
under both functions, and twice under its own. -/
def scatteredExcerpt : Ledger :=
  (excerptAll [⟨⟨1⟩, ⟨1⟩⟩, ⟨⟨0⟩, ⟨0⟩⟩, ⟨⟨1⟩, ⟨0⟩⟩, ⟨⟨0⟩, ⟨0⟩⟩] ({}, { program := scattered })).1

/-- The excerpt with a load ignored. -/
def scatteredMarked : Ledger := (scatteredExcerpt.setIgnored 1 true).toOption.getD {}

theorem indexed_of_reached_scattered :
    scatteredMarked.Reached ∧ scatteredMarked.nextNumber = 10 ∧ scatteredMarked.lists.size = 3 ∧
      scatteredMarked.Indexed ∧ (scatteredMarked.forward 2).nextNumber = 7 ∧
      (scatteredMarked.forward 2).Indexed := by
  have hexcerpt : scatteredExcerpt.Reached := Reached.empty.excerptAll _ _
  have hset : scatteredExcerpt.setIgnored 1 true = .ok scatteredMarked := by decide +kernel
  have hmarked : scatteredMarked.Reached := hexcerpt.ignored hset
  exact ⟨hmarked, by decide +kernel, by decide +kernel, indexed_of_reached hmarked,
    by decide +kernel, indexed_of_reached (hmarked.forwarded 2)⟩

end Ledger

end LevelIr
