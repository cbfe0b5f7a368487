import LevelIr.Proofs.Listing.Excerpt
import LevelIr.Proofs.Listing.Forwarding

/-!
# Listings that can be reached

A listing is made of a whole program, or of single blocks in any order, where the same block may be
added again or under another function, and where adding may fail half-way.  After that statements
are marked and loads are forwarded, any number of times.

* `Listing.Reached` : the listings that can be reached.
* `Listing.Orderly` : no block is listed twice, and every pointer flag says what the references say;
  every operation keeps that so.
* `Listing.Reached.orderly` : it is so in every listing that can be reached.
-/

namespace LevelIr

/-! ### Pointer flags -/

/-- The pointer flag says what the references say. -/
def Statement.Flagged (s : Statement) : Prop := s.pointer = touchesPointer s.operands s.result

theorem Statement.Flagged.iff {s : Statement} (h : s.Flagged) :
    s.pointer = true ↔ ∃ r ∈ s.operands ++ s.result.toList, r.operand.pointer = true := by
  rw [h, touchesPointer, List.any_eq_true]

namespace Workspace

theorem yields_flagged_ofInst (p : Program) (slots : Slots) (i : InstId) :
    Pass.Yields (fun _ => True) Statement.Flagged (Statement.ofInst p slots i) :=
  (Pass.yields_trivial _).bind fun _ _ => (Pass.yields_trivial _).bind fun _ _ =>
    (Pass.yields_trivial _).bind fun _ _ => Pass.yields_pure rfl

theorem yields_flagged_toStatement (i : InstId) :
    Pass.Yields (fun _ => True) Statement.Flagged (toStatement i) := by
  refine Pass.yields_get_bind fun w _ _ s _ _ h => ⟨?_, trivial⟩
  rw [onShared, Pass.outcome_within] at h
  exact (yields_flagged_ofInst _ _ i trivial (Pass.outcome_eq_of_fst (Prod.mk.inj h).1)).1

/-- Every statement that an instruction gives is flagged as its references say. -/
theorem walks_flagged (p : Program) (slots : Slots) :
    Walks p (Carries p slots fun _ => True) fun _ statements => ∀ s ∈ statements, s.Flagged :=
  StatesAll.walks {
    ofInst := fun q _ i => yields_flagged_ofInst q slots i
    operand := fun _ _ _ => Pass.yields_trivial _
    bind := fun _ _ _ _ _ _ _ _ _ => rfl }

end Workspace

theorem Program.ListedAs.forall_mem {p : Program} {P : Statement → Prop} {discard : Bool}
    {l : Listing} (h : p.ListedAs (fun b all => ∃ lists, List.Forall₂
      (fun _ statements => ∀ s ∈ statements, P s) (p.instsOf b) lists ∧ all = lists.flatten)
      discard l) : ∀ s ∈ l.statements, P s := by
  have hflatten {insts : List InstId} {lists : List (List Statement)} (hlists : List.Forall₂
      (fun _ statements => ∀ s ∈ statements, P s) insts lists) : ∀ s ∈ lists.flatten, P s := by
    induction hlists with
    | nil => exact fun s hs => by cases hs
    | cons hP _ ih => exact List.forall_mem_append.2 ⟨hP, ih⟩
  rw [← h.contiguous.statements]
  intro s hs
  obtain ⟨place, hplace, hs⟩ := List.mem_flatMap.1 hs
  obtain ⟨_, ⟨lists, hlists, rfl⟩, hsub, -⟩ := h.statements place hplace
  exact hflatten hlists s (hsub.subset hs)

/-! ### What excerpts add -/

namespace Excerpt

theorem yields_flagged_statement? (i : InstId) :
    Pass.Yields (fun _ => True) (fun found => ∀ s ∈ found, s.Flagged) (statement? i) := by
  refine (Pass.yields_trivial _).bind fun _ _ => (Pass.yields_trivial _).bind fun inst _ => ?_
  split
  · exact Pass.yields_pure fun _ hs => by cases hs
  · refine (Pass.yields_trivial _).bind fun _ _ =>
      (Workspace.yields_flagged_toStatement i).bind fun s hs => ?_
    split
    · exact Pass.yields_pure fun _ hs => by cases hs
    · exact Pass.yields_pure fun t ht => Option.mem_some.1 ht ▸ hs

/-- The listing has gained statements at a place, which are flagged as their references say. -/
def Pushes (place : Place) (state later : Listing × Workspace) : Prop :=
  ∃ statements, (∀ s ∈ statements, s.Flagged) ∧ later.1 = state.1.pushAll place statements

instance (place : Place) : IsPreorder (Listing × Workspace) (Pushes place) where
  refl _ := ⟨[], by simp, rfl⟩
  trans := by
    rintro _ _ _ ⟨ss, hss, hfirst⟩ ⟨ts, hts, hsecond⟩
    refine ⟨ss ++ ts, List.forall_mem_append.2 ⟨hss, hts⟩, ?_⟩
    rw [hsecond, hfirst, Listing.pushAll, Listing.pushAll, Listing.pushAll, List.foldl_append]

theorem keeps_addInst (place : Place) (i : InstId) :
    Pass.Keeps (Pushes place) (addInst place i) := by
  rintro ⟨l, w⟩
  rw [addInst, Pass.outcome_bind, Pass.outcome_within]
  cases hfound : ((statement? i).outcome w).1 with
  | error fault => exact refl_of (Pushes place) _
  | ok found =>
    cases found with
    | none => exact refl_of (Pushes place) _
    | some s =>
      have hs := (yields_flagged_statement? i trivial (Pass.outcome_eq_of_fst hfound)).1 s rfl
      exact ⟨[s], List.forall_mem_singleton.2 hs, rfl⟩

/-- Adding a block lists it, and adds statements at its place, also if it fails half-way. -/
theorem exists_pushAll (place : Place) (l : Listing) (w : Workspace) :
    ∃ statements, (∀ s ∈ statements, s.Flagged) ∧ ((add place).outcome (l, w)).2.1 =
      ((l.addFunction place.function).addBlock place).pushAll place statements := by
  have hrest : Pass.Keeps (Pushes place) (do
      let block ← (← get).2.program.block place.block
      block.insts.foldlM (fun count i => do return count + (← addInst place i)) 0) :=
    Pass.keeps_get.bind fun _ => (Pass.keeps_lift _).bind fun block => Pass.keeps_foldlM
      (fun _ i => (keeps_addInst place i).bind fun _ => Pass.keeps_pure _) block.insts 0
  exact hrest ((l.addFunction place.function).addBlock place, w)

end Excerpt

namespace Listing

variable {l l' : Listing}

/-! ### What every operation keeps -/

/-- No block is listed twice, and the pointer flags say what the references say. -/
structure Orderly (l : Listing) : Prop where
  nodup : (l.blocks.map Place.block).Nodup
  flagged : ∀ s ∈ l.statements, s.Flagged

theorem statements_pushAll (l : Listing) (place : Place) (statements : List Statement) :
    (l.pushAll place statements).statements = l.statements ++ statements := by
  induction statements generalizing l with
  | nil => exact (List.append_nil _).symm
  | cons s rest ih =>
    have hstep : l.pushAll place (s :: rest) = (l.push place s).pushAll place rest := rfl
    rw [hstep, ih, statements_push, List.append_assoc]
    rfl

theorem orderly_empty : Orderly {} := ⟨List.nodup_nil, fun s hs => by cases hs⟩

theorem Orderly.addFunction (h : l.Orderly) (f : FunctionId) : (l.addFunction f).Orderly := by
  unfold Listing.addFunction
  split
  · exact h
  · exact ⟨h.nodup, h.flagged⟩

theorem Orderly.addBlock (h : l.Orderly) (place : Place) : (l.addBlock place).Orderly := by
  by_cases hnew : place.block ∈ l.blocks.map Place.block
  · -- a block that is there already is not listed again
    have hany : l.blocks.any (·.block = place.block) = true := by
      obtain ⟨other, hother, heq⟩ := List.mem_map.1 hnew
      exact List.any_eq_true.2 ⟨other, hother, decide_eq_true heq⟩
    rwa [Listing.addBlock, if_pos hany]
  · constructor
    · rw [blocks_addBlock l hnew, List.map_append, List.nodup_append]
      refine ⟨h.nodup, by simp, ?_⟩
      rintro b hb _ (_ | ⟨_, ⟨⟩⟩) rfl
      exact hnew hb
    · rw [statements, entries_addBlock]
      exact h.flagged

theorem Orderly.pushAll (h : l.Orderly) (place : Place) {statements : List Statement}
    (hs : ∀ s ∈ statements, s.Flagged) : (l.pushAll place statements).Orderly := by
  constructor
  · rw [blocks_pushAll]
    exact h.nodup
  · rw [statements_pushAll]
    exact List.forall_mem_append.2 ⟨h.flagged, hs⟩

theorem Orderly.setIgnored (h : l.Orderly) {n : Nat} {ignored : Bool}
    (hset : l.setIgnored n ignored = .ok l') : l'.Orderly := by
  obtain ⟨-, hblocks, -, hentries⟩ := setIgnored_ok hset
  have hunmarked (l : Listing) : l.statements.map Statement.unmarked =
      (l.entries.map Entry.unmarked).toList.map Entry.statement := by
    simp [statements, Entry.unmarked, Function.comp_def]
  have hstatements : l'.statements.map Statement.unmarked =
      l.statements.map Statement.unmarked := by
    rw [hunmarked, hunmarked, hentries]
  refine ⟨hblocks ▸ h.nodup, fun s hs => ?_⟩
  obtain ⟨t, ht, hst⟩ := List.mem_map.1 (hstatements ▸ List.mem_map_of_mem hs)
  have hflagged : t.unmarked.Flagged := h.flagged t ht
  rw [hst] at hflagged
  exact hflagged

end Listing

/-! ### Forwarding -/

namespace Forward

variable {uses : ValueId → Nat} {reach : Int} {P : Statement → Prop}

theorem forall_mem_redirect {done : List Statement} (h : ∀ s ∈ done, P s) (r : Reference) :
    ∀ s ∈ (redirect uses reach done r).2, P s := by
  unfold redirect
  split
  · exact h
  · split
    · exact fun s hs => h s (List.mem_of_mem_eraseP hs)
    · exact h

/-- A statement that is added leaves the others as they are, or drops some of them and refers to
something else. -/
theorem forall_mem_step {done : List Statement} (h : ∀ s ∈ done, P s) {s : Statement} (hs : P s)
    (hnew : s.isStore = true → ∀ operands result,
      P { s with operands, result }.refreshPointer) :
    ∀ t ∈ step uses reach done s, P t := by
  unfold step
  split
  · rename_i hactive
    have hstore : s.isStore = true := (Bool.and_eq_true_iff.1 hactive).1
    have hfirst : ∀ t ∈ (redirectFirst uses reach done s.operands).2, P t := by
      unfold redirectFirst
      split
      · exact forall_mem_redirect h _
      · exact h
    refine List.forall_mem_cons.2 ⟨hnew hstore _ _, ?_⟩
    change ∀ t ∈ (redirect? uses reach (redirectFirst uses reach done s.operands).2 s.result).2, P t
    cases s.result with
    | none => exact hfirst
    | some target => exact forall_mem_redirect hfirst target
  · exact List.forall_mem_cons.2 ⟨hs, h⟩

/-- What holds of all statements of a block, of stores also after their references have been
replaced, holds of what is left of them. -/
theorem forall_mem_block {ss : List Statement} (h : ∀ s ∈ ss, P s)
    (hnew : ∀ s ∈ ss, s.isStore = true → ∀ operands result,
      P { s with operands, result }.refreshPointer) :
    ∀ t ∈ block uses reach ss, P t := by
  have hall := block_invariant uses reach (I := fun _ done => ∀ t ∈ done, P t)
    (fun t ht => by cases ht) fun before s hpre hdone =>
      have hs : s ∈ ss := hpre.subset (by simp)
      forall_mem_step hdone (h s hs) (hnew s hs)
  exact fun t ht => hall t (List.mem_reverse.2 ht)

end Forward

namespace Listing

variable {l : Listing}

theorem mem_statements_of_mem_statementsAt {place : Place} {s : Statement}
    (h : s ∈ l.statementsAt place) : s ∈ l.statements := by
  obtain ⟨entry, hentry, rfl⟩ := List.mem_map.1 h
  exact List.mem_map_of_mem (List.mem_of_mem_filter hentry)

/-- The statements after forwarding are those of the blocks. -/
theorem forall_mem_forward (h : (l.blocks.map Place.block).Nodup) (reach : Int)
    {P : Statement → Prop} (hP : ∀ place ∈ l.blocks, ∀ t ∈ l.forwardedAt reach place, P t) :
    ∀ t ∈ (l.forward reach).statements, P t := by
  obtain ⟨hcontiguous, hblocks, hat⟩ := contiguous_forward h reach
  rw [← hcontiguous.statements, hblocks]
  intro t ht
  obtain ⟨place, hplace, ht⟩ := List.mem_flatMap.1 ht
  exact hP place hplace t (hat place hplace ▸ ht)

theorem Orderly.forward (h : l.Orderly) (reach : Int) : (l.forward reach).Orderly := by
  refine ⟨(contiguous_forward h.nodup reach).1.nodup, forall_mem_forward h.nodup reach ?_⟩
  intro place _
  exact Forward.forall_mem_block
    (fun s hs => h.flagged s (mem_statements_of_mem_statementsAt hs)) fun _ _ _ _ _ => rfl

/-! ### What can be reached -/

/-- The listings that can be reached. -/
inductive Reached : Listing → Prop where
  /-- The listing of a program, in any context. -/
  | transcribed {w later : Workspace} {l : Listing} (discard : Bool) (hp : w.program.Assembled)
      (h : (Workspace.transcribe discard).outcome w = (.ok l, later)) : Reached l
  /-- An excerpt without blocks. -/
  | empty : Reached {}
  /-- A block is added, in any workspace; it does not matter whether that fails. -/
  | excerpted {l : Listing} (h : Reached l) (place : Place) (w : Workspace) :
      Reached ((Excerpt.add place).outcome (l, w)).2.1
  /-- A statement is marked. -/
  | ignored {l l' : Listing} {n : Nat} {ignored : Bool} (h : Reached l)
      (hset : l.setIgnored n ignored = .ok l') : Reached l'
  /-- Loads are forwarded. -/
  | forwarded {l : Listing} (h : Reached l) (reach : Int) : Reached (l.forward reach)

theorem Reached.orderly (h : l.Reached) : l.Orderly := by
  induction h with
  | transcribed discard hp h =>
    have hlisted := (Workspace.walks_flagged _ _).listedAs hp.coherent ⟨rfl, rfl, trivial⟩ h
    exact ⟨hlisted.contiguous.nodup, hlisted.forall_mem⟩
  | empty => exact orderly_empty
  | @excerpted l _ place w ih =>
    obtain ⟨statements, hflagged, heq⟩ := Excerpt.exists_pushAll place l w
    rw [heq]
    exact ((ih.addFunction place.function).addBlock place).pushAll place hflagged
  | ignored _ hset ih => exact ih.setIgnored hset
  | forwarded _ reach ih => exact ih.forward reach

end Listing

end LevelIr
