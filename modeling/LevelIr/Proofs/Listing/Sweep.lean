import LevelIr.Proofs.Listing.Discarded
import Mathlib.Logic.Function.Iterate
import Mathlib.Order.Bounds.Basic

/-!
# Leaving out statements in place

What has to be left out with pointers can be said by a closure condition: a set of statements is
closed if it holds every statement that touches a pointer, that reads what a statement of the set
defines, or that hands an argument to a call of the set.  The statements that a body loses are the
least closed set, so neither the order of blocks nor that of statements matters.

The same set is found by sweeping over the statements again and again, striking them out one by one.
What a statement defines is missing as soon as it is struck out, for the rest of the same sweep
already.  A sweep that changes something strikes out a statement that was kept before, so no more
sweeps can do so than there are statements.

* `Statement.DependsOn` : a statement has to be left out if those of a set are.
* `Scan.sweep` : a sweep over statements that are marked as kept or struck out.
* `Scan.marks_of_settled` : what is struck out once a sweep changes nothing.
* `Body.isLeast_leftOut` : what a body loses is the least closed set, in whatever order it is found.
-/

namespace LevelIr

/-! ### Closed sets of statements -/

/-- A statement touches a pointer of the source program, reads a value that a statement of `D`
defines, or hands an argument to a call of `D`. -/
def Statement.DependsOn (D : Set Statement) (s : Statement) : Prop :=
  s.pointer = true ∨ (∃ u ∈ D, ∃ v, u.defined? = some v ∧ ∃ r ∈ s.reads, r.value = some v) ∨
    (s.binding = true ∧ ∃ u ∈ D, u.isCall = true ∧ u.source = s.source)

/-- The statements of a list that depend on pointers are the least set that is closed. -/
theorem Statement.isLeast_tainted (ss : List Statement) :
    IsLeast {D : Set Statement | ∀ s ∈ ss, s.DependsOn D → s ∈ D}
      {s | s ∈ ss ∧ s.Tainted ss} := by
  constructor
  · rintro s hs (hpointer | ⟨u, ⟨hu, htainted⟩, v, hv, r, hr, hrv⟩ |
      ⟨hbinding, u, ⟨hu, htainted⟩, hcall, hsource⟩)
    · exact ⟨hs, .pointer hpointer⟩
    · exact ⟨hs, .reads hu htainted hv hr hrv⟩
    · exact ⟨hs, .binding hu htainted hcall hbinding hsource⟩
  · rintro D hD s ⟨hs, htainted⟩
    induction htainted with
    | pointer hpointer => exact hD _ hs (.inl hpointer)
    | reads hu _ hdefined hr hv ih =>
      exact hD _ hs (.inr (.inl ⟨_, ih hu, _, hdefined, _, hr, hv⟩))
    | binding hu _ hcall hbinding hsource ih =>
      exact hD _ hs (.inr (.inr ⟨hbinding, _, ih hu, hcall, hsource⟩))

/-- What depends on pointers is a matter of which statements there are, not of their order. -/
theorem Statement.Tainted.of_subset {ss ts : List Statement} (hsub : ss ⊆ ts) {s : Statement}
    (h : s.Tainted ss) : s.Tainted ts := by
  induction h with
  | pointer hpointer => exact .pointer hpointer
  | reads hu _ hdefined hr hv ih => exact .reads (hsub hu) ih hdefined hr hv
  | binding hu _ hcall hbinding hsource ih => exact .binding (hsub hu) ih hcall hbinding hsource

/-! ### Sweeps -/

/-- A list of statements that are kept or struck out, and what is missing so far. -/
structure Scan where
  /-- What is missing. -/
  missing : Taint := {}
  /-- The statements, each with whether it is kept. -/
  marks : List (Statement × Bool)

/-- Goes through a list: a statement that is kept but has to be left out is struck out, and what it
defines is missing from there on. -/
def Taint.strike : Taint → List (Statement × Bool) → Scan
  | taint, [] => { missing := taint, marks := [] }
  | taint, (s, kept) :: marks =>
    let rest := (if kept && taint.spoils s then taint.leaveOut s else taint).strike marks
    { rest with marks := (s, kept && !taint.spoils s) :: rest.marks }

namespace Scan

/-- All statements are kept. -/
def start (ss : List Statement) : Scan := { marks := ss.map (·, true) }

/-- A sweep over all statements. -/
def sweep (scan : Scan) : Scan := scan.missing.strike scan.marks

/-- How many statements are kept. -/
def kept (scan : Scan) : Nat := scan.marks.countP Prod.snd

end Scan

namespace Taint

variable {ss : List Statement}

/-- All that the statement `s` defines is missing. -/
structure Covers (taint : Taint) (s : Statement) : Prop where
  value : ∀ v, s.defined? = some v → v ∈ taint.values
  call : s.isCall = true → s.source ∈ taint.calls

theorem Covers.within {taint later : Taint} {s : Statement} (h : taint.Covers s)
    (hwithin : taint.Within later) : later.Covers s :=
  ⟨fun v hv => hwithin.values (h.value v hv), fun hcall => hwithin.calls (h.call hcall)⟩

theorem within_leaveOut (taint : Taint) (s : Statement) : taint.Within (taint.leaveOut s) :=
  within_foldl [s]

theorem covers_leaveOut (taint : Taint) (s : Statement) : (taint.leaveOut s).Covers s where
  value v hv := by simp [leaveOut, hv]
  call hcall := by simp [leaveOut, hcall]

theorem Sound.leaveOut {taint : Taint} (h : taint.Sound ss) {s : Statement} (hs : s ∈ ss)
    (hspoiled : taint.spoils s = true) : (taint.leaveOut s).Sound ss := by
  have htainted := h.tainted hspoiled
  constructor
  · intro v hv
    change v ∈ ([s].foldl Taint.leaveOut taint).values at hv
    rcases mem_values_foldl.1 hv with hv | ⟨u, hu, hdefined⟩
    · exact h.values v hv
    · exact ⟨s, hs, htainted, List.mem_singleton.1 hu ▸ hdefined⟩
  · intro i hi
    change i ∈ ([s].foldl Taint.leaveOut taint).calls at hi
    rcases mem_calls_foldl.1 hi with hi | ⟨u, hu, hcall⟩
    · exact h.calls i hi
    · exact ⟨s, hs, htainted, List.mem_singleton.1 hu ▸ hcall⟩

/-- What is missing after a statement has been visited. -/
theorem within_visit (taint : Taint) (s : Statement) (kept : Bool) :
    taint.Within (if kept && taint.spoils s then taint.leaveOut s else taint) := by
  split
  · exact taint.within_leaveOut s
  · exact within_refl taint

theorem within_strike (taint : Taint) (marks : List (Statement × Bool)) :
    taint.Within (taint.strike marks).missing := by
  induction marks generalizing taint with
  | nil => exact within_refl taint
  | cons mark marks ih => exact (taint.within_visit mark.1 mark.2).trans (ih _)

/-- Striking out keeps the statements in their places. -/
theorem map_fst_strike (taint : Taint) (marks : List (Statement × Bool)) :
    (taint.strike marks).marks.map Prod.fst = marks.map Prod.fst := by
  induction marks generalizing taint with
  | nil => rfl
  | cons mark marks ih =>
    rw [strike, List.map_cons, List.map_cons, ih]

/-- All that is struck out depends on pointers, and what it defines is missing. -/
structure Accounts (ss : List Statement) (taint : Taint) (marks : List (Statement × Bool)) :
    Prop where
  sound : taint.Sound ss
  mem : ∀ mark ∈ marks, mark.1 ∈ ss
  struck : ∀ s, (s, false) ∈ marks → s.Tainted ss ∧ taint.Covers s

theorem Accounts.tail {taint : Taint} {s : Statement} {kept : Bool}
    {marks : List (Statement × Bool)} (h : Accounts ss taint ((s, kept) :: marks)) :
    Accounts ss (if kept && taint.spoils s then taint.leaveOut s else taint) marks where
  sound := by
    split
    · rename_i hboth
      exact h.sound.leaveOut (h.mem _ List.mem_cons_self) (Bool.and_eq_true_iff.1 hboth).2
    · exact h.sound
  mem mark hmark := h.mem mark (List.mem_cons_of_mem _ hmark)
  struck u hu := by
    obtain ⟨htainted, hcovers⟩ := h.struck u (List.mem_cons_of_mem _ hu)
    exact ⟨htainted, hcovers.within (taint.within_visit s kept)⟩

theorem Accounts.strike {taint : Taint} {marks : List (Statement × Bool)}
    (h : Accounts ss taint marks) :
    Accounts ss (taint.strike marks).missing (taint.strike marks).marks := by
  induction marks generalizing taint with
  | nil => exact h
  | cons mark marks ih =>
    obtain ⟨s, kept⟩ := mark
    have hrest := ih h.tail
    have hwithin := within_strike
      (if kept && taint.spoils s then taint.leaveOut s else taint) marks
    refine ⟨hrest.sound, ?_, fun u hu => ?_⟩
    · exact List.forall_mem_cons.2 ⟨h.mem (s, kept) List.mem_cons_self, hrest.mem⟩
    rcases List.mem_cons.1 hu with heq | hu
    · obtain ⟨rfl, hstruck⟩ := Prod.mk.inj heq
      cases kept with
      | false =>
        -- struck out before
        obtain ⟨htainted, hcovers⟩ := h.struck u List.mem_cons_self
        exact ⟨htainted, hcovers.within ((taint.within_visit u false).trans hwithin)⟩
      | true =>
        -- struck out on this visit
        have hspoiled : taint.spoils u = true := by simpa using hstruck.symm
        have hvisit : (if true && taint.spoils u then taint.leaveOut u else taint) =
            taint.leaveOut u := if_pos hspoiled
        exact ⟨h.sound.tainted hspoiled, (hvisit ▸ taint.covers_leaveOut u).within hwithin⟩
    · exact hrest.struck u hu

/-- Going through a list changes nothing, as no statement that is kept has to be left out, or it
leaves fewer statements than were kept before. -/
theorem strike_cases (taint : Taint) (marks : List (Statement × Bool)) :
    (taint.strike marks = ⟨taint, marks⟩ ∧ ∀ s, (s, true) ∈ marks → taint.spoils s = false) ∨
      (taint.strike marks).kept < marks.countP Prod.snd := by
  induction marks generalizing taint with
  | nil => exact .inl ⟨rfl, fun s hs => by cases hs⟩
  | cons mark marks ih =>
    obtain ⟨s, kept⟩ := mark
    by_cases hstruck : (kept && taint.spoils s) = true
    · -- the rest keeps no more than before
      obtain ⟨rfl, hspoiled⟩ := Bool.and_eq_true_iff.1 hstruck
      have hrest : ((taint.leaveOut s).strike marks).kept ≤ marks.countP Prod.snd := by
        rcases ih (taint.leaveOut s) with ⟨heq, -⟩ | hlt
        · exact (congrArg Scan.kept heq).le
        · exact Nat.le_of_lt hlt
      right
      simp only [strike, Scan.kept, hspoiled] at hrest ⊢
      simpa [List.countP_cons] using Nat.lt_succ_of_le hrest
    · have hkept : (kept && !taint.spoils s) = kept := by
        cases kept <;> simp_all
      rcases ih taint with ⟨heq, hnone⟩ | hlt
      · left
        refine ⟨?_, fun u hu => ?_⟩
        · rw [strike, if_neg hstruck, heq, hkept]
        · rcases List.mem_cons.1 hu with h | hu
          · obtain ⟨rfl, rfl⟩ := Prod.mk.inj h
            simpa using hstruck
          · exact hnone u hu
      · right
        simp only [strike, if_neg hstruck, hkept, Scan.kept, List.countP_cons] at hlt ⊢
        omega

end Taint

namespace Scan

variable {ss : List Statement} {scan : Scan}

/-- A sweep changes nothing, or it leaves fewer statements than were kept before. -/
theorem sweep_cases (scan : Scan) : scan.sweep = scan ∨ scan.sweep.kept < scan.kept :=
  (scan.missing.strike_cases scan.marks).imp And.left id

/-- After at most as many sweeps as statements are kept, a sweep changes nothing. -/
theorem exists_settled (scan : Scan) : ∃ n ≤ scan.kept, sweep^[n + 1] scan = sweep^[n] scan := by
  induction hkept : scan.kept using Nat.strongRecOn generalizing scan with
  | _ k ih =>
    rcases scan.sweep_cases with hsame | hlt
    · exact ⟨0, Nat.zero_le k, hsame⟩
    · obtain ⟨n, hn, hsettled⟩ := ih _ (hkept ▸ hlt) scan.sweep rfl
      exact ⟨n + 1, by omega, hsettled⟩

theorem kept_start (ss : List Statement) : (start ss).kept = ss.length := by
  simp [start, kept, List.countP_map, Function.comp_def]

/-- What holds of a scan of `ss` along its sweeps. -/
structure Valid (ss : List Statement) (scan : Scan) : Prop where
  statements : scan.marks.map Prod.fst = ss
  accounts : Taint.Accounts ss scan.missing scan.marks

theorem valid_start (ss : List Statement) : (start ss).Valid ss where
  statements := by simp [start, Function.comp_def]
  accounts :=
    { sound := ⟨by simp [start], by simp [start]⟩
      mem := by simp [start]
      struck := by simp [start] }

theorem Valid.sweep (h : scan.Valid ss) : scan.sweep.Valid ss where
  statements := (scan.missing.map_fst_strike scan.marks).trans h.statements
  accounts := h.accounts.strike

theorem valid_iterate (ss : List Statement) (n : Nat) : (Scan.sweep^[n] (start ss)).Valid ss := by
  induction n with
  | zero => exact valid_start ss
  | succ n ih =>
    rw [Function.iterate_succ_apply']
    exact ih.sweep

/-- Once a sweep changes nothing, a statement that depends on pointers is kept nowhere. -/
theorem Valid.not_kept (h : scan.Valid ss) (hsettled : scan.sweep = scan) {s : Statement}
    (hs : s.Tainted ss) : (s, true) ∉ scan.marks := by
  have hspoils (u : Statement) (hu : (u, true) ∈ scan.marks) : scan.missing.spoils u = false := by
    rcases scan.missing.strike_cases scan.marks with ⟨-, hnone⟩ | hlt
    · exact hnone u hu
    · exact absurd (congrArg kept hsettled) (Nat.ne_of_lt hlt)
  -- a statement that is kept nowhere is struck out somewhere, so what it defines is missing
  have hcovers {u : Statement} (hu : u ∈ ss) (hnot : (u, true) ∉ scan.marks) :
      scan.missing.Covers u := by
    rw [← h.statements] at hu
    obtain ⟨⟨_, kept⟩, hmark, rfl⟩ := List.mem_map.1 hu
    cases kept with
    | true => exact absurd hmark hnot
    | false => exact (h.accounts.struck _ hmark).2
  intro hkept
  refine absurd (Taint.spoils_iff.2 ?_) (Bool.eq_false_iff.1 (hspoils s hkept))
  clear hkept
  induction hs with
  | pointer hpointer => exact .inl hpointer
  | @reads s u r v hu _ hdefined hr hv ih =>
    have hnot : (u, true) ∉ scan.marks := fun hmem =>
      Bool.eq_false_iff.1 (hspoils u hmem) (Taint.spoils_iff.2 ih)
    exact .inr (.inl ⟨r, hr, v, hv, (hcovers hu hnot).value v hdefined⟩)
  | @binding s u hu _ hcall hbinding hsource ih =>
    have hnot : (u, true) ∉ scan.marks := fun hmem =>
      Bool.eq_false_iff.1 (hspoils u hmem) (Taint.spoils_iff.2 ih)
    exact .inr (.inr ⟨hbinding, hsource ▸ (hcovers hu hnot).call hcall⟩)

/-- **Once a sweep changes nothing, just those statements are struck out that depend on
pointers.** -/
theorem marks_of_settled {n : Nat} (h : sweep^[n + 1] (start ss) = sweep^[n] (start ss)) :
    (sweep^[n] (start ss)).marks = ss.map fun s => (s, !(Taint.of ss).spoils s) := by
  have hvalid := valid_iterate ss n
  rw [Function.iterate_succ_apply'] at h
  generalize sweep^[n] (start ss) = scan at h hvalid
  have hmark (mark : Statement × Bool) (hmem : mark ∈ scan.marks) :
      mark = (mark.1, !(Taint.of ss).spoils mark.1) := by
    obtain ⟨s, kept⟩ := mark
    have hiff := Taint.spoils_of_iff ss s
    cases kept with
    | true =>
      have hnot : ¬(Taint.of ss).spoils s = true := fun hspoiled =>
        hvalid.not_kept h (hiff.1 hspoiled) hmem
      simp [Bool.eq_false_iff.2 hnot]
    | false =>
      have hspoiled := hiff.2 (hvalid.accounts.struck s hmem).1
      simp [hspoiled]
  calc scan.marks
      = scan.marks.map fun mark => (mark.1, !(Taint.of ss).spoils mark.1) :=
        (List.map_id _).symm.trans (List.map_congr_left hmark)
    _ = (scan.marks.map Prod.fst).map fun s => (s, !(Taint.of ss).spoils s) := by
        rw [List.map_map]
        rfl
    _ = ss.map fun s => (s, !(Taint.of ss).spoils s) := by rw [hvalid.statements]

end Scan

/-! ### What a body loses -/

namespace Body

variable (body : Body)

theorem mem_withoutPointers {s : Statement} : s ∈ body.withoutPointers.statements ↔
    s ∈ body.statements ∧ ¬s.Tainted body.statements := by
  have hlisted : body.withoutPointers.statements =
      (Taint.of body.statements).untainted body.statements := by
    rw [← statements_listed, listed, if_pos rfl]
  rw [hlisted, Taint.untainted, List.mem_filter, ← Taint.spoils_of_iff]
  simp

theorem spoils_eq_of_mem {s : Statement} (hs : s ∈ body.statements) :
    (!(Taint.of body.statements).spoils s) = decide (s ∈ body.withoutPointers.statements) := by
  rw [Bool.eq_iff_iff, decide_eq_true_iff, mem_withoutPointers, ← Taint.spoils_of_iff]
  simp [hs]

/-- **What a body loses with pointers is the least closed set of its statements.**  All others stay
in their blocks, in order.  Sweeping over the statements finds the same set, after at most as many
sweeps as there are statements, and so does any other body with the same statements, in whatever
order its blocks and statements are. -/
theorem isLeast_leftOut :
    IsLeast {D : Set Statement | ∀ s ∈ body.statements, s.DependsOn D → s ∈ D}
        {s | s ∈ body.statements ∧ s ∉ body.withoutPointers.statements} ∧
      body.withoutPointers = body.map (fun (b, ss) =>
        (b, ss.filter (· ∈ body.withoutPointers.statements))) ∧
      (∃ n ≤ body.statements.length, Scan.sweep^[n + 1] (Scan.start body.statements) =
        Scan.sweep^[n] (Scan.start body.statements)) ∧
      (∀ n, Scan.sweep^[n + 1] (Scan.start body.statements) =
          Scan.sweep^[n] (Scan.start body.statements) →
        (Scan.sweep^[n] (Scan.start body.statements)).marks =
          body.statements.map fun s => (s, decide (s ∈ body.withoutPointers.statements))) ∧
      ∀ other : Body, (∀ s, s ∈ other.statements ↔ s ∈ body.statements) →
        ∀ s, s ∈ other.withoutPointers.statements ↔ s ∈ body.withoutPointers.statements := by
  refine ⟨?_, ?_, ?_, fun n hn => ?_, fun other hother s => ?_⟩
  · have hset : {s | s ∈ body.statements ∧ s ∉ body.withoutPointers.statements} =
        {s | s ∈ body.statements ∧ s.Tainted body.statements} := by
      ext s
      simp only [Set.mem_ofPred_eq, mem_withoutPointers]
      tauto
    rw [hset]
    exact Statement.isLeast_tainted body.statements
  · conv_lhs => rw [withoutPointers]
    refine List.map_congr_left fun part hpart => ?_
    refine congrArg (part.1, ·) (List.filter_congr fun s hs => ?_)
    exact body.spoils_eq_of_mem (List.mem_flatMap.2 ⟨part, hpart, hs⟩)
  · exact Scan.kept_start body.statements ▸ Scan.exists_settled (Scan.start body.statements)
  · rw [Scan.marks_of_settled hn]
    exact List.map_congr_left fun s hs => congrArg (s, ·) (body.spoils_eq_of_mem hs)
  · have htainted : s.Tainted other.statements ↔ s.Tainted body.statements :=
      ⟨.of_subset fun t ht => (hother t).1 ht, .of_subset fun t ht => (hother t).2 ht⟩
    rw [mem_withoutPointers, mem_withoutPointers, hother s, htainted]

end Body

end LevelIr
