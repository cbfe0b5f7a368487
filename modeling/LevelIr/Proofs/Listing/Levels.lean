import LevelIr.Proofs.Listing.Reached

/-!
# Levels of indirection

A load reads one level below its source, an argument is handed over as it is, and a store writes one
level below its target.  Forwarding changes the references of stores only, and each time by one
level.  So however often loads are forwarded, and with whatever reaches, levels stay below the
greatest reach.

* `Statement.Levelled` : the levels of the references of a statement.
* `Workspace.walks_levelled` : what they are in the listing of a program, in any context.
* `Forward.levelled_step`, `Listing.levelled_foldl_forward` : what they are after a step, and after
  any number of passes.
* `Listing.levels_bounded` : levels stay bounded, and so do the numbers that are computed from them.
-/

namespace LevelIr

namespace Statement

/-- The levels of the references of a statement, where stores read at levels up to `a` and write at
levels up to `b`. -/
structure Levelled (a b : Int) (s : Statement) : Prop where
  /-- A load reads one level below its source, and sets its result. -/
  load : s.isLoad = true → s.binding = false →
    ∃ source, s.operands = [source] ∧ source.level = 1 ∧ ∀ r, s.result = some r → r.level = 0
  /-- An argument is handed over as it is. -/
  binding : s.binding = true → s.isLoad = true ∧ ∃ actual formal,
    s.operands = [actual] ∧ s.result = some formal ∧ actual.level = 0 ∧ formal.level = 0
  /-- A store writes through an address. -/
  store : s.isStore = true → ∃ stored target, s.operands = [stored] ∧ s.result = some target ∧
    (0 ≤ stored.level ∧ stored.level ≤ a) ∧ 1 ≤ target.level ∧ target.level ≤ b
  /-- A call reads its arguments as they are. -/
  call : s.isCall = true → ∀ r ∈ s.operands, r.level = 0

theorem Levelled.mono {a b a' b' : Int} {s : Statement} (h : s.Levelled a b) (ha : a ≤ a')
    (hb : b ≤ b') : s.Levelled a' b' where
  load := h.load
  binding := h.binding
  store hstore := by
    obtain ⟨stored, target, hoperands, hresult, ⟨hlow, hhigh⟩, hlow', hhigh'⟩ := h.store hstore
    exact ⟨stored, target, hoperands, hresult, ⟨hlow, by omega⟩, hlow', by omega⟩
  call := h.call

/-! ### Levels in a listing -/

section Make

variable {i : InstId} {line : Option Nat} {operands : List Reference} {result : Option Reference}

theorem levelled_load {source : Reference} (hsource : source.level = 1)
    (hresult : ∀ r, result = some r → r.level = 0) :
    (make .load i [source] result line).Levelled 0 1 where
  load _ _ := ⟨source, rfl, hsource, hresult⟩
  binding h := by cases h
  store h := by cases h
  call h := by cases h

theorem levelled_store {stored target : Reference} (hstored : stored.level = 0)
    (htarget : target.level = 1) :
    (make .store i [stored] (some target) line).Levelled 0 1 where
  load h := by cases h
  binding h := by cases h
  store _ := ⟨stored, target, rfl, rfl, by omega, by omega, by omega⟩
  call h := by cases h

theorem levelled_call {callee : Callee} (h : ∀ r ∈ operands, r.level = 0) :
    (make (.call callee) i operands result line).Levelled 0 1 where
  load h := by cases h
  binding h := by cases h
  store h := by cases h
  call _ := h

theorem levelled_plain {action : Action} (hload : action ≠ .load) (hstore : action ≠ .store)
    (hcall : ∀ callee, action ≠ .call callee) :
    (make action i operands result line).Levelled 0 1 where
  load h := absurd h (by simpa [isLoad, make] using hload)
  binding h := by cases h
  store h := absurd h (by simpa [isStore, make] using hstore)
  call h := by
    unfold isCall at h
    split at h
    · rename_i callee haction
      exact absurd haction (hcall callee)
    · cases h

theorem levelled_bindArgument {actual : Reference} (h : actual.level = 0) (formal : Operand) :
    (bindArgument i formal actual line).Levelled 0 1 where
  load _ h := by cases h
  binding _ := ⟨rfl, actual, _, rfl, rfl, h, rfl⟩
  store h := by cases h
  call h := by cases h

end Make

variable (p : Program) (slots : Slots)

theorem yields_level_resolve (level : Int) (v : ValueId) :
    Pass.Yields (fun _ => True) (·.level = level) (Reference.resolve p slots level v) :=
  (Pass.yields_trivial _).bind fun _ _ => Pass.yields_pure rfl

theorem yields_levelled_form (i : InstId) (inst : Inst) {result : Option Reference}
    (hresult : ∀ r, result = some r → r.level = 0) :
    Pass.Yields (fun _ => True)
      (fun form => (make form.1 i form.2.1 form.2.2 inst.line).Levelled 0 1)
      (form p slots i inst result) := by
  have hat (level : Int) (v : ValueId) := yields_level_resolve p slots level v
  have hall (values : List ValueId) : Pass.Yields (fun _ => True) (fun rs => ∀ r ∈ rs, r.level = 0)
      (Reference.resolveAll p slots values) := Pass.yields_mapM_mem (hat 0) values
  have hplain {action : Action} {operands : List Reference} (hload : action ≠ .load)
      (hstore : action ≠ .store) (hcall : ∀ callee, action ≠ .call callee) :
      Pass.Yields (fun _ => True)
        (fun form => (make form.1 i form.2.1 form.2.2 inst.line).Levelled 0 1)
        (pure (action, operands, result) : Pass Shared _) :=
    Pass.yields_pure (levelled_plain hload hstore hcall)
  unfold form
  split
  case h_1 | h_2 | h_3 => exact hplain (by simp) (by simp) (by simp)
  case h_4 =>
    exact (Pass.yields_trivial _).bind fun v _ => (hat 1 v).bind fun source hsource =>
      Pass.yields_pure (levelled_load hsource hresult)
  case h_5 =>
    exact (Pass.yields_trivial _).bind fun u _ => (Pass.yields_trivial _).bind fun v _ =>
      (hat 0 u).bind fun stored hstored => (hat 1 v).bind fun target htarget =>
        Pass.yields_pure (levelled_store hstored htarget)
  case h_6 | h_7 =>
    exact (Pass.yields_trivial _).bind fun _ _ => hplain (by simp) (by simp) (by simp)
  case h_8 =>
    exact (Pass.yields_trivial _).bind fun _ _ => (hall _).bind fun rs hrs =>
      Pass.yields_pure (levelled_call hrs)
  case h_9 | h_10 =>
    exact (Pass.yields_trivial _).bind fun _ _ => (Pass.yields_trivial _).bind fun _ _ =>
      hplain (by simp) (by simp) (by simp)
  case h_11 =>
    split
    · exact hplain (by simp) (by simp) (by simp)
    · exact (Pass.yields_trivial _).bind fun _ _ => hplain (by simp) (by simp) (by simp)
  case h_12 =>
    exact (Pass.yields_trivial _).bind fun _ _ => (Pass.yields_trivial _).bind fun _ _ =>
      (Pass.yields_trivial _).bind fun _ _ => hplain (by simp) (by simp) (by simp)
  case h_13 =>
    obtain ⟨hload, hstore, hcall⟩ := Action.ofPlain_ne inst
    exact (Pass.yields_trivial _).bind fun _ _ => hplain hload hstore hcall

theorem yields_levelled_ofInst (i : InstId) :
    Pass.Yields (fun _ => True) (Levelled 0 1) (ofInst p slots i) := by
  refine (Pass.yields_trivial _).bind fun inst _ => ?_
  have hresult : Pass.Yields (fun _ => True) (fun result => ∀ r, result = some r → r.level = 0)
      (inst.result.mapM (Reference.resolve p slots 0)) := by
    cases inst.result with
    | none => exact Pass.yields_pure fun _ h => by cases h
    | some v =>
      refine (yields_level_resolve p slots 0 v).bind fun r hr => Pass.yields_pure ?_
      rintro _ ⟨⟩
      exact hr
  exact hresult.bind fun result hresult => (yields_levelled_form p slots i inst hresult).bind
    fun _ hform => Pass.yields_pure hform

end Statement

/-- The levels of all statements of a listing, whatever the context knows. -/
theorem Workspace.walks_levelled (p : Program) (slots : Slots) :
    Walks p (Carries p slots fun _ => True)
      fun _ statements => ∀ s ∈ statements, s.Levelled 0 1 :=
  StatesAll.walks {
    ofInst := fun q _ i => Statement.yields_levelled_ofInst q slots i
    operand := fun _ _ _ => Pass.yields_trivial _
    bind := by
      intro call hcall f formals haction pair hpair operand _
      have hisCall : call.isCall = true := by simp [Statement.isCall, haction]
      exact Statement.levelled_bindArgument
        (hcall.call hisCall pair.2 (List.of_mem_zip hpair).2) operand }

/-! ### Levels after forwarding -/

namespace Forward

variable {uses : ValueId → Nat} {reach a b : Int}

/-- A reference that is replaced goes one level deeper, and not beyond the reach. -/
theorem level_substitute? {load : Statement} (hload : load.Levelled a b) {r replacement : Reference}
    (h : substitute? uses reach r load = some replacement) :
    replacement.level = r.level + 1 ∧ r.level + 1 ≤ reach := by
  obtain ⟨source, result, x, ⟨hisLoad, -, hbinding, hsource, hresult, -⟩, -, -, hreach, rfl⟩ :=
    substitute?_eq_some_iff.1 h
  obtain ⟨source', hoperands, hone, hzero⟩ := hload.load hisLoad hbinding
  rw [hoperands, List.head?_cons, Option.some.injEq] at hsource
  subst hsource
  have hzero := hzero result hresult
  exact ⟨show r.level - result.level + source'.level = _ by omega, by omega⟩

variable {done : List Statement}

theorem level_redirect (uses : ValueId → Nat) (reach : Int) (h : ∀ s ∈ done, s.Levelled a b)
    (r : Reference) :
    (redirect uses reach done r).1 = r ∨
      (redirect uses reach done r).1.level = r.level + 1 ∧ r.level + 1 ≤ reach := by
  rcases redirect_eq_or uses reach done r with hsame |
    ⟨load, replacement, later, earlier, rfl, hsubstitute, hnew⟩
  · exact .inl (by rw [hsame])
  · rw [hnew]
    exact .inr (level_substitute? (h load (by simp)) hsubstitute)

/-- A step keeps the levels within bounds that are not below the reach. -/
theorem levelled_step (ha : reach ≤ a) (hb : reach ≤ b) (hdone : ∀ s ∈ done, s.Levelled a b)
    {s : Statement} (hs : s.Levelled a b) : ∀ t ∈ step uses reach done s, t.Levelled a b := by
  by_cases hactive : (s.isStore && !s.ignored) = true
  · have hstore : s.isStore = true := (Bool.and_eq_true_iff.1 hactive).1
    obtain ⟨stored, target, hoperands, hresult, ⟨hlow, hhigh⟩, hlow', hhigh'⟩ := hs.store hstore
    rw [step_store hactive hoperands hresult]
    have hfirst : ∀ t ∈ (redirect uses reach done stored).2, t.Levelled a b :=
      forall_mem_redirect hdone stored
    have hstored := level_redirect uses reach hdone stored
    have htarget := level_redirect uses reach hfirst target
    refine List.forall_mem_cons.2 ⟨⟨?_, ?_, ?_, ?_⟩, forall_mem_redirect hfirst target⟩
    · intro hload
      exact absurd hstore (by simp [isStore_of_isLoad (show s.isLoad = true from hload)])
    · intro hbinding
      have hload := (hs.binding hbinding).1
      exact absurd hstore (by simp [isStore_of_isLoad hload])
    · intro _
      refine ⟨_, _, rfl, rfl, ?_, ?_⟩
      · rcases hstored with heq | hlevel
        · rw [heq]
          exact ⟨hlow, hhigh⟩
        · omega
      · rcases htarget with heq | hlevel
        · rw [heq]
          exact ⟨hlow', hhigh'⟩
        · omega
    · intro hcall
      simp_all [Statement.isStore, Statement.isCall, referring, Statement.refreshPointer]
  · rw [step, if_neg hactive]
    exact List.forall_mem_cons.2 ⟨hs, hdone⟩

/-- The levels in a block after forwarding. -/
theorem levelled_block (ha : reach ≤ a) (hb : reach ≤ b) {ss : List Statement}
    (h : ∀ s ∈ ss, s.Levelled a b) : ∀ t ∈ block uses reach ss, t.Levelled a b := by
  have hall := block_invariant uses reach (I := fun _ done => ∀ t ∈ done, t.Levelled a b)
    (fun t ht => by cases ht) fun before s hpre hdone =>
      levelled_step ha hb hdone (h s (hpre.subset (by simp)))
  exact fun t ht => hall t (List.mem_reverse.2 ht)

end Forward

namespace Listing

variable {l : Listing} {a b : Int}

theorem levelled_forward (h : (l.blocks.map Place.block).Nodup) (reach : Int)
    (hl : ∀ s ∈ l.statements, s.Levelled a b) :
    ∀ s ∈ (l.forward reach).statements, s.Levelled (max a reach) (max b reach) := by
  refine forall_mem_forward h reach fun place _ => ?_
  refine Forward.levelled_block (Int.le_max_right _ _) (Int.le_max_right _ _) fun s hs => ?_
  exact (hl s (mem_statements_of_mem_statementsAt hs)).mono (Int.le_max_left _ _)
    (Int.le_max_left _ _)

/-- The levels after any number of passes. -/
theorem levelled_foldl_forward (h : l.Reached) (hl : ∀ s ∈ l.statements, s.Levelled a b)
    (reaches : List Int) : ∀ s ∈ (reaches.foldl forward l).statements,
      s.Levelled (reaches.foldl max a) (reaches.foldl max b) := by
  induction reaches generalizing l a b with
  | nil => exact hl
  | cons reach reaches ih =>
    exact ih (h.forwarded reach) (levelled_forward h.orderly.nodup reach hl)

/-- The greatest number that can be written in a signed word of 32 bits. -/
def greatestWord : Int := 2147483647

/-- The number can be written in a signed word of 32 bits. -/
def IsWord (n : Int) : Prop := -greatestWord - 1 ≤ n ∧ n ≤ greatestWord

/-- **Levels of indirection stay bounded**, whatever the context of a listing and however often
loads are forwarded, with whatever reaches.  So if no reach is the greatest word, the level that is
computed for a reference of a store and a load is a word, and so is what is computed on the way. -/
theorem levels_bounded {w later : Workspace} {discard : Bool} (hp : w.program.Assembled)
    (h : (Workspace.transcribe discard).outcome w = (.ok l, later)) (reaches : List Int) :
    (∀ s ∈ (reaches.foldl forward l).statements,
      s.Levelled (reaches.foldl max 0) (reaches.foldl max 1)) ∧
    ((∀ reach ∈ reaches, reach < greatestWord) →
      ∀ store ∈ (reaches.foldl forward l).statements, store.isStore = true →
      ∀ load ∈ (reaches.foldl forward l).statements, load.isLoad = true → load.binding = false →
      ∀ use ∈ store.reads, ∀ source ∈ load.operands, ∀ result, load.result = some result →
        IsWord (use.level - result.level) ∧ IsWord (use.level - result.level + source.level)) := by
  have hlisted := (Workspace.walks_levelled _ _).listedAs hp.coherent ⟨rfl, rfl, trivial⟩ h
  have hall := levelled_foldl_forward (.transcribed discard hp h) hlisted.forall_mem reaches
  refine ⟨hall, fun hreaches store hstore hisStore load hload hisLoad hbinding => ?_⟩
  have hbound {n : Int} (hn : n < greatestWord) : reaches.foldl max n < greatestWord :=
    List.foldlRecOn (motive := (· < greatestWord)) reaches max hn fun _ hm reach hreach =>
      Int.max_lt.2 ⟨hm, hreaches reach hreach⟩
  have hzero : reaches.foldl max 0 < greatestWord := hbound (by decide)
  have hone : reaches.foldl max 1 < greatestWord := hbound (by decide)
  obtain ⟨stored, target, hoperands, htarget, hstored, htarget'⟩ :=
    (hall store hstore).store hisStore
  have huse : ∀ use ∈ store.reads, 0 ≤ use.level ∧ use.level < greatestWord := by
    rw [Forward.reads_of_isStore hisStore hoperands htarget, List.forall_mem_cons,
      List.forall_mem_singleton]
    omega
  obtain ⟨source', hsource', hlevel, hresult⟩ := (hall load hload).load hisLoad hbinding
  intro use husemem source hsource result hresult'
  obtain rfl : source = source' := by simpa [hsource'] using hsource
  have hlevel' := hresult result hresult'
  have hlevels := huse use husemem
  unfold IsWord
  omega

/-- A value behind three pointers, which are followed one after another, is written through a
pointer. -/
def chased : Program := .ofEdits "chased"
  [.function "main" .void [("a", .pointer (.pointer (.pointer (.int 32)))),
      ("b", .pointer (.pointer (.int 32)))],
    .block ⟨0⟩ "entry",
    .last ⟨0⟩ { opcode := .load, operands := [.value ⟨1⟩], type := .pointer (.pointer (.int 32)) },
    .last ⟨0⟩ { opcode := .load, operands := [.value ⟨3⟩], type := .pointer (.int 32) },
    .last ⟨0⟩ { opcode := .load, operands := [.value ⟨4⟩], type := .int 32 },
    .last ⟨0⟩ { opcode := .load, operands := [.value ⟨2⟩], type := .pointer (.int 32) },
    .last ⟨0⟩ { opcode := .store, operands := [.value ⟨5⟩, .value ⟨6⟩] },
    .last ⟨0⟩ { opcode := .ret }]

/-- Two passes take the stored value two levels down.  A load is left that can take it to the third
one. -/
theorem levels_bounded_chased : chased.Assembled ∧
    (∀ s ∈ ([1, 3].foldl forward chased.listing).statements, s.Levelled 3 3) ∧
    ∃ store ∈ ([1, 3].foldl forward chased.listing).statements,
      ∃ load ∈ ([1, 3].foldl forward chased.listing).statements,
      ∃ use ∈ store.reads, ∃ source ∈ load.operands, ∃ result, load.result = some result ∧
        use.level = 2 ∧ use.level - result.level + source.level = 3 ∧
        IsWord (use.level - result.level) ∧ IsWord (use.level - result.level + source.level) := by
  have hok : ((Workspace.transcribe false).outcome { program := chased }).1.isOk = true := by
    decide +kernel
  obtain ⟨later, hl⟩ := Program.outcome_listing hok
  have hassembled : chased.Assembled := Program.assembled_ofEdits _ _
  obtain ⟨hlevelled, hwords⟩ := levels_bounded hassembled hl [1, 3]
  obtain ⟨store, hstore, load, hload, use, huse, source, hsource, hisStore, hisLoad, hbinding,
      result, hresult, htwo, hthree⟩ :
      ∃ store ∈ ([1, 3].foldl forward chased.listing).statements,
      ∃ load ∈ ([1, 3].foldl forward chased.listing).statements,
      ∃ use ∈ store.reads, ∃ source ∈ load.operands, store.isStore = true ∧ load.isLoad = true ∧
        load.binding = false ∧ ∃ result ∈ load.result, use.level = 2 ∧
        use.level - result.level + source.level = 3 := by decide +kernel
  exact ⟨hassembled, hlevelled, store, hstore, load, hload, use, huse, source, hsource, result,
    hresult, htwo, hthree, hwords (by decide) store hstore hisStore load hload hisLoad hbinding use
      huse source hsource result hresult⟩

end Listing

end LevelIr
