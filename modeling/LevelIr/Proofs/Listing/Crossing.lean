import LevelIr.Proofs.Listing.Forwarding

/-!
# What forwarding moves a read across

If a load is dropped, its store reads the source of the load in its place, and so reads it later:
after all that stands between the two.  Forwarding looks at the load, at the store, and at how often
the value of the load is used.  That tells it that nothing in between uses or sets this value.  What
else stands there it does not ask: the read is moved across whatever writes to memory, too.

* `Forward.Moved` : what it means that the read of a load is moved to a store.
* `Listing.forward_moves` : a load is dropped just if its read can be moved, whatever stands in
  between.
* `Listing.forward_clobbered` : a read that is moved across everything that can change what is read.
-/

namespace LevelIr

namespace Forward

/-- The read of the load number `n` of a block was moved to its store number `m`, as the reference
`new`; `left` is what is left of the block. -/
structure Moved (ss left : List Statement) (n : Nat) (load : Statement) (m : Nat)
    (store : Statement) (new : Reference) : Prop where
  dropped : load ∉ left
  forwarded : ∃ t ∈ left, t.isStore = true ∧ t.source = store.source ∧ new ∈ t.reads
  /-- Nothing in between uses or sets the value of the load. -/
  between : ∀ k s x, n < k → k < m → ss[k]? = some s → load.defined? = some x →
    x ∉ s.mentions ∧ s.defined? ≠ some x

variable {uses : ValueId → Nat} {reach : Int}

/-! ### Statements that are left -/

section Left

variable {before ss : List Statement} {s t : Statement}

theorem Replaced.eq_of_not_isStore {use new : Reference}
    (h : Replaced uses reach before s use new) (hs : s.isStore = false) : new = use := by
  rcases h with ⟨load, -, hfolds⟩ | ⟨-, hsame⟩
  · rw [hfolds.isStore.1] at hs
    cases hs
  · exact hsame

theorem Rewritten.eq_of_not_isStore (h : Rewritten uses reach before s t)
    (hs : s.isStore = false) : t = s := by
  refine h.unchanged ?_ ?_
  · have hoperands : List.Forall₂ Eq s.operands t.operands :=
      h.operands.imp fun _ _ hreplaced => (hreplaced.eq_of_not_isStore hs).symm
    rw [List.forall₂_eq_eq_eq] at hoperands
    exact hoperands.symm
  · have hresult := h.result
    generalize s.result = old at hresult ⊢
    generalize t.result = new at hresult ⊢
    cases hresult with
    | none => rfl
    | some hreplaced => rw [hreplaced.eq_of_not_isStore hs]

theorem Rewritten.action_eq (h : Rewritten uses reach before s t) : t.action = s.action := by
  have hsame := congrArg Statement.action h.same
  exact hsame

theorem Rewritten.source_eq (h : Rewritten uses reach before s t) : t.source = s.source := by
  have hsame := congrArg Statement.source h.same
  exact hsame

/-- Each reference that a statement reads is replaced. -/
theorem Rewritten.exists_read (h : Rewritten uses reach before s t) {use : Reference}
    (huse : use ∈ s.reads) : ∃ new ∈ t.reads, Replaced uses reach before s use new := by
  rcases List.mem_append.1 huse with hoperand | htarget
  · obtain ⟨i, hi, rfl⟩ := List.mem_iff_getElem.1 hoperand
    have hi' : i < t.operands.length := h.operands.length_eq ▸ hi
    exact ⟨t.operands[i], List.mem_append_left _ (List.getElem_mem hi'),
      (List.forall₂_iff_get.1 h.operands).2 i hi hi'⟩
  · unfold Statement.target? at htarget
    split at htarget
    · rename_i hstore
      rw [Option.mem_toList] at htarget
      have htstore : t.isStore = true := by
        rw [Statement.isStore, h.action_eq]
        exact hstore
      have hresult := h.result
      rw [htarget] at hresult
      rw [Statement.reads, Statement.target?, if_pos htstore]
      generalize t.result = new at hresult ⊢
      cases hresult with
      | some hreplaced => exact ⟨_, List.mem_append_right _ (by simp), hreplaced⟩
    · cases htarget

theorem exists_rewritten (h : ∀ s ∈ ss, s.Regular) {n : Nat} (hs : ss[n]? = some s)
    (hn : ¬Dropped uses reach ss n) :
    ∃ t ∈ remaining uses reach [] ss, Rewritten uses reach (ss.take n) s t := by
  obtain ⟨kept, -, hkept, hall⟩ := @exists_kept_block uses reach ss h
  have hmem : n ∈ kept := (hkept n).2 ⟨(List.getElem?_eq_some_iff.1 hs).1, hn⟩
  obtain ⟨i, hi, rfl⟩ := List.mem_iff_getElem.1 hmem
  have hi' : i < (remaining uses reach [] ss).length := hall.length_eq ▸ hi
  obtain ⟨s', hs', hrewritten⟩ := (List.forall₂_iff_get.1 hall).2 i hi hi'
  obtain rfl : s = s' := Option.some.inj (hs.symm.trans hs')
  exact ⟨_, List.getElem_mem hi', hrewritten⟩

theorem exists_origin (h : ∀ s ∈ ss, s.Regular) (ht : t ∈ remaining uses reach [] ss) :
    ∃ n s, ss[n]? = some s ∧ ¬Dropped uses reach ss n ∧
      Rewritten uses reach (ss.take n) s t := by
  obtain ⟨kept, -, hkept, hall⟩ := @exists_kept_block uses reach ss h
  obtain ⟨i, hi, rfl⟩ := List.mem_iff_getElem.1 ht
  have hi' : i < kept.length := hall.length_eq ▸ hi
  obtain ⟨s, hs, hrewritten⟩ := (List.forall₂_iff_get.1 hall).2 i hi' hi
  exact ⟨kept[i], s, hs, ((hkept _).1 (List.getElem_mem hi')).2, hrewritten⟩

end Left

/-! ### Loads that are dropped -/

section Dropped

variable {ss : List Statement} {n m : Nat} {load store : Statement} {use new : Reference}

theorem Folds.eq {new' : Reference} (h : Folds uses reach load store use new)
    (h' : Folds uses reach load store use new') : new = new' := by
  obtain ⟨source, result, x, ⟨-, -, -, hsource, hresult, -⟩, -, -, -, rfl⟩ := h
  obtain ⟨source', result', x', ⟨-, -, -, hsource', hresult', -⟩, -, -, -, rfl⟩ := h'
  obtain rfl : source = source' := List.singleton_inj.1 (hsource.symm.trans hsource')
  obtain rfl : result = result' := Option.some.inj (hresult.symm.trans hresult')
  rfl

theorem not_dropped_of_isStore (hs : ss[m]? = some store) (hstore : store.isStore = true) :
    ¬Dropped uses reach ss m := by
  rintro ⟨load, _, _, _, _, -, hload, -, ⟨_, _, _, ⟨hisLoad, -⟩, -⟩⟩
  obtain rfl : store = load := Option.some.inj (hs.symm.trans hload)
  rw [isStore_of_isLoad hisLoad] at hstore
  cases hstore

/-- A statement that sets a value and hands over no argument stands at one place only. -/
theorem Suitable.eq_of_getElem? (h : Suitable uses ss) {s : Statement} (hn : ss[n]? = some s)
    (hm : ss[m]? = some s) {v : ValueId} (hv : s.defined? = some v) (hbinding : s.binding = false) :
    n = m := by
  by_contra hne
  have hapart : s.Apart s := by
    rcases Nat.lt_or_gt_of_ne hne with hlt | hgt
    · exact h.apart_of_lt hn hm hlt
    · exact h.apart_of_lt hm hn hgt
  rw [(hapart v hv hv).1] at hbinding
  cases hbinding

/-- A load is missing if and only if it was dropped. -/
theorem Suitable.not_mem_remaining_iff (h : Suitable uses ss) (hload : ss[n]? = some load)
    (hisLoad : load.isLoad = true) :
    load ∉ remaining uses reach [] ss ↔ Dropped uses reach ss n := by
  constructor
  · intro hnot
    by_contra hkept
    obtain ⟨t, ht, hrewritten⟩ := exists_rewritten h.regular hload hkept
    rw [hrewritten.eq_of_not_isStore (isStore_of_isLoad hisLoad)] at ht
    exact hnot ht
  · intro hdropped hmem
    obtain ⟨k, s, hs, hkept, hrewritten⟩ := exists_origin h.regular hmem
    have hload' : s.isLoad = true := by
      rw [Statement.isLoad, ← hrewritten.action_eq]
      exact hisLoad
    obtain rfl := hrewritten.eq_of_not_isStore (isStore_of_isLoad hload')
    obtain ⟨load', m, store, use, new, -, hload'', -, hfolds⟩ := id hdropped
    obtain rfl : load = load' := Option.some.inj (hload.symm.trans hload'')
    obtain ⟨_, x, _, -, hbinding, -, hdefined, -⟩ :=
      hfolds.shape (h.regular load (List.mem_of_getElem? hload))
    obtain rfl := h.eq_of_getElem? hload hs hdefined hbinding
    exact hkept hdropped

/-- If a load can be dropped for a reference, this is what becomes of the reference. -/
theorem Suitable.eq_of_replaced (h : Suitable uses ss) {before : List Statement}
    (hbefore : ∀ s ∈ before, s ∈ ss) (hload : load ∈ before)
    (hfolds : Folds uses reach load store use new) {new' : Reference}
    (hreplaced : Replaced uses reach before store use new') : new' = new := by
  rcases hreplaced with ⟨load', hload', hfolds'⟩ | ⟨hnone, -⟩
  · -- both loads set the value that is used, so they are one
    have hmem := hbefore load hload
    have hmem' := hbefore load' hload'
    obtain ⟨_, x, _, -, hbinding, -, hdefined, -, -, hx, -⟩ := hfolds.shape (h.regular load hmem)
    obtain ⟨_, y, _, -, -, -, hdefined', -, -, hy, -⟩ := hfolds'.shape (h.regular load' hmem')
    obtain rfl : x = y := Option.some.inj (hx.symm.trans hy)
    obtain rfl : load = load' := eq_of_defined h.apart hmem hmem' hdefined hdefined' hbinding
    exact hfolds'.eq hfolds
  · exact (hnone load hload new hfolds).elim

/-- The store of a load that is dropped reads the source of the load. -/
theorem Suitable.exists_forwarded (h : Suitable uses ss) (hlt : n < m) (hload : ss[n]? = some load)
    (hstore : ss[m]? = some store) (hfolds : Folds uses reach load store use new) :
    ∃ t ∈ remaining uses reach [] ss, t.isStore = true ∧ t.source = store.source ∧
      new ∈ t.reads := by
  obtain ⟨hisStore, -, huse⟩ := hfolds.isStore
  have hkept : ¬Dropped uses reach ss m := not_dropped_of_isStore hstore hisStore
  obtain ⟨t, ht, hrewritten⟩ := exists_rewritten h.regular hstore hkept
  obtain ⟨new', hnew', hreplaced⟩ := hrewritten.exists_read huse
  have hloadMem : load ∈ ss.take m :=
    List.mem_iff_getElem?.2 ⟨n, by rw [List.getElem?_take_of_lt hlt, hload]⟩
  have htstore : t.isStore = true := by
    rw [Statement.isStore, hrewritten.action_eq]
    exact hisStore
  refine ⟨t, ht, htstore, hrewritten.source_eq, ?_⟩
  rwa [← h.eq_of_replaced (fun _ => List.mem_of_mem_take) hloadMem hfolds hreplaced]

/-- Nothing but its store uses the value of a load that is dropped, and nothing else sets it. -/
theorem Suitable.between (h : Suitable uses ss) (hload : ss[n]? = some load)
    (hstore : ss[m]? = some store) (hfolds : Folds uses reach load store use new) {k : Nat}
    {s : Statement} {x : ValueId} (hnk : n < k) (hkm : k < m) (hs : ss[k]? = some s)
    (hx : load.defined? = some x) : x ∉ s.mentions ∧ s.defined? ≠ some x := by
  obtain ⟨_, y, _, -, hbinding, -, hdefined, -, huses, hy, -⟩ :=
    hfolds.shape (h.regular load (List.mem_of_getElem? hload))
  obtain rfl : x = y := Option.some.inj (hx.symm.trans hdefined)
  have hmention : x ∈ store.mentions := Statement.mem_mentions hfolds.isStore.2.2 hy
  refine ⟨h.not_mem_mentions_of_ne huses hstore hs (Nat.ne_of_lt hkm) hmention, fun hsx => ?_⟩
  rw [(h.apart_of_lt hload hs hnk x hx hsx).1] at hbinding
  cases hbinding

/-- If a load can be dropped for a store, its read is moved there. -/
theorem Suitable.moved (h : Suitable uses ss) (hlt : n < m) (hload : ss[n]? = some load)
    (hstore : ss[m]? = some store) (hfolds : Folds uses reach load store use new) :
    Moved ss (remaining uses reach [] ss) n load m store new := by
  have hdropped : Dropped uses reach ss n :=
    ⟨load, m, store, use, new, hlt, hload, hstore, hfolds⟩
  obtain ⟨_, _, _, hisLoad, -⟩ := hfolds.shape (h.regular load (List.mem_of_getElem? hload))
  refine ⟨(h.not_mem_remaining_iff hload hisLoad).2 hdropped,
    h.exists_forwarded hlt hload hstore hfolds, fun k s x hnk hkm hs hx => ?_⟩
  exact h.between hload hstore hfolds hnk hkm hs hx

end Dropped

end Forward

namespace Listing

/-- **Reads are moved across all that stands in between.**  A load is dropped if and only if a later
store of its block can refer to its source instead; and its read is moved to every such store.  Of
what stands in between it is only known that it neither uses nor sets the value of the load. -/
theorem forward_moves {l : Listing} (h : l.Produced) (reach : Int) {place : Place}
    (hplace : place ∈ l.blocks) {n : Nat} {load : Statement}
    (hload : (l.statementsAt place)[n]? = some load) (hisLoad : load.isLoad = true) :
    (load ∉ (l.forward reach).statementsAt place ↔
      ∃ m store use new, n < m ∧ (l.statementsAt place)[m]? = some store ∧
        Forward.Folds (l.mentionCount place.function) reach load store use new) ∧
    ∀ m store use new, n < m → (l.statementsAt place)[m]? = some store →
      Forward.Folds (l.mentionCount place.function) reach load store use new →
      Forward.Moved (l.statementsAt place) ((l.forward reach).statementsAt place) n load m store
        new := by
  have hsuitable := h.wellBuilt.suitable hplace
  obtain ⟨-, -, hat⟩ := h.wellBuilt.contiguous.forward reach
  rw [hat place hplace, forwardedAt, Forward.block_eq_remaining hsuitable]
  refine ⟨(hsuitable.not_mem_remaining_iff hload hisLoad).trans ⟨?_, ?_⟩, ?_⟩
  · rintro ⟨load', m, store, use, new, hlt, hload', hstore, hfolds⟩
    obtain rfl : load = load' := Option.some.inj (hload.symm.trans hload')
    exact ⟨m, store, use, new, hlt, hstore, hfolds⟩
  · rintro ⟨m, store, use, new, hlt, hstore, hfolds⟩
    exact ⟨load, m, store, use, new, hlt, hload, hstore, hfolds⟩
  · intro m store use new hlt hstore hfolds
    exact hsuitable.moved hlt hload hstore hfolds

/-- A function that reads what its parameter points to, overwrites it in turn by a store and by two
atomic statements, calls itself with another argument, and only then stores what it has read. -/
def clobbered : Program := .ofEdits "clobbered"
  [.value (.int 32) "" (.integer 1),
    .function "again" .void [("n", .pointer (.int 32))],
    .block ⟨0⟩ "entry",
    .last ⟨0⟩ { opcode := .alloca, type := .pointer (.int 32), name := "c" },
    .last ⟨0⟩ { opcode := .load, operands := [.value ⟨2⟩], type := .int 32 },
    .last ⟨0⟩ { opcode := .store, operands := [.value ⟨0⟩, .value ⟨2⟩] },
    .last ⟨0⟩ { opcode := .atomicCmpXchg, operands := [.value ⟨2⟩, .value ⟨0⟩, .value ⟨0⟩]
                type := .int 32 },
    .last ⟨0⟩ { opcode := .atomicRmw, operands := [.value ⟨2⟩, .value ⟨0⟩], type := .int 32 },
    .last ⟨0⟩ { opcode := .call, operands := [.value ⟨3⟩, .value ⟨1⟩] },
    .last ⟨0⟩ { opcode := .store, operands := [.value ⟨4⟩, .value ⟨3⟩] },
    .last ⟨0⟩ { opcode := .ret }]

/-- The statements of the function. -/
def clobberedBlock : List Statement := clobbered.listing.statementsAt ⟨⟨0⟩, ⟨0⟩⟩

/-- What forwarding leaves of them. -/
def clobberedLeft : List Statement := (clobbered.listing.forward 2).statementsAt ⟨⟨0⟩, ⟨0⟩⟩

theorem forward_moves_clobbered :
    clobbered.listing.Produced ∧ ⟨⟨0⟩, ⟨0⟩⟩ ∈ clobbered.listing.blocks ∧
      ∃ load, clobberedBlock[1]? = some load ∧ load.isLoad = true ∧
        ∃ m store new, Forward.Moved clobberedBlock clobberedLeft 1 load m store new := by
  have hok : ((Workspace.transcribe false).outcome { program := clobbered }).1.isOk = true := by
    decide +kernel
  have hproduced : clobbered.listing.Produced :=
    Program.produced_listing (Program.assembled_ofEdits _ _) hok
  have hplace : ⟨⟨0⟩, ⟨0⟩⟩ ∈ clobbered.listing.blocks := by decide +kernel
  have hload : clobberedBlock[1]? = some (clobberedBlock.getD 1 default) := by decide +kernel
  have hisLoad : (clobberedBlock.getD 1 default).isLoad = true := by decide +kernel
  have hmissing : clobberedBlock.getD 1 default ∉ clobberedLeft := by decide +kernel
  obtain ⟨hiff, hmoved⟩ := forward_moves hproduced 2 hplace hload hisLoad
  obtain ⟨m, store, use, new, hlt, hstore, hfolds⟩ := hiff.1 hmissing
  exact ⟨hproduced, hplace, _, hload, hisLoad, m, store, new,
    hmoved m store use new hlt hstore hfolds⟩

/-- **A read is moved across writes.**  Between the load and the store that now reads its source
there are another store, both kinds of atomic statements, a call, and an argument that is handed to
the value that the load reads through. -/
theorem forward_clobbered :
    clobbered.listing.Produced ∧ ⟨⟨0⟩, ⟨0⟩⟩ ∈ clobbered.listing.blocks ∧
      ∃ load store source between,
        clobberedBlock[1]? = some load ∧ load.isLoad = true ∧ load.binding = false ∧
        load.operands = [source] ∧ load ∉ clobberedLeft ∧
        clobberedBlock[7]? = some store ∧ store.isStore = true ∧
        store.operands.map Reference.value = [load.defined?] ∧
        (∃ t ∈ clobberedLeft, t.isStore = true ∧ t.source = store.source ∧
          t.operands = [source]) ∧
        clobberedBlock = clobberedBlock.take 2 ++ between ++ clobberedBlock.drop 7 ∧
        between.map (·.action.mnemonic) = ["store", "cmpxchg", "atomicrmw", "load", "call"] ∧
        between.map Statement.binding = [false, false, false, true, false] ∧
        (between.filter Statement.binding).map Statement.defined? = [source.value] := by
  have hok : ((Workspace.transcribe false).outcome { program := clobbered }).1.isOk = true := by
    decide +kernel
  refine ⟨Program.produced_listing (Program.assembled_ofEdits _ _) hok, by decide +kernel,
    clobberedBlock.getD 1 default, clobberedBlock.getD 7 default,
    (clobberedBlock.getD 1 default).operands.headD default, (clobberedBlock.drop 2).take 5, ?_⟩
  decide +kernel

end Listing

end LevelIr
