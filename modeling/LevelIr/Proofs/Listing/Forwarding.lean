import LevelIr.Proofs.Listing.WellBuilt
import Mathlib.Data.List.Flatten
import Mathlib.Data.List.Pairwise

/-!
# What forwarding does

Forwarding goes over a block once.  It looks for the load behind a reference among the statements
that it has kept so far, with the references of earlier stores already replaced.  What it does in
the end can be said of the block as it was: a load is dropped if and only if a later store has a
reference that can refer to the source of the load instead (`Forward.Folds`), and that store refers
to it.

Both agree because a load is dropped only if its value is used once: no load is wanted by two
references, so that it does not matter in which order references are replaced.

* `Forward.remaining` : what remains of a block, said of the block as it was.
* `Forward.block_invariant` : what one step keeps is kept along a block.
* `Forward.block_eq_remaining` : forwarding leaves just what should remain.
* `Listing.forward_exact` : what forwarding does to a listing.
-/

namespace LevelIr

namespace Forward

/-! ### What forwarding is to do -/

section Defs

variable (uses : ValueId → Nat) (reach : Int)

/-- The reference `use` of a store can refer to the source of a load instead, as `replacement`:
the store uses the value that the load sets, and nothing else does. -/
def Folds (load store : Statement) (use replacement : Reference) : Prop :=
  ∃ source result x,
    (load.isLoad = true ∧ load.ignored = false ∧ load.binding = false ∧
      load.operands = [source] ∧ load.result = some result ∧ result.value = some x ∧
      source.operand.version = none ∧ result.operand.version = none ∧ uses x = 1) ∧
    (store.isStore = true ∧ store.ignored = false ∧ use ∈ store.reads ∧ use.value = some x) ∧
    0 ≤ use.level - result.level + source.level ∧
    use.level - result.level + source.level ≤ reach ∧
    replacement = ⟨source.operand, use.level - result.level + source.level⟩

/-- What a reference becomes if a load is dropped for it, if that can be. -/
def substitute? (use : Reference) (load : Statement) : Option Reference :=
  use.value.bind fun v =>
    if produces v load then replacement? uses reach v use.level load else none

/-- Whether a load is dropped for a reference of a store. -/
def absorbs (load store : Statement) : Bool :=
  store.isStore && !store.ignored &&
    store.reads.any fun use => (substitute? uses reach use load).isSome

/-- What a reference becomes after the given statements. -/
def forwarded (before : List Statement) (use : Reference) : Reference :=
  (before.findSome? (substitute? uses reach use)).getD use

/-- What a statement becomes after the given ones. -/
def rewrite (before : List Statement) (s : Statement) : Statement :=
  if s.isStore && !s.ignored then
    { s with
      operands := s.operands.map (forwarded uses reach before)
      result := s.result.map (forwarded uses reach before) }.refreshPointer
  else s

/-- What remains of the statements `after`, if they stand after `before`. -/
def remaining : List Statement → List Statement → List Statement
  | _, [] => []
  | before, s :: after =>
    (if after.any (absorbs uses reach s) then [] else [rewrite uses reach before s]) ++
      remaining (before ++ [s]) after

/-- What forwarding relies on in a block: the statements have their usual shape, they define
different values, and each value is used at least as often as the block uses it. -/
structure Suitable (ss : List Statement) : Prop where
  regular : ∀ s ∈ ss, s.Regular
  apart : ss.Pairwise Statement.Apart
  counted : ∀ v, (ss.flatMap Statement.mentions).count v ≤ uses v

end Defs

variable {uses : ValueId → Nat} {reach : Int}

theorem Suitable.sublist {ss ss' : List Statement} (h : Suitable uses ss) (hsub : ss'.Sublist ss) :
    Suitable uses ss' where
  regular s hs := h.regular s (hsub.subset hs)
  apart := h.apart.sublist hsub
  counted v := Nat.le_trans ((hsub.flatMap _).count_le v) (h.counted v)

/-! ### Single replacements -/

theorem isStore_of_isLoad {s : Statement} (h : s.isLoad = true) : s.isStore = false := by
  simp_all [Statement.isLoad, Statement.isStore]

theorem substitute?_eq_some_iff {use replacement : Reference} {load : Statement} :
    substitute? uses reach use load = some replacement ↔ ∃ source result x,
      (load.isLoad = true ∧ load.ignored = false ∧ load.binding = false ∧
        load.operands.head? = some source ∧ load.result = some result ∧ result.value = some x ∧
        source.operand.version = none ∧ result.operand.version = none ∧ uses x = 1) ∧
      use.value = some x ∧
      0 ≤ use.level - result.level + source.level ∧
      use.level - result.level + source.level ≤ reach ∧
      replacement = ⟨source.operand, use.level - result.level + source.level⟩ := by
  constructor
  · intro h
    obtain ⟨x, hx, h⟩ := Option.bind_eq_some_iff.1 h
    split at h
    · rename_i hproduces
      unfold replacement? at h
      split at h
      · rename_i source result hsource hresult
        obtain ⟨⟨hbinding, hlow, hhigh, hversion, hversion', huses⟩, hreplacement⟩ :=
          Option.ite_none_right_eq_some.1 h
        simp only [produces, hresult, Option.bind_some, Bool.and_eq_true, Bool.not_eq_true',
          beq_iff_eq] at hproduces
        exact ⟨source, result, x, ⟨hproduces.1.1, hproduces.1.2, by simpa using hbinding, hsource,
          hresult, hproduces.2, hversion, hversion', huses⟩, hx, hlow, hhigh, by simpa using
          hreplacement.symm⟩
      · cases h
    · cases h
  · rintro ⟨source, result, x, ⟨hload, hignored, hbinding, hsource, hresult, hvalue, hversion,
      hversion', huses⟩, hx, hlow, hhigh, rfl⟩
    have hproduces : produces x load = true := by
      simp [produces, hload, hignored, hresult, hvalue]
    simp [substitute?, hx, hproduces, replacement?, hsource, hresult, hbinding, hlow, hhigh,
      hversion, hversion', huses]

/-- The load behind a replacement, and the value that it sets. -/
theorem exists_of_substitute? {use replacement : Reference} {load : Statement}
    (h : substitute? uses reach use load = some replacement) :
    ∃ x, use.value = some x ∧ load.isLoad = true ∧ load.binding = false ∧
      load.defined? = some x ∧ uses x = 1 := by
  obtain ⟨source, result, x, ⟨hload, -, hbinding, -, hresult, hvalue, -, -, huses⟩, hx, -⟩ :=
    substitute?_eq_some_iff.1 h
  have hstore := isStore_of_isLoad hload
  exact ⟨x, hx, hload, hbinding, by simp [Statement.defined?, hstore, hresult, hvalue], huses⟩

theorem folds_iff {load store : Statement} {use replacement : Reference} (h : load.Regular) :
    Folds uses reach load store use replacement ↔
      (store.isStore = true ∧ store.ignored = false ∧ use ∈ store.reads) ∧
        substitute? uses reach use load = some replacement := by
  rw [substitute?_eq_some_iff]
  constructor
  · rintro ⟨source, result, x, ⟨hload, hignored, hbinding, hsource, hrest⟩,
      ⟨hstore, hstored, hmem, hx⟩, hlevel⟩
    exact ⟨⟨hstore, hstored, hmem⟩, source, result, x,
      ⟨hload, hignored, hbinding, by simp [hsource], hrest⟩, hx, hlevel⟩
  · rintro ⟨⟨hstore, hstored, hmem⟩, source, result, x,
      ⟨hload, hignored, hbinding, hsource, hrest⟩, hx, hlevel⟩
    obtain ⟨source', -, hoperands, -⟩ := h.load hload
    rw [hoperands, List.head?_cons] at hsource
    exact ⟨source, result, x, ⟨hload, hignored, hbinding, by simp_all, hrest⟩,
      ⟨hstore, hstored, hmem, hx⟩, hlevel⟩

theorem Folds.isStore {load store : Statement} {use replacement : Reference}
    (h : Folds uses reach load store use replacement) :
    store.isStore = true ∧ store.ignored = false ∧ use ∈ store.reads := by
  obtain ⟨_, _, _, -, ⟨hstore, hignored, huse, -⟩, -⟩ := h
  exact ⟨hstore, hignored, huse⟩

/-- A load that is dropped reads one level below its source and defines the value that is used. -/
theorem Folds.shape {load store : Statement} {use replacement : Reference}
    (h : Folds uses reach load store use replacement) (hload : load.Regular) :
    ∃ source x y, load.isLoad = true ∧ load.binding = false ∧ load.operands = [source] ∧
      load.defined? = some x ∧ source.value = some y ∧ uses x = 1 ∧ use.value = some x ∧
      source.level = 1 ∧ replacement = ⟨source.operand, use.level + 1⟩ := by
  obtain ⟨source, result, x, ⟨hisLoad, -, hbinding, hsource, hresult, hvalue, -, -, huses⟩,
    ⟨-, -, -, hx⟩, -, -, rfl⟩ := h
  have hstore := isStore_of_isLoad hisLoad
  obtain ⟨source', y, hsource', hlevel, hy⟩ := hload.load hisLoad
  obtain ⟨v, hzero, -⟩ := hload.result hstore result hresult
  rw [hsource, List.singleton_inj] at hsource'
  rw [← hsource', hbinding] at hlevel
  simp only [Bool.false_eq_true, if_false] at hlevel
  refine ⟨source, x, y, hisLoad, hbinding, hsource, ?_, hsource' ▸ hy, huses, hx, hlevel, ?_⟩
  · simp [Statement.defined?, hstore, hresult, hvalue]
  · rw [hlevel, hzero, Int.sub_zero]

instance : Std.Symm Statement.Apart where
  symm _ _ h v ht hs := (h v hs ht).symm

/-- A value is set by one statement, unless arguments are handed to it. -/
theorem eq_of_defined {ss : List Statement} (h : ss.Pairwise Statement.Apart) {s t : Statement}
    (hs : s ∈ ss) (ht : t ∈ ss) {v : ValueId} (hsv : s.defined? = some v)
    (htv : t.defined? = some v) (hbinding : s.binding = false) : s = t := by
  by_contra hne
  have hboth := h.forall hs ht hne v hsv htv
  rw [hbinding] at hboth
  exact Bool.false_ne_true hboth.1

theorem produces_iff {v : ValueId} {s : Statement} :
    produces v s = true ↔ s.isLoad = true ∧ s.ignored = false ∧ s.defined? = some v := by
  simp only [produces, Bool.and_eq_true, Bool.not_eq_true', beq_iff_eq, Statement.defined?,
    and_assoc]
  constructor
  · rintro ⟨hload, hignored, hvalue⟩
    exact ⟨hload, hignored, by simpa [isStore_of_isLoad hload] using hvalue⟩
  · rintro ⟨hload, hignored, hvalue⟩
    exact ⟨hload, hignored, by simpa [isStore_of_isLoad hload] using hvalue⟩

theorem replacement?_of_binding {v : ValueId} {level : Int} {load : Statement}
    (h : load.binding = true) : replacement? uses reach v level load = none := by
  unfold replacement?
  split
  · rw [if_neg (by simp [h])]
  · rfl

theorem forwarded_of_none {done : List Statement} {r : Reference}
    (h : ∀ load ∈ done, substitute? uses reach r load = none) :
    forwarded uses reach done r = r ∧
      done.filter (fun load => (substitute? uses reach r load).isNone) = done := by
  constructor
  · rw [forwarded, List.findSome?_eq_none_iff.2 h]
    rfl
  · refine List.filter_eq_self.2 fun load hload => ?_
    rw [h load hload]
    rfl

/-- Looking for the last load that sets a value is as good as looking for any that can be dropped,
as there is only one. -/
theorem redirect_eq {done : List Statement} (h : done.Pairwise Statement.Apart) (r : Reference) :
    redirect uses reach done r =
      (forwarded uses reach done r,
        done.filter fun load => (substitute? uses reach r load).isNone) := by
  unfold redirect
  cases hr : r.value with
  | none =>
    have hnone : ∀ load ∈ done, substitute? uses reach r load = none := by
      intro load _
      simp [substitute?, hr]
    rw [(forwarded_of_none hnone).1, (forwarded_of_none hnone).2]
  | some v =>
    have hsub (load : Statement) : substitute? uses reach r load =
        if produces v load then replacement? uses reach v r.level load else none := by
      simp [substitute?, hr]
    unfold producer?
    dsimp only
    cases hfind : done.find? (produces v) with
    | none =>
      have hnone : ∀ load ∈ done, substitute? uses reach r load = none := by
        intro load hload
        rw [hsub, if_neg (by simpa using List.find?_eq_none.1 hfind load hload)]
      rw [(forwarded_of_none hnone).1, (forwarded_of_none hnone).2]
      rfl
    | some load =>
      obtain ⟨hproduces, newer, older, rfl, hnewer⟩ := List.find?_eq_some_iff_append.1 hfind
      have hload : substitute? uses reach r load = replacement? uses reach v r.level load := by
        rw [hsub, if_pos hproduces]
      have hnone : ∀ other ∈ newer, substitute? uses reach r other = none := by
        intro other hother
        rw [hsub, if_neg (by simpa using hnewer other hother)]
      -- another load of the same value hands over an argument
      have holder : ∀ other ∈ older, substitute? uses reach r other = none := by
        intro other hother
        rw [hsub]
        split
        · rename_i hother'
          have hapart : load.Apart other := by
            have hrest := (List.pairwise_append.1 h).2.1
            exact (List.pairwise_cons.1 hrest).1 other hother
          exact replacement?_of_binding
            (hapart v (produces_iff.1 hproduces).2.2 (produces_iff.1 hother').2.2).2
        · rfl
      rw [Option.bind_some, ← hload]
      cases hreplacement : substitute? uses reach r load with
      | none =>
        have hall : ∀ other ∈ newer ++ load :: older, substitute? uses reach r other = none := by
          intro other hother
          rcases List.mem_append.1 hother with hother | hother
          · exact hnone other hother
          · rcases List.mem_cons.1 hother with rfl | hother
            · exact hreplacement
            · exact holder other hother
        rw [(forwarded_of_none hall).1, (forwarded_of_none hall).2]
      | some replacement =>
        have herase : (newer ++ load :: older).eraseP (produces v) = newer ++ older := by
          rw [List.eraseP_append_right _ (fun other hother => by simpa using hnewer other hother),
            List.eraseP_cons_of_pos hproduces]
        rw [herase, forwarded, List.findSome?_append, List.findSome?_eq_none_iff.2 hnone,
          List.filter_append, (forwarded_of_none hnone).2,
          List.filter_cons_of_neg (by simp [hreplacement]), (forwarded_of_none holder).2]
        simp [hreplacement]

/-- A reference stays as it is, or the load that sets its value goes and the reference becomes what
the load makes of it. -/
theorem redirect_eq_or (uses : ValueId → Nat) (reach : Int) (done : List Statement)
    (r : Reference) :
    redirect uses reach done r = (r, done) ∨
      ∃ load replacement later earlier, done = later ++ load :: earlier ∧
        substitute? uses reach r load = some replacement ∧
        redirect uses reach done r = (replacement, later ++ earlier) := by
  unfold redirect
  split
  · exact .inl rfl
  · rename_i v hv
    split
    · rename_i replacement hfound
      obtain ⟨load, hload, hreplacement⟩ := Option.bind_eq_some_iff.1 hfound
      obtain ⟨hproduces, later, earlier, rfl, hnone⟩ := List.find?_eq_some_iff_append.1 hload
      refine .inr ⟨load, replacement, later, earlier, rfl, ?_, ?_⟩
      · rw [substitute?, hv, Option.bind_some, if_pos hproduces, hreplacement]
      · rw [List.eraseP_append_right _ fun s hs => by simpa using hnone s hs,
          List.eraseP_cons_of_pos hproduces]
    · exact .inl rfl

/-- A store that refers to something else. -/
def referring (s : Statement) (stored target : Reference) : Statement :=
  ({ s with operands := [stored], result := some target } : Statement).refreshPointer

/-- A store with its usual references has the stored value replaced first, and then the target. -/
theorem step_store {done : List Statement} {s : Statement} {stored target : Reference}
    (hactive : (s.isStore && !s.ignored) = true) (hoperands : s.operands = [stored])
    (hresult : s.result = some target) :
    step uses reach done s =
      referring s (redirect uses reach done stored).1
        (redirect uses reach (redirect uses reach done stored).2 target).1 ::
        (redirect uses reach (redirect uses reach done stored).2 target).2 := by
  rw [step, if_pos hactive, hoperands, hresult]
  rfl

theorem reads_of_isStore {s : Statement} (hs : s.isStore = true) {stored target : Reference}
    (hoperands : s.operands = [stored]) (hresult : s.result = some target) :
    s.reads = [stored, target] := by
  simp [Statement.reads, Statement.target?, hs, hoperands, hresult]

/-! ### Statements after rewriting -/

theorem rewrite_of_not_isStore {before : List Statement} {s : Statement} (h : s.isStore = false) :
    rewrite uses reach before s = s := by
  simp [rewrite, h]

theorem action_rewrite (before : List Statement) (s : Statement) :
    (rewrite uses reach before s).action = s.action := by
  unfold rewrite
  split <;> rfl

theorem isStore_rewrite (before : List Statement) (s : Statement) :
    (rewrite uses reach before s).isStore = s.isStore := by
  rw [Statement.isStore, Statement.isStore, action_rewrite]

theorem isLoad_rewrite (before : List Statement) (s : Statement) :
    (rewrite uses reach before s).isLoad = s.isLoad := by
  rw [Statement.isLoad, Statement.isLoad, action_rewrite]

theorem apart_rewrite {s t : Statement} (h : s.Apart t) (before before' : List Statement) :
    (rewrite uses reach before s).Apart (rewrite uses reach before' t) := by
  have hsame (before : List Statement) (s : Statement) {v : ValueId}
      (hv : (rewrite uses reach before s).defined? = some v) :
      rewrite uses reach before s = s := by
    cases hstore : s.isStore with
    | false => exact rewrite_of_not_isStore hstore
    | true => simp [Statement.defined?, isStore_rewrite, hstore] at hv
  intro v hs ht
  rw [hsame before s hs, hsame before' t ht] at *
  exact h v hs ht

theorem substitute?_of_not_isLoad {use : Reference} {s : Statement} (h : s.isLoad = false) :
    substitute? uses reach use s = none := by
  by_contra hne
  obtain ⟨replacement, hsome⟩ := Option.ne_none_iff_exists'.1 hne
  obtain ⟨x, -, hload, -⟩ := exists_of_substitute? hsome
  rw [h] at hload
  exact Bool.false_ne_true hload

theorem absorbs_rewrite (before : List Statement) (s store : Statement) :
    absorbs uses reach (rewrite uses reach before s) store = absorbs uses reach s store := by
  cases hload : s.isLoad with
  | true => rw [rewrite_of_not_isStore (isStore_of_isLoad hload)]
  | false =>
    have hload' : (rewrite uses reach before s).isLoad = false := by rw [isLoad_rewrite, hload]
    simp [absorbs, substitute?_of_not_isLoad hload, substitute?_of_not_isLoad hload']

/-! ### What remains of a block -/

theorem exists_of_mem_remaining {before ss : List Statement} {t : Statement}
    (h : t ∈ remaining uses reach before ss) :
    ∃ earlier, ∃ s ∈ ss, t = rewrite uses reach earlier s := by
  induction ss generalizing before with
  | nil => cases h
  | cons s after ih =>
    rcases List.mem_append.1 h with hs | hafter
    · split at hs
      · cases hs
      · exact ⟨before, s, List.mem_cons_self, List.mem_singleton.1 hs⟩
    · obtain ⟨earlier, s', hs', rfl⟩ := ih hafter
      exact ⟨earlier, s', List.mem_cons_of_mem _ hs', rfl⟩

theorem remaining_apart {before ss : List Statement} (h : ss.Pairwise Statement.Apart) :
    (remaining uses reach before ss).Pairwise Statement.Apart := by
  induction ss generalizing before with
  | nil => exact .nil
  | cons s after ih =>
    rw [List.pairwise_cons] at h
    refine List.pairwise_append.2 ⟨?_, ih h.2, ?_⟩
    · split <;> simp
    · intro s' hs' t ht
      split at hs'
      · cases hs'
      · rw [List.mem_singleton.1 hs']
        obtain ⟨earlier, t', ht', rfl⟩ := exists_of_mem_remaining ht
        exact apart_rewrite (h.1 t' ht') before earlier

/-- One more statement drops the loads that it absorbs. -/
theorem remaining_append_singleton (before ss : List Statement) (s : Statement) :
    remaining uses reach before (ss ++ [s]) =
      (remaining uses reach before ss).filter (!absorbs uses reach · s) ++
        [rewrite uses reach (before ++ ss) s] := by
  induction ss generalizing before with
  | nil => simp [remaining]
  | cons t ss ih =>
    rw [List.cons_append, remaining, remaining, ih, List.filter_append, List.append_assoc,
      List.append_assoc, List.singleton_append, List.any_append]
    cases hss : ss.any (absorbs uses reach t) with
    | true => simp
    | false => cases hs : absorbs uses reach t s <;> simp [hs, absorbs_rewrite]

/-- A load that nothing absorbs remains. -/
theorem mem_remaining {before ss : List Statement} {load : Statement} (hmem : load ∈ ss)
    (hload : load.isLoad = true) (h : ∀ s ∈ ss, absorbs uses reach load s = false) :
    load ∈ remaining uses reach before ss := by
  induction ss generalizing before with
  | nil => cases hmem
  | cons s after ih =>
    refine List.mem_append.2 ?_
    rcases List.mem_cons.1 hmem with rfl | hafter
    · have hnone : after.any (absorbs uses reach load) = false :=
        List.any_eq_false.2 fun s hs => by simp [h s (List.mem_cons_of_mem _ hs)]
      simp [hnone, rewrite_of_not_isStore (isStore_of_isLoad hload)]
    · exact .inr (ih hafter fun s hs => h s (List.mem_cons_of_mem _ hs))

/-! ### Loads that are used once -/

section Once

variable {ss : List Statement} {s : Statement}

/-- A value that is used once is mentioned by one statement. -/
theorem Suitable.not_mem_mentions {before after : List Statement} {s : Statement}
    (h : Suitable uses (before ++ s :: after)) {v : ValueId} (huses : uses v = 1)
    (hs : v ∈ s.mentions) {t : Statement} (ht : t ∈ before ++ after) : v ∉ t.mentions := by
  intro hmem
  have hother : 0 < ((before ++ after).flatMap Statement.mentions).count v :=
    List.count_pos_iff.2 (List.mem_flatMap.2 ⟨t, ht, hmem⟩)
  have hthis : 0 < s.mentions.count v := List.count_pos_iff.2 hs
  have hcount := h.counted v
  rw [List.flatMap_append, List.flatMap_cons, List.count_append, List.count_append, huses] at hcount
  rw [List.flatMap_append, List.count_append] at hother
  omega

theorem Suitable.eq_of_mem_mentions {ss : List Statement} (h : Suitable uses ss) {v : ValueId}
    (huses : uses v = 1) {s t : Statement} (hs : s ∈ ss) (ht : t ∈ ss) (hsv : v ∈ s.mentions)
    (htv : v ∈ t.mentions) : s = t := by
  by_contra hne
  obtain ⟨before, after, rfl⟩ := List.append_of_mem hs
  refine h.not_mem_mentions huses hsv (List.mem_append.2 ?_) htv
  rcases List.mem_append.1 ht with ht | ht
  · exact .inl ht
  · exact .inr (List.mem_of_ne_of_mem (Ne.symm hne) ht)

theorem Suitable.not_mem_mentions_of_ne {ss : List Statement} (h : Suitable uses ss) {v : ValueId}
    (huses : uses v = 1) {m k : Nat} {s t : Statement} (hs : ss[m]? = some s)
    (ht : ss[k]? = some t) (hne : k ≠ m) (hsv : v ∈ s.mentions) : v ∉ t.mentions := by
  obtain ⟨hm, rfl⟩ := List.getElem?_eq_some_iff.1 hs
  have hsplit : ss = ss.take m ++ ss[m] :: ss.drop (m + 1) := by
    rw [List.getElem_cons_drop, List.take_append_drop]
  rw [hsplit] at h
  refine h.not_mem_mentions huses hsv (List.mem_append.2 ?_)
  rcases Nat.lt_or_gt_of_ne hne with hlt | hgt
  · refine .inl (List.mem_iff_getElem?.2 ⟨k, ?_⟩)
    rw [List.getElem?_take_of_lt hlt, ht]
  · refine .inr (List.mem_iff_getElem?.2 ⟨k - (m + 1), ?_⟩)
    rw [List.getElem?_drop, Nat.add_sub_cancel' hgt, ht]

theorem Suitable.apart_of_lt {ss : List Statement} (h : Suitable uses ss) {n k : Nat}
    {s t : Statement} (hs : ss[n]? = some s) (ht : ss[k]? = some t) (hlt : n < k) : s.Apart t := by
  obtain ⟨hn, rfl⟩ := List.getElem?_eq_some_iff.1 hs
  obtain ⟨hk, rfl⟩ := List.getElem?_eq_some_iff.1 ht
  exact List.pairwise_iff_getElem.1 h.apart n k hn hk hlt

/-- If both references of a store are to one value, the value is used twice. -/
theorem Suitable.two_le_uses {ss : List Statement} (h : Suitable uses ss) {s : Statement}
    (hs : s ∈ ss) (hstore : s.isStore = true) {stored target : Reference}
    (hstored : s.operands = [stored])
    (htarget : s.result = some target) {v : ValueId} (hv : stored.value = some v)
    (hv' : target.value = some v) : 2 ≤ uses v := by
  have hone {r : Reference} (hr : r.value = some v) : 0 < r.operand.mentions.count v := by
    have hvalue : r.operand.value = some v := hr
    exact List.count_pos_iff.2 (by simp [Operand.mentions, hvalue])
  have hmentions : 2 ≤ s.mentions.count v := by
    simp only [Statement.mentions, Statement.uses, Statement.reads, Statement.target?, hstore,
      hstored, htarget, if_true, Option.toList_some, List.cons_append, List.nil_append,
      List.flatMap_cons, List.count_append]
    have := hone hv
    have := hone hv'
    omega
  have hsub : s.mentions.Sublist (ss.flatMap Statement.mentions) :=
    List.sublist_flatten_of_mem (List.mem_map_of_mem hs)
  exact Nat.le_trans hmentions (Nat.le_trans (hsub.count_le v) (h.counted v))

/-- If a load can be dropped for a store, it is not dropped for another one. -/
theorem Suitable.absorbs_eq_false (h : Suitable uses (ss ++ [s])) {use replacement : Reference}
    (huse : use ∈ s.reads) {load : Statement}
    (hload : substitute? uses reach use load = some replacement) {t : Statement} (ht : t ∈ ss) :
    absorbs uses reach load t = false := by
  by_contra hne
  have habsorbs : absorbs uses reach load t = true := by simpa using hne
  simp only [absorbs, Bool.and_eq_true, List.any_eq_true] at habsorbs
  obtain ⟨-, use', huse', hsome⟩ := habsorbs
  obtain ⟨replacement', hload'⟩ := Option.isSome_iff_exists.1 hsome
  obtain ⟨x, hx, -, -, hdefined, huses⟩ := exists_of_substitute? hload
  obtain ⟨y, hy, -, -, hdefined', -⟩ := exists_of_substitute? hload'
  obtain rfl : x = y := Option.some.inj (hdefined.symm.trans hdefined')
  exact h.not_mem_mentions huses (Statement.mem_mentions huse hx) (by simpa using ht)
    (Statement.mem_mentions huse' hy)

/-- No load is dropped for both references of a store. -/
theorem Suitable.substitute?_eq_none (h : Suitable uses (ss ++ [s])) (hstore : s.isStore = true)
    {stored target replacement : Reference} (hstored : s.operands = [stored])
    (htarget : s.result = some target) {load : Statement}
    (hload : substitute? uses reach stored load = some replacement) :
    substitute? uses reach target load = none := by
  by_contra hne
  obtain ⟨replacement', hload'⟩ := Option.ne_none_iff_exists'.1 hne
  obtain ⟨x, hx, -, -, hdefined, huses⟩ := exists_of_substitute? hload
  obtain ⟨y, hy, -, -, hdefined', -⟩ := exists_of_substitute? hload'
  obtain rfl : x = y := Option.some.inj (hdefined.symm.trans hdefined')
  have htwo := h.two_le_uses (by simp) hstore hstored htarget hx hy
  omega

/-- Where the load behind a reference is looked for does not matter, as long as it is there. -/
theorem forwarded_congr {xs ys : List Statement} {use : Reference}
    (hapart : ys.Pairwise Statement.Apart)
    (hsame : ∀ load, (substitute? uses reach use load).isSome = true → (load ∈ xs ↔ load ∈ ys)) :
    forwarded uses reach xs use = forwarded uses reach ys use := by
  unfold forwarded
  cases hys : ys.findSome? (substitute? uses reach use) with
  | none =>
    have hxs : xs.findSome? (substitute? uses reach use) = none := by
      refine List.findSome?_eq_none_iff.2 fun load hload => ?_
      by_contra hne
      have hsome := Option.isSome_iff_ne_none.2 hne
      exact hne (List.findSome?_eq_none_iff.1 hys load ((hsame load hsome).1 hload))
    rw [hxs]
  | some replacement =>
    obtain ⟨load, hload, hreplacement⟩ := List.exists_of_findSome?_eq_some hys
    have hmem : load ∈ xs := (hsame load (by simp [hreplacement])).2 hload
    cases hxs : xs.findSome? (substitute? uses reach use) with
    | none =>
      rw [List.findSome?_eq_none_iff.1 hxs load hmem] at hreplacement
      cases hreplacement
    | some replacement' =>
      obtain ⟨load', hload', hreplacement'⟩ := List.exists_of_findSome?_eq_some hxs
      have hmem' : load' ∈ ys := (hsame load' (by simp [hreplacement'])).1 hload'
      obtain ⟨x, hx, -, hbinding, hdefined, -⟩ := exists_of_substitute? hreplacement
      obtain ⟨y, hy, -, -, hdefined', -⟩ := exists_of_substitute? hreplacement'
      obtain rfl : x = y := Option.some.inj (hx.symm.trans hy)
      obtain rfl : load = load' := eq_of_defined hapart hload hmem' hdefined hdefined' hbinding
      rw [← hreplacement, ← hreplacement']

/-- A load that can be dropped for the next store is still there. -/
theorem Suitable.mem_remaining_iff (h : Suitable uses (ss ++ [s])) {use : Reference}
    (huse : use ∈ s.reads) {load : Statement}
    (hsome : (substitute? uses reach use load).isSome = true) :
    load ∈ remaining uses reach [] ss ↔ load ∈ ss := by
  obtain ⟨replacement, hload⟩ := Option.isSome_iff_exists.1 hsome
  obtain ⟨x, -, hisLoad, -⟩ := exists_of_substitute? hload
  constructor
  · intro hmem
    obtain ⟨earlier, s', hs', rfl⟩ := exists_of_mem_remaining hmem
    rw [isLoad_rewrite] at hisLoad
    rwa [rewrite_of_not_isStore (isStore_of_isLoad hisLoad)]
  · intro hmem
    exact mem_remaining hmem hisLoad fun t ht => h.absorbs_eq_false huse hload ht

/-- One step of forwarding drops the loads that the statement absorbs, and rewrites it. -/
theorem step_eq (h : Suitable uses (ss ++ [s])) :
    step uses reach (remaining uses reach [] ss).reverse s =
      rewrite uses reach ss s ::
        ((remaining uses reach [] ss).filter (!absorbs uses reach · s)).reverse := by
  unfold step
  by_cases hs : (s.isStore && !s.ignored) = true
  · have hstore : s.isStore = true := (Bool.and_eq_true_iff.1 hs).1
    obtain ⟨stored, target, -, -, hoperands, hresult, -⟩ :=
      (h.regular s (by simp)).store hstore
    have hreads : s.reads = [stored, target] := reads_of_isStore hstore hoperands hresult
    have hss : ss.Pairwise Statement.Apart := h.apart.sublist (List.sublist_append_left ss [s])
    have hdone : (remaining uses reach [] ss).reverse.Pairwise Statement.Apart :=
      List.pairwise_reverse.2 ((remaining_apart hss).imp fun hapart => Std.Symm.symm _ _ hapart)
    have hleft := hdone.sublist (List.filter_sublist
      (p := fun load => (substitute? uses reach stored load).isNone))
    have hstored : forwarded uses reach (remaining uses reach [] ss).reverse stored =
        forwarded uses reach ss stored :=
      forwarded_congr hss fun load hsome => by
        rw [List.mem_reverse, h.mem_remaining_iff (by simp [hreads]) hsome]
    -- the load that is dropped for the stored value is not the one behind the target
    have htarget : forwarded uses reach ((remaining uses reach [] ss).reverse.filter fun load =>
        (substitute? uses reach stored load).isNone) target = forwarded uses reach ss target := by
      refine forwarded_congr hss fun load hsome => ?_
      rw [List.mem_filter, List.mem_reverse, h.mem_remaining_iff (by simp [hreads]) hsome]
      refine and_iff_left ?_
      cases hload : substitute? uses reach stored load with
      | none => rfl
      | some replacement =>
        rw [h.substitute?_eq_none hstore hoperands hresult hload] at hsome
        cases hsome
    have habsorbs (load : Statement) : (!absorbs uses reach load s) =
        ((substitute? uses reach target load).isNone &&
          (substitute? uses reach stored load).isNone) := by
      rw [absorbs, hs, hreads, Bool.true_and, List.any_cons, List.any_cons, List.any_nil]
      cases substitute? uses reach stored load <;> cases substitute? uses reach target load <;> rfl
    rw [if_pos hs, hoperands, hresult]
    simp only [redirectFirst, redirect?, redirect_eq hdone, redirect_eq hleft, hstored, htarget,
      List.filter_filter]
    rw [← List.filter_reverse]
    simp only [habsorbs, rewrite, hs, if_true, hoperands, hresult, List.map_cons, List.map_nil,
      Option.map_some]
  · have hnone (load : Statement) : absorbs uses reach load s = false := by
      rw [absorbs, Bool.eq_false_iff.2 hs, Bool.false_and]
    have hrewrite : rewrite uses reach ss s = s := by rw [rewrite, if_neg hs]
    rw [if_neg hs, hrewrite]
    simp [hnone]

end Once

theorem block_append_singleton (uses : ValueId → Nat) (reach : Int) (ss : List Statement)
    (s : Statement) :
    block uses reach (ss ++ [s]) = (step uses reach (block uses reach ss).reverse s).reverse := by
  rw [block, block, List.reverse_reverse, List.foldl_append]
  rfl

/-- What one step keeps is kept along a block.  `I` relates the statements so far to what is left of
them, the last one first. -/
theorem block_invariant (uses : ValueId → Nat) (reach : Int)
    {I : List Statement → List Statement → Prop} {ss : List Statement} (hnil : I [] [])
    (hstep : ∀ before s, before ++ [s] <+: ss → I before (block uses reach before).reverse →
      I (before ++ [s]) (step uses reach (block uses reach before).reverse s)) :
    I ss (block uses reach ss).reverse := by
  induction ss using List.reverseRecOn with
  | nil => exact hnil
  | append_singleton ss s ih =>
    rw [block_append_singleton, List.reverse_reverse]
    refine hstep ss s (List.prefix_refl _) (ih fun before t hpre => ?_)
    exact hstep before t (hpre.trans (List.prefix_append ss [s]))

/-- **Forwarding leaves of a block what should remain.** -/
theorem block_eq_remaining {ss : List Statement} (h : Suitable uses ss) :
    block uses reach ss = remaining uses reach [] ss := by
  -- what a statement finds before it is what remains so far
  refine List.reverse_injective (block_invariant uses reach
    (I := fun before done => done = (remaining uses reach [] before).reverse) rfl ?_)
  intro before s hpre hdone
  rw [hdone, step_eq (h.sublist hpre.sublist), remaining_append_singleton, List.reverse_append]
  rfl

/-! ### What becomes of each statement -/

section Positions

variable (uses : ValueId → Nat) (reach : Int)

/-- The statement number `n` of a block is a load that a later store of the block makes
superfluous. -/
def Dropped (ss : List Statement) (n : Nat) : Prop :=
  ∃ load m store use replacement, n < m ∧ ss[n]? = some load ∧ ss[m]? = some store ∧
    Folds uses reach load store use replacement

/-- What becomes of the reference `use` of the statement `s`: it refers to the source of a load
before, or stays as it is if there is no such load. -/
def Replaced (before : List Statement) (s : Statement) (use new : Reference) : Prop :=
  (∃ load ∈ before, Folds uses reach load s use new) ∨
    ((∀ load ∈ before, ∀ replacement, ¬Folds uses reach load s use replacement) ∧ new = use)

/-- What becomes of the statement `s`, which stood after `before`. -/
structure Rewritten (before : List Statement) (s t : Statement) : Prop where
  /-- Only references are replaced. -/
  same : { t with operands := s.operands, result := s.result, pointer := s.pointer } = s
  operands : List.Forall₂ (Replaced uses reach before s) s.operands t.operands
  result : Option.Rel (Replaced uses reach before s) s.result t.result
  /-- The pointer flag says what the references say. -/
  pointer : t.pointer = Statement.touchesPointer t.operands t.result
  /-- If no reference is replaced, nothing changes. -/
  unchanged : t.operands = s.operands → t.result = s.result → t = s

end Positions

theorem absorbs_iff {load store : Statement} (h : load.Regular) :
    absorbs uses reach load store = true ↔
      ∃ use replacement, Folds uses reach load store use replacement := by
  simp only [absorbs, Bool.and_eq_true, List.any_eq_true, Bool.not_eq_true']
  constructor
  · rintro ⟨⟨hstore, hignored⟩, use, huse, hsome⟩
    obtain ⟨replacement, hload⟩ := Option.isSome_iff_exists.1 hsome
    exact ⟨use, replacement, (folds_iff h).2 ⟨⟨hstore, hignored, huse⟩, hload⟩⟩
  · rintro ⟨use, replacement, hfolds⟩
    obtain ⟨⟨hstore, hignored, huse⟩, hload⟩ := (folds_iff h).1 hfolds
    exact ⟨⟨hstore, hignored⟩, use, huse, by simp [hload]⟩

theorem replaced_forwarded {before : List Statement} (hbefore : ∀ t ∈ before, t.Regular)
    {s : Statement} (hstore : s.isStore = true) (hignored : s.ignored = false) {use : Reference}
    (huse : use ∈ s.reads) :
    Replaced uses reach before s use (forwarded uses reach before use) := by
  unfold forwarded
  cases hfind : before.findSome? (substitute? uses reach use) with
  | none =>
    refine .inr ⟨?_, rfl⟩
    intro load hload replacement hfolds
    have hsome := ((folds_iff (hbefore load hload)).1 hfolds).2
    rw [List.findSome?_eq_none_iff.1 hfind load hload] at hsome
    cases hsome
  | some replacement =>
    obtain ⟨load, hload, hsome⟩ := List.exists_of_findSome?_eq_some hfind
    exact .inl ⟨load, hload, (folds_iff (hbefore load hload)).2 ⟨⟨hstore, hignored, huse⟩, hsome⟩⟩

theorem replaced_self {before : List Statement} {s : Statement}
    (h : ¬(s.isStore && !s.ignored) = true) (use : Reference) :
    Replaced uses reach before s use use := by
  refine .inr ⟨?_, rfl⟩
  intro load _ replacement hfolds
  obtain ⟨_, _, _, -, ⟨hstore, hignored, -⟩, -⟩ := hfolds
  exact h (by simp [hstore, hignored])

theorem rewritten_rewrite {before : List Statement} (hbefore : ∀ t ∈ before, t.Regular)
    {s : Statement} (hs : s.Regular) :
    Rewritten uses reach before s (rewrite uses reach before s) := by
  by_cases hactive : (s.isStore && !s.ignored) = true
  · obtain ⟨hstore, hignored⟩ : s.isStore = true ∧ s.ignored = false := by simpa using hactive
    have hreplaced : ∀ use ∈ s.reads,
        Replaced uses reach before s use (forwarded uses reach before use) :=
      fun use huse => replaced_forwarded hbefore hstore hignored huse
    rw [rewrite, if_pos hactive]
    refine ⟨rfl, ?_, ?_, rfl, ?_⟩
    · refine List.forall₂_map_right_iff.2 (List.forall₂_same.2 fun use huse => ?_)
      exact hreplaced use (List.mem_append_left _ huse)
    · obtain ⟨stored, target, -, -, -, htarget, -⟩ := hs.store hstore
      rw [htarget]
      refine .some (hreplaced target (List.mem_append_right _ ?_))
      simp [Statement.target?, hstore, htarget]
    · intro hoperands hresult
      simp only [Statement.refreshPointer] at hoperands hresult ⊢
      rw [hoperands, hresult, ← hs.pointer]
  · rw [rewrite, if_neg hactive]
    refine ⟨rfl, List.forall₂_same.2 fun use _ => replaced_self hactive use, ?_, hs.pointer,
      fun _ _ => rfl⟩
    cases s.result with
    | none => exact .none
    | some r => exact .some (replaced_self hactive r)

/-- A statement is dropped if and only if one after it absorbs it. -/
theorem dropped_iff {before after : List Statement} {s : Statement} (h : s.Regular) :
    Dropped uses reach (before ++ s :: after) before.length ↔
      after.any (absorbs uses reach s) = true := by
  have hat : (before ++ s :: after)[before.length]? = some s := by simp
  have hlater (k : Nat) : (before ++ s :: after)[before.length + 1 + k]? = after[k]? := by
    rw [List.getElem?_append_right (by omega)]
    have hsub : before.length + 1 + k - before.length = k + 1 := by omega
    rw [hsub, List.getElem?_cons_succ]
  rw [List.any_eq_true]
  constructor
  · rintro ⟨load, m, store, use, replacement, hlt, hload, hstore, hfolds⟩
    obtain rfl : s = load := Option.some.inj (hat.symm.trans hload)
    obtain ⟨k, rfl⟩ : ∃ k, m = before.length + 1 + k := ⟨m - (before.length + 1), by omega⟩
    rw [hlater] at hstore
    exact ⟨store, List.mem_of_getElem? hstore, (absorbs_iff h).2 ⟨use, replacement, hfolds⟩⟩
  · rintro ⟨store, hstore, habsorbs⟩
    obtain ⟨k, hk⟩ := List.mem_iff_getElem?.1 hstore
    obtain ⟨use, replacement, hfolds⟩ := (absorbs_iff h).1 habsorbs
    exact ⟨s, before.length + 1 + k, store, use, replacement, by omega, hat, (hlater k).trans hk,
      hfolds⟩

/-- What remains of a block, by the numbers that its statements had. -/
theorem exists_kept {before after : List Statement}
    (h : ∀ s ∈ before ++ after, s.Regular) :
    ∃ kept : List Nat, kept.Pairwise (· < ·) ∧
      (∀ n, n ∈ kept ↔ before.length ≤ n ∧ n < (before ++ after).length ∧
        ¬Dropped uses reach (before ++ after) n) ∧
      List.Forall₂ (fun n t => ∃ s, (before ++ after)[n]? = some s ∧
        Rewritten uses reach ((before ++ after).take n) s t) kept
        (remaining uses reach before after) := by
  induction after generalizing before with
  | nil =>
    refine ⟨[], .nil, fun n => ?_, .nil⟩
    simp only [List.not_mem_nil, List.append_nil, false_iff]
    omega
  | cons s after ih =>
    have hsplit : before ++ s :: after = (before ++ [s]) ++ after := by simp
    obtain ⟨kept, hsorted, hkept, hall⟩ := @ih (before ++ [s]) (hsplit ▸ h)
    rw [← hsplit] at hkept hall
    have hlength : before.length < (before ++ s :: after).length := by simp
    have hlater {n : Nat} (hn : n ∈ kept) : before.length < n := by
      have hle := ((hkept n).1 hn).1
      rw [List.length_append, List.length_singleton] at hle
      omega
    have hdropped : Dropped uses reach (before ++ s :: after) before.length ↔
        after.any (absorbs uses reach s) = true := dropped_iff (h s (by simp))
    -- the first statement is dropped, or comes before all that are kept
    unfold remaining
    cases habsorbed : after.any (absorbs uses reach s) with
    | true =>
      refine ⟨kept, hsorted, ?_, hall⟩
      intro n
      rw [hkept, List.length_append, List.length_singleton]
      have hne : ¬Dropped uses reach (before ++ s :: after) n → n ≠ before.length := by
        rintro hn rfl
        exact hn (hdropped.2 habsorbed)
      constructor
      · rintro ⟨hle, hrest⟩
        exact ⟨by omega, hrest⟩
      · rintro ⟨hle, hlt, hn⟩
        have := hne hn
        exact ⟨by omega, hlt, hn⟩
    | false =>
      refine ⟨before.length :: kept, List.pairwise_cons.2 ⟨fun n hn => hlater hn, hsorted⟩,
        fun n => ?_, .cons ⟨s, by simp, ?_⟩ hall⟩
      · have hself : ¬Dropped uses reach (before ++ s :: after) before.length := by
          rw [hdropped, habsorbed]
          exact Bool.false_ne_true
        rw [List.mem_cons, hkept, List.length_append, List.length_singleton]
        constructor
        · rintro (rfl | ⟨hle, hrest⟩)
          · exact ⟨Nat.le_refl _, hlength, hself⟩
          · exact ⟨by omega, hrest⟩
        · rintro ⟨hle, hrest⟩
          by_cases hn : n = before.length
          · exact .inl hn
          · exact .inr ⟨by omega, hrest⟩
      · rw [List.take_left]
        exact rewritten_rewrite (fun t ht => h t (List.mem_append_left _ ht)) (h s (by simp))

theorem exists_kept_block {ss : List Statement} (h : ∀ s ∈ ss, s.Regular) :
    ∃ kept : List Nat, kept.Pairwise (· < ·) ∧
      (∀ n, n ∈ kept ↔ n < ss.length ∧ ¬Dropped uses reach ss n) ∧
      List.Forall₂ (fun n t => ∃ s, ss[n]? = some s ∧ Rewritten uses reach (ss.take n) s t) kept
        (remaining uses reach [] ss) := by
  obtain ⟨kept, hsorted, hkept, hall⟩ := @exists_kept uses reach [] ss h
  refine ⟨kept, hsorted, fun n => ?_, hall⟩
  rw [hkept, List.nil_append]
  exact and_iff_right (Nat.zero_le n)

end Forward

namespace Listing

variable {l : Listing}

theorem mentionCount_eq_count (l : Listing) (f : FunctionId) (v : ValueId) :
    l.mentionCount f v = ((l.statementsOf f).flatMap Statement.mentions).count v := by
  rw [mentionCount, statementsOf, List.flatMap_assoc]
  rfl

theorem WellBuilt.suitable (h : l.WellBuilt) {place : Place} (hplace : place ∈ l.blocks) :
    Forward.Suitable (l.mentionCount place.function) (l.statementsAt place) where
  regular := h.regular place hplace
  apart := h.apart place hplace
  counted v := by
    have hmem : place ∈ l.blocks.filter (·.function = place.function) := by
      simpa using hplace
    have hsub : ((l.statementsAt place).flatMap Statement.mentions).Sublist
        ((l.blocks.filter (·.function = place.function)).flatMap fun other =>
          (l.statementsAt other).flatMap Statement.mentions) :=
      List.sublist_flatten_of_mem
        (List.mem_map.2 ⟨place, hmem, rfl⟩)
    exact hsub.count_le v

/-- Forwarding builds its listing block by block. -/
theorem forward_eq_addParts (l : Listing) (reach : Int) :
    l.forward reach =
      { addParts {} (l.blocks.map fun place => (place, l.forwardedAt reach place)) with
        functions := l.functions
        returns := l.returns } := by
  rw [← addParts_with, addParts, List.foldl_map]
  rfl

/-- Forwarding numbers the statements anew, whatever numbers they had. -/
theorem contiguous_forward (h : (l.blocks.map Place.block).Nodup) (reach : Int) :
    (l.forward reach).Contiguous ∧ (l.forward reach).blocks = l.blocks ∧
      ∀ place ∈ l.blocks, (l.forward reach).statementsAt place = l.forwardedAt reach place := by
  have hempty : Contiguous {} := contiguous_of_empty rfl rfl
  have hfst : (l.blocks.map fun place => (place, l.forwardedAt reach place)).map Prod.fst =
      l.blocks := by
    rw [List.map_map]
    exact List.map_id _
  have hnodup : ((([] : List Place) ++
      (l.blocks.map fun place => (place, l.forwardedAt reach place)).map Prod.fst).map
        Place.block).Nodup := by
    rw [hfst]
    exact h
  obtain ⟨⟨hblocks, hnumbers⟩, heq⟩ := hempty.addParts hnodup
  rw [forward_eq_addParts]
  refine ⟨⟨hblocks, hnumbers⟩, heq.trans hfst, fun place hplace => ?_⟩
  exact hempty.statementsAt_part hnodup (List.mem_map_of_mem hplace)

theorem Contiguous.forward (h : l.Contiguous) (reach : Int) :
    (l.forward reach).Contiguous ∧ (l.forward reach).blocks = l.blocks ∧
      ∀ place ∈ l.blocks, (l.forward reach).statementsAt place = l.forwardedAt reach place :=
  contiguous_forward h.nodup reach

/-- What the listing `out` has to be in order to be `l` after forwarding. -/
structure IsForwarded (l : Listing) (reach : Int) (out : Listing) : Prop where
  functions : out.functions = l.functions
  blocks : out.blocks = l.blocks
  returns : out.returns = l.returns
  /-- The numbers run through the blocks again. -/
  numbers : out.blocks.flatMap out.numbersAt = List.range out.size
  statements : out.blocks.flatMap out.statementsAt = out.statements
  /-- Of the statements of a block just those loads are dropped that a later store of the block
  makes superfluous.  The others keep their order, with their references replaced. -/
  kept : ∀ place ∈ l.blocks, ∃ kept : List Nat, kept.Pairwise (· < ·) ∧
    (∀ n, n ∈ kept ↔ n < (l.statementsAt place).length ∧
      ¬Forward.Dropped (l.mentionCount place.function) reach (l.statementsAt place) n) ∧
    List.Forall₂ (fun n t => ∃ s, (l.statementsAt place)[n]? = some s ∧
      Forward.Rewritten (l.mentionCount place.function) reach ((l.statementsAt place).take n) s t)
      kept (out.statementsAt place)

/-- **What forwarding does**, to every listing of a program and whatever is marked in it. -/
theorem forward_exact {l₀ : Listing} (h : l₀.Produced) (hm : l₀.Marked l) (reach : Int) :
    l.IsForwarded reach (l.forward reach) := by
  have hbuilt := h.wellBuilt.marked hm
  obtain ⟨hcontiguous, hblocks, hat⟩ := hbuilt.contiguous.forward reach
  refine ⟨?_, hblocks, ?_, hcontiguous.numbers, hcontiguous.statements, fun place hplace => ?_⟩
  · rw [forward_eq_addParts]
  · rw [forward_eq_addParts]
  · have hsuitable := hbuilt.suitable hplace
    rw [hat place hplace, forwardedAt, Forward.block_eq_remaining hsuitable]
    exact Forward.exists_kept_block hsuitable.regular

/-- Variables that are copied: one to another, one to where a pointer points, and one back by a
load that is ignored. -/
def copies : Program := .ofEdits "copies"
  [.function "main" .void [],
    .block ⟨0⟩ "entry",
    .last ⟨0⟩ { opcode := .alloca, type := .pointer (.int 32), name := "a" },
    .last ⟨0⟩ { opcode := .alloca, type := .pointer (.int 32), name := "b" },
    .last ⟨0⟩ { opcode := .alloca, type := .pointer (.pointer (.int 32)), name := "p" },
    .last ⟨0⟩ { opcode := .load, operands := [.value ⟨1⟩], type := .int 32 },
    .last ⟨0⟩ { opcode := .store, operands := [.value ⟨4⟩, .value ⟨2⟩] },
    .last ⟨0⟩ { opcode := .load, operands := [.value ⟨3⟩], type := .pointer (.int 32) },
    .last ⟨0⟩ { opcode := .load, operands := [.value ⟨1⟩], type := .int 32 },
    .last ⟨0⟩ { opcode := .store, operands := [.value ⟨6⟩, .value ⟨5⟩] },
    .last ⟨0⟩ { opcode := .load, operands := [.value ⟨2⟩], type := .int 32 },
    .last ⟨0⟩ { opcode := .store, operands := [.value ⟨7⟩, .value ⟨1⟩] },
    .last ⟨0⟩ { opcode := .ret }]

/-- The listing of the copies, with the last load ignored. -/
def copiesMarked : Listing := (copies.listing.setIgnored 8 true).toOption.getD {}

theorem forward_exact_copies :
    copies.listing.Produced ∧ copies.listing.Marked copiesMarked ∧
      copiesMarked.IsForwarded 2 (copiesMarked.forward 2) ∧
      copiesMarked.size = 11 ∧ (copiesMarked.forward 2).size = 8 := by
  have hok : ((Workspace.transcribe false).outcome { program := copies }).1.isOk = true := by
    decide +kernel
  have hproduced : copies.listing.Produced :=
    Program.produced_listing (Program.assembled_ofEdits _ _) hok
  have hsize : 8 < copies.listing.entries.size := by decide +kernel
  have hmarked : copies.listing.Marked copiesMarked := by
    refine .single ⟨8, true, ?_⟩
    simp [copiesMarked, setIgnored, hsize, Except.toOption]
  exact ⟨hproduced, hmarked, forward_exact hproduced hmarked 2, by decide +kernel,
    by decide +kernel⟩

end Listing

end LevelIr
