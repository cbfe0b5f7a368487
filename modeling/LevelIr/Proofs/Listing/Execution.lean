import LevelIr.Proofs.Listing.Forwarding
import LevelIr.Proofs.Machine

/-!
# Forwarding keeps the meaning of a block

A block and what forwarding leaves of it are run side by side.  The two machines have the same
memory, and the same words but for the values of loads that were dropped.  A load that was dropped
is made up for by its store, which refers to the source of the load: the word that the load has
read is still there, as long as nothing between the load and the store disturbs it.

* `Forward.Undisturbed` : nothing between a load that is dropped and its store changes memory or
  the word of the source of the load.
* `Forward.Tracks` : how the two machines are related along the run.
* `Listing.run_forward` : the block and what is left of it end in the same way.
-/

namespace LevelIr

namespace Forward

open Machine

section Defs

variable {W : Type} [DecidableEq W] (effect : Effect W) (uses : ValueId → Nat) (reach : Int)

/-- Between a load that is dropped and the store that it is dropped for, no statement changes memory
or the word of the source of the load. -/
def Undisturbed (ss : List Statement) (σ : Machine W) : Prop :=
  ∀ n load m store use replacement, n < m → ss[n]? = some load → ss[m]? = some store →
    Folds uses reach load store use replacement →
    ∀ k s, n < k → k < m → ss[k]? = some s →
      (exec effect (run effect σ (ss.take k)) s).mem = (run effect σ (ss.take k)).mem ∧
        ∀ source ∈ load.operands, ∀ y, source.value = some y →
          (exec effect (run effect σ (ss.take k)) s).env y = (run effect σ (ss.take k)).env y

/-- The value that a load defines has the word that its source refers to. -/
def Holds (σ : Machine W) (load : Statement) : Prop :=
  load.operands.head?.bind σ.read? = load.defined?.map σ.env

/-- How the machine `τ`, which runs what is left of a block, is related to the machine `σ`, which
runs the block, after the first `k` statements. -/
structure Tracks (ss : List Statement) (k : Nat) (σ τ : Machine W) : Prop where
  mem : τ.mem = σ.mem
  /-- Only the values of loads that were dropped can have other words. -/
  env : ∀ v, (∀ n load, n < k → ss[n]? = some load → Dropped uses reach ss n →
    load.defined? ≠ some v) → τ.env v = σ.env v
  /-- What a load has read is still there when its store comes. -/
  pending : ∀ n load m store use replacement, n < k → k ≤ m → ss[n]? = some load →
    ss[m]? = some store → Folds uses reach load store use replacement → Holds σ load

end Defs

variable {W : Type} [DecidableEq W] {effect : Effect W} {uses : ValueId → Nat} {reach : Int}

/-! ### Loads and what replaces their values -/

section Replacement

variable {load store : Statement} {use replacement : Reference} {σ : Machine W}

omit [DecidableEq W] in
/-- A reference through the value of a load is a reference to its source, a level deeper. -/
theorem Folds.read?_eq (h : Folds uses reach load store use replacement) (hload : load.Regular)
    (hholds : Holds σ load) {level : Int} (hlevel : 0 ≤ level) :
    σ.read? ⟨replacement.operand, level + 1⟩ = σ.read? ⟨use.operand, level⟩ := by
  obtain ⟨source, x, y, -, -, hoperands, hdefined, hy, -, hx, hone, rfl⟩ := h.shape hload
  have henv : σ.env x = σ.word y 1 := by
    rw [Holds, hoperands, hdefined, List.head?_cons, Option.bind_some, read?, hy, hone] at hholds
    exact (Option.some.inj hholds).symm
  have hread : σ.read? ⟨source.operand, level + 1⟩ = some (σ.word y (level + 1).toNat) := by
    have hvalue : source.operand.value = some y := hy
    simp [read?, Reference.value, hvalue]
  have huse : σ.read? ⟨use.operand, level⟩ = some (σ.word x level.toNat) := by
    have hvalue : use.operand.value = some x := hx
    simp [read?, Reference.value, hvalue]
  rw [hread, huse, word_add henv, Int.toNat_add hlevel (by decide)]
  rfl

end Replacement

/-! ### One statement -/

section Step

variable {ss before after : List Statement} {s : Statement} {k : Nat} {σ τ : Machine W}

/-- A statement that mentions the value of a load that is dropped is the store that the load is
dropped for. -/
theorem Suitable.folds_of_mem_mentions (h : Suitable uses ss) (hs : s ∈ ss) {n : Nat}
    {load : Statement} (hload : ss[n]? = some load) (hdropped : Dropped uses reach ss n)
    {v : ValueId} (hdefined : load.defined? = some v) (hv : v ∈ s.mentions) :
    ∃ use replacement, Folds uses reach load s use replacement := by
  obtain ⟨load', m, store, use, replacement, -, hload', hstore, hfolds⟩ := hdropped
  obtain rfl : load = load' := Option.some.inj (hload.symm.trans hload')
  obtain ⟨source, x, y, -, -, -, hdefined', -, huses, hx, -⟩ :=
    hfolds.shape (h.regular load (List.mem_of_getElem? hload))
  obtain rfl : x = v := Option.some.inj (hdefined'.symm.trans hdefined)
  have hmem : x ∈ store.mentions := Statement.mem_mentions hfolds.isStore.2.2 hx
  obtain rfl := h.eq_of_mem_mentions huses hs (List.mem_of_getElem? hstore) hv hmem
  exact ⟨use, replacement, hfolds⟩

omit [DecidableEq W] in
/-- A statement that is no store mentions no value of a load that was dropped. -/
theorem Tracks.env_eq (htracks : Tracks uses reach ss k σ τ) (h : Suitable uses ss) (hs : s ∈ ss)
    (hactive : ¬(s.isStore && !s.ignored) = true) : ∀ v ∈ s.mentions, τ.env v = σ.env v := by
  intro v hv
  refine htracks.env v fun n load _ hload hdropped hdefined => hactive ?_
  obtain ⟨use, replacement, hfolds⟩ := h.folds_of_mem_mentions hs hload hdropped hdefined hv
  simp [hfolds.isStore.1, hfolds.isStore.2.1]

theorem not_active_of_isLoad (h : s.isLoad = true) : ¬(s.isStore && !s.ignored) = true := by
  simp [isStore_of_isLoad h]

/-- What a load has read stays, through the load itself and through all that does not disturb
it. -/
theorem Tracks.pending_exec (htracks : Tracks uses reach ss k σ τ) (h : Suitable uses ss)
    (hs : ss[k]? = some s)
    (hundisturbed : ∀ n load m store use replacement, n < k → k < m → ss[n]? = some load →
      ss[m]? = some store → Folds uses reach load store use replacement →
      (exec effect σ s).mem = σ.mem ∧ ∀ source ∈ load.operands, ∀ y, source.value = some y →
        (exec effect σ s).env y = σ.env y)
    {n m : Nat} {load store : Statement} {use replacement : Reference} (hn : n < k + 1)
    (hm : k + 1 ≤ m) (hload : ss[n]? = some load) (hstore : ss[m]? = some store)
    (hfolds : Folds uses reach load store use replacement) : Holds (exec effect σ s) load := by
  have hloadMem : load ∈ ss := List.mem_of_getElem? hload
  have hstoreMem : store ∈ ss := List.mem_of_getElem? hstore
  obtain ⟨source, x, y, hisLoad, hbinding, hoperands, hdefined, hy, huses, hx, -⟩ :=
    hfolds.shape (h.regular load hloadMem)
  -- it is enough that the word of the source stays, and that the value gets the word it refers to
  suffices hkeeps : (exec effect σ s).mem = σ.mem ∧ (exec effect σ s).env y = σ.env y ∧
      some ((exec effect σ s).env x) = σ.read? source by
    obtain ⟨hmem, henv, hvalue⟩ := hkeeps
    rw [Holds, hoperands, hdefined, List.head?_cons, Option.bind_some, Option.map_some, hvalue]
    refine read?_congr hmem fun v hv => ?_
    obtain rfl : y = v := Option.some.inj (hy.symm.trans hv)
    exact henv
  rcases Nat.lt_or_ge n k with hlt | hge
  · -- the load is behind us, and `s` stands between it and its store
    obtain ⟨hmem, henv⟩ := hundisturbed n load m store use replacement hlt (by omega) hload hstore
      hfolds
    have hpending :=
      htracks.pending n load m store use replacement hlt (by omega) hload hstore hfolds
    rw [Holds, hoperands, hdefined, List.head?_cons, Option.bind_some, Option.map_some] at hpending
    have hne : s.defined? ≠ some x := by
      intro hsx
      rw [(h.apart_of_lt hload hs hlt x hdefined hsx).1] at hbinding
      cases hbinding
    refine ⟨hmem, henv source (by simp [hoperands]) y hy, ?_⟩
    rw [env_exec hne, hpending]
  · -- the load is `s` itself, which does not set the value that it reads through
    obtain rfl : n = k := by omega
    obtain rfl : load = s := Option.some.inj (hload.symm.trans hs)
    have hread : load.operands.head?.bind σ.read? = some (σ.word y source.level.toNat) := by
      simp [hoperands, read?, hy]
    have hne : load.defined? ≠ some y := by
      rintro hdy
      obtain rfl : x = y := Option.some.inj (hdefined.symm.trans hdy)
      have hmention : x ∈ load.mentions :=
        Statement.mem_mentions (List.mem_append_left _ (by simp [hoperands])) hy
      have hmention' : x ∈ store.mentions := Statement.mem_mentions hfolds.isStore.2.2 hx
      obtain rfl := h.eq_of_mem_mentions huses hloadMem hstoreMem hmention hmention'
      exact not_active_of_isLoad hisLoad (by simp [hfolds.isStore.1, hfolds.isStore.2.1])
    refine ⟨mem_exec_load hisLoad, env_exec hne, ?_⟩
    rw [env_exec_load hisLoad hread hdefined, read?, hy, Option.map_some]

/-- Both references of a store to one value: then it is not the value of a load that is dropped. -/
theorem Suitable.eq_of_folds (h : Suitable uses ss) (hs : s ∈ ss) {load : Statement}
    (hload : load ∈ ss) {use use' replacement : Reference}
    (hfolds : Folds uses reach load s use replacement) (huse' : use' ∈ s.reads)
    (hvalue : use'.value = load.defined?) : use' = use := by
  obtain ⟨hstore, hignored, huse⟩ := hfolds.isStore
  obtain ⟨source, x, y, -, -, -, hdefined, -, huses, hx, -⟩ := hfolds.shape (h.regular load hload)
  rw [hdefined] at hvalue
  obtain ⟨stored, target, -, -, hoperands, hresult, -⟩ := (h.regular s hs).store hstore
  have hreads : s.reads = [stored, target] := by
    simp [Statement.reads, Statement.target?, hstore, hoperands, hresult]
  have hboth (hstored : stored.value = some x) (htarget : target.value = some x) : False := by
    have htwo := h.two_le_uses hs hstore hoperands hresult hstored htarget
    omega
  rw [hreads, List.mem_cons, List.mem_singleton] at huse huse'
  rcases huse with rfl | rfl <;> rcases huse' with rfl | rfl
  · rfl
  · exact (hboth hx hvalue).elim
  · exact (hboth hvalue hx).elim
  · rfl

omit [DecidableEq W] in
/-- A reference of a store refers to the same word before and after forwarding, also some levels
up. -/
theorem Tracks.read?_forwarded
    (htracks : Tracks uses reach (before ++ s :: after) before.length σ τ)
    (h : Suitable uses (before ++ s :: after)) {use new : Reference} (huse : use ∈ s.reads)
    (hnew : Replaced uses reach before s use new) (level : Int) (hlevel : 0 ≤ level) :
    τ.read? ⟨new.operand, new.level - use.level + level⟩ = σ.read? ⟨use.operand, level⟩ := by
  have hs : s ∈ before ++ s :: after := by simp
  have hin {n : Nat} (hlt : n < before.length) :
      (before ++ s :: after)[n]? = before[n]? := List.getElem?_append_left hlt
  rcases hnew with ⟨load, hload, hfolds⟩ | ⟨hnone, rfl⟩
  · -- the load behind the reference: what it has read is still there
    obtain ⟨n, hn⟩ := List.mem_iff_getElem?.1 hload
    have hlt : n < before.length := (List.getElem?_eq_some_iff.1 hn).1
    have hmem : load ∈ before ++ s :: after := List.mem_append_left _ hload
    have hregular : load.Regular := h.regular load hmem
    have hholds := htracks.pending n load before.length s use new hlt (Nat.le_refl _)
      ((hin hlt).trans hn) (by simp) hfolds
    obtain ⟨source, x, y, hisLoad, -, hoperands, -, hy, -, -, -, rfl⟩ := hfolds.shape hregular
    have hadd : use.level + 1 - use.level + level = level + 1 := by omega
    have henv : τ.env y = σ.env y := by
      refine htracks.env_eq h hmem (not_active_of_isLoad hisLoad) y ?_
      exact Statement.mem_mentions (List.mem_append_left _ (by simp [hoperands])) hy
    rw [hadd, ← hfolds.read?_eq hregular hholds hlevel]
    refine read?_congr htracks.mem fun v hv => ?_
    obtain rfl : y = v := Option.some.inj (hy.symm.trans hv)
    exact henv
  · -- no load was dropped for the reference, and none for another use of its value
    have hadd : new.level - new.level + level = level := by omega
    rw [hadd]
    refine read?_congr htracks.mem fun v hv =>
      htracks.env v fun n load hlt hn hdropped hdefined => ?_
    have hmention : v ∈ s.mentions := Statement.mem_mentions huse hv
    obtain ⟨use', replacement, hfolds⟩ := h.folds_of_mem_mentions hs hn hdropped hdefined hmention
    obtain rfl : new = use' :=
      h.eq_of_folds hs (List.mem_of_getElem? hn) hfolds huse (hv.trans hdefined.symm)
    exact hnone load (List.mem_of_getElem? ((hin hlt).symm.trans hn)) replacement hfolds

theorem Replaced.level_le {use new : Reference} (hnew : Replaced uses reach before s use new)
    (hbefore : ∀ t ∈ before, t.Regular) : use.level ≤ new.level := by
  rcases hnew with ⟨load, hload, hfolds⟩ | ⟨-, rfl⟩
  · obtain ⟨source, x, y, -, -, -, -, -, -, -, -, rfl⟩ := hfolds.shape (hbefore load hload)
    exact Int.le_add_one (Int.le_refl _)
  · exact Int.le_refl _

/-- A statement does the same before and after forwarding. -/
theorem Tracks.exec_rewrite (effect : Effect W)
    (htracks : Tracks uses reach (before ++ s :: after) before.length σ τ)
    (h : Suitable uses (before ++ s :: after)) :
    (exec effect τ (rewrite uses reach before s)).mem = (exec effect σ s).mem ∧
      ∀ v, τ.env v = σ.env v →
        (exec effect τ (rewrite uses reach before s)).env v = (exec effect σ s).env v := by
  have hs : s ∈ before ++ s :: after := by simp
  by_cases hactive : (s.isStore && !s.ignored) = true
  · obtain ⟨hstore, hignored⟩ : s.isStore = true ∧ s.ignored = false := by simpa using hactive
    have hbefore : ∀ t ∈ before, t.Regular := fun t ht => h.regular t (by simp [ht])
    -- the stored value is read as it is, and the target one level above, as an address
    obtain ⟨stored, target, v, u, hoperands, hresult, ⟨hzero, -⟩, hone, -⟩ :=
      (h.regular s hs).store hstore
    have hstoredMem : stored ∈ s.reads := by simp [Statement.reads, hoperands]
    have htargetMem : target ∈ s.reads := by
      simp [Statement.reads, Statement.target?, hstore, hresult]
    have hnewStored : Replaced uses reach before s stored (forwarded uses reach before stored) :=
      replaced_forwarded hbefore hstore hignored hstoredMem
    have hnewTarget : Replaced uses reach before s target (forwarded uses reach before target) :=
      replaced_forwarded hbefore hstore hignored htargetMem
    have hstored : τ.read? (forwarded uses reach before stored) = σ.read? stored := by
      have hread := htracks.read?_forwarded h hstoredMem hnewStored stored.level (by omega)
      rwa [Int.sub_add_cancel] at hread
    have htarget : τ.address? (forwarded uses reach before target) = σ.address? target := by
      have hread := htracks.read?_forwarded h htargetMem hnewTarget (target.level - 1) (by omega)
      have hle := hnewTarget.level_le hbefore
      have hadd : (forwarded uses reach before target).level - target.level + (target.level - 1) =
          (forwarded uses reach before target).level - 1 := by omega
      rw [hadd] at hread
      rw [address?, address?, if_pos (by omega), if_pos (by omega), hread]
    have hrewrite : rewrite uses reach before s = Statement.refreshPointer
        { s with
          operands := [forwarded uses reach before stored]
          result := some (forwarded uses reach before target) } := by
      rw [rewrite, if_pos hactive, hoperands, hresult, List.map_cons, List.map_nil, Option.map_some]
    obtain ⟨hmem, henv, henv'⟩ := exec_store_congr effect hstore
      ((isStore_rewrite before s).trans hstore) htracks.mem
      (by rw [hrewrite, hoperands]; exact hstored) (by rw [hrewrite, hresult]; exact htarget)
    refine ⟨hmem, fun v hv => ?_⟩
    rw [henv, henv', hv]
  · rw [rewrite, if_neg hactive]
    exact exec_congr htracks.mem (htracks.env_eq h hs hactive)

/-- One statement of the block, against what is left of it. -/
theorem Tracks.step (htracks : Tracks uses reach (before ++ s :: after) before.length σ τ)
    (h : Suitable uses (before ++ s :: after))
    (hundisturbed : ∀ n load m store use replacement, n < before.length → before.length < m →
      (before ++ s :: after)[n]? = some load → (before ++ s :: after)[m]? = some store →
      Folds uses reach load store use replacement →
      (exec effect σ s).mem = σ.mem ∧ ∀ source ∈ load.operands, ∀ y, source.value = some y →
        (exec effect σ s).env y = σ.env y) :
    Tracks uses reach (before ++ s :: after) (before.length + 1) (exec effect σ s)
      (run effect τ (if after.any (absorbs uses reach s) then []
        else [rewrite uses reach before s])) := by
  have hat : (before ++ s :: after)[before.length]? = some s := by simp
  have hregular : s.Regular := h.regular s (by simp)
  have hdropped : Dropped uses reach (before ++ s :: after) before.length ↔
      after.any (absorbs uses reach s) = true := dropped_iff hregular
  have hpending : ∀ n load m store use replacement, n < before.length + 1 →
      before.length + 1 ≤ m → (before ++ s :: after)[n]? = some load →
      (before ++ s :: after)[m]? = some store → Folds uses reach load store use replacement →
      Holds (exec effect σ s) load := by
    intro n load m store use replacement hn hm hload hstore hfolds
    exact htracks.pending_exec h hat hundisturbed hn hm hload hstore hfolds
  by_cases habsorbed : after.any (absorbs uses reach s) = true
  · -- a load is dropped: only its value has another word
    obtain ⟨load, m, store, use, replacement, -, hload, -, hfolds⟩ := hdropped.2 habsorbed
    obtain rfl : s = load := Option.some.inj (hat.symm.trans hload)
    obtain ⟨_, x, _, hisLoad, -, -, hdefined, -⟩ := hfolds.shape hregular
    rw [if_pos habsorbed]
    refine ⟨htracks.mem.trans (mem_exec_load hisLoad).symm, fun v hv => ?_, hpending⟩
    have hne : s.defined? ≠ some v :=
      hv before.length s (Nat.lt_succ_self _) hat (hdropped.2 habsorbed)
    rw [env_exec hne]
    exact htracks.env v fun n load hn => hv n load (Nat.lt_succ_of_lt hn)
  · rw [if_neg habsorbed]
    obtain ⟨hmem, henv⟩ := htracks.exec_rewrite effect h
    refine ⟨hmem, ?_, hpending⟩
    intro v hv
    exact henv v (htracks.env v fun n load hn => hv n load (Nat.lt_succ_of_lt hn))

end Step

/-! ### All statements -/

/-- What is left of a block simulates it, from any point on. -/
theorem tracks_remaining {ss : List Statement} (h : Suitable uses ss) {σ₀ : Machine W}
    (hundisturbed : Undisturbed effect uses reach ss σ₀) {before after : List Statement}
    (hss : before ++ after = ss) {τ : Machine W}
    (htracks : Tracks uses reach ss before.length (run effect σ₀ before) τ) :
    Tracks uses reach ss ss.length (run effect σ₀ ss)
      (run effect τ (remaining uses reach before after)) := by
  induction after generalizing before τ with
  | nil =>
    rw [List.append_nil] at hss
    subst hss
    exact htracks
  | cons s after ih =>
    have hnext : before ++ [s] ++ after = ss := by simpa using hss
    have htake : ss.take before.length = before := by rw [← hss, List.take_left]
    have hrun : run effect σ₀ (before ++ [s]) = exec effect (run effect σ₀ before) s := by
      rw [run_append]
      rfl
    rw [remaining, run_append]
    refine ih hnext ?_
    rw [List.length_append, List.length_singleton, hrun]
    subst hss
    refine htracks.step h ?_
    intro n load m store use replacement hn hm hload hstore hfolds
    have hat : (before ++ s :: after)[before.length]? = some s := by simp
    have hkeeps := hundisturbed n load m store use replacement (by omega) hload hstore hfolds
      before.length s hn hm hat
    rwa [htake] at hkeeps

/-! ### A sufficient condition -/

/-- Whether only loads that set other values stand between the loads that are dropped and their
stores. -/
def onlyLoadsBetween (uses : ValueId → Nat) (reach : Int) (ss : List Statement) : Bool :=
  (List.range ss.length).all fun m => (List.range m).all fun k => (List.range k).all fun n =>
    match ss[n]?, ss[k]?, ss[m]? with
    | some load, some s, some store => !absorbs uses reach load store ||
        s.isLoad && load.operands.all fun source => source.value != s.defined?
    | _, _, _ => true

theorem undisturbed_of_onlyLoadsBetween {ss : List Statement} (hregular : ∀ s ∈ ss, s.Regular)
    (h : onlyLoadsBetween uses reach ss = true) (σ : Machine W) :
    Undisturbed effect uses reach ss σ := by
  intro n load m store use replacement _ hload hstore hfolds k s hnk hkm hs
  have hm : m < ss.length := (List.getElem?_eq_some_iff.1 hstore).1
  have habsorbs : absorbs uses reach load store = true :=
    (absorbs_iff (hregular load (List.mem_of_getElem? hload))).2 ⟨use, replacement, hfolds⟩
  simp only [onlyLoadsBetween, List.all_eq_true, List.mem_range] at h
  have hbetween := h m hm k hkm n hnk
  simp only [hload, hs, hstore, habsorbs, Bool.not_true, Bool.false_or, Bool.and_eq_true,
    List.all_eq_true, bne_iff_ne] at hbetween
  refine ⟨mem_exec_load hbetween.1, fun source hsource y hy => env_exec fun hdefined => ?_⟩
  exact hbetween.2 source hsource (hy.trans hdefined.symm)

/-- Run from the same state, the statements `ts` end as `ss` do: with the same memory, and with the
same words of all values but those of the loads that are dropped from `ss`. -/
structure EndsAlike (effect : Effect W) (uses : ValueId → Nat) (reach : Int) (σ : Machine W)
    (ss ts : List Statement) : Prop where
  mem : (run effect σ ts).mem = (run effect σ ss).mem
  env : ∀ v, (∀ n load, ss[n]? = some load → Dropped uses reach ss n → load.defined? ≠ some v) →
    (run effect σ ts).env v = (run effect σ ss).env v

end Forward

/-- **Forwarding keeps the meaning of a block.**  Run from any state, a block and what is left of it
end with the same memory, and with the same words of all values but those of the loads that were
dropped; provided that nothing between such a load and its store changes memory or the word of the
source of the load. -/
theorem Listing.run_forward {l : Listing} (h : l.Produced) (reach : Int) {place : Place}
    (hplace : place ∈ l.blocks) {W : Type} [DecidableEq W] (effect : Effect W) (σ : Machine W)
    (hundisturbed : Forward.Undisturbed effect (l.mentionCount place.function) reach
      (l.statementsAt place) σ) :
    Forward.EndsAlike effect (l.mentionCount place.function) reach σ (l.statementsAt place)
      ((l.forward reach).statementsAt place) := by
  have hsuitable := h.wellBuilt.suitable hplace
  obtain ⟨-, -, hat⟩ := h.wellBuilt.contiguous.forward reach
  have hstart : Forward.Tracks (l.mentionCount place.function) reach (l.statementsAt place) 0
      σ σ := ⟨rfl, fun _ _ => rfl, fun n _ _ _ _ _ hn => absurd hn (Nat.not_lt_zero n)⟩
  rw [hat place hplace, Listing.forwardedAt, Forward.block_eq_remaining hsuitable]
  have hend := Forward.tracks_remaining hsuitable hundisturbed (List.nil_append _) hstart
  exact ⟨hend.mem, fun v hv => hend.env v fun n load _ => hv n load⟩

/-- A machine on which statements other than loads and stores do nothing but clear the value that
they define. -/
def Machine.clearing : Effect Nat := fun _ _ mem => (mem, 0)

/-- A state in which all values and all cells have words of their own. -/
def Machine.distinct : Machine Nat := ⟨fun v => v.index, fun w => w + 7⟩

/-- The place of the copies. -/
def Listing.copiesPlace : Place := ⟨⟨0⟩, ⟨0⟩⟩

theorem Listing.run_forward_copies :
    copies.listing.Produced ∧ copiesPlace ∈ copies.listing.blocks ∧
      Forward.Undisturbed Machine.clearing (copies.listing.mentionCount copiesPlace.function) 2
        (copies.listing.statementsAt copiesPlace) Machine.distinct ∧
      Forward.EndsAlike Machine.clearing (copies.listing.mentionCount copiesPlace.function) 2
        Machine.distinct (copies.listing.statementsAt copiesPlace)
        ((copies.listing.forward 2).statementsAt copiesPlace) := by
  have hok : ((Workspace.transcribe false).outcome { program := copies }).1.isOk = true := by
    decide +kernel
  have hproduced : copies.listing.Produced :=
    Program.produced_listing (Program.assembled_ofEdits _ _) hok
  have hplace : copiesPlace ∈ copies.listing.blocks := by decide +kernel
  have hbetween : Forward.onlyLoadsBetween (copies.listing.mentionCount copiesPlace.function) 2
      (copies.listing.statementsAt copiesPlace) = true := by decide +kernel
  have hundisturbed : Forward.Undisturbed Machine.clearing
      (copies.listing.mentionCount copiesPlace.function) 2 (copies.listing.statementsAt copiesPlace)
      Machine.distinct :=
    Forward.undisturbed_of_onlyLoadsBetween (hproduced.wellBuilt.regular _ hplace) hbetween _
  exact ⟨hproduced, hplace, hundisturbed,
    run_forward hproduced 2 hplace Machine.clearing Machine.distinct hundisturbed⟩

end LevelIr
