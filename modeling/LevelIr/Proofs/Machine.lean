import LevelIr.Proofs.Statement.OfInst
import Mathlib.Logic.Function.Basic

/-!
# The meaning of statements

A machine has a word for each value and a memory of words, addressed by words.  A reference at
level zero is the word of its value, and each further level is one access to memory.  A load sets
its value to what its source refers to, and a store writes to the cell that its target refers to.

What all other statements do is left open (`Effect`): they may read memory and the words of the
values that they mention, and may change memory and the word of the value that they define.

* `Machine.exec`, `Machine.run` : the meaning of a statement and of a list of statements.
* `Machine.env_exec` : a statement changes no word but that of the value that it defines.
* `Machine.exec_congr` : a statement does the same in machines with the same memory and the same
  words of the values that it mentions.
-/

namespace LevelIr

/-- The state of a machine. -/
structure Machine (W : Type) where
  /-- The words of values. -/
  env : ValueId → W
  /-- The words in memory, by address. -/
  mem : W → W

/-- What the statements that are neither loads nor stores do: from the words of the values that a
statement mentions and from memory, the new memory and the word of the value that it defines. -/
abbrev Effect (W : Type) := Statement → List W → (W → W) → (W → W) × W

namespace Machine

variable {W : Type}

/-! ### Words -/

section Words

variable (σ : Machine W)

/-- The word of a value after a number of accesses to memory. -/
def word (v : ValueId) : Nat → W
  | 0 => σ.env v
  | k + 1 => σ.mem (word v k)

/-- The word that a reference refers to. -/
def read? (r : Reference) : Option W := r.value.map fun v => σ.word v r.level.toNat

/-- The address of the cell that a reference refers to. -/
def address? (r : Reference) : Option W :=
  if 1 ≤ r.level then σ.read? ⟨r.operand, r.level - 1⟩ else none

end Words

theorem word_congr {σ τ : Machine W} (hmem : τ.mem = σ.mem) {v : ValueId}
    (henv : τ.env v = σ.env v) (k : Nat) : τ.word v k = σ.word v k := by
  induction k with
  | zero => exact henv
  | succ k ih => rw [word, word, ih, hmem]

/-- Levels add up along a chain of references. -/
theorem word_add {σ : Machine W} {x y : ValueId} {r : Nat} (h : σ.env x = σ.word y r) (k : Nat) :
    σ.word x k = σ.word y (k + r) := by
  induction k with
  | zero => rw [word, h, Nat.zero_add]
  | succ k ih => rw [word, ih, Nat.add_right_comm, word]

theorem read?_congr {σ τ : Machine W} (hmem : τ.mem = σ.mem) {r : Reference}
    (henv : ∀ v, r.value = some v → τ.env v = σ.env v) : τ.read? r = σ.read? r := by
  unfold read?
  cases hr : r.value with
  | none => rfl
  | some v => rw [Option.map_some, Option.map_some, word_congr hmem (henv v hr)]

theorem address?_congr {σ τ : Machine W} (hmem : τ.mem = σ.mem) {r : Reference}
    (henv : ∀ v, r.value = some v → τ.env v = σ.env v) : τ.address? r = σ.address? r := by
  unfold address?
  split
  · exact read?_congr hmem henv
  · rfl

theorem update_congr {env env' : ValueId → W} {u v : ValueId} (w : W) (h : env v = env' v) :
    Function.update env u w v = Function.update env' u w v := by
  by_cases hv : v = u
  · rw [hv, Function.update_self, Function.update_self]
  · rw [Function.update_of_ne hv, Function.update_of_ne hv, h]

/-! ### Statements -/

variable [DecidableEq W] (effect : Effect W)

/-- What a statement does. -/
def exec (σ : Machine W) (s : Statement) : Machine W :=
  if s.isLoad then
    match s.operands.head?.bind σ.read?, s.defined? with
    | some w, some v => { σ with env := Function.update σ.env v w }
    | _, _ => σ
  else if s.isStore then
    match s.operands.head?.bind σ.read?, s.result.bind σ.address? with
    | some w, some a => { σ with mem := Function.update σ.mem a w }
    | _, _ => σ
  else
    let (mem, w) := effect s (s.mentions.map σ.env) σ.mem
    match s.defined? with
    | some v => { env := Function.update σ.env v w, mem }
    | none => { σ with mem }

/-- What statements do, one after the other. -/
def run (σ : Machine W) (ss : List Statement) : Machine W := ss.foldl (exec effect) σ

theorem run_append (σ : Machine W) (ss ss' : List Statement) :
    run effect σ (ss ++ ss') = run effect (run effect σ ss) ss' :=
  List.foldl_append

variable {effect}

theorem env_exec_load {σ : Machine W} {s : Statement} (h : s.isLoad = true) {w : W} {v : ValueId}
    (hw : s.operands.head?.bind σ.read? = some w) (hv : s.defined? = some v) :
    (exec effect σ s).env v = w := by
  rw [exec, if_pos h, hw, hv]
  exact Function.update_self v w σ.env

theorem mem_exec_load {σ : Machine W} {s : Statement} (h : s.isLoad = true) :
    (exec effect σ s).mem = σ.mem := by
  rw [exec, if_pos h]
  split <;> rfl

/-- What a store does depends only on what its references refer to. -/
theorem exec_store_congr (effect : Effect W) {σ τ : Machine W} {s t : Statement}
    (hs : s.isStore = true) (ht : t.isStore = true) (hmem : τ.mem = σ.mem)
    (hstored : t.operands.head?.bind τ.read? = s.operands.head?.bind σ.read?)
    (htarget : t.result.bind τ.address? = s.result.bind σ.address?) :
    (exec effect τ t).mem = (exec effect σ s).mem ∧
      (exec effect τ t).env = τ.env ∧ (exec effect σ s).env = σ.env := by
  have hload {s : Statement} (hs : s.isStore = true) : ¬s.isLoad = true := by
    simp_all [Statement.isStore, Statement.isLoad]
  rw [exec, exec, if_neg (hload hs), if_neg (hload ht), if_pos hs, if_pos ht, hstored, htarget,
    hmem]
  split
  · exact ⟨rfl, rfl, rfl⟩
  · exact ⟨hmem, rfl, rfl⟩

/-- A statement changes no word but that of the value that it defines. -/
theorem env_exec {σ : Machine W} {s : Statement} {v : ValueId} (h : s.defined? ≠ some v) :
    (exec effect σ s).env v = σ.env v := by
  unfold exec
  split
  · -- a load sets the value that it defines
    split
    · rename_i u _ hu
      have hne : v ≠ u := by
        rintro rfl
        exact h hu
      exact Function.update_of_ne hne _ _
    · rfl
  · split
    · -- a store sets no value
      split <;> rfl
    · dsimp only
      split
      · rename_i u hu
        have hne : v ≠ u := by
          rintro rfl
          exact h hu
        exact Function.update_of_ne hne _ _
      · rfl

/-- A statement does the same in machines with the same memory and the same words of the values
that it mentions. -/
theorem exec_congr {σ τ : Machine W} {s : Statement} (hmem : τ.mem = σ.mem)
    (henv : ∀ v ∈ s.mentions, τ.env v = σ.env v) :
    (exec effect τ s).mem = (exec effect σ s).mem ∧
      ∀ v, τ.env v = σ.env v → (exec effect τ s).env v = (exec effect σ s).env v := by
  have hread {r : Reference} (hr : r ∈ s.reads) :
      ∀ v, r.value = some v → τ.env v = σ.env v :=
    fun v hv => henv v (Statement.mem_mentions hr hv)
  have hoperand : s.operands.head?.bind τ.read? = s.operands.head?.bind σ.read? := by
    cases hhead : s.operands.head? with
    | none => rfl
    | some r =>
      have hr : r ∈ s.reads := List.mem_append_left _ (List.mem_of_head? hhead)
      exact read?_congr hmem (hread hr)
  -- loads, stores and all others, as in the definition
  unfold exec
  split
  · rw [hoperand]
    split
    · exact ⟨hmem, fun v hv => update_congr _ hv⟩
    · exact ⟨hmem, fun v hv => hv⟩
  · split
    · rename_i hstore
      have htarget : s.result.bind τ.address? = s.result.bind σ.address? := by
        cases hresult : s.result with
        | none => rfl
        | some r =>
          have hr : r ∈ s.reads :=
            List.mem_append_right _ (by simp [Statement.target?, hstore, hresult])
          exact address?_congr hmem (hread hr)
      rw [hoperand, htarget, hmem]
      split
      · exact ⟨rfl, fun v hv => hv⟩
      · exact ⟨hmem, fun v hv => hv⟩
    · have hwords : s.mentions.map τ.env = s.mentions.map σ.env :=
        List.map_congr_left henv
      rw [hwords, hmem]
      dsimp only
      split
      · exact ⟨rfl, fun v hv => update_congr _ hv⟩
      · exact ⟨rfl, fun v hv => hv⟩

end Machine

end LevelIr
