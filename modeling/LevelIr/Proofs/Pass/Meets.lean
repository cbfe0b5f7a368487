import LevelIr.Proofs.Pass.Simulates

/-!
# How passes end

From a given state a pass ends with an answer or with a fault, and it has reached a state either
way.  It *meets* what is asked of it (`Pass.Meets`) if an answer and its state are as `Q` says, and
a fault and its state are as `E` says.  A sequence is taken apart from the front to the back: the
second part starts from a state of which everything is known that the first part was to meet.

* `Pass.Meets.bind`, `Pass.meets_get_bind`, `Pass.meets_lift_bind` : sequences.
* `Pass.meets_mapM`, `Pass.meets_forM`, `Pass.meets_foldlM` : loops, under an invariant.
* `Pass.Meets.reached` : what holds of the state that is reached, whether the pass ends well or not.
* `Pass.CongruenceFor.meets` : passes that keep an invariant and have only certain faults.
-/

namespace LevelIr

namespace Pass

variable {σ τ α β : Type}

theorem outcome_bind_error {pass : Pass σ α} {next : α → Pass σ β} {s t : σ} {fault : Fault} :
    outcome (pass >>= next) s = (.error fault, t) ↔ outcome pass s = (.error fault, t) ∨
      ∃ a u, outcome pass s = (.ok a, u) ∧ outcome (next a) u = (.error fault, t) := by
  rw [outcome_bind]
  obtain ⟨answer, u⟩ := outcome pass s
  cases answer with
  | ok a => simp
  | error other => simp

/-- From the state `s`, the pass ends with an answer and a state as `Q` says, or with a fault and a
state as `E` says. -/
structure Meets (Q : α → σ → Prop) (E : Fault → σ → Prop) (pass : Pass σ α) (s : σ) : Prop where
  ok : ∀ a t, outcome pass s = (.ok a, t) → Q a t
  error : ∀ fault t, outcome pass s = (.error fault, t) → E fault t

section Meets

variable {Q : α → σ → Prop} {Q' : β → σ → Prop} {E : Fault → σ → Prop} {s : σ}

theorem Meets.imp {R : α → σ → Prop} {D : Fault → σ → Prop} {pass : Pass σ α}
    (h : Meets Q E pass s) (hQ : ∀ a t, Q a t → R a t) (hE : ∀ fault t, E fault t → D fault t) :
    Meets R D pass s :=
  ⟨fun a t ht => hQ a t (h.ok a t ht), fun fault t ht => hE fault t (h.error fault t ht)⟩

/-- What holds of the state that is reached, whether the pass ends well or not. -/
theorem Meets.reached {J : σ → Prop} {pass : Pass σ α} (h : Meets Q E pass s)
    (hQ : ∀ a t, Q a t → J t) (hE : ∀ fault t, E fault t → J t) : J (outcome pass s).2 := by
  cases hs : outcome pass s with
  | mk answer t =>
    cases answer with
    | ok a => exact hQ a t (h.ok a t hs)
    | error fault => exact hE fault t (h.error fault t hs)

theorem meets_pure {a : α} (h : Q a s) : Meets Q E (pure a : Pass σ α) s := by
  constructor
  · intro b t ht
    cases ht
    exact h
  · intro fault t ht
    cases ht

theorem meets_throw {fault : Fault} (h : E fault s) : Meets Q E (throw fault : Pass σ α) s := by
  constructor
  · intro a t ht
    cases ht
  · intro other t ht
    cases ht
    exact h

theorem meets_modify {change : σ → σ} {Q : PUnit → σ → Prop} (h : Q ⟨⟩ (change s)) :
    Meets Q E (modify change : Pass σ PUnit) s := by
  constructor
  · intro a t ht
    cases ht
    exact h
  · intro fault t ht
    cases ht

theorem Meets.bind {pass : Pass σ α} {next : α → Pass σ β} (h : Meets Q E pass s)
    (hnext : ∀ a t, Q a t → Meets Q' E (next a) t) : Meets Q' E (pass >>= next) s := by
  constructor
  · intro b t ht
    obtain ⟨a, u, ha, hb⟩ := outcome_bind_ok.1 ht
    exact (hnext a u (h.ok a u ha)).ok b t hb
  · intro fault t ht
    rcases outcome_bind_error.1 ht with hfirst | ⟨a, u, ha, hsecond⟩
    · exact h.error fault t hfirst
    · exact (hnext a u (h.ok a u ha)).error fault t hsecond

theorem meets_get_bind {next : σ → Pass σ α} (h : Meets Q E (next s) s) :
    Meets Q E (get >>= next) s :=
  have hget : Meets (fun a t => a = s ∧ t = s) E (get : Pass σ σ) s := by
    constructor
    · intro a t ht
      cases ht
      exact ⟨rfl, rfl⟩
    · intro fault t ht
      cases ht
  hget.bind fun a t hs => by
    obtain ⟨rfl, rfl⟩ := hs
    exact h

theorem meets_lift_bind {answer : Except Fault α} {next : α → Pass σ β}
    (herror : ∀ fault, answer = .error fault → E fault s)
    (h : ∀ a, answer = .ok a → Meets Q' E (next a) s) : Meets Q' E (liftM answer >>= next) s := by
  cases answer with
  | ok a => exact h a rfl
  | error fault => exact meets_throw (herror fault rfl)

/-- A pass on a part of a larger state. -/
theorem Meets.within {view : τ → σ} {update : σ → τ → τ} {t : τ} {R : α → τ → Prop}
    {D : Fault → τ → Prop} {pass : Pass σ α} (h : Meets Q E pass (view t))
    (hQ : ∀ a s, Q a s → R a (update s t)) (hE : ∀ fault s, E fault s → D fault (update s t)) :
    Meets R D (pass.within view update) t := by
  constructor
  · intro a u hu
    rw [outcome_within] at hu
    obtain ⟨hanswer, rfl⟩ := Prod.mk.inj hu
    exact hQ a _ (h.ok a _ (outcome_eq_of_fst hanswer))
  · intro fault u hu
    rw [outcome_within] at hu
    obtain ⟨hanswer, rfl⟩ := Prod.mk.inj hu
    exact hE fault _ (h.error fault _ (Prod.ext hanswer rfl))

end Meets

/-! ### Loops -/

section Loops

variable {I : σ → Prop} {P : β → Prop} {E : Fault → σ → Prop} {s : σ}

theorem meets_mapM {f : α → Pass σ β} {xs : List α}
    (h : ∀ a ∈ xs, ∀ s, I s → Meets (fun b t => I t ∧ P b) E (f a) s) (hs : I s) :
    Meets (fun bs t => I t ∧ ∀ b ∈ bs, P b) E (xs.mapM f) s := by
  induction xs generalizing s with
  | nil => exact meets_pure ⟨hs, by simp⟩
  | cons x xs ih =>
    rw [List.mapM_cons]
    refine (h x List.mem_cons_self s hs).bind fun b t ⟨ht, hb⟩ => ?_
    refine (ih (fun a ha => h a (List.mem_cons_of_mem x ha)) ht).bind fun bs u ⟨hu, hbs⟩ => ?_
    exact meets_pure ⟨hu, List.forall_mem_cons.2 ⟨hb, hbs⟩⟩

theorem meets_forM {f : α → Pass σ PUnit} {xs : List α}
    (h : ∀ a ∈ xs, ∀ s, I s → Meets (fun _ t => I t) E (f a) s) (hs : I s) :
    Meets (fun _ t => I t) E (xs.forM f) s := by
  induction xs generalizing s with
  | nil => exact meets_pure hs
  | cons x xs ih =>
    exact (h x List.mem_cons_self s hs).bind fun _ t ht =>
      ih (fun a ha => h a (List.mem_cons_of_mem x ha)) ht

theorem meets_foldlM {f : β → α → Pass σ β} {xs : List α} {b : β}
    (h : ∀ b, ∀ a ∈ xs, ∀ s, I s → P b → Meets (fun c t => I t ∧ P c) E (f b a) s) (hs : I s)
    (hb : P b) : Meets (fun c t => I t ∧ P c) E (xs.foldlM f b) s := by
  induction xs generalizing s b with
  | nil => exact meets_pure ⟨hs, hb⟩
  | cons x xs ih =>
    rw [List.foldlM_cons]
    exact (h b x List.mem_cons_self s hs hb).bind fun c t ⟨ht, hc⟩ =>
      ih (fun b a ha => h b a (List.mem_cons_of_mem x ha)) ht hc

end Loops

/-- Passes that keep an invariant and have faults of some kind only. -/
theorem CongruenceFor.meets (I : σ → Prop) (F : Fault → Prop) : CongruenceFor F fun _ x _ =>
    ∀ s, I s → Meets (fun _ t => I t) (fun fault t => I t ∧ F fault) x s where
  pure _ _ hs := meets_pure hs
  throw _ hfault _ hs := meets_throw ⟨hs, hfault⟩
  bind h hnext s hs := (h s hs).bind fun a t ht => hnext a t ht

end Pass

end LevelIr
