import LevelIr.Proofs.Pass.Simulates

/-!
# Passes that repeat themselves

A pass that looks up what it has found before does so in a state that has moved on since then.  It
*repeats* itself (`Pass.Repeats`) if that makes no difference: once it has given an answer, it gives
the same answer in every later state, and leaves that state as it is.  If it fails, then it fails
again in the state that it has left behind.

Of a state only a part matters, its *view*, and what comes later is said by a relation between
views.  A sequence repeats itself if its parts do: the first part is run again in a state that is
later still.

* `Pass.Repeats.bind`, `Pass.repeats_mapM`, `Pass.repeats_foldlM` : sequences and loops.
* `Pass.Repeats.rerun` : a pass that repeats itself can be run twice, to the same effect.
-/

namespace LevelIr

namespace Pass

variable {σ ρ α β : Type}

/-- From the state `s` on, running the pass again changes nothing. -/
structure Repeats (view : σ → ρ) (R : ρ → ρ → Prop) (pass : Pass σ α) (s : σ) : Prop where
  /-- What the pass reaches comes later. -/
  later : R (view s) (view (outcome pass s).2)
  /-- An answer is given again in every later state. -/
  again : ∀ a t, outcome pass s = (.ok a, t) → ∀ u, R (view t) (view u) →
    ∃ v, outcome pass u = (.ok a, v) ∧ view v = view u
  /-- A failure is met again in the state that it has left behind. -/
  fails : ∀ fault t, outcome pass s = (.error fault, t) → ∀ u, view u = view t →
    ∃ v, outcome pass u = (.error fault, v) ∧ view v = view u

section Repeats

variable {view : σ → ρ} {R : ρ → ρ → Prop} {s : σ}

theorem Repeats.of_outcome {pass : Pass σ α} (h : Repeats view R pass s) {t : σ}
    {answer : Except Fault α} (ht : outcome pass s = (answer, t)) : R (view s) (view t) := by
  have := h.later
  rwa [ht] at this

/-- **A pass that repeats itself can be run twice**, with the same answer or the same fault. -/
theorem Repeats.rerun [IsPreorder ρ R] {pass : Pass σ α} (h : Repeats view R pass s) :
    ∃ v, outcome pass (outcome pass s).2 = ((outcome pass s).1, v) ∧
      view v = view (outcome pass s).2 := by
  obtain ⟨answer, t, ht⟩ : ∃ answer t, outcome pass s = (answer, t) := ⟨_, _, rfl⟩
  rw [ht]
  cases answer with
  | ok a => exact h.again a t ht t (refl_of R _)
  | error fault => exact h.fails fault t ht t rfl

/-- A pass that only looks at what later states do not change. -/
theorem repeats_of_reads [IsPreorder ρ R] {pass : Pass σ α} {answer : Except Fault α}
    (h : ∀ u, R (view s) (view u) → outcome pass u = (answer, u)) : Repeats view R pass s := by
  have hs := h s (refl_of R _)
  refine ⟨?_, fun a t ht u hu => ?_, fun fault t ht u hu => ?_⟩
  · rw [hs]
    exact refl_of R _
  · rw [hs] at ht
    cases ht
    exact ⟨u, h u hu, rfl⟩
  · rw [hs] at ht
    cases ht
    exact ⟨u, h u (hu ▸ refl_of R _), rfl⟩

theorem repeats_pure [IsPreorder ρ R] (a : α) : Repeats view R (pure a) s :=
  repeats_of_reads fun _ _ => rfl

theorem repeats_throw [IsPreorder ρ R] (fault : Fault) :
    Repeats view R (throw fault : Pass σ α) s :=
  repeats_of_reads fun _ _ => rfl

theorem repeats_lift [IsPreorder ρ R] (answer : Except Fault α) :
    Repeats view R (liftM answer : Pass σ α) s :=
  repeats_of_reads fun u _ => outcome_lift answer u

theorem Repeats.bind [IsPreorder ρ R] {pass : Pass σ α} {next : α → Pass σ β}
    (h : Repeats view R pass s)
    (hnext : ∀ a t, outcome pass s = (.ok a, t) → Repeats view R (next a) t) :
    Repeats view R (pass >>= next) s := by
  obtain ⟨answer, t, ht⟩ : ∃ answer t, outcome pass s = (answer, t) := ⟨_, _, rfl⟩
  have hlater := h.of_outcome ht
  cases answer with
  | error fault =>
    have hs : outcome (pass >>= next) s = (.error fault, t) := by rw [outcome_bind, ht]
    refine ⟨?_, fun b t' ht' => ?_, fun fault' t' ht' u hu => ?_⟩
    · rw [hs]
      exact hlater
    · rw [hs] at ht'
      cases ht'
    · rw [hs] at ht'
      cases ht'
      obtain ⟨v, hv, hview⟩ := h.fails fault t ht u hu
      exact ⟨v, by rw [outcome_bind, hv], hview⟩
  | ok a =>
    have hrest := hnext a t ht
    have hs : outcome (pass >>= next) s = outcome (next a) t := by rw [outcome_bind, ht]
    -- the first part is run again after the second one, where it changes nothing
    have hfirst {u : σ} (hu : R (view t) (view u)) : ∃ v, outcome (pass >>= next) u =
        outcome (next a) v ∧ view v = view u := by
      obtain ⟨v, hv, hview⟩ := h.again a t ht u hu
      exact ⟨v, by rw [outcome_bind, hv], hview⟩
    refine ⟨?_, fun b t' ht' u hu => ?_, fun fault t' ht' u hu => ?_⟩
    · rw [hs]
      exact trans_of R hlater hrest.later
    · rw [hs] at ht'
      obtain ⟨v, hv, hview⟩ := hfirst (trans_of R (hrest.of_outcome ht') hu)
      obtain ⟨v', hv', hview'⟩ := hrest.again b t' ht' v (hview ▸ hu)
      exact ⟨v', hv.trans hv', hview'.trans hview⟩
    · rw [hs] at ht'
      obtain ⟨v, hv, hview⟩ := hfirst (hu ▸ hrest.of_outcome ht')
      obtain ⟨v', hv', hview'⟩ := hrest.fails fault t' ht' v (hview.trans hu)
      exact ⟨v', hv.trans hv', hview'.trans hview⟩

/-- What comes after a look at the state may depend on what later states do not change. -/
theorem Repeats.get_bind [IsPreorder ρ R] {next : σ → Pass σ α} (h : Repeats view R (next s) s)
    (hsame : ∀ u, R (view s) (view u) → next u = next s) :
    Repeats view R (get >>= next) s := by
  have hget (u : σ) : outcome (get >>= next) u = outcome (next u) u := by
    rw [outcome_bind, outcome_get]
  refine ⟨?_, fun a t ht u hu => ?_, fun fault t ht u hu => ?_⟩
  · rw [hget]
    exact h.later
  · rw [hget] at ht
    rw [hget, hsame u (trans_of R (h.of_outcome ht) hu)]
    exact h.again a t ht u hu
  · rw [hget] at ht
    rw [hget, hsame u (hu ▸ h.of_outcome ht)]
    exact h.fails fault t ht u hu

section Loops

variable [IsPreorder ρ R]

theorem repeats_mapM {f : α → Pass σ β} (h : ∀ a s, Repeats view R (f a) s) (xs : List α) (s : σ) :
    Repeats view R (xs.mapM f) s := by
  induction xs generalizing s with
  | nil => exact repeats_pure _
  | cons x xs ih =>
    rw [List.mapM_cons]
    exact (h x s).bind fun b t _ => (ih t).bind fun bs u _ => repeats_pure _

theorem repeats_forM {f : α → Pass σ PUnit} (h : ∀ a s, Repeats view R (f a) s) (xs : List α)
    (s : σ) : Repeats view R (xs.forM f) s := by
  induction xs generalizing s with
  | nil => exact repeats_pure _
  | cons x xs ih => exact (h x s).bind fun _ t _ => ih t

theorem repeats_foldlM {f : β → α → Pass σ β} (h : ∀ b a s, Repeats view R (f b a) s)
    (xs : List α) (b : β) (s : σ) : Repeats view R (xs.foldlM f b) s := by
  induction xs generalizing b s with
  | nil => exact repeats_pure b
  | cons x xs ih =>
    rw [List.foldlM_cons]
    exact (h b x s).bind fun c t _ => ih c t

end Loops

/-- Passes that repeat themselves from every state. -/
theorem Congruence.repeats (view : σ → ρ) (R : ρ → ρ → Prop) [IsPreorder ρ R] :
    Congruence fun _ x _ => ∀ s, Repeats view R x s where
  pure a _ := repeats_pure a
  throw fault _ _ := repeats_throw fault
  bind h hnext s := (h s).bind fun a t _ => hnext a t

end Repeats

end Pass

end LevelIr
