import LevelIr.Pass
import Mathlib.Data.List.Forall2
import Mathlib.Order.Defs.Unbundled

/-!
# What passes keep

What a pass has changed before it fails stays changed, so what holds of a state along a run has to
hold whether the run ends well or not.  A relation `R` between states is *kept* by a pass
(`Pass.Keeps`) if every state the pass reaches, with an answer or with a fault, is `R`-related to
the state it started from.  A relation that is reflexive and transitive is kept by a sequence, a
loop and a restriction to a part of the state as soon as it is kept by what they are made of.

A run that ends well can be taken apart (`Pass.outcome_bind_ok`), and a run over a list that ends
well has answered for each element, from a state between the first and the last one
(`Pass.outcome_mapM_ok`).  What is known of the answers, as long as an invariant holds of the
states, is put together from the parts in the same way (`Pass.Yields`).
-/

namespace LevelIr

namespace Pass

variable {σ τ α β : Type}

/-! ### Outcomes of the basic passes -/

theorem outcome_lift (answer : Except Fault α) (s : σ) :
    outcome (liftM answer : Pass σ α) s = (answer, s) := by
  cases answer <;> rfl

theorem outcome_get (s : σ) : outcome (get : Pass σ σ) s = (.ok s, s) := rfl

theorem outcome_bind_ok {pass : Pass σ α} {next : α → Pass σ β} {s t : σ} {b : β} :
    outcome (pass >>= next) s = (.ok b, t) ↔
      ∃ a u, outcome pass s = (.ok a, u) ∧ outcome (next a) u = (.ok b, t) := by
  rw [outcome_bind]
  obtain ⟨answer, u⟩ := outcome pass s
  cases answer with
  | ok a =>
    constructor
    · intro h
      exact ⟨a, u, rfl, h⟩
    · rintro ⟨a', u', hau, h⟩
      cases hau
      exact h
  | error fault =>
    constructor
    · intro h
      cases h
    · rintro ⟨a', u', hau, -⟩
      cases hau

theorem outcome_lift_ok {answer : Except Fault α} {s t : σ} {a : α} :
    outcome (liftM answer : Pass σ α) s = (.ok a, t) ↔ answer = .ok a ∧ s = t := by
  rw [outcome_lift, Prod.mk.injEq]

theorem outcome_eq_of_fst {pass : Pass σ α} {s : σ} {a : α} (h : (outcome pass s).1 = .ok a) :
    outcome pass s = (.ok a, (outcome pass s).2) := by
  rw [← h]

theorem exists_outcome_of_isOk {pass : Pass σ α} {s : σ} (h : (outcome pass s).1.isOk = true) :
    ∃ a t, outcome pass s = (.ok a, t) := by
  generalize outcome pass s = reached at h
  obtain ⟨answer, t⟩ := reached
  cases answer with
  | ok a => exact ⟨a, t, rfl⟩
  | error fault => cases h

theorem bind_eq_ok {answer : Except Fault α} {next : α → Except Fault β} {b : β} :
    answer >>= next = .ok b ↔ ∃ a, answer = .ok a ∧ next a = .ok b := by
  cases answer <;> simp [bind, Except.bind]

/-! ### Relations that are kept -/

/-- Every state that the pass reaches, with an answer or with a fault, is related to the state it
starts from. -/
def Keeps (R : σ → σ → Prop) (pass : Pass σ α) : Prop := ∀ s, R s (outcome pass s).2

theorem Keeps.of_outcome {R : σ → σ → Prop} {pass : Pass σ α} (h : Keeps R pass) {s t : σ}
    {answer : Except Fault α} (ht : outcome pass s = (answer, t)) : R s t := by
  have := h s
  rwa [ht] at this

section Preorder

variable {R : σ → σ → Prop} [IsPreorder σ R]

theorem keeps_pure (a : α) : Keeps R (pure a : Pass σ α) := fun s => refl_of R s

theorem keeps_throw (fault : Fault) : Keeps R (throw fault : Pass σ α) := fun s => refl_of R s

theorem keeps_get : Keeps R (get : Pass σ σ) := fun s => refl_of R s

theorem keeps_lift (answer : Except Fault α) : Keeps R (liftM answer : Pass σ α) := by
  intro s
  rw [outcome_lift]
  exact refl_of R s

omit [IsPreorder σ R] in
theorem keeps_modify {change : σ → σ} (h : ∀ s, R s (change s)) :
    Keeps R (modify change : Pass σ PUnit) := h

/-- What comes after an answer is only run from where the answer was given. -/
theorem Keeps.bind_ok {pass : Pass σ α} {next : α → Pass σ β} (h : Keeps R pass)
    (hnext : ∀ s a t, outcome pass s = (.ok a, t) → R t (outcome (next a) t).2) :
    Keeps R (pass >>= next) := by
  intro s
  have hs := h s
  have hanswer := hnext s
  rw [outcome_bind]
  generalize outcome pass s = reached at hs hanswer ⊢
  obtain ⟨answer, u⟩ := reached
  cases answer with
  | ok a => exact trans_of R hs (hanswer a u rfl)
  | error fault => exact hs

theorem Keeps.bind {pass : Pass σ α} {next : α → Pass σ β} (h : Keeps R pass)
    (hnext : ∀ a, Keeps R (next a)) : Keeps R (pass >>= next) :=
  h.bind_ok fun _ a t _ => hnext a t

theorem keeps_mapM {f : α → Pass σ β} (h : ∀ a, Keeps R (f a)) (xs : List α) :
    Keeps R (xs.mapM f) := by
  induction xs with
  | nil => exact keeps_pure _
  | cons x xs ih =>
    rw [List.mapM_cons]
    exact (h x).bind fun b => ih.bind fun bs => keeps_pure _

theorem keeps_forM {f : α → Pass σ PUnit} (h : ∀ a, Keeps R (f a)) (xs : List α) :
    Keeps R (xs.forM f) := by
  induction xs with
  | nil => exact keeps_pure _
  | cons x xs ih => exact (h x).bind fun _ => ih

theorem keeps_foldlM {f : β → α → Pass σ β} (h : ∀ b a, Keeps R (f b a)) (xs : List α) (b : β) :
    Keeps R (xs.foldlM f b) := by
  induction xs generalizing b with
  | nil => exact keeps_pure b
  | cons x xs ih =>
    rw [List.foldlM_cons]
    exact (h b x).bind fun c => ih c

theorem keeps_optionMapM {f : α → Pass σ β} (h : ∀ a, Keeps R (f a)) (x : Option α) :
    Keeps R (x.mapM f) := by
  cases x with
  | none => exact keeps_pure none
  | some a => exact (h a).bind fun b => keeps_pure (some b)

omit [IsPreorder σ R] in
/-- A pass on a part of a larger state keeps what it does to that part. -/
theorem Keeps.within {Q : τ → τ → Prop} {view : τ → σ} {update : σ → τ → τ} {pass : Pass σ α}
    (h : Keeps R pass) (hQ : ∀ t s, R (view t) s → Q t (update s t)) :
    Keeps Q (pass.within view update) := by
  intro t
  rw [outcome_within]
  exact hQ t _ (h (view t))

/-- A run over a list that ends well has answered for each element, from a state that comes after
the first one, and the last state comes after the one it reached. -/
theorem outcome_mapM_ok {f : α → Pass σ β} (hf : ∀ a, Keeps R (f a)) {xs : List α} {ys : List β}
    {s t : σ} (h : outcome (xs.mapM f) s = (.ok ys, t)) :
    List.Forall₂ (fun x y => ∃ u v, R s u ∧ outcome (f x) u = (.ok y, v) ∧ R v t) xs ys := by
  induction xs generalizing s ys with
  | nil =>
    cases h
    exact .nil
  | cons x xs ih =>
    rw [List.mapM_cons] at h
    obtain ⟨y, u, hx, h⟩ := outcome_bind_ok.1 h
    obtain ⟨zs, v, hxs, h⟩ := outcome_bind_ok.1 h
    cases h
    have hu : R s u := (hf x).of_outcome hx
    refine .cons ⟨s, u, refl_of R s, hx, (keeps_mapM hf xs).of_outcome hxs⟩ ?_
    refine (ih hxs).imp ?_
    rintro a b ⟨u', v', hu', ha, hv'⟩
    exact ⟨u', v', trans_of R hu hu', ha, hv'⟩

/-- Each answer of a run over a list that ends well was given for an element. -/
theorem outcome_mapM_mem {f : α → Pass σ β} (hf : ∀ a, Keeps R (f a)) {xs : List α} {ys : List β}
    {s t : σ} (h : outcome (xs.mapM f) s = (.ok ys, t)) {y : β} (hy : y ∈ ys) :
    ∃ x ∈ xs, ∃ u v, R s u ∧ outcome (f x) u = (.ok y, v) ∧ R v t := by
  have hall := outcome_mapM_ok hf h
  clear h
  induction hall with
  | nil => cases hy
  | @cons x _ _ _ hx _ ih =>
    rcases List.mem_cons.1 hy with rfl | hy
    · exact ⟨x, List.mem_cons_self, hx⟩
    · obtain ⟨x', hx', hrun⟩ := ih hy
      exact ⟨x', List.mem_cons_of_mem x hx', hrun⟩

end Preorder

/-! ### Answers under an invariant -/

/-- Every run that ends well from a state with the invariant `I` has an answer with `Q`, and reaches
a state with the invariant. -/
def Yields (I : σ → Prop) (Q : α → Prop) (pass : Pass σ α) : Prop :=
  ∀ ⦃s a t⦄, I s → outcome pass s = (.ok a, t) → Q a ∧ I t

section Yields

variable {I : σ → Prop} {Q : α → Prop} {Q' : β → Prop}

theorem yields_pure {a : α} (h : Q a) : Yields I Q (pure a : Pass σ α) := by
  intro s b t hs ht
  cases ht
  exact ⟨h, hs⟩

theorem yields_lift {answer : Except Fault α} (h : ∀ a, answer = .ok a → Q a) :
    Yields I Q (liftM answer : Pass σ α) := by
  intro s a t hs ht
  obtain ⟨hanswer, rfl⟩ := outcome_lift_ok.1 ht
  exact ⟨h a hanswer, hs⟩

theorem yields_trivial (pass : Pass σ α) : Yields (fun _ => True) (fun _ => True) pass :=
  fun _ _ _ _ _ => ⟨trivial, trivial⟩

theorem Yields.bind {pass : Pass σ α} {next : α → Pass σ β} (h : Yields I Q pass)
    (hnext : ∀ a, Q a → Yields I Q' (next a)) : Yields I Q' (pass >>= next) := by
  intro s b t hs ht
  obtain ⟨a, u, ha, hb⟩ := outcome_bind_ok.1 ht
  obtain ⟨hQ, hu⟩ := h hs ha
  exact hnext a hQ hu hb

theorem yields_get_bind {next : σ → Pass σ α} (h : ∀ s, I s → Yields I Q (next s)) :
    Yields I Q (get >>= next) := by
  intro s a t hs ht
  obtain ⟨_, _, hget, ha⟩ := outcome_bind_ok.1 ht
  cases hget
  exact h s hs hs ha

theorem yields_mapM {R : α → β → Prop} {f : α → Pass σ β} (h : ∀ a, Yields I (R a) (f a))
    (xs : List α) : Yields I (List.Forall₂ R xs) (xs.mapM f) := by
  induction xs with
  | nil => exact yields_pure .nil
  | cons x xs ih =>
    rw [List.mapM_cons]
    exact (h x).bind fun b hb => ih.bind fun bs hbs => yields_pure (.cons hb hbs)

theorem yields_mapM_mem {f : α → Pass σ β} (h : ∀ a, Yields I Q' (f a)) (xs : List α) :
    Yields I (fun bs => ∀ b ∈ bs, Q' b) (xs.mapM f) := by
  induction xs with
  | nil => exact yields_pure fun _ hb => by cases hb
  | cons x xs ih =>
    rw [List.mapM_cons]
    exact (h x).bind fun b hb => ih.bind fun bs hbs =>
      yields_pure (List.forall_mem_cons.2 ⟨hb, hbs⟩)

theorem yields_forM {f : α → Pass σ PUnit} (h : ∀ a, Yields I (fun _ => True) (f a))
    (xs : List α) : Yields I (fun _ => True) (xs.forM f) := by
  induction xs with
  | nil => exact yields_pure trivial
  | cons x xs ih => exact (h x).bind fun _ _ => ih

end Yields

end Pass

end LevelIr
