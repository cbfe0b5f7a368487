import LevelIr.Proofs.Pass

/-!
# Passes side by side

Two runs are compared by what they do step by step.  A pass *simulates* another one
(`Pass.Simulates`) if every run of the first that ends well is matched by a run of the second, from
related states to related states and with related answers.  Passes that are put together in the same
way from parts that simulate each other do so, too.

Two passes run *in step* (`Pass.InStep`) if their failing runs match as well, up to the states that
they leave behind.

Many properties of passes come about in this way.  A *congruence* (`Pass.Congruence`) is a relation
between passes that holds of what is put together if it holds of the parts; what is shown once for
all congruences then holds of each of them.  A relation that says something of the faults is a
congruence for those faults only that it allows (`Pass.CongruenceFor`).

* `Pass.Simulates.bind`, `Pass.InStep.bind` : sequences match each other if their parts do.
* `Pass.CongruenceFor.mapM`, `Pass.CongruenceFor.forM` : loops are put together from their steps.
* `Pass.Congruence.simulates` : simulation with the same answers is a congruence.
-/

namespace LevelIr

namespace Pass

variable {σ τ α β γ δ : Type}

/-! ### Simulation -/

/-- Every run of `x` that ends well is matched by one of `y`: from states that are related by `S` to
states that are related by `S`, with answers that are related by `A`. -/
def Simulates (S : σ → τ → Prop) (A : α → β → Prop) (x : Pass σ α) (y : Pass τ β) : Prop :=
  ∀ ⦃s u a t⦄, S s u → outcome x s = (.ok a, t) → ∃ b v, outcome y u = (.ok b, v) ∧ A a b ∧ S t v

section Simulates

variable {S : σ → τ → Prop} {A : α → β → Prop} {B : γ → δ → Prop}

theorem simulates_pure {a : α} {b : β} (h : A a b) :
    Simulates S A (pure a : Pass σ α) (pure b : Pass τ β) := by
  intro s u a' t hs hx
  cases hx
  exact ⟨b, u, rfl, h, hs⟩

theorem simulates_lift {x : Except Fault α} {y : Except Fault β}
    (h : ∀ a, x = .ok a → ∃ b, y = .ok b ∧ A a b) :
    Simulates S A (liftM x : Pass σ α) (liftM y : Pass τ β) := by
  intro s u a t hs hx
  obtain ⟨hanswer, rfl⟩ := outcome_lift_ok.1 hx
  obtain ⟨b, rfl, hab⟩ := h a hanswer
  exact ⟨b, u, outcome_lift _ _, hab, hs⟩

theorem Simulates.bind {x : Pass σ α} {y : Pass τ β} {f : α → Pass σ γ} {g : β → Pass τ δ}
    (h : Simulates S A x y) (hnext : ∀ a b, A a b → Simulates S B (f a) (g b)) :
    Simulates S B (x >>= f) (y >>= g) := by
  intro s u c t hs hx
  obtain ⟨a, s₁, hxa, hfa⟩ := outcome_bind_ok.1 hx
  obtain ⟨b, u₁, hyb, hab, hs₁⟩ := h hs hxa
  obtain ⟨d, v, hgb, hcd, hv⟩ := hnext a b hab hs₁ hfa
  exact ⟨d, v, outcome_bind_ok.2 ⟨b, u₁, hyb, hgb⟩, hcd, hv⟩

theorem Simulates.imp {A' : α → β → Prop} {x : Pass σ α} {y : Pass τ β} (h : Simulates S A x y)
    (hA : ∀ a b, A a b → A' a b) : Simulates S A' x y := by
  intro s u a t hs hx
  obtain ⟨b, v, hy, hab, hv⟩ := h hs hx
  exact ⟨b, v, hy, hA a b hab, hv⟩

/-- What is known of the answers of a pass holds beside what relates them to those of another. -/
theorem Simulates.and_yields {I : σ → Prop} {Q : α → Prop} {x : Pass σ α} {y : Pass τ β}
    (h : Simulates S A x y) (hS : ∀ s u, S s u → I s) (hx : Yields I Q x) :
    Simulates S (fun a b => A a b ∧ Q a) x y := by
  intro s u a t hs ha
  obtain ⟨b, v, hy, hab, hv⟩ := h hs ha
  exact ⟨b, v, hy, ⟨hab, (hx (hS s u hs) ha).1⟩, hv⟩

/-- What comes after a look at the state may depend on what is the same in related states. -/
theorem simulates_get_bind {f : σ → Pass σ γ} {g : τ → Pass τ δ}
    (h : ∀ s u, S s u → Simulates S B (f s) (g u)) : Simulates S B (get >>= f) (get >>= g) := by
  intro s u c t hs hx
  obtain ⟨_, _, hget, hf⟩ := outcome_bind_ok.1 hx
  cases hget
  obtain ⟨d, v, hg, hcd, hv⟩ := h s u hs hs hf
  exact ⟨d, v, outcome_bind_ok.2 ⟨u, u, rfl, hg⟩, hcd, hv⟩

end Simulates

/-! ### Runs in step -/

/-- Two answers are alike: both are given, and related by `A`, or both fail with the same fault. -/
inductive SameEnd (A : α → β → Prop) : Except Fault α → Except Fault β → Prop where
  | ok {a : α} {b : β} (h : A a b) : SameEnd A (.ok a) (.ok b)
  | error (fault : Fault) : SameEnd A (.error fault) (.error fault)

/-- The two passes run in step: from states that are related by `S` to states that are related by
`S`, also if they fail, with answers that are alike. -/
def InStep (S : σ → τ → Prop) (A : α → β → Prop) (x : Pass σ α) (y : Pass τ β) : Prop :=
  ∀ ⦃s u⦄, S s u → SameEnd A (outcome x s).1 (outcome y u).1 ∧ S (outcome x s).2 (outcome y u).2

section InStep

variable {S : σ → τ → Prop} {A : α → β → Prop} {B : γ → δ → Prop}

theorem inStep_pure {a : α} {b : β} (h : A a b) :
    InStep S A (pure a : Pass σ α) (pure b : Pass τ β) := fun _ _ hs => ⟨.ok h, hs⟩

theorem inStep_modify {f : σ → σ} {g : τ → τ} (h : ∀ s u, S s u → S (f s) (g u)) :
    InStep S Eq (modify f : Pass σ PUnit) (modify g : Pass τ PUnit) :=
  fun s u hs => ⟨.ok rfl, h s u hs⟩

theorem inStep_lift (x : Except Fault α) :
    InStep S Eq (liftM x : Pass σ α) (liftM x : Pass τ α) := by
  intro s u hs
  rw [outcome_lift, outcome_lift]
  cases x with
  | error fault => exact ⟨.error fault, hs⟩
  | ok a => exact ⟨.ok rfl, hs⟩

/-- A pass runs in step with itself. -/
theorem inStep_refl (x : Pass σ α) : InStep Eq Eq x x := by
  rintro s _ rfl
  refine ⟨?_, rfl⟩
  cases (outcome x s).1 with
  | error fault => exact .error fault
  | ok a => exact .ok rfl

theorem InStep.bind {x : Pass σ α} {y : Pass τ β} {f : α → Pass σ γ} {g : β → Pass τ δ}
    (h : InStep S A x y) (hnext : ∀ a b, A a b → InStep S B (f a) (g b)) :
    InStep S B (x >>= f) (y >>= g) := by
  intro s u hs
  obtain ⟨hend, hreached⟩ := h hs
  rw [outcome_bind, outcome_bind]
  generalize outcome x s = first at hend hreached
  generalize outcome y u = second at hend hreached
  obtain ⟨answer, s'⟩ := first
  obtain ⟨answer', u'⟩ := second
  cases hend with
  | ok hab => exact hnext _ _ hab hreached
  | error fault => exact ⟨.error fault, hreached⟩

theorem inStep_get_bind {f : σ → Pass σ γ} {g : τ → Pass τ δ}
    (h : ∀ s u, S s u → InStep S B (f s) (g u)) : InStep S B (get >>= f) (get >>= g) :=
  fun s u hs => h s u hs hs

theorem inStep_foldlM {f : γ → α → Pass σ γ} {g : δ → α → Pass τ δ}
    (h : ∀ c d a, B c d → InStep S B (f c a) (g d a)) (xs : List α) {c : γ} {d : δ}
    (hcd : B c d) : InStep S B (xs.foldlM f c) (xs.foldlM g d) := by
  induction xs generalizing c d with
  | nil => exact inStep_pure hcd
  | cons a xs ih =>
    rw [List.foldlM_cons, List.foldlM_cons]
    exact (h c d a hcd).bind fun _ _ => ih

end InStep

/-! ### Congruences -/

/-- A relation between passes that holds of what is put together if it holds of the parts, where
faults as in `F` may arise by themselves. -/
structure CongruenceFor (F : Fault → Prop) (R : (α : Type) → Pass σ α → Pass σ α → Prop) :
    Prop where
  pure : ∀ {α : Type} (a : α), R α (pure a) (pure a)
  throw : ∀ {α : Type} (fault : Fault), F fault → R α (throw fault) (throw fault)
  bind : ∀ {α β : Type} {x y : Pass σ α} {f g : α → Pass σ β}, R α x y →
    (∀ a, R β (f a) (g a)) → R β (x >>= f) (y >>= g)

/-- A relation between passes that holds of what is put together if it holds of the parts. -/
abbrev Congruence (R : (α : Type) → Pass σ α → Pass σ α → Prop) : Prop :=
  CongruenceFor (fun _ => True) R

namespace CongruenceFor

variable {F : Fault → Prop} {R : (α : Type) → Pass σ α → Pass σ α → Prop}
  (hR : CongruenceFor F R)

include hR

/-- What comes after an answer that is known beforehand may depend on it. -/
theorem lift_bind {answer : Except Fault α} {f g : α → Pass σ β}
    (hF : ∀ fault, answer = .error fault → F fault)
    (h : ∀ a, answer = .ok a → R β (f a) (g a)) :
    R β (liftM answer >>= f) (liftM answer >>= g) := by
  cases answer with
  | error fault => exact hR.throw fault (hF fault rfl)
  | ok a => exact h a rfl

theorem mapM {f g : α → Pass σ β} {xs : List α} (h : ∀ a ∈ xs, R β (f a) (g a)) :
    R (List β) (xs.mapM f) (xs.mapM g) := by
  induction xs with
  | nil => exact hR.pure _
  | cons x xs ih =>
    rw [List.mapM_cons, List.mapM_cons]
    exact hR.bind (h x List.mem_cons_self) fun b =>
      hR.bind (ih fun a ha => h a (List.mem_cons_of_mem x ha)) fun bs => hR.pure _

theorem forM {f g : α → Pass σ PUnit} {xs : List α} (h : ∀ a ∈ xs, R PUnit (f a) (g a)) :
    R PUnit (xs.forM f) (xs.forM g) := by
  induction xs with
  | nil => exact hR.pure _
  | cons x xs ih =>
    exact hR.bind (h x List.mem_cons_self) fun _ => ih fun a ha => h a (List.mem_cons_of_mem x ha)

theorem optionMapM {f g : α → Pass σ β} {x : Option α} (h : ∀ a ∈ x, R β (f a) (g a)) :
    R (Option β) (x.mapM f) (x.mapM g) := by
  cases x with
  | none => exact hR.pure none
  | some a => exact hR.bind (h a rfl) fun b => hR.pure (some b)

end CongruenceFor

theorem Congruence.lift_bind {R : (α : Type) → Pass σ α → Pass σ α → Prop} (hR : Congruence R)
    {answer : Except Fault α} {f g : α → Pass σ β} (h : ∀ a, answer = .ok a → R β (f a) (g a)) :
    R β (liftM answer >>= f) (liftM answer >>= g) :=
  CongruenceFor.lift_bind hR (fun _ _ => trivial) h

/-- Passes that simulate each other with the same answers. -/
theorem Congruence.simulates (S : σ → σ → Prop) :
    Congruence fun _ x y => Simulates S Eq x y where
  pure _ := simulates_pure rfl
  throw fault _ := fun s u a t _ hx => by cases hx
  bind h hnext := h.bind fun a b hab => hab ▸ hnext a

/-- Passes that keep a relation. -/
theorem Congruence.keeps (R : σ → σ → Prop) [IsPreorder σ R] :
    Congruence fun _ x _ => Keeps R x where
  pure := keeps_pure
  throw fault _ := keeps_throw fault
  bind h hnext := h.bind hnext

end Pass

end LevelIr
