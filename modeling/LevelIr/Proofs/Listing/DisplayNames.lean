import LevelIr.Proofs.Names
import LevelIr.Proofs.Text

/-!
# Display names that coincide

A register is displayed by a stem and the name of its function, with an underscore between them.
The stem of a parameter is its own name, or its position if it has none; that of an unnamed result
is the number of the next temporary.  Temporaries are numbered through the whole program, so no two
registers that had no name get the same display name.

The name that a parameter has of its own can be anything, though.  It can read like the stem of
another register of the function, and it can hold an underscore, so that its end and the name of the
function read like the name of another function.

* `Names.display` : the display name of a register.
* `Workspace.Displays` : what holds of the names on the way from a fresh context.
* `Workspace.name_eq_iff_of_transcribe` : which registers get the same display name.
* `Workspace.transcribe_homonyms` : a parameter that is displayed like a temporary.
-/

namespace LevelIr

namespace Program

variable (p : Program)

/-- The name of the function that a register belongs to. -/
def ownerName (v : ValueId) : String :=
  match (p.value? v).map Value.origin with
  | some (.argument f _) => ((p.function? f).map Function.name).getD ""
  | some (.result i) => (((p.functionOf i).toOption.bind p.function?).map Function.name).getD ""
  | _ => ""

variable {p}

/-- Two places hold related entries only if they are one, where no two entries are related. -/
theorem index_eq_of_pairwise {α : Type} {R : α → α → Prop} {entries : Array α}
    (h : entries.toList.Pairwise fun a b => ¬ R a b) (hsymm : ∀ a b, R a b → R b a) {m n : Nat}
    {a b : α} (hm : entries[m]? = some a) (hn : entries[n]? = some b) (hab : R a b) : m = n := by
  rw [List.pairwise_iff_getElem] at h
  obtain ⟨hlt, rfl⟩ := Array.getElem?_eq_some_iff.1 hm
  obtain ⟨hlt', rfl⟩ := Array.getElem?_eq_some_iff.1 hn
  rcases Nat.lt_trichotomy m n with hmn | hmn | hmn
  · exact absurd hab (h m n hlt hlt' hmn)
  · exact hmn
  · exact absurd (hsymm _ _ hab) (h n m hlt' hlt hmn)

/-- Values with the same name are one, if no two names are the same. -/
theorem eq_of_name_eq (h : ((p.values.toList.filter Value.isNamed).map Value.name).Nodup)
    {u v : ValueId} {value value' : Value} (hu : p.value? u = some value)
    (hv : p.value? v = some value') (hnamed : value.isNamed = true)
    (hnamed' : value'.isNamed = true) (hname : value.name = value'.name) : u = v := by
  rw [List.Nodup, List.pairwise_map, List.pairwise_filter] at h
  have hapart : p.values.toList.Pairwise
      fun a b => ¬ (a.isNamed = true ∧ b.isNamed = true ∧ a.name = b.name) :=
    h.imp fun hne hboth => hne hboth.1 hboth.2.1 hboth.2.2
  exact congrArg ValueId.mk (index_eq_of_pairwise hapart
    (fun _ _ hboth => ⟨hboth.2.1, hboth.1, hboth.2.2.symm⟩) hu hv ⟨hnamed, hnamed', hname⟩)

/-- Functions with the same name are one, if no two names are the same. -/
theorem function_eq_of_name_eq (h : (p.functions.toList.map Function.name).Nodup)
    {f g : FunctionId} {function function' : Function} (hf : p.function? f = some function)
    (hg : p.function? g = some function') (hname : function.name = function'.name) : f = g := by
  rw [List.Nodup, List.pairwise_map] at h
  exact congrArg FunctionId.mk
    (index_eq_of_pairwise h (fun _ _ hsame => hsame.symm) hf hg hname)

theorem functionOf_of_nameless {q : Program} (h : q.nameless = p.nameless) (i : InstId) :
    q.functionOf i = p.functionOf i := by
  simp only [functionOf, inst_of_nameless h, block_of_nameless h]

end Program

namespace Names

variable (p : Program)

/-- The number of a temporary: how many of the values that were given a name before it are no
parameters.  The most recent value comes first. -/
def number : List ValueId → ValueId → Nat
  | [], _ => 0
  | u :: earlier, v => if u = v then earlier.countP (!p.isParameter ·) else number earlier v

/-- What the display name of a register starts with. -/
def stem (renamed : List ValueId) (v : ValueId) : String :=
  match p.value? v with
  | some value =>
    match value.origin with
    | .argument _ position => value.name?.getD ("arg" ++ toString position)
    | _ => "t" ++ toString (number p renamed v)
  | none => ""

/-- The display name of a register. -/
def display (renamed : List ValueId) (v : ValueId) : String :=
  stem p renamed v ++ "_" ++ p.ownerName v

/-- The name that the parameter `v` has of its own makes it read like `u`: the name is the stem of
`u`, a register without a name, and their functions are called the same, or the name starts with
the stem of `u` and ends with what the function of `u` has before the name of the function of
`v`. -/
def Imitates (renamed : List ValueId) (u v : ValueId) : Prop :=
  p.isParameter v = true ∧ p.isNamed v = true ∧
    ((p.isNamed u = false ∧ stem p renamed v = stem p renamed u ∧ p.ownerName v = p.ownerName u) ∨
      ∃ x, p.ownerName u = x ++ "_" ++ p.ownerName v ∧
        stem p renamed v = stem p renamed u ++ "_" ++ x)

variable {p} {renamed : List ValueId} {u v : ValueId}

theorem Imitates.display_eq (h : Imitates p renamed u v) :
    display p renamed u = display p renamed v := by
  obtain ⟨-, -, ⟨-, hstem, howner⟩ | ⟨x, howner, hstem⟩⟩ := h
  · exact append_underscore_eq_iff.2 (.inl ⟨hstem.symm, howner.symm⟩)
  · exact append_underscore_eq_iff.2 (.inr (.inl ⟨x, howner, hstem⟩))

section Register

variable {value : Value} {f : FunctionId} {function : Function}

theorem display_of_argument {position : Nat} (hvalue : p.value? v = some value)
    (horigin : value.origin = .argument f position) (hf : p.function? f = some function) :
    display p renamed v = formalName value position function := by
  simp [display, stem, formalName, Program.ownerName, hvalue, horigin, hf]

theorem display_of_result {i : InstId} (hvalue : p.value? v = some value)
    (horigin : value.origin = .result i) (hi : p.functionOf i = .ok f)
    (hf : p.function? f = some function) :
    display p renamed v = temporaryName (number p renamed v) function := by
  simp [display, stem, temporaryName, Program.ownerName, hvalue, horigin, hi, hf, Except.toOption]

end Register

theorem number_lt (hv : v ∈ renamed) (hparam : p.isParameter v = false) :
    number p renamed v < renamed.countP (!p.isParameter ·) := by
  induction renamed with
  | nil => cases hv
  | cons x earlier ih =>
    rw [number, List.countP_cons]
    split
    · rename_i hx
      simp [hx, hparam]
    · rename_i hx
      have hmem := (List.mem_cons.1 hv).resolve_left (Ne.symm hx)
      exact Nat.lt_of_lt_of_le (ih hmem) (Nat.le_add_right _ _)

/-- Temporaries have numbers of their own. -/
theorem number_inj (hu : u ∈ renamed) (hv : v ∈ renamed) (hu' : p.isParameter u = false)
    (hv' : p.isParameter v = false) (h : number p renamed u = number p renamed v) : u = v := by
  induction renamed with
  | nil => cases hu
  | cons x earlier ih =>
    rw [number, number] at h
    by_cases hxu : x = u
    · by_cases hxv : x = v
      · exact hxu.symm.trans hxv
      · rw [if_pos hxu, if_neg hxv] at h
        have hmem := (List.mem_cons.1 hv).resolve_left (Ne.symm hxv)
        exact absurd h.symm (Nat.ne_of_lt (number_lt hmem hv'))
    · by_cases hxv : x = v
      · rw [if_neg hxu, if_pos hxv] at h
        have hmem := (List.mem_cons.1 hu).resolve_left (Ne.symm hxu)
        exact absurd h (Nat.ne_of_lt (number_lt hmem hu'))
      · rw [if_neg hxu, if_neg hxv] at h
        exact ih ((List.mem_cons.1 hu).resolve_left (Ne.symm hxu))
          ((List.mem_cons.1 hv).resolve_left (Ne.symm hxv)) h

/-- The display names of others stay when a value is given one. -/
theorem display_cons_of_ne (h : u ≠ v) : display p (u :: renamed) v = display p renamed v := by
  rw [display, display, stem, stem, number, if_neg h]

/-- What naming a value does, with the name that it gets. -/
theorem assign_exact {names later : Names} {q r : Program}
    (h : names.assign q v = .ok (later, r)) : (later = names ∧ r = q) ∨
      ∃ value function, q.value? v = some value ∧ v ∉ names.renamed ∧
        later.renamed = v :: names.renamed ∧
        ((∃ f position, value.origin = .argument f position ∧ q.function? f = some function ∧
          later.next = names.next ∧ r = q.setName v (formalName value position function)) ∨
        (∃ i f, value.origin = .result i ∧ value.isNamed = false ∧ q.functionOf i = .ok f ∧
          q.function? f = some function ∧ later.next = names.next + 1 ∧
          r = q.setName v (temporaryName names.next function))) := by
  unfold assign at h
  obtain ⟨value, hvalue, h⟩ := Pass.bind_eq_ok.1 h
  rw [Program.value_eq_ok_iff] at hvalue
  split at h
  · cases h
    exact .inl ⟨rfl, rfl⟩
  rename_i hnew
  split at h
  · rename_i f position horigin
    obtain ⟨function, hfunction, h⟩ := Pass.bind_eq_ok.1 h
    cases h
    exact .inr ⟨value, function, hvalue, hnew, rfl,
      .inl ⟨f, position, horigin, (Program.function_eq_ok_iff q).1 hfunction, rfl, rfl⟩⟩
  · rename_i i horigin
    split at h
    · cases h
      exact .inl ⟨rfl, rfl⟩
    · rename_i hunnamed
      obtain ⟨f, hf, h⟩ := Pass.bind_eq_ok.1 h
      obtain ⟨function, hfunction, h⟩ := Pass.bind_eq_ok.1 h
      cases h
      exact .inr ⟨value, function, hvalue, hnew, rfl, .inr ⟨i, f, horigin, by simpa using hunnamed,
        hf, (Program.function_eq_ok_iff q).1 hfunction, rfl, rfl⟩⟩
  · cases h
    exact .inl ⟨rfl, rfl⟩

end Names

namespace Workspace

variable {p : Program} {w later : Workspace}

/-- The registers of `p` that were given a name are displayed as they should, and the other values
are as they were. -/
structure Displays (p : Program) (w : Workspace) : Prop where
  nameless : w.program.nameless = p.nameless
  /-- The next temporary gets the number of those before it. -/
  next : w.context.names.next = w.context.names.renamed.countP (!p.isParameter ·)
  others : ∀ v, v ∉ w.context.names.renamed → w.program.value? v = p.value? v
  renamed : ∀ v ∈ w.context.names.renamed, ∃ value, p.value? v = some value ∧
    (p.isParameter v = true ∨ value.isNamed = false) ∧
    w.program.value? v = some { value with name := Names.display p w.context.names.renamed v }

theorem displays_of_names_eq (h : w.context.names = {}) : Displays w.program w where
  nameless := rfl
  next := by simp [h]
  others _ _ := rfl
  renamed v hv := by simp [h] at hv

/-- A register that is given its display name. -/
theorem Displays.setName (hw : Displays p w) {v : ValueId} {value : Value} {names : Names}
    {name : String} (hvalue : w.program.value? v = some value) (hnew : v ∉ w.context.names.renamed)
    (hrenamed : names.renamed = v :: w.context.names.renamed)
    (hnext : names.next = names.renamed.countP (!p.isParameter ·))
    (hopen : p.isParameter v = true ∨ value.isNamed = false)
    (hname : name = Names.display p names.renamed v) :
    Displays p { w with
      program := w.program.setName v name
      context := { w.context with names } } where
  nameless := (Program.nameless_setName v name _).trans hw.nameless
  next := hnext
  others u hu := by
    simp only [hrenamed, List.mem_cons, not_or] at hu
    rw [Program.value?_setName, if_neg hu.1]
    exact hw.others u hu.2
  renamed u hu := by
    by_cases huv : u = v
    · refine ⟨value, ?_, huv ▸ hopen, ?_⟩
      · rw [huv, ← hw.others v hnew, hvalue]
      · rw [Program.value?_setName, if_pos huv, huv, hvalue, hname]
        rfl
    · simp only [hrenamed, List.mem_cons, huv, false_or] at hu
      obtain ⟨value', hvalue', hopen', hdisplay⟩ := hw.renamed u hu
      refine ⟨value', hvalue', hopen', ?_⟩
      rw [Program.value?_setName, if_neg huv, hdisplay, hrenamed,
        Names.display_cons_of_ne (Ne.symm huv)]

theorem Displays.nameValue (hw : Displays p w) (v : ValueId) :
    Displays p ((nameValue v).outcome w).2 := by
  unfold Workspace.nameValue
  rw [Pass.outcome_bind, Pass.outcome_get]
  simp only
  rw [Pass.outcome_bind, Pass.outcome_lift]
  cases h : w.context.names.assign w.program v with
  | error fault => exact hw
  | ok assigned =>
    obtain ⟨names, q⟩ := assigned
    rcases Names.assign_exact h with ⟨rfl, rfl⟩ | ⟨value, function, hvalue, hnew, hrenamed, hcases⟩
    · exact hw
    · have hold : p.value? v = some value := hw.others v hnew ▸ hvalue
      rcases hcases with ⟨f, position, horigin, hfunction, hnext, rfl⟩ |
        ⟨i, f, horigin, hunnamed, hf, hfunction, hnext, rfl⟩
      · have hparam : p.isParameter v = true := by
          simp [Program.isParameter, hold, horigin, Origin.isArgument]
        rw [Program.function?_of_nameless hw.nameless] at hfunction
        refine hw.setName hvalue hnew hrenamed ?_ (.inl hparam)
          (Names.display_of_argument hold horigin hfunction).symm
        rw [hnext, hrenamed, hw.next]
        simp [hparam]
      · have hparam : p.isParameter v = false := by
          simp [Program.isParameter, hold, horigin, Origin.isArgument]
        rw [Program.function?_of_nameless hw.nameless] at hfunction
        rw [Program.functionOf_of_nameless hw.nameless] at hf
        refine hw.setName hvalue hnew hrenamed ?_ (.inr hunnamed) ?_
        · rw [hnext, hrenamed, hw.next]
          simp [hparam]
        · rw [Names.display_of_result hold horigin hf hfunction, hrenamed, Names.number, if_pos rfl,
            hw.next]

/-- A listing that starts from displayed names goes on so. -/
def DisplaysOn (p : Program) (w later : Workspace) : Prop := Displays p w → Displays p later

instance (p : Program) : IsPreorder Workspace (DisplaysOn p) where
  refl _ := id
  trans _ _ _ hab hbc := hbc ∘ hab

theorem keptBySteps_displaysOn (p : Program) : KeptBySteps (DisplaysOn p) := by
  have hshared {α : Type} (pass : Pass Shared α) : Pass.Keeps (DisplaysOn p) (onShared pass) :=
    fun _ hw => ⟨hw.nameless, hw.next, hw.others, hw.renamed⟩
  exact
    { report := fun _ _ hw => ⟨hw.nameless, hw.next, hw.others, hw.renamed⟩
      nameValue := fun v _ hw => hw.nameValue v
      toStatement := fun _ => Pass.keeps_get.bind fun _ => hshared _
      sharedOperand := fun _ => Pass.keeps_get.bind fun _ => hshared _ }

/-! ### Stems -/

section Stem

variable {renamed : List ValueId} {u v : ValueId}

open Names

/-- A register that was given a name is a temporary, a parameter without a name, or a parameter with
a name of its own. -/
theorem Displays.stem_cases (hw : Displays p w) (hv : v ∈ w.context.names.renamed) :
    (p.isParameter v = false ∧ p.isNamed v = false ∧ stem p renamed v =
        "t" ++ toString (number p renamed v)) ∨
      ∃ value f k, p.value? v = some value ∧ value.origin = .argument f k ∧
        ((p.isNamed v = false ∧ stem p renamed v = "arg" ++ toString k) ∨
          (p.isNamed v = true ∧ stem p renamed v = value.name)) := by
  obtain ⟨value, hvalue, hopen, -⟩ := hw.renamed v hv
  by_cases hparam : p.isParameter v = true
  · obtain ⟨_, f, k, hvalue', horigin⟩ := Program.exists_of_isParameter hparam
    rw [hvalue] at hvalue'
    cases hvalue'
    refine .inr ⟨value, f, k, hvalue, horigin, ?_⟩
    cases hnamed : value.isNamed with
    | false => simp [stem, Program.isNamed, hvalue, horigin, Value.name?, hnamed]
    | true => simp [stem, Program.isNamed, hvalue, horigin, Value.name?, hnamed]
  · have hunnamed := hopen.resolve_left hparam
    refine .inl ⟨by simpa using hparam, by simp [Program.isNamed, hvalue, hunnamed], ?_⟩
    cases horigin : value.origin with
    | argument f k => simp [Program.isParameter, hvalue, horigin, Origin.isArgument] at hparam
    | _ => simp [stem, hvalue, horigin]

theorem append_toString_ne_of_not_mem (front : String) (h : '_' ∉ front.toList) (n : Nat)
    (a b : String) : front ++ toString n ≠ a ++ "_" ++ b := by
  intro heq
  have hmem : '_' ∈ (front ++ toString n).toList := by
    rw [heq]
    simp
  rw [String.toList_append, List.mem_append] at hmem
  exact hmem.elim h (not_mem_toString n)

/-- Only a name that a parameter has of its own holds an underscore. -/
theorem Displays.named_of_underscore (hw : Displays p w) (hv : v ∈ w.context.names.renamed)
    {a b : String} (h : stem p renamed v = a ++ "_" ++ b) : p.isNamed v = true := by
  rcases hw.stem_cases hv with ⟨-, -, hstem⟩ | ⟨value, f, k, -, -, ⟨-, hstem⟩ | ⟨hnamed, -⟩⟩
  · exact absurd (hstem.symm.trans h) (append_toString_ne_of_not_mem "t" (by decide) _ a b)
  · exact absurd (hstem.symm.trans h) (append_toString_ne_of_not_mem "arg" (by decide) _ a b)
  · exact hnamed

/-- What had a name and was given one is a parameter. -/
theorem Displays.isParameter_of_named (hw : Displays p w) (hv : v ∈ w.context.names.renamed)
    (h : p.isNamed v = true) : p.isParameter v = true := by
  obtain ⟨value, hvalue, hopen, -⟩ := hw.renamed v hv
  refine hopen.resolve_right fun hunnamed => ?_
  simp [Program.isNamed, hvalue, hunnamed] at h

/-- A parameter with a name of its own keeps it as its stem. -/
theorem Displays.stem_of_named (hw : Displays p w) (hv : v ∈ w.context.names.renamed)
    (h : p.isNamed v = true) :
    ∃ value, p.value? v = some value ∧ value.isNamed = true ∧ stem p renamed v = value.name := by
  rcases hw.stem_cases hv with ⟨-, hunnamed, -⟩ |
    ⟨value, f, k, hvalue, horigin, ⟨hunnamed, -⟩ | ⟨-, hstem⟩⟩
  · exact absurd (h.symm.trans hunnamed) Bool.noConfusion
  · exact absurd (h.symm.trans hunnamed) Bool.noConfusion
  · exact ⟨value, hvalue, by simpa [Program.isNamed, hvalue] using h, hstem⟩

theorem append_toString_ne (m n : Nat) : "t" ++ toString m ≠ "arg" ++ toString n := by
  intro h
  have hlist := congrArg String.toList h
  simp at hlist

theorem ownerName_of_argument {value : Value} {f : FunctionId} {k : Nat} {function : Function}
    (hvalue : p.value? v = some value) (horigin : value.origin = .argument f k)
    (hf : p.function? f = some function) : p.ownerName v = function.name := by
  simp [Program.ownerName, hvalue, horigin, hf]

/-- Registers that had no name are told apart by their stems and their functions. -/
theorem Displays.eq_of_unnamed (hw : Displays p w) (hp : p.ParamsApart)
    (hfunctions : (p.functions.toList.map Function.name).Nodup)
    (hu : u ∈ w.context.names.renamed) (hv : v ∈ w.context.names.renamed)
    (hu' : p.isNamed u = false) (hv' : p.isNamed v = false)
    (hstem : stem p w.context.names.renamed u = stem p w.context.names.renamed v)
    (howner : p.ownerName u = p.ownerName v) : u = v := by
  rcases hw.stem_cases hu with ⟨hparam, -, hstemu⟩ |
    ⟨value, f, k, hvalue, horigin, ⟨-, hstemu⟩ | ⟨hnamed, -⟩⟩
  · rcases hw.stem_cases hv with ⟨hparam', -, hstemv⟩ |
      ⟨value', f', k', hvalue', horigin', ⟨-, hstemv⟩ | ⟨hnamed', -⟩⟩
    · rw [hstemu, hstemv, String.append_right_inj, toString_inj] at hstem
      exact number_inj hu hv hparam hparam' hstem
    · rw [hstemu, hstemv] at hstem
      exact absurd hstem (append_toString_ne _ _)
    · exact absurd (hnamed'.symm.trans hv') Bool.noConfusion
  · rcases hw.stem_cases hv with ⟨-, -, hstemv⟩ |
      ⟨value', f', k', hvalue', horigin', ⟨-, hstemv⟩ | ⟨hnamed', -⟩⟩
    · rw [hstemu, hstemv] at hstem
      exact absurd hstem.symm (append_toString_ne _ _)
    · rw [hstemu, hstemv, String.append_right_inj, toString_inj] at hstem
      have hf := Array.getElem?_eq_getElem (hp.lt hvalue horigin)
      have hf' := Array.getElem?_eq_getElem (hp.lt hvalue' horigin')
      rw [ownerName_of_argument hvalue horigin hf, ownerName_of_argument hvalue' horigin' hf']
        at howner
      have hsame : f = f' := Program.function_eq_of_name_eq hfunctions hf hf' howner
      exact hp.inj hvalue hvalue' horigin (hsame ▸ hstem ▸ horigin')
    · exact absurd (hnamed'.symm.trans hv') Bool.noConfusion
  · exact absurd (hnamed.symm.trans hu') Bool.noConfusion

/-- Registers with the same display name: the name of a parameter reads like the other one. -/
theorem Displays.imitates_of_display_eq (hw : Displays p w) (hp : p.ParamsApart)
    (hvalues : ((p.values.toList.filter Value.isNamed).map Value.name).Nodup)
    (hfunctions : (p.functions.toList.map Function.name).Nodup)
    (hu : u ∈ w.context.names.renamed) (hv : v ∈ w.context.names.renamed) (hne : u ≠ v)
    (h : display p w.context.names.renamed u = display p w.context.names.renamed v) :
    Imitates p w.context.names.renamed u v ∨ Imitates p w.context.names.renamed v u := by
  rcases append_underscore_eq_iff.1 h with ⟨hstem, howner⟩ | ⟨x, howner, hstem⟩ |
    ⟨x, howner, hstem⟩
  · cases hu' : p.isNamed u with
    | false =>
      cases hv' : p.isNamed v with
      | false => exact absurd (hw.eq_of_unnamed hp hfunctions hu hv hu' hv' hstem howner) hne
      | true =>
        exact .inl ⟨hw.isParameter_of_named hv hv', hv',
          .inl ⟨hu', hstem.symm, howner.symm⟩⟩
    | true =>
      cases hv' : p.isNamed v with
      | false => exact .inr ⟨hw.isParameter_of_named hu hu', hu', .inl ⟨hv', hstem, howner⟩⟩
      | true =>
        obtain ⟨value, hvalue, hnamed, hname⟩ := hw.stem_of_named hu hu'
        obtain ⟨value', hvalue', hnamed', hname'⟩ := hw.stem_of_named hv hv'
        rw [hname, hname'] at hstem
        exact absurd (Program.eq_of_name_eq hvalues hvalue hvalue' hnamed hnamed' hstem) hne
  · have hnamed := hw.named_of_underscore hv hstem
    exact .inl ⟨hw.isParameter_of_named hv hnamed, hnamed, .inr ⟨x, howner, hstem⟩⟩
  · have hnamed := hw.named_of_underscore hu hstem
    exact .inr ⟨hw.isParameter_of_named hu hnamed, hnamed, .inr ⟨x, howner, hstem⟩⟩

theorem Displays.name_eq (hw : Displays p w) (hv : v ∈ w.context.names.renamed) :
    (w.program.value? v).map Value.name = some (display p w.context.names.renamed v) := by
  obtain ⟨value, -, -, hvalue⟩ := hw.renamed v hv
  rw [hvalue]
  rfl

end Stem

/-- Two registers that a listing from a fresh context gave names to are displayed alike exactly if
the name that one of them, a parameter, had before reads like the other.  No two values had the same
name before, and no two functions have the same. -/
theorem name_eq_iff_of_transcribe {discard : Bool} {answer : Except Fault Listing}
    (hp : w.program.Assembled)
    (hvalues : ((w.program.values.toList.filter Value.isNamed).map Value.name).Nodup)
    (hfunctions : (w.program.functions.toList.map Function.name).Nodup)
    (hw : w.context.names = {}) (h : (transcribe discard).outcome w = (answer, later))
    {u v : ValueId} (hu : u ∈ later.context.names.renamed)
    (hv : v ∈ later.context.names.renamed) (hne : u ≠ v) :
    (later.program.value? u).map Value.name = (later.program.value? v).map Value.name ↔
      Names.Imitates w.program later.context.names.renamed u v ∨
        Names.Imitates w.program later.context.names.renamed v u := by
  have hlater : Displays w.program later := by
    have hkept := (keptBySteps_displaysOn w.program).parts.transcribe discard w
      (displays_of_names_eq hw)
    rwa [h] at hkept
  rw [hlater.name_eq hu, hlater.name_eq hv, Option.some_inj]
  constructor
  · exact hlater.imitates_of_display_eq hp.paramsApart hvalues hfunctions hu hv hne
  · rintro (himitates | himitates)
    · exact himitates.display_eq
    · exact himitates.display_eq.symm

/-- A parameter whose name reads like that of a temporary, and a temporary. -/
def homonyms : Program := .ofEdits "homonyms"
  [.function "main" .void [("t0", .int 32)],
    .block ⟨0⟩ "entry",
    .last ⟨0⟩ { opcode := .alloca, type := .pointer (.int 32), name := "x" },
    .last ⟨0⟩ { opcode := .load, operands := [.value ⟨2⟩], type := .int 32 },
    .last ⟨0⟩ { opcode := .store, operands := [.value ⟨1⟩, .value ⟨2⟩] },
    .last ⟨0⟩ { opcode := .ret }]

theorem name_eq_iff_of_transcribe_homonyms :
    ((homonyms.values.toList.filter Value.isNamed).map Value.name).Nodup ∧
      (homonyms.functions.toList.map Function.name).Nodup ∧
      (Names.Imitates homonyms [⟨1⟩, ⟨3⟩] ⟨1⟩ ⟨3⟩ ∨
        Names.Imitates homonyms [⟨1⟩, ⟨3⟩] ⟨3⟩ ⟨1⟩) := by
  have hvalues : ((homonyms.values.toList.filter Value.isNamed).map Value.name).Nodup := by
    decide +kernel
  have hfunctions : (homonyms.functions.toList.map Function.name).Nodup := by decide +kernel
  have hrun : ((transcribe false).outcome { program := homonyms }).2.context.names.renamed =
        [⟨1⟩, ⟨3⟩] ∧
      (((transcribe false).outcome { program := homonyms }).2.program.value? ⟨1⟩).map Value.name =
        (((transcribe false).outcome { program := homonyms }).2.program.value? ⟨3⟩).map
          Value.name := by
    decide +kernel
  rcases hl : (transcribe false).outcome { program := homonyms } with ⟨answer, later⟩
  simp only [hl] at hrun
  obtain ⟨hrenamed, hname⟩ := hrun
  refine ⟨hvalues, hfunctions, ?_⟩
  have hiff := name_eq_iff_of_transcribe (w := { program := homonyms }) (u := ⟨1⟩) (v := ⟨3⟩)
    (Program.assembled_ofEdits _ _) hvalues hfunctions rfl hl
    (by simp [hrenamed]) (by simp [hrenamed]) (by decide)
  rw [hrenamed] at hiff
  exact hiff.1 hname

/-- The temporary and the parameter are both displayed as `t0_main`. -/
theorem transcribe_homonyms :
    ((homonyms.values.toList.filter Value.isNamed).map Value.name).Nodup ∧
      (homonyms.functions.toList.map Function.name).Nodup ∧
      ∃ l later, (transcribe false).outcome { program := homonyms } = (.ok l, later) ∧
        later.context.names.renamed = [⟨1⟩, ⟨3⟩] ∧
        (later.program.value? ⟨1⟩).map Value.name = some "t0_main" ∧
        (later.program.value? ⟨3⟩).map Value.name = some "t0_main" := by
  have hok : ((transcribe false).outcome { program := homonyms }).1.isOk = true := by
    decide +kernel
  obtain ⟨l, later, hl⟩ := Pass.exists_outcome_of_isOk hok
  refine ⟨by decide +kernel, by decide +kernel, l, later, hl, ?_⟩
  have hlater : ((transcribe false).outcome { program := homonyms }).2 = later := by rw [hl]
  rw [← hlater]
  decide +kernel

end Workspace

end LevelIr
