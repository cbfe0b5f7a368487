import LevelIr.Proofs.Listing.DisplayNames
import LevelIr.Proofs.Session

/-!
# Requests to a context

A context serves any number of requests, one after another.  All that they change in the program is
the names of registers, and a register is given a name at most once.

* `Workspace.GivesNames` : the values that were given a name between two workspaces.
* `Session.names_after` : what any sequence of requests does to a program.
-/

namespace LevelIr

namespace Workspace

/-! ### Names that are given -/

/-- The name that a value gets in the program `p`: a parameter gets its own name, or its position,
followed by the name of its function, and a result without a name gets that of a temporary. -/
inductive NameFor (p : Program) (value : Value) : String → Prop where
  | formal {f : FunctionId} {k : Nat} {function : Function} (horigin : value.origin = .argument f k)
      (hf : p.function? f = some function) : NameFor p value (Names.formalName value k function)
  | temporary {i : InstId} {f : FunctionId} {function : Function} (n : Nat)
      (horigin : value.origin = .result i) (hunnamed : value.isNamed = false)
      (hi : p.functionOf i = .ok f) (hf : p.function? f = some function) :
      NameFor p value (Names.temporaryName n function)

theorem NameFor.of_nameless {p q : Program} (h : q.nameless = p.nameless) {value : Value}
    {name : String} (hname : NameFor q value name) : NameFor p value name := by
  cases hname with
  | formal horigin hf => exact .formal horigin (Program.function?_of_nameless h _ ▸ hf)
  | temporary n horigin hunnamed hi hf =>
    exact .temporary n horigin hunnamed (Program.functionOf_of_nameless h _ ▸ hi)
      (Program.function?_of_nameless h _ ▸ hf)

/-- Between the two workspaces the values in `given` were given a name, most recent first, and each
of them just once.  Nothing else was changed in the program. -/
structure GivesNames (given : List ValueId) (w later : Workspace) : Prop where
  nameless : later.program.nameless = w.program.nameless
  renamed : later.context.names.renamed = given ++ w.context.names.renamed
  nodup : given.Nodup
  new : ∀ v ∈ given, v ∉ w.context.names.renamed
  others : ∀ v, v ∉ given → later.program.value? v = w.program.value? v
  named : ∀ v ∈ given, ∃ value name, w.program.value? v = some value ∧
    NameFor w.program value name ∧ later.program.value? v = some { value with name }

section GivesNames

variable {w later last : Workspace} {given more : List ValueId}

theorem givesNames_nil (hprogram : later.program = w.program)
    (hrenamed : later.context.names.renamed = w.context.names.renamed) : GivesNames [] w later where
  nameless := by rw [hprogram]
  renamed := by rw [hrenamed, List.nil_append]
  nodup := List.nodup_nil
  new _ hv := by cases hv
  others _ _ := by rw [hprogram]
  named _ hv := by cases hv

theorem GivesNames.trans (h : GivesNames given w later) (h' : GivesNames more later last) :
    GivesNames (more ++ given) w last := by
  have hmore (v : ValueId) (hv : v ∈ more) : v ∉ given ∧ v ∉ w.context.names.renamed := by
    have hnew := h'.new v hv
    rwa [h.renamed, List.mem_append, not_or] at hnew
  refine
    { nameless := h'.nameless.trans h.nameless
      renamed := by rw [h'.renamed, h.renamed, List.append_assoc]
      nodup := ?_
      new := ?_
      others := fun v hv => ?_
      named := fun v hv => ?_ }
  · refine List.nodup_append.2 ⟨h'.nodup, h.nodup, ?_⟩
    rintro v hv _ hgiven rfl
    exact (hmore v hv).1 hgiven
  · exact List.forall_mem_append.2 ⟨fun v hv => (hmore v hv).2, h.new⟩
  · rw [List.mem_append, not_or] at hv
    exact (h'.others v hv.1).trans (h.others v hv.2)
  · rcases List.mem_append.1 hv with hv | hv
    · obtain ⟨value, name, hvalue, hname, hlast⟩ := h'.named v hv
      rw [h.others v (hmore v hv).1] at hvalue
      exact ⟨value, name, hvalue, hname.of_nameless h.nameless, hlast⟩
    · obtain ⟨value, name, hvalue, hname, hlater⟩ := h.named v hv
      have hnot : v ∉ more := fun hmem => (hmore v hmem).1 hv
      exact ⟨value, name, hvalue, hname, (h'.others v hnot).trans hlater⟩

/-- Giving a name to one value. -/
theorem givesNames_setName {v : ValueId} {value : Value} {name : String} {names : Names}
    (hvalue : w.program.value? v = some value) (hnew : v ∉ w.context.names.renamed)
    (hrenamed : names.renamed = v :: w.context.names.renamed)
    (hname : NameFor w.program value name) :
    GivesNames [v] w { w with
      program := w.program.setName v name
      context := { w.context with names } } where
  nameless := Program.nameless_setName v name w.program
  renamed := hrenamed
  nodup := List.pairwise_singleton _ v
  new u hu := List.mem_singleton.1 hu ▸ hnew
  others u hu := by
    rw [List.mem_singleton] at hu
    rw [Program.value?_setName, if_neg hu]
  named u hu := by
    obtain rfl := List.mem_singleton.1 hu
    refine ⟨value, name, hvalue, hname, ?_⟩
    rw [Program.value?_setName, if_pos rfl, hvalue]
    rfl

theorem givesNames_nameValue (w : Workspace) (v : ValueId) :
    ∃ given, GivesNames given w ((nameValue v).outcome w).2 := by
  rw [outcome_nameValue]
  cases h : w.context.names.assign w.program v with
  | error fault => exact ⟨[], givesNames_nil rfl rfl⟩
  | ok assigned =>
    obtain ⟨names, q⟩ := assigned
    rcases Names.assign_exact h with ⟨rfl, rfl⟩ | ⟨value, function, hvalue, hnew, hrenamed, hcases⟩
    · exact ⟨[], givesNames_nil rfl rfl⟩
    · refine ⟨[v], ?_⟩
      rcases hcases with ⟨f, k, horigin, hf, -, rfl⟩ | ⟨i, f, horigin, hunnamed, hi, hf, -, rfl⟩
      · exact givesNames_setName hvalue hnew hrenamed (.formal horigin hf)
      · exact givesNames_setName hvalue hnew hrenamed (.temporary _ horigin hunnamed hi hf)

end GivesNames

/-- Names are all that was given. -/
def OnlyNames (w later : Workspace) : Prop := ∃ given, GivesNames given w later

instance : IsPreorder Workspace OnlyNames where
  refl _ := ⟨[], givesNames_nil rfl rfl⟩
  trans := by
    rintro _ _ _ ⟨given, h⟩ ⟨more, h'⟩
    exact ⟨more ++ given, h.trans h'⟩

theorem keptBySteps_onlyNames : KeptBySteps OnlyNames := by
  have hshared {α : Type} (pass : Pass Shared α) : Pass.Keeps OnlyNames (onShared pass) :=
    fun _ => ⟨[], givesNames_nil rfl rfl⟩
  exact
    { report := fun _ _ => ⟨[], givesNames_nil rfl rfl⟩
      nameValue := fun v w => givesNames_nameValue w v
      toStatement := fun _ => Pass.keeps_get.bind fun _ => hshared _
      sharedOperand := fun _ => Pass.keeps_get.bind fun _ => hshared _ }

/-! ### What a value is called in the end -/

section Value

variable {w later : Workspace} {given : List ValueId} {v : ValueId} {value : Value}

/-- A value that is not named stays as it is, and one that is named is a register. -/
theorem GivesNames.value_cases (h : GivesNames given w later)
    (hvalue : w.program.value? v = some value) :
    later.program.value? v = some value ∨
      ∃ name, NameFor w.program value name ∧ later.program.value? v = some { value with name } := by
  by_cases hv : v ∈ given
  · obtain ⟨value', name, hvalue', hname, hlater⟩ := h.named v hv
    rw [hvalue] at hvalue'
    cases hvalue'
    exact .inr ⟨name, hname, hlater⟩
  · exact .inl ((h.others v hv).trans hvalue)

/-- A result that has a name keeps it. -/
theorem GivesNames.result (h : GivesNames given w later) (hvalue : w.program.value? v = some value)
    {i : InstId} (horigin : value.origin = .result i) (hnamed : value.isNamed = true) :
    later.program.value? v = some value := by
  rcases h.value_cases hvalue with hlater | ⟨name, hname, -⟩
  · exact hlater
  · cases hname with
    | formal horigin' => rw [horigin] at horigin'; cases horigin'
    | temporary _ _ hunnamed => rw [hnamed] at hunnamed; cases hunnamed

theorem eq_of_nameless {p q : Program} (h : q.nameless = p.nameless) :
    q = { p with values := q.values } ∧ q.values.size = p.values.size := by
  obtain ⟨name, values, insts, blocks, functions, globals⟩ := p
  obtain ⟨name', values', insts', blocks', functions', globals'⟩ := q
  simp only [Program.nameless, Program.mk.injEq] at h
  obtain ⟨rfl, hvalues, rfl, rfl, rfl, rfl⟩ := h
  refine ⟨rfl, ?_⟩
  have hsize := congrArg Array.size hvalues
  simpa using hsize

end Value

end Workspace

namespace Session

open Workspace (keptBySteps_onlyNames eq_of_nameless)

/-- **Requests change only names in a program**, whatever is asked for, in whatever order, and
whether it can be had or not.  A parameter keeps its name or gets the name that is made from it and
from its function; a result gets a name only if it has none, and keeps it from then on; all other
values keep their names.  No value is given a name twice. -/
theorem names_after (session : Session) (requests : List Request) :
    (session.serve requests).program =
        { session.program with values := (session.serve requests).program.values } ∧
      (session.serve requests).program.values.size = session.program.values.size ∧
      (∀ v value, session.program.value? v = some value → ∃ name,
        (session.serve requests).program.value? v = some { value with name } ∧
        (∀ f k, value.origin = .argument f k → name = value.name ∨
          ∃ function, session.program.function? f = some function ∧
            name = value.name?.getD ("arg" ++ toString k) ++ "_" ++ function.name) ∧
        (∀ i, value.origin = .result i → value.isNamed = true → name = value.name) ∧
        (value.origin.isAttached = false → name = value.name)) ∧
      (∀ front back, requests = front ++ back → ∀ v value i,
        (session.serve front).program.value? v = some value → value.origin = .result i →
        value.isNamed = true → (session.serve requests).program.value? v = some value) ∧
      ∃ given : List ValueId, given.Nodup ∧
        (∀ v ∈ given, v ∉ session.workspace.context.names.renamed) ∧
        (session.serve requests).workspace.context.names.renamed =
          given ++ session.workspace.context.names.renamed ∧
        ∀ v, v ∉ given → (session.serve requests).program.value? v = session.program.value? v := by
  obtain ⟨given, h⟩ := keptBySteps_onlyNames.serve session requests
  obtain ⟨hprogram, hsize⟩ := eq_of_nameless h.nameless
  refine ⟨hprogram, hsize, fun v value hvalue => ?_, ?_, given, h.nodup, h.new, h.renamed,
    h.others⟩
  · rcases h.value_cases hvalue with hlater | ⟨name, hname, hlater⟩
    · exact ⟨value.name, hlater, fun _ _ _ => .inl rfl, fun _ _ _ => rfl, fun _ => rfl⟩
    · refine ⟨name, hlater, ?_⟩
      cases hname with
      | @formal f k function horigin hf =>
        rw [horigin]
        refine ⟨?_, nofun, nofun⟩
        rintro _ _ ⟨⟩
        exact .inr ⟨function, hf, rfl⟩
      | temporary n horigin hunnamed =>
        rw [horigin, hunnamed]
        exact ⟨nofun, nofun, nofun⟩
  · rintro front back rfl v value i hvalue horigin hnamed
    rw [serve_append]
    obtain ⟨more, hmore⟩ := keptBySteps_onlyNames.serve (session.serve front) back
    exact hmore.result hvalue horigin hnamed

end Session

end LevelIr
