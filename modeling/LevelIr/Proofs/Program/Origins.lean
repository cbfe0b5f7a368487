import LevelIr.Proofs.Program.Coherent

/-!
# Where values come from

A value never changes its origin: edits add values and give them other names, and that is all.  So
the value that a function was made with still stands for that function, however the program was
edited since.

* `Program.Edits.origin?_eq` : a value of a program comes from the same in every later program.
* `Program.Assembled.origin?_function` : the value of a function comes from that function.
-/

namespace LevelIr

namespace Program

/-- Where a value of the program comes from. -/
def origin? (p : Program) (v : ValueId) : Option Origin := (p.value? v).map Value.origin

variable {p q : Program}

theorem origin?_eq_some_iff {v : ValueId} {origin : Origin} :
    p.origin? v = some origin ↔ ∃ value, p.value? v = some value ∧ value.origin = origin :=
  Option.map_eq_some_iff

theorem origin?_append {v : ValueId} {origin : Origin} (h : p.origin? v = some origin)
    {new : Array Value} (hq : q.values = p.values ++ new) : q.origin? v = some origin := by
  obtain ⟨value, hvalue, horigin⟩ := origin?_eq_some_iff.1 h
  refine origin?_eq_some_iff.2 ⟨value, ?_, horigin⟩
  rw [value?, hq, Array.getElem?_append_left (index_lt_of_value? hvalue)]
  exact hvalue

theorem origin?_setName (v u : ValueId) (name : String) :
    (p.setName v name).origin? u = p.origin? u := by
  rw [origin?, origin?, value?_setName]
  split
  · rw [Option.map_map]
    rfl
  · rfl

theorem origin?_placed {v : ValueId} {origin : Origin} (h : p.origin? v = some origin)
    (b : BlockId) (change : List InstId → List InstId) (draft : Draft) :
    (p.placed b change draft).origin? v = some origin := by
  obtain ⟨value, hvalue, horigin⟩ := origin?_eq_some_iff.1 h
  exact origin?_eq_some_iff.2 ⟨value, value?_placed_of_some hvalue, horigin⟩

/-! ### Edits -/

theorem origin?_edit (edit : Edit) {v : ValueId} {origin : Origin} (h : p.origin? v = some origin) :
    (edit.apply p).origin? v = some origin := by
  cases edit with
  | value type name origin => exact origin?_append h (Array.push_eq_append ..)
  | global name contents => exact origin?_append h (Array.push_eq_append ..)
  | function name result params =>
    change ((addFunction name result params).run p).2.origin? v = some origin
    rw [addFunction_run]
    exact origin?_append h rfl
  | file | block | metadata => exact h
  | last b draft =>
    change ((placeLast b draft).run p).2.origin? v = some origin
    rw [placeLast_state]
    exact origin?_placed h b _ draft
  | before anchor draft =>
    change ((placeBefore anchor draft).outcome p).2.origin? v = some origin
    rcases placeBefore_state p anchor draft with hsame | ⟨inst, -, hplaced⟩
    · rwa [hsame]
    · rw [hplaced]
      exact origin?_placed h inst.block _ draft
  | operand i position operand =>
    change ((replaceOperand i position operand).outcome p).2.origin? v = some origin
    rcases replaceOperand_outcome p i position operand with hsame | hsame <;> rw [hsame] <;> exact h
  | name u name =>
    change (setName u name p).origin? v = some origin
    rw [origin?_setName]
    exact h

/-- **A value comes from the same in every later program.** -/
theorem Edits.origin?_eq (hpq : Edits p q) {v : ValueId} {origin : Origin}
    (h : p.origin? v = some origin) : q.origin? v = some origin := by
  induction hpq with
  | refl => exact h
  | tail _ hedit ih =>
    obtain ⟨edit, -, rfl⟩ := hedit
    exact origin?_edit edit ih

/-! ### Values of functions -/

/-- A function of an edited program has the value that it had before, unless it is new. -/
theorem function?_edit (edit : Edit) {f : FunctionId} {function : Function}
    (h : (edit.apply p).function? f = some function) :
    (∃ old, p.function? f = some old ∧ function.value = old.value) ∨
      (edit.apply p).origin? function.value = some (.function f) := by
  have hsame {q : Program} (hq : q.functions = p.functions) (h : q.function? f = some function) :
      ∃ old, p.function? f = some old ∧ function.value = old.value := by
    rw [function?, hq] at h
    exact ⟨function, h, rfl⟩
  cases edit with
  | value | global | name | metadata => exact .inl (hsame rfl h)
  | function name result params =>
    change ((addFunction name result params).run p).2.function? f = some function at h
    change _ ∨ ((addFunction name result params).run p).2.origin? function.value = _
    simp only [addFunction_run, function?, Array.getElem?_push] at h
    split at h
    · -- the value of the new function comes right after the old values
      rename_i hf
      cases h
      obtain rfl : f = ⟨p.functions.size⟩ := congrArg FunctionId.mk hf
      right
      rw [addFunction_run]
      simp [origin?, value?, functionValue]
    · exact .inl (hsame rfl h)
  | file g path =>
    change ({ p with functions := p.functions.modify g.index _ } : Program).function? f = _ at h
    rw [function?, Array.getElem?_modify] at h
    split at h
    · obtain ⟨old, hold, rfl⟩ := Option.map_eq_some_iff.1 h
      exact .inl ⟨old, hold, rfl⟩
    · exact .inl (hsame rfl h)
  | block g name =>
    change ((addBlock g name).run p).2.function? f = some function at h
    rw [function?_addBlock] at h
    split at h
    · obtain ⟨old, hold, rfl⟩ := Option.map_eq_some_iff.1 h
      exact .inl ⟨old, hold, rfl⟩
    · exact .inl (hsame rfl h)
  | last b draft =>
    have hplaced : (Edit.apply p (.last b draft)).function? f = p.function? f := function?_placed f
    exact .inl ⟨function, hplaced.symm.trans h, rfl⟩
  | before anchor draft =>
    change ((placeBefore anchor draft).outcome p).2.function? f = some function at h
    rcases placeBefore_state p anchor draft with hsame' | ⟨inst, -, hplaced⟩
    · rw [hsame'] at h
      exact .inl (hsame rfl h)
    · rw [hplaced] at h
      exact .inl ⟨function, (function?_placed f).symm.trans h, rfl⟩
  | operand i position operand =>
    change ((replaceOperand i position operand).outcome p).2.function? f = some function at h
    rcases replaceOperand_outcome p i position operand with hout | hout <;> rw [hout] at h <;>
      exact .inl (hsame rfl h)

/-- **The value of a function comes from that function.** -/
theorem Assembled.origin?_function (hp : p.Assembled) {f : FunctionId} {function : Function}
    (h : p.function? f = some function) : p.origin? function.value = some (.function f) := by
  obtain ⟨name, hedits⟩ := hp
  induction hedits generalizing function with
  | refl => simp [function?] at h
  | tail _ hedit ih =>
    obtain ⟨edit, -, rfl⟩ := hedit
    rcases function?_edit edit h with ⟨old, hold, hvalue⟩ | hnew
    · rw [hvalue]
      exact origin?_edit edit (ih hold)
    · exact hnew

end Program

end LevelIr
