/-!
# Texts that are put together

Names are put together from parts with an underscore between them.  A part that holds no underscore,
such as a number, can be told from what stands before it; other parts can be split in several ways.
-/

namespace LevelIr

section Split

variable {α : Type} {a : α} {front front' back back' : List α}

/-- Two ways to split a list at an element agree, or the part of one of them holds the element at
which the other one splits. -/
theorem append_cons_eq_iff :
    front ++ a :: back = front' ++ a :: back' ↔ (front = front' ∧ back = back') ∨
      (∃ between, back = between ++ a :: back' ∧ front' = front ++ a :: between) ∨
      ∃ between, back' = between ++ a :: back ∧ front = front' ++ a :: between := by
  constructor
  · intro h
    rcases List.append_eq_append_iff.1 h with ⟨more, rfl, hmore⟩ | ⟨more, rfl, hmore⟩
    · cases more with
      | nil => exact .inl ⟨(List.append_nil _).symm, (List.cons.inj hmore).2⟩
      | cons b more =>
        obtain ⟨rfl, hback⟩ := List.cons.inj hmore
        exact .inr (.inl ⟨more, hback, rfl⟩)
    · cases more with
      | nil => exact .inl ⟨List.append_nil _, (List.cons.inj hmore).2.symm⟩
      | cons b more =>
        obtain ⟨rfl, hback⟩ := List.cons.inj hmore
        exact .inr (.inr ⟨more, hback, rfl⟩)
  · rintro (⟨rfl, rfl⟩ | ⟨between, rfl, rfl⟩ | ⟨between, rfl, rfl⟩)
    · rfl
    · simp
    · simp

/-- A list can be split in one way only at the last place where an element stands. -/
theorem append_cons_inj_of_not_mem (hback : a ∉ back) (hback' : a ∉ back') :
    front ++ a :: back = front' ++ a :: back' ↔ front = front' ∧ back = back' := by
  rw [append_cons_eq_iff]
  constructor
  · rintro (h | ⟨between, rfl, -⟩ | ⟨between, rfl, -⟩)
    · exact h
    · exact absurd (by simp) hback
    · exact absurd (by simp) hback'
  · exact .inl

end Split

/-- Two texts of two parts each that read the same: the parts agree, or a part of one text holds the
underscore of the other. -/
theorem append_underscore_eq_iff {stem stem' owner owner' : String} :
    stem ++ "_" ++ owner = stem' ++ "_" ++ owner' ↔ (stem = stem' ∧ owner = owner') ∨
      (∃ x, owner = x ++ "_" ++ owner' ∧ stem' = stem ++ "_" ++ x) ∨
      ∃ x, owner' = x ++ "_" ++ owner ∧ stem = stem' ++ "_" ++ x := by
  have hlist (stem owner : String) :
      (stem ++ "_" ++ owner).toList = stem.toList ++ '_' :: owner.toList := by simp
  have hexists {P : List Char → Prop} : (∃ x, P x) ↔ ∃ x : String, P x.toList :=
    ⟨fun ⟨x, hx⟩ => ⟨String.ofList x, by simpa using hx⟩, fun ⟨x, hx⟩ => ⟨x.toList, hx⟩⟩
  rw [← String.toList_inj, hlist, hlist, append_cons_eq_iff, hexists, hexists]
  simp only [← hlist, String.toList_inj]

theorem not_mem_toString (k : Nat) : '_' ∉ (toString k).toList := by
  intro h
  have hdigit := Nat.isDigit_of_mem_toDigits (by decide) (by decide) (Nat.toList_repr ▸ h)
  exact absurd hdigit (by decide)

theorem toString_inj {k k' : Nat} : toString k = toString k' ↔ k = k' := by
  constructor
  · intro h
    have hdigits : Nat.toDigits 10 k = Nat.toDigits 10 k' := by
      rw [← Nat.toList_repr, ← Nat.toList_repr]
      exact congrArg String.toList h
    rw [← Nat.ofDigitChars_toDigits (b := 10) (n := k) (by decide) (by decide), hdigits,
      Nat.ofDigitChars_toDigits (by decide) (by decide)]
  · rintro rfl
    rfl

end LevelIr
