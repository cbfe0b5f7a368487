import LevelIr.Proofs.Text
import LevelIr.Ty

/-!
# Types are known by their texts

The text of a type starts with that of a scalar, an array, a vector or a structure, and goes on with
a suffix for each pointer and each function type that is made of it.  The first character tells how
the text starts, the next one whether a suffix follows, and commas and brackets end what stands
inside of others.  So a text can be read in one way only.

* `Ty.Suffix`, `Ty.extend` : what a text can go on with, and the type that this makes.
* `Ty.Continues` : a text that was read up to a place, and another reading that goes on from there.
* `Ty.continues_or` : of two readings of one text, one goes on where the other one stops.
* `Ty.text_inj` : types with the same text are the same.
-/

namespace LevelIr

/-! ### Numbers in a text -/

/-- The characters do not go on with a digit. -/
def EndsNumber (cs : List Char) : Prop := ∀ c ∈ cs.head?, c.isDigit = false

theorem endsNumber_cons {c : Char} {cs : List Char} (h : c.isDigit = false) :
    EndsNumber (c :: cs) := by
  rintro _ ⟨⟩
  exact h

theorem EndsNumber.takeWhile_eq_nil {cs : List Char} (h : EndsNumber cs) :
    cs.takeWhile Char.isDigit = [] := by
  cases cs with
  | nil => rfl
  | cons c cs => exact List.takeWhile_cons_of_neg (by simp [h c rfl])

theorem takeWhile_isDigit_toString (n : Nat) {cs : List Char} (h : EndsNumber cs) :
    ((toString n).toList ++ cs).takeWhile Char.isDigit = (toString n).toList := by
  have hdigits : ∀ c ∈ (toString n).toList, c.isDigit = true := fun c hc =>
    Nat.isDigit_of_mem_toDigits (by decide) (by decide) (Nat.toList_repr ▸ hc)
  rw [List.takeWhile_append_of_pos hdigits, h.takeWhile_eq_nil, List.append_nil]

/-- A number ends where the digits do. -/
theorem toString_append_inj {m n : Nat} {r s : List Char} (hr : EndsNumber r) (hs : EndsNumber s)
    (h : (toString m).toList ++ r = (toString n).toList ++ s) : m = n ∧ r = s := by
  have hdigits : (toString m).toList = (toString n).toList := by
    rw [← takeWhile_isDigit_toString m hr, h, takeWhile_isDigit_toString n hs]
  refine ⟨toString_inj.1 (String.toList_inj.1 hdigits), ?_⟩
  rwa [hdigits, List.append_cancel_left_eq] at h

namespace Ty

/-! ### How a text goes on -/

/-- What the text of a type can go on with. -/
inductive Suffix where
  /-- A pointer to what was written before. -/
  | star
  /-- A function with parameters, whose result was written before. -/
  | call (params : List Ty)

/-- The type that a suffix makes of the type before it. -/
def Suffix.apply (type : Ty) : Suffix → Ty
  | star => pointer type
  | call params => function type params

/-- The characters of a suffix. -/
def Suffix.chars : Suffix → List Char
  | star => ['*']
  | call params => ' ' :: '(' :: ((texts params).toList ++ [')'])

/-- The type that suffixes make of the type before them. -/
def extend (type : Ty) (suffixes : List Suffix) : Ty := suffixes.foldl Suffix.apply type

/-- The characters of suffixes. -/
def suffixChars (suffixes : List Suffix) : List Char := suffixes.flatMap Suffix.chars

theorem extend_append_singleton (type : Ty) (suffixes : List Suffix) (last : Suffix) :
    type.extend (suffixes ++ [last]) = last.apply (type.extend suffixes) := by
  simp [extend]

theorem suffixChars_cons (suffix : Suffix) (suffixes : List Suffix) :
    suffixChars (suffix :: suffixes) = suffix.chars ++ suffixChars suffixes :=
  List.flatMap_cons

theorem suffixChars_append_singleton (suffixes : List Suffix) (last : Suffix) :
    suffixChars (suffixes ++ [last]) = suffixChars suffixes ++ last.chars := by
  simp [suffixChars]

theorem toList_text_apply (type : Ty) (suffix : Suffix) :
    (suffix.apply type).text.toList = type.text.toList ++ suffix.chars := by
  cases suffix <;> simp [Suffix.apply, Suffix.chars, text]

theorem toList_text_extend (type : Ty) (suffixes : List Suffix) :
    (type.extend suffixes).text.toList = type.text.toList ++ suffixChars suffixes := by
  induction suffixes generalizing type with
  | nil => simp [extend, suffixChars]
  | cons suffix suffixes ih =>
    have htail := ih (suffix.apply type)
    rw [toList_text_apply, List.append_assoc, ← suffixChars_cons] at htail
    exact htail

/-- Whether the text of a type does not start with that of another one. -/
def isHead : Ty → Bool
  | pointer _ | function _ _ => false
  | _ => true

theorem exists_head : ∀ type : Ty, ∃ head suffixes, head.isHead = true ∧ type = extend head suffixes
  | pointer pointee => by
    obtain ⟨head, suffixes, hhead, rfl⟩ := exists_head pointee
    exact ⟨head, suffixes ++ [.star], hhead, by rw [extend_append_singleton]; rfl⟩
  | function result params => by
    obtain ⟨head, suffixes, hhead, rfl⟩ := exists_head result
    exact ⟨head, suffixes ++ [.call params], hhead, by rw [extend_append_singleton]; rfl⟩
  | void | int _ | float | double | array _ _ | vector _ _ | struct _ | label | token | metadata =>
    ⟨_, [], rfl, rfl⟩

/-! ### Where a text stops -/

/-- The characters end the text of a type that stands inside of another one. -/
def Stops (cs : List Char) : Prop := ∀ c ∈ cs.head?, c ∈ [',', ']', '>', closeBrace, ')']

theorem stops_cons {c : Char} {cs : List Char} (h : c ∈ [',', ']', '>', closeBrace, ')']) :
    Stops (c :: cs) := by
  rintro _ ⟨⟩
  exact h

theorem Stops.endsNumber {cs : List Char} (h : Stops cs) : EndsNumber cs := by
  intro c hc
  have hmem := h c hc
  simp only [List.mem_cons, List.not_mem_nil, or_false] at hmem
  rcases hmem with rfl | rfl | rfl | rfl | rfl <;> rfl

theorem endsNumber_suffixChars (suffixes : List Suffix) {cs : List Char} (h : EndsNumber cs) :
    EndsNumber (suffixChars suffixes ++ cs) := by
  cases suffixes with
  | nil => exact h
  | cons suffix suffixes =>
    cases suffix with
    | star => exact endsNumber_cons (c := '*') rfl
    | call params => exact endsNumber_cons (c := ' ') rfl

theorem eq_nil_of_stops {suffixes : List Suffix} {cs : List Char}
    (h : Stops (suffixChars suffixes ++ cs)) : suffixes = [] := by
  cases suffixes with
  | nil => rfl
  | cons suffix suffixes =>
    cases suffix with
    | star => exact absurd (h '*' rfl) (by decide)
    | call params => exact absurd (h ' ' rfl) (by decide)

/-! ### Two readings of one text -/

/-- Behind the text of `a` comes `r`, which goes on with suffixes up to the end of `b`. -/
def Continues (a : Ty) (r : List Char) (b : Ty) (s : List Char) : Prop :=
  ∃ suffixes, b = a.extend suffixes ∧ r = suffixChars suffixes ++ s

section Continues

variable {a b : Ty} {r s : List Char}

theorem Continues.eq_of_stops (h : Continues a r b s) (hr : Stops r) : a = b ∧ r = s := by
  obtain ⟨suffixes, rfl, rfl⟩ := h
  obtain rfl := eq_nil_of_stops hr
  exact ⟨rfl, rfl⟩

theorem eq_of_continues_or (h : Continues a r b s ∨ Continues b s a r) (hr : Stops r)
    (hs : Stops s) : a = b ∧ r = s := by
  rcases h with h | h
  · exact h.eq_of_stops hr
  · obtain ⟨hba, hsr⟩ := h.eq_of_stops hs
    exact ⟨hba.symm, hsr.symm⟩

/-- A suffix more on the side that goes on further. -/
theorem Continues.apply (suffix : Suffix) (h : Continues b s a (suffix.chars ++ r)) :
    Continues b s (suffix.apply a) r := by
  obtain ⟨suffixes, rfl, rfl⟩ := h
  refine ⟨suffixes ++ [suffix], (extend_append_singleton ..).symm, ?_⟩
  rw [suffixChars_append_singleton, List.append_assoc]

/-- A suffix more on the side that stops first: the other side goes on with the same one, or stops
before it. -/
theorem Continues.apply_or (suffix : Suffix) (h : Continues a (suffix.chars ++ r) b s)
    (hsame : ∀ (other : Suffix) rest, suffix.chars ++ r = other.chars ++ rest →
      suffix = other ∧ r = rest) :
    Continues (suffix.apply a) r b s ∨ Continues b s (suffix.apply a) r := by
  obtain ⟨suffixes, rfl, hchars⟩ := h
  cases suffixes with
  | nil => exact .inr ⟨[suffix], rfl, by simpa [suffixChars] using hchars.symm⟩
  | cons other suffixes =>
    rw [suffixChars_cons, List.append_assoc] at hchars
    obtain ⟨rfl, hr⟩ := hsame _ _ hchars
    exact .inl ⟨suffixes, rfl, hr⟩

end Continues

/-! ### How a text starts -/

/-- The first character of the text of a type. -/
def opening : Ty → Char
  | void => 'v'
  | int _ => 'i'
  | float => 'f'
  | double => 'd'
  | pointer pointee => pointee.opening
  | array _ _ => '['
  | vector _ _ => '<'
  | struct _ => openBrace
  | function result _ => result.opening
  | label => 'l'
  | token => 't'
  | metadata => 'm'

theorem head?_text : ∀ (type : Ty) (cs : List Char),
    (type.text.toList ++ cs).head? = some type.opening
  | pointer pointee, cs => by
    have h := head?_text pointee ('*' :: cs)
    simpa [text, opening] using h
  | function result params, cs => by
    have h := head?_text result (' ' :: '(' :: ((texts params).toList ++ ')' :: cs))
    simpa [text, opening] using h
  | void, _ | int _, _ | float, _ | double, _ | array _ _, _ | vector _ _, _ | struct _, _
  | label, _ | token, _ | metadata, _ => by simp [text, opening]

theorem opening_extend (type : Ty) (suffixes : List Suffix) :
    (type.extend suffixes).opening = type.opening := by
  have h := head?_text (type.extend suffixes) []
  rw [toList_text_extend, List.append_assoc, head?_text] at h
  exact (Option.some.inj h).symm

/-- Whether a type holds no number and no other type. -/
def isWord : Ty → Bool
  | void | float | double | label | token | metadata => true
  | _ => false

theorem eq_of_opening {word head : Ty} (hword : word.isWord = true) (hhead : head.isHead = true)
    (h : word.opening = head.opening) : word = head := by
  cases word with
  | int | pointer | array | vector | struct | function => cases hword
  | _ => cases head <;> simp [opening, isHead] at h hhead ⊢

/-- A text that starts as that of `a` starts as that of a head with the same first character. -/
theorem exists_head_of_append {a b : Ty} {r s : List Char}
    (h : a.text.toList ++ r = b.text.toList ++ s) :
    ∃ head suffixes, head.isHead = true ∧ b = extend head suffixes ∧ a.opening = head.opening ∧
      a.text.toList ++ r = head.text.toList ++ (suffixChars suffixes ++ s) := by
  obtain ⟨head, suffixes, hhead, rfl⟩ := exists_head b
  refine ⟨head, suffixes, hhead, rfl, ?_, ?_⟩
  · have hfirst := congrArg List.head? h
    rw [head?_text, head?_text, opening_extend] at hfirst
    exact Option.some.inj hfirst
  · rw [h, toList_text_extend, List.append_assoc]

/-! ### Lists of types -/

/-- The characters end a list of types. -/
def Closes (cs : List Char) : Prop := ∀ c ∈ cs.head?, c ∈ [')', closeBrace]

theorem closes_cons {c : Char} {cs : List Char} (h : c ∈ [')', closeBrace]) : Closes (c :: cs) := by
  rintro _ ⟨⟩
  exact h

theorem Closes.stops {cs : List Char} (h : Closes cs) : Stops cs := by
  intro c hc
  have hmem := h c hc
  simp only [List.mem_cons, List.not_mem_nil, or_false] at hmem
  rcases hmem with rfl | rfl <;> decide

/-- No text of a type starts as what ends a list. -/
theorem not_closes_text (type : Ty) (cs : List Char) : ¬ Closes (type.text.toList ++ cs) := by
  obtain ⟨head, suffixes, hhead, rfl⟩ := exists_head type
  intro h
  have hmem := h _ (head?_text _ cs)
  rw [opening_extend] at hmem
  cases head with
  | pointer | function => cases hhead
  | _ => simp [opening] at hmem

/-- The characters of the types of a list behind the first one. -/
def laterChars : List Ty → List Char
  | [] => []
  | type :: rest => ',' :: ' ' :: (texts (type :: rest)).toList

theorem toList_texts_cons (type : Ty) (rest : List Ty) :
    (texts (type :: rest)).toList = type.text.toList ++ laterChars rest := by
  cases rest <;> simp [texts, laterChars]

theorem stops_laterChars (types : List Ty) {cs : List Char} (h : Closes cs) :
    Stops (laterChars types ++ cs) := by
  cases types with
  | nil => exact h.stops
  | cons type rest => exact stops_cons (c := ',') (by decide)

/-! ### All types -/

/-- A number and a type in brackets, if the type can be read in one way only. -/
theorem sized_append_inj {m n : Nat} {a b : Ty} (close : Char) {r s : List Char}
    (hclose : close ∈ [',', ']', '>', closeBrace, ')'])
    (hinner : ∀ {r s : List Char}, EndsNumber r → EndsNumber s →
      a.text.toList ++ r = b.text.toList ++ s → Continues a r b s ∨ Continues b s a r)
    (h : (toString m).toList ++ (' ' :: 'x' :: ' ' :: (a.text.toList ++ close :: r)) =
      (toString n).toList ++ (' ' :: 'x' :: ' ' :: (b.text.toList ++ close :: s))) :
    m = n ∧ a = b ∧ r = s := by
  obtain ⟨hlength, h⟩ :=
    toString_append_inj (endsNumber_cons (c := ' ') rfl) (endsNumber_cons (c := ' ') rfl) h
  simp only [List.cons.injEq, true_and] at h
  have hr : Stops (close :: r) := stops_cons hclose
  have hs : Stops (close :: s) := stops_cons hclose
  obtain ⟨helement, hrest⟩ := eq_of_continues_or (hinner hr.endsNumber hs.endsNumber h) hr hs
  exact ⟨hlength, helement, (List.cons.inj hrest).2⟩

mutual

/-- Of two readings of one text, one goes on where the other one stops. -/
theorem continues_or : ∀ (a b : Ty) {r s : List Char}, EndsNumber r → EndsNumber s →
    a.text.toList ++ r = b.text.toList ++ s → Continues a r b s ∨ Continues b s a r
  | pointer pointee, b, r, s, hr, hs, h => by
    have hstar : pointee.text.toList ++ (Suffix.star.chars ++ r) = b.text.toList ++ s := by
      rw [← List.append_assoc, ← toList_text_apply]
      exact h
    rcases continues_or pointee b (endsNumber_cons (c := '*') rfl) hs hstar with hcont | hcont
    · refine hcont.apply_or .star fun other rest hchars => ?_
      cases other with
      | star => exact ⟨rfl, (List.cons.inj hchars).2⟩
      | call params => simp [Suffix.chars] at hchars
    · exact .inr (hcont.apply .star)
  | function result params, b, r, s, hr, hs, h => by
    have hcall : result.text.toList ++ ((Suffix.call params).chars ++ r) =
        b.text.toList ++ s := by
      rw [← List.append_assoc, ← toList_text_apply]
      exact h
    rcases continues_or result b (endsNumber_cons (c := ' ') rfl) hs hcall with hcont | hcont
    · refine hcont.apply_or (.call params) fun other rest hchars => ?_
      cases other with
      | star => simp [Suffix.chars] at hchars
      | call others =>
        simp only [Suffix.chars, List.cons_append, List.append_assoc, List.nil_append,
          List.cons.injEq, true_and] at hchars
        obtain ⟨rfl, hrest⟩ := texts_append_inj params others (closes_cons (by decide))
          (closes_cons (by decide)) hchars
        exact ⟨rfl, (List.cons.inj hrest).2⟩
    · exact .inr (hcont.apply (.call params))
  | int bits, b, r, s, hr, hs, h => by
    obtain ⟨head, suffixes, hhead, rfl, hopening, h⟩ := exists_head_of_append h
    cases head with
    | pointer | function => cases hhead
    | int other =>
      simp only [text, String.toList_append, List.append_assoc, List.append_cancel_left_eq] at h
      obtain ⟨rfl, hrest⟩ := toString_append_inj hr (endsNumber_suffixChars suffixes hs) h
      exact .inl ⟨suffixes, rfl, hrest⟩
    | _ => simp [opening] at hopening
  | array length element, b, r, s, hr, hs, h => by
    obtain ⟨head, suffixes, hhead, rfl, hopening, h⟩ := exists_head_of_append h
    cases head with
    | pointer | function => cases hhead
    | array length' element' =>
      have hsized := sized_append_inj ']' (by decide) (continues_or element element')
        (by simpa [text] using h)
      obtain ⟨rfl, rfl, hrest⟩ := hsized
      exact .inl ⟨suffixes, rfl, hrest⟩
    | _ => simp [opening] at hopening
  | vector length element, b, r, s, hr, hs, h => by
    obtain ⟨head, suffixes, hhead, rfl, hopening, h⟩ := exists_head_of_append h
    cases head with
    | pointer | function => cases hhead
    | vector length' element' =>
      have hsized := sized_append_inj '>' (by decide) (continues_or element element')
        (by simpa [text] using h)
      obtain ⟨rfl, rfl, hrest⟩ := hsized
      exact .inl ⟨suffixes, rfl, hrest⟩
    | _ => simp [opening] at hopening
  | struct fields, b, r, s, hr, hs, h => by
    obtain ⟨head, suffixes, hhead, rfl, hopening, h⟩ := exists_head_of_append h
    cases head with
    | pointer | function => cases hhead
    | struct others =>
      have hfields : (texts fields).toList ++ closeBrace :: r =
          (texts others).toList ++ closeBrace :: (suffixChars suffixes ++ s) := by
        simpa [text] using h
      obtain ⟨rfl, hrest⟩ := texts_append_inj fields others (closes_cons (by decide))
        (closes_cons (by decide)) hfields
      exact .inl ⟨suffixes, rfl, (List.cons.inj hrest).2⟩
    | _ => simp [opening] at hopening
  | void, b, r, s, hr, hs, h | float, b, r, s, hr, hs, h | double, b, r, s, hr, hs, h
  | label, b, r, s, hr, hs, h | token, b, r, s, hr, hs, h | metadata, b, r, s, hr, hs, h => by
    obtain ⟨head, suffixes, hhead, rfl, hopening, h⟩ := exists_head_of_append h
    obtain rfl := eq_of_opening rfl hhead hopening
    exact .inl ⟨suffixes, rfl, List.append_cancel_left h⟩

/-- A list of types ends at the bracket behind it. -/
theorem texts_append_inj : ∀ (types others : List Ty) {r s : List Char}, Closes r → Closes s →
    (texts types).toList ++ r = (texts others).toList ++ s → types = others ∧ r = s
  | [], others, r, s, hr, hs, h => by
    cases others with
    | nil => exact ⟨rfl, h⟩
    | cons type rest =>
      rw [toList_texts_cons, List.append_assoc] at h
      rw [show r = _ from h] at hr
      exact absurd hr (not_closes_text type _)
  | type :: rest, others, r, s, hr, hs, h => by
    rw [toList_texts_cons, List.append_assoc] at h
    cases others with
    | nil =>
      rw [show s = _ from h.symm] at hs
      exact absurd hs (not_closes_text type _)
    | cons other rest' =>
      rw [toList_texts_cons, List.append_assoc] at h
      have hstops := stops_laterChars rest hr
      have hstops' := stops_laterChars rest' hs
      obtain ⟨rfl, hlater⟩ := eq_of_continues_or
        (continues_or type other hstops.endsNumber hstops'.endsNumber h) hstops hstops'
      cases rest with
      | nil =>
        cases rest' with
        | nil => exact ⟨rfl, hlater⟩
        | cons next rest' =>
          rw [show r = _ from hlater] at hr
          exact absurd (hr ',' rfl) (by decide)
      | cons next rest =>
        cases rest' with
        | nil =>
          rw [show s = _ from hlater.symm] at hs
          exact absurd (hs ',' rfl) (by decide)
        | cons next' rest' =>
          simp only [laterChars, List.cons_append, List.cons.injEq, true_and] at hlater
          obtain ⟨hrest, hrs⟩ := texts_append_inj (next :: rest) (next' :: rest') hr hs hlater
          exact ⟨congrArg (type :: ·) hrest, hrs⟩

end

/-- **Types with the same text are the same.** -/
theorem text_inj (a b : Ty) : a.text = b.text ↔ a = b := by
  constructor
  · intro h
    have hchars : a.text.toList ++ [] = b.text.toList ++ [] := by rw [h]
    have hends : Stops [] := nofun
    exact (eq_of_continues_or (continues_or a b hends.endsNumber hends.endsNumber hchars) hends
      hends).1
  · rintro rfl
    rfl

end Ty

end LevelIr
