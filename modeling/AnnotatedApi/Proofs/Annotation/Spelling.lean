import AnnotatedApi.Annotation.Restriction
import AnnotatedApi.Proofs.Text.Blank

/-!
# How restrictions are written

A restriction is written as one of six names or as `array<...>` around another one, with white space around
each level. Reading accepts the texts that are written so, and no other; displayed, what has been read is the
text without that white space, and what is displayed is read back.
-/

namespace AnnotatedApi.Restriction

set_option autoImplicit false

open Text (Padded Trimmed trimChars)

/-- What is written for a restriction that is not an array. -/
def names : List String := ["string", "number", "boolean", "date", "object", "opaque"]

/-- What is written inside, between `array<` and `>`. -/
def enclosed (inner : List Char) : List Char := ['a', 'r', 'r', 'a', 'y', '<'] ++ inner ++ ['>']

/-- A text that a restriction is written as; behind it, the same without the white space around each level. -/
inductive Written : List Char → List Char → Prop where
  | name {cs : List Char} {name : String} : name ∈ names → Padded cs name.toList → Written cs name.toList
  | array {cs inner bare : List Char} : Padded cs (enclosed inner) → Written inner bare →
    Written cs (enclosed bare)

/-! ## One level -/

theorem elementChars?_eq_some_iff {cs inner : List Char} :
    elementChars? cs = some inner ↔ cs = enclosed inner := by
  constructor
  · intro h
    unfold elementChars? at h
    split at h
    · rename_i rest
      split at h
      · rename_i hlast
        cases h
        have hrest : rest.dropLast ++ ['>'] = rest := List.dropLast_append_getLast? _ hlast
        simp [enclosed, hrest]
      · cases h
    · cases h
  · rintro rfl
    simp [enclosed, elementChars?]

theorem trimmed_enclosed (inner : List Char) : Trimmed (enclosed inner) := by
  have hlast : (enclosed inner).getLast? = some '>' := by
    rw [enclosed, List.getLast?_concat]
  refine ⟨fun c hc => ?_, fun c hc => ?_⟩
  · obtain rfl : 'a' = c := by simpa [enclosed] using hc
    rfl
  · obtain rfl : '>' = c := by simpa [hlast] using hc
    rfl

/-- A restriction that is not an array is told by its name, which has no white space and is no array. -/
theorem simple_names : ∀ r ∈ simple, r.display ∈ names ∧ r.display.toList.all (!Text.isBlank ·) = true ∧
    elementChars? r.display.toList = none ∧ simple.find? (·.display == r.display) = some r := by
  decide

theorem trimmed_display {r : Restriction} (h : r ∈ simple) : Trimmed r.display.toList := by
  have hblank : ∀ c ∈ r.display.toList, Text.isBlank c = false := by
    simpa using (simple_names r h).2.1
  exact ⟨fun c hc => hblank c (List.mem_of_mem_head? hc), fun c hc => hblank c (List.mem_of_mem_getLast? hc)⟩

theorem ofChars_of_elementChars?_eq_some {cs inner : List Char}
    (h : elementChars? (trimChars cs) = some inner) : ofChars cs = (ofChars inner).map arrayOf := by
  rw [ofChars]
  split <;> simp_all

theorem ofChars_of_elementChars?_eq_none {cs : List Char} (h : elementChars? (trimChars cs) = none) :
    ofChars cs =
      match simple.find? (·.display == String.ofList (trimChars cs)) with
      | some r => .ok r
      | none => .error ⟨String.ofList (trimChars cs)⟩ := by
  rw [ofChars]
  split
  · rename_i helement
    rw [h] at helement
    cases helement
  · rfl

/-- What is written as an array is read as the array of what stands inside. -/
theorem ofChars_of_padded_enclosed {cs inner : List Char} (h : Padded cs (enclosed inner)) :
    ofChars cs = (ofChars inner).map arrayOf := by
  refine ofChars_of_elementChars?_eq_some ?_
  rw [Text.trimChars_of_padded h (trimmed_enclosed inner), elementChars?_eq_some_iff]

theorem ofChars_of_padded_display {r : Restriction} (hr : r ∈ simple) {cs : List Char}
    (h : Padded cs r.display.toList) : ofChars cs = .ok r := by
  obtain ⟨-, -, helement, hfind⟩ := simple_names r hr
  have htrim := Text.trimChars_of_padded h (trimmed_display hr)
  rw [← htrim] at helement
  rw [ofChars_of_elementChars?_eq_none helement, htrim, String.ofList_toList, hfind]

/-- What is read is a name or an array of what is read inside. -/
theorem cases_of_ofChars {cs : List Char} {r : Restriction} (h : ofChars cs = .ok r) :
    (r ∈ simple ∧ Padded cs r.display.toList) ∨
      ∃ element inner, r = arrayOf element ∧ Padded cs (enclosed inner) ∧ ofChars inner = .ok element := by
  have hpadded := Text.padded_trimChars cs
  cases helement : elementChars? (trimChars cs) with
  | none =>
    rw [ofChars_of_elementChars?_eq_none helement] at h
    split at h
    · rename_i r' hfind
      cases h
      have hdisplay : r.display = String.ofList (trimChars cs) := by simpa using List.find?_some hfind
      refine .inl ⟨List.mem_of_find?_eq_some hfind, ?_⟩
      rwa [hdisplay, String.toList_ofList]
    · cases h
  | some inner =>
    rw [ofChars_of_elementChars?_eq_some helement] at h
    rw [elementChars?_eq_some_iff.mp helement] at hpadded
    cases hinner : ofChars inner with
    | error e =>
      rw [hinner] at h
      cases h
    | ok element =>
      rw [hinner] at h
      cases h
      exact .inr ⟨element, inner, rfl, hpadded, hinner⟩

/-! ## All levels -/

theorem toList_display_arrayOf (element : Restriction) :
    (arrayOf element).display.toList = enclosed element.display.toList := by
  simp [display, enclosed]

theorem exists_of_written {cs bare : List Char} (h : Written cs bare) :
    ∃ r, ofChars cs = .ok r ∧ r.display.toList = bare := by
  induction h with
  | name hname hpadded =>
    have hall : ∀ name ∈ names, ∃ r ∈ simple, r.display = name := by decide
    obtain ⟨r, hr, rfl⟩ := hall _ hname
    exact ⟨r, ofChars_of_padded_display hr hpadded, rfl⟩
  | array hpadded _ ih =>
    obtain ⟨element, helement, rfl⟩ := ih
    refine ⟨arrayOf element, ?_, toList_display_arrayOf element⟩
    rw [ofChars_of_padded_enclosed hpadded, helement]
    rfl

theorem written_of_ofChars {cs : List Char} {r : Restriction} (h : ofChars cs = .ok r) :
    Written cs r.display.toList := by
  induction r generalizing cs with
  | arrayOf element ih =>
    rcases cases_of_ofChars h with ⟨hsimple, -⟩ | ⟨element', inner, heq, hpadded, hinner⟩
    · simp [simple] at hsimple
    · cases heq
      rw [toList_display_arrayOf]
      exact .array hpadded (ih hinner)
  | _ =>
    rcases cases_of_ofChars h with ⟨hsimple, hpadded⟩ | ⟨_, _, heq, -⟩
    · exact .name (simple_names _ hsimple).1 hpadded
    · cases heq

theorem ofChars_display (r : Restriction) : ofChars r.display.toList = .ok r := by
  induction r with
  | arrayOf element ih =>
    rw [toList_display_arrayOf, ofChars_of_padded_enclosed (.refl _), ih]
    rfl
  | _ => exact ofChars_of_padded_display (by decide) (.refl _)

/-- Reading restrictions accepts what is written as one and nothing else. What is displayed is read back, and
what is read is displayed as the text without the white space around each level. -/
theorem ofText_iff_written :
    (∀ r : Restriction, ofText r.display = .ok r) ∧
    ∀ s : String,
      (∀ bare, Written s.toList bare ↔ ∃ r, ofText s = .ok r ∧ r.display.toList = bare) ∧
      ((∃ u, ofText s = .error u) ↔ ∀ bare, ¬ Written s.toList bare) := by
  have hwritten : ∀ (s : String) bare,
      Written s.toList bare ↔ ∃ r, ofText s = .ok r ∧ r.display.toList = bare := by
    refine fun s bare => ⟨exists_of_written, ?_⟩
    rintro ⟨r, hr, rfl⟩
    exact written_of_ofChars hr
  refine ⟨ofChars_display, fun s => ⟨hwritten s, ?_⟩⟩
  cases h : ofText s with
  | error u => simp [hwritten, h]
  | ok r => simp [hwritten, h]

example : (ofText " array< array<date > > ").toOption.map display = some "array<array<date>>" := by cbv

example : (ofText "array<array<date>").toOption = none := by cbv

end AnnotatedApi.Restriction
