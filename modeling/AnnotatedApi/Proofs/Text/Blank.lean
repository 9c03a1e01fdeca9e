import AnnotatedApi.Text.Blank
import Mathlib.Data.List.DropRight

/-!
# White space around a text

Trimming takes away what is white space at both ends, and that only: the text without it is told by not
beginning or ending with white space.
-/

namespace AnnotatedApi.Text

set_option autoImplicit false

/-- A text with white space around it, or without. -/
def Padded (cs inner : List Char) : Prop :=
  ∃ before behind, (∀ c ∈ before, isBlank c = true) ∧ (∀ c ∈ behind, isBlank c = true) ∧
    cs = before ++ inner ++ behind

/-- No white space at either end. -/
structure Trimmed (cs : List Char) : Prop where
  head : ∀ c ∈ cs.head?, isBlank c = false
  last : ∀ c ∈ cs.getLast?, isBlank c = false

theorem Padded.refl (cs : List Char) : Padded cs cs := ⟨[], [], by simp, by simp, by simp⟩

theorem trimChars_eq_rdropWhile (cs : List Char) :
    trimChars cs = (cs.dropWhile isBlank).rdropWhile isBlank :=
  rfl

theorem padded_trimChars (cs : List Char) : Padded cs (trimChars cs) := by
  refine ⟨cs.takeWhile isBlank, (cs.dropWhile isBlank).rtakeWhile isBlank, ?_, ?_, ?_⟩
  · exact fun c hc => List.mem_takeWhile_imp hc
  · exact fun c hc => List.mem_rtakeWhile_imp hc
  · rw [trimChars_eq_rdropWhile, List.append_assoc, List.rdropWhile_append_rtakeWhile,
      List.takeWhile_append_dropWhile]

/-- White space in front is dropped up to the first other character. -/
theorem dropWhile_isBlank_append {before cs : List Char} (hbefore : ∀ c ∈ before, isBlank c = true)
    (hcs : ∀ c ∈ cs.head?, isBlank c = false) : (before ++ cs).dropWhile isBlank = cs := by
  rw [List.dropWhile_append_of_pos hbefore]
  cases cs with
  | nil => rfl
  | cons c cs => exact List.dropWhile_cons_of_neg (by simp [hcs c rfl])

theorem trimChars_of_padded {cs inner : List Char} (h : Padded cs inner) (hinner : Trimmed inner) :
    trimChars cs = inner := by
  obtain ⟨before, behind, hbefore, hbehind, rfl⟩ := h
  by_cases hne : inner = []
  · have hall : ∀ c ∈ before ++ inner ++ behind, isBlank c = true := by
      simpa [hne, or_imp, forall_and] using ⟨hbefore, hbehind⟩
    rw [trimChars_eq_rdropWhile, List.dropWhile_eq_nil_iff.mpr hall, List.rdropWhile_nil, hne]
  · have hhead : (inner ++ behind).head? = inner.head? := by
      rw [List.head?_append, List.head?_eq_some_head hne, Option.some_or]
    have hfront : (before ++ (inner ++ behind)).dropWhile isBlank = inner ++ behind :=
      dropWhile_isBlank_append hbefore (hhead ▸ hinner.head)
    have hback : (behind.reverse ++ inner.reverse).dropWhile isBlank = inner.reverse :=
      dropWhile_isBlank_append (by simpa using hbehind) (by simpa using hinner.last)
    rw [trimChars, List.append_assoc, hfront, List.reverse_append, hback, List.reverse_reverse]

/-- Trimming leaves nothing of a text if there is nothing but white space in it. -/
theorem trimChars_eq_nil_iff (cs : List Char) : trimChars cs = [] ↔ ∀ c ∈ cs, isBlank c = true := by
  constructor
  · intro h
    obtain ⟨before, behind, hbefore, hbehind, hcs⟩ := padded_trimChars cs
    rw [h, List.append_nil] at hcs
    rw [hcs]
    exact List.forall_mem_append.mpr ⟨hbefore, hbehind⟩
  · intro h
    have hpadded : Padded cs [] := ⟨cs, [], h, by simp, by simp⟩
    have htrimmed : Trimmed [] := ⟨by simp, by simp⟩
    exact trimChars_of_padded hpadded htrimmed

end AnnotatedApi.Text
