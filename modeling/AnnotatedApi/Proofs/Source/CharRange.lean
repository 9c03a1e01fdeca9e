import AnnotatedApi.Proofs.Compilation.Writable
import AnnotatedApi.Source.CharRange
import Mathlib.Data.Nat.PSub

/-!
# Places and the characters they denote

A host names the place before a character in one of two ways: by the line and the column, both counted in
characters, or by the bytes that stand before it. Both are read off the text in front of the place alone, the
first one by its whole lines, the second one by its length in bytes. A span marks the characters from its start
to its end, however the two are named; and whatever a span says, it marks at least one character and begins
inside the text or at its end.
-/

namespace AnnotatedApi

set_option autoImplicit false

/-! ## The text before a place -/

/-- How many bytes the characters take. -/
def byteLength : List Char → Nat
  | [] => 0
  | c :: text => c.utf8Size + byteLength text

theorem byteLength_cons (c : Char) (text : List Char) :
    byteLength (c :: text) = c.utf8Size + byteLength text :=
  rfl

theorem byteLength_append (text more : List Char) :
    byteLength (text ++ more) = byteLength text + byteLength more := by
  induction text with
  | nil => exact (Nat.zero_add _).symm
  | cons c text ih => rw [List.cons_append, byteLength_cons, byteLength_cons, ih, Nat.add_assoc]

theorem length_le_byteLength (text : List Char) : text.length ≤ byteLength text := by
  induction text with
  | nil => exact Nat.le_refl 0
  | cons c text ih =>
    have hc := c.utf8Size_pos
    rw [byteLength_cons, List.length_cons]
    omega

theorem byteLength_take_le (text : List Char) (i : Nat) : byteLength (text.take i) ≤ byteLength text := by
  have hsplit : byteLength text = byteLength (text.take i) + byteLength (text.drop i) := by
    rw [← byteLength_append, List.take_append_drop]
  omega

theorem charsBeforeByte_append (before after : List Char) :
    charsBeforeByte (byteLength before) (before ++ after) = before.length := by
  induction before with
  | nil => cases after <;> rfl
  | cons c before ih =>
    have hc := c.utf8Size_pos
    have hpos : ¬ byteLength (c :: before) = 0 := by
      rw [byteLength_cons]
      omega
    have hrest : byteLength (c :: before) - c.utf8Size = byteLength before := by
      rw [byteLength_cons]
      omega
    rw [List.cons_append, charsBeforeByte, if_neg hpos, hrest, ih, List.length_cons]

/-- Whether the text is so many whole lines, each of which ends at its line feed. -/
inductive WholeLines : Nat → List Char → Prop where
  | none : WholeLines 0 []
  | line {n : Nat} {text rest : List Char} : '\n' ∉ text → WholeLines n rest →
    WholeLines (n + 1) (text ++ '\n' :: rest)

/-- A line up to its line feed is one line. -/
theorem charsOfLines_line {text : List Char} (h : '\n' ∉ text) (n : Nat) (rest : List Char) :
    charsOfLines (n + 1) (text ++ '\n' :: rest) = text.length + 1 + charsOfLines n rest := by
  induction text with
  | nil => simp [charsOfLines, Nat.add_comm]
  | cons c text ih =>
    rw [List.mem_cons, not_or] at h
    rw [List.cons_append, charsOfLines, if_neg (Ne.symm h.1), ih h.2, List.length_cons]
    omega

namespace WholeLines

variable {n : Nat} {text : List Char}

theorem charsOfLines_append (h : WholeLines n text) (after : List Char) :
    charsOfLines n (text ++ after) = text.length := by
  induction h with
  | none => simp [charsOfLines]
  | line hline _ ih =>
    rw [List.append_assoc, List.cons_append, charsOfLines_line hline, ih, List.length_append,
      List.length_cons]
    omega

theorem le_length (h : WholeLines n text) : n ≤ text.length := by
  induction h with
  | none => exact Nat.le_refl 0
  | line _ _ ih =>
    rw [List.length_append, List.length_cons]
    omega

end WholeLines

/-- Every text is some whole lines and the beginning of a line. -/
theorem exists_wholeLines (text : List Char) :
    ∃ n before within, text = before ++ within ∧ WholeLines n before ∧ '\n' ∉ within := by
  induction text with
  | nil => exact ⟨0, [], [], rfl, .none, List.not_mem_nil⟩
  | cons c text ih =>
    obtain ⟨n, before, within, rfl, hbefore, hwithin⟩ := ih
    by_cases hc : c = '\n'
    · subst hc
      exact ⟨n + 1, '\n' :: before, within, rfl, .line List.not_mem_nil hbefore, hwithin⟩
    · cases hbefore with
      | none => exact ⟨0, [], c :: within, rfl, .none, by simp [Ne.symm hc, hwithin]⟩
      | @line n line rest hline hrest =>
        have hcons : '\n' ∉ c :: line := by simp [Ne.symm hc, hline]
        exact ⟨n + 1, c :: (line ++ '\n' :: rest), within, rfl, WholeLines.line hcons hrest, hwithin⟩

/-! ## Positions -/

namespace Position

/-- Whether the line and the column lead to the place before a character. The place behind the line feed
belongs to the line that ends there as well as to the next one. -/
inductive ByLine (source : List Char) (i : Nat) : Position → Prop where
  | intro {lines : Nat} {before within : List Char} : source.take i = before ++ within →
    WholeLines lines before → '\n' ∉ within.dropLast → ByLine source i ⟨lines + 1, within.length + 1, 0⟩

/-- Whether the position is that of the place before a character. Where bytes are counted, the line and the
column do not matter; that none are counted is said by the line. -/
inductive Denotes (source : List Char) (i : Nat) : Position → Prop where
  | line {p : Position} : p.ByLine source i → Denotes source i p
  | byte {line column : Nat} : 0 < byteLength (source.take i) →
    Denotes source i ⟨line, column, byteLength (source.take i)⟩
  | start {column : Nat} : byteLength (source.take i) = 0 → Denotes source i ⟨0, column, 0⟩

variable {source : List Char} {i : Nat} {p : Position}

theorem charIndex_of_byte (line column : Nat) (hi : i ≤ source.length)
    (h : 0 < byteLength (source.take i) ∨ line = 0) :
    charIndex source ⟨line, column, byteLength (source.take i)⟩ = i := by
  have hcond : (decide (byteLength (source.take i) > 0) || decide (line = 0)) = true := by
    simpa using h
  have hcount := charsBeforeByte_append (source.take i) (source.drop i)
  rw [List.take_append_drop, List.length_take_of_le hi] at hcount
  rw [charIndex, if_pos hcond, hcount]

theorem ByLine.charIndex_eq (h : p.ByLine source i) (hi : i ≤ source.length) :
    charIndex source p = i := by
  cases h with
  | @intro lines before within htake hbefore hwithin =>
    have hlength : before.length + within.length = i := by
      rw [← List.length_append, ← htake, List.length_take_of_le hi]
    have hlines : charsOfLines lines source = before.length := by
      rw [← List.take_append_drop i source, htake, List.append_assoc]
      exact hbefore.charsOfLines_append _
    have hcharIndex : charIndex source ⟨lines + 1, within.length + 1, 0⟩ =
        charsOfLines lines source + within.length := by
      simp [charIndex]
    rw [hcharIndex, hlines, hlength]

theorem Denotes.charIndex_eq (h : p.Denotes source i) (hi : i ≤ source.length) :
    charIndex source p = i := by
  cases h with
  | line h => exact h.charIndex_eq hi
  | byte h => exact charIndex_of_byte _ _ hi (.inl h)
  | @start column h =>
    have hstart := charIndex_of_byte 0 column hi (.inr rfl)
    rwa [h] at hstart

/-- A place behind the beginning is not what stands for a span without an end. -/
theorem Denotes.ne_zero (h : p.Denotes source i) (hi : i ≤ source.length) (hpos : 0 < i) :
    p ≠ .zero := by
  rintro rfl
  have hindex := h.charIndex_eq hi
  cases source <;> simp [charIndex, zero, charsBeforeByte] at hindex <;> omega

/-- In a text that is not too long, every place can be named in both ways by numbers that fit their words. -/
theorem exists_writable (hsize : byteLength source < Nat.pow 2 32 - 1) (i : Nat) :
    (∃ p : Position, p.ByLine source i ∧ p.Writable) ∧
      Writable ⟨0, 0, byteLength (source.take i)⟩ := by
  obtain ⟨lines, before, within, htake, hbefore, hwithin⟩ := exists_wholeLines (source.take i)
  have hlines := hbefore.le_length
  have hlength : before.length + within.length ≤ byteLength (source.take i) := by
    rw [← List.length_append, ← htake]
    exact length_le_byteLength _
  have hbytes := byteLength_take_le source i
  refine ⟨⟨_, .intro htake hbefore fun hmem => hwithin (List.dropLast_subset _ hmem), ?_⟩, ?_⟩
  · constructor <;> dsimp only <;> omega
  · constructor <;> dsimp only <;> omega

/-- The number of characters before a position, if no number that is subtracted from is less than what is
subtracted. -/
def charIndex? (source : List Char) (p : Position) : Option Nat :=
  if p.offset > 0 || p.line = 0 then some (charsBeforeByte p.offset source)
  else p.line.ppred.map fun lines => charsOfLines lines source + (p.column - 1)

theorem charIndex?_eq (source : List Char) (p : Position) :
    p.charIndex? source = some (p.charIndex source) := by
  unfold charIndex? charIndex
  split
  · rfl
  · rename_i h
    have hline : p.line.ppred = some (p.line - 1) := by
      rw [Nat.ppred_eq_some]
      simp only [Bool.or_eq_true, decide_eq_true_eq, not_or] at h
      omega
    rw [hline, Option.map_some]

end Position

/-! ## Spans -/

namespace Span

/-- The characters a report marks, if no subtraction goes below zero and the end is held between bounds of
which the lower one is not above the upper one. -/
def charRange? (source : List Char) (s : Span) : Option (Nat × Nat) := do
  let count := source.length
  let start := min (← s.start.charIndex? source) count
  let stop ← if s.stop = .zero then some start else s.stop.charIndex? source
  if start + 1 ≤ max count (start + 1) then
    some (start, min (max stop (start + 1)) (max count (start + 1)))
  else none

/-- A span marks the characters between the two places that its positions denote, in whichever way each of them
does so; in a text that is not too long every place can be named in both ways. Whatever a span says, no bound is
crossed in computing what it marks: one character at least, from a place that is not past the end, and nothing
past the end except where the span begins there. -/
theorem charRange_spec (source : List Char) :
    (∀ (s : Span) (i j : Nat), i < j → j ≤ source.length → s.start.Denotes source i →
      s.stop.Denotes source j → s.charRange source = (i, j)) ∧
    (byteLength source < Nat.pow 2 32 - 1 → ∀ i ≤ source.length,
      (∃ p : Position, p.ByLine source i ∧ p.Writable) ∧
        Position.Writable ⟨0, 0, byteLength (source.take i)⟩) ∧
    ∀ s : Span, ∃ start stop, s.charRange source = (start, stop) ∧
      s.charRange? source = some (start, stop) ∧ start ≤ source.length ∧ start < stop ∧
      stop ≤ max source.length (start + 1) := by
  refine ⟨fun s i j hlt hj hstart hstop => ?_, fun hsize i _ => Position.exists_writable hsize i,
    fun s => ⟨_, _, rfl, ?_, ?_⟩⟩
  · have hi : i ≤ source.length := by omega
    have hend : s.stop ≠ .zero := hstop.ne_zero hj (by omega)
    simp only [charRange, hstart.charIndex_eq hi, if_neg hend, hstop.charIndex_eq hj, Prod.mk.injEq]
    omega
  · have hbounds : ∀ start, start + 1 ≤ max source.length (start + 1) := fun start => le_max_right _ _
    simp only [charRange?, Position.charIndex?_eq, Option.bind_eq_bind, Option.bind_some, hbounds, if_true]
    split <;> rfl
  · omega

/-- Two lines, of which the first one has a character of two bytes. -/
def twoLines : List Char := ['ä', '\n', 'b', 'c']

theorem charRange_spec_twoLines :
    let s : Span := ⟨"a.ts", ⟨2, 1, 0⟩, ⟨9, 9, 5⟩⟩
    s.start.Denotes twoLines 2 ∧ s.stop.Denotes twoLines 4 ∧ s.charRange twoLines = (2, 4) ∧
      byteLength twoLines < Nat.pow 2 32 - 1 ∧
      ∃ p : Position, p.ByLine twoLines 4 ∧ p.Writable := by
  intro s
  obtain ⟨hmarks, hfits, -⟩ := charRange_spec twoLines
  have hline : '\n' ∉ ['ä'] := by decide
  have hfirst : WholeLines 1 ['ä', '\n'] := WholeLines.line hline .none
  have hwithin : '\n' ∉ ([] : List Char).dropLast := by decide
  have hstart : s.start.Denotes twoLines 2 := .line (.intro rfl hfirst hwithin)
  have hstop : s.stop.Denotes twoLines 4 := .byte (by decide)
  have hsize : byteLength twoLines < Nat.pow 2 32 - 1 := by decide
  exact ⟨hstart, hstop, hmarks s 2 4 (by decide) (by decide) hstart hstop, hsize,
    (hfits hsize 4 (by decide)).1⟩

end Span

end AnnotatedApi
