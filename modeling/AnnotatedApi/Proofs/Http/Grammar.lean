import AnnotatedApi.Proofs.Http.Tokens

/-!
# The grammar of routes

A text falls into pieces: characters that are no braces, and words of letters, digits and underscores between
braces. What the check of a route accepts are the texts that fall into such pieces and begin with a slash, and
the empty text. The check reads from left to right and knows only how long the open token is, so one piece is
the most that it ever has to remember: it passes over a whole piece and is then where it was.
-/

namespace AnnotatedApi.Route

set_option autoImplicit false

/-! ## Pieces -/

/-- A letter or a digit of ASCII, or the underscore. -/
def IsWordChar (c : Char) : Prop :=
  'A' ≤ c ∧ c ≤ 'Z' ∨ 'a' ≤ c ∧ c ≤ 'z' ∨ '0' ≤ c ∧ c ≤ '9' ∨ c = '_'

/-- What a route is put together from. -/
inductive IsPiece : List Char → Prop where
  | plain {c : Char} (hopen : c ≠ '\x7b') (hclose : c ≠ '\x7d') : IsPiece [c]
  | token {word : List Char} (hne : word ≠ []) (hword : ∀ c ∈ word, IsWordChar c) :
    IsPiece ('\x7b' :: (word ++ ['\x7d']))

/-- A text that is a concatenation of pieces. -/
def InPieces (cs : List Char) : Prop :=
  ∃ pieces : List (List Char), cs = pieces.flatten ∧ ∀ piece ∈ pieces, IsPiece piece

/-- The grammar: nothing at all, or pieces of which the first is a slash. -/
def IsRoute (cs : List Char) : Prop :=
  cs = [] ∨ (∃ rest, cs = '/' :: rest) ∧ InPieces cs

theorem isTokenChar_iff (c : Char) : isTokenChar c = true ↔ IsWordChar c := by
  have hupper : c.isUpper = true ↔ 'A' ≤ c ∧ c ≤ 'Z' := decide_eq_true_iff
  have hrange : ∀ low high : Char, (decide (low ≤ c) && decide (c ≤ high)) = true ↔ low ≤ c ∧ c ≤ high := by
    intro low high
    rw [Bool.and_eq_true, decide_eq_true_iff, decide_eq_true_iff]
  have hlower : c.isLower = true ↔ 'a' ≤ c ∧ c ≤ 'z' := hrange 'a' 'z'
  have hdigit : c.isDigit = true ↔ '0' ≤ c ∧ c ≤ '9' := hrange '0' '9'
  have hsplit : isTokenChar c = (((c.isUpper || c.isLower) || c.isDigit) || c == '_') := rfl
  rw [hsplit, Bool.or_eq_true, Bool.or_eq_true, Bool.or_eq_true, hupper, hlower, hdigit, beq_iff_eq, or_assoc,
    or_assoc, IsWordChar]

theorem isName_iff (word : List Char) : IsName word ↔ word ≠ [] ∧ ∀ c ∈ word, IsWordChar c := by
  simp only [IsName, isTokenChar_iff]

/-! ## From pieces to templates and back -/

namespace InPieces

theorem nil : InPieces [] := ⟨[], rfl, by simp⟩

/-- One more piece in front. -/
theorem cons {piece cs : List Char} (hpiece : IsPiece piece) (h : InPieces cs) :
    InPieces (piece ++ cs) := by
  obtain ⟨pieces, rfl, hpieces⟩ := h
  exact ⟨piece :: pieces, rfl, List.forall_mem_cons.mpr ⟨hpiece, hpieces⟩⟩

end InPieces

/-- A template is read piece by piece. -/
theorem Template.inPieces {route key : List Char} {names : List (List Char)}
    (h : Template route key names) : InPieces route := by
  induction h with
  | nil => exact .nil
  | @plain c route _ _ hopen hclose _ ih =>
    have hpiece : IsPiece [c] := .plain hopen hclose
    exact ih.cons hpiece
  | @token name route _ _ hname _ ih =>
    obtain ⟨hne, hword⟩ := (isName_iff name).mp hname
    have hpiece : IsPiece ('\x7b' :: (name ++ ['\x7d'])) := .token hne hword
    have hroute := ih.cons hpiece
    rwa [List.cons_append, List.append_assoc, List.singleton_append] at hroute

/-- A piece in front of a template leaves a template, with one token more or one plain character. -/
theorem IsPiece.exists_template {piece route key : List Char} {names : List (List Char)}
    (hpiece : IsPiece piece) (h : Template route key names) :
    ∃ key names, Template (piece ++ route) key names := by
  cases hpiece with
  | @plain c hopen hclose => exact ⟨c :: key, names, .plain hopen hclose h⟩
  | @token word hne hword =>
    have hname : IsName word := (isName_iff word).mpr ⟨hne, hword⟩
    refine ⟨'\x7b' :: '\x7d' :: key, word :: names, ?_⟩
    rw [List.cons_append, List.append_assoc, List.singleton_append]
    exact .token hname h

theorem InPieces.exists_template {cs : List Char} (h : InPieces cs) :
    ∃ key names, Template cs key names := by
  obtain ⟨pieces, rfl, hpieces⟩ := h
  induction pieces with
  | nil => exact ⟨[], [], .nil⟩
  | cons piece pieces ih =>
    obtain ⟨hpiece, hrest⟩ := List.forall_mem_cons.mp hpieces
    obtain ⟨key, names, htemplate⟩ := ih hrest
    exact hpiece.exists_template htemplate

/-! ## The check -/

theorem faultOfTokens?_eq_none_iff_inPieces (cs : List Char) :
    faultOfTokens? none cs = none ↔ InPieces cs := by
  rw [faultOfTokens?_eq_none_iff]
  constructor
  · rintro ⟨key, names, h⟩
    exact h.inPieces
  · intro h
    exact h.exists_template

/-- The check accepts what the grammar generates and nothing else. -/
theorem faultOf?_eq_none_iff_isRoute (cs : List Char) : faultOf? cs = none ↔ IsRoute cs := by
  rw [faultOf?_eq_none_iff, faultOfTokens?_eq_none_iff_inPieces, IsRoute]
  constructor
  · rintro ⟨rfl | hslash, hpieces⟩
    · exact .inl rfl
    · exact .inr ⟨hslash, hpieces⟩
  · rintro (rfl | ⟨hslash, hpieces⟩)
    · exact ⟨.inl rfl, .nil⟩
    · exact ⟨.inr hslash, hpieces⟩

/-- A route text is accepted if and only if it is empty, or it begins with a slash and is a concatenation of
characters that are no braces and of words, one or more ASCII letters, digits or underscores, in braces. -/
theorem fault?_eq_none_iff_grammar (path : String) : fault? path = none ↔
    path = "" ∨ (∃ rest, path.toList = '/' :: rest) ∧ InPieces path.toList := by
  have hempty : path.toList = [] ↔ path = "" := String.toList_eq_nil_iff
  rw [← hempty]
  exact faultOf?_eq_none_iff_isRoute path.toList

/-- A letter beyond ASCII may stand anywhere but in a token. -/
example : fault? "/caf\u00e9/\x7bsize_1\x7d.\x7bkind\x7d/:id" = none ∧
    fault? "/\x7bcaf\u00e9\x7d" = some .badToken := by
  decide

end AnnotatedApi.Route
