import AnnotatedApi.Proofs.Number.Text
import AnnotatedApi.Resolve.Resolver

/-!
# Types as terms

The key of a type is a text, but what it tells is a term: names of declarations applied to arguments,
unions and inline objects of terms, intersections of named types, arrays. If the names in a key can be
told from each other and from what stands between them, the key tells the term: `text_injective`.
-/

namespace AnnotatedApi

set_option autoImplicit false

open Resolve

/-! ## Names -/

/-- The characters that stand around the names in a key, or at the beginning of what is no name. -/
def marks : List Char := [' ', ',', ';', '<', '>', '(', ')', '[', '\x7b', '"']

def IsWord (s : String) : Prop := s ≠ "" ∧ ∀ c ∈ s.toList, c ∉ marks

instance (s : String) : Decidable (IsWord s) :=
  inferInstanceAs <| Decidable <| s ≠ "" ∧ ∀ c ∈ s.toList, c ∉ marks

/-- The words that stand for themselves. -/
def reserved : List String := Primitive.all.map (·.display) ++ ["true", "false"]

/-- Whether a word may be given as a name: it is no reserved word and does not begin like a number. -/
structure Ordinary (s : String) : Prop where
  word : IsWord s
  free : s ∉ reserved
  head : ∀ c ∈ s.toList.head?, c ∉ numeralHeads

instance (s : String) : Decidable (Ordinary s) :=
  decidable_of_iff (IsWord s ∧ s ∉ reserved ∧ ∀ c ∈ s.toList.head?, c ∉ numeralHeads)
    ⟨fun ⟨hw, hf, hh⟩ => ⟨hw, hf, hh⟩, fun h => ⟨h.word, h.free, h.head⟩⟩

/-- Whether a text may be the name of a field in a key. -/
def IsFieldName (s : String) : Prop := ∀ c ∈ s.toList, c ∉ [' ', ':', '?']

instance (s : String) : Decidable (IsFieldName s) :=
  inferInstanceAs <| Decidable <| ∀ c ∈ s.toList, c ∉ [' ', ':', '?']

namespace Resolve.Scope

/-- Whether a name is left for a type parameter. -/
structure Free (scope : Scope) (name : String) : Prop where
  ordinary : Ordinary name
  nameOnly : name ∉ scope.options.nameOnly
  declared : ∀ d ∈ scope.types, d.qualifiedName ≠ name

/-- Whether the names of declarations and those kept by name only can be told from each other and from
all other words. -/
structure Named (scope : Scope) : Prop where
  distinct : ∀ d ∈ scope.types, ∀ e ∈ scope.types, d.qualifiedName = e.qualifiedName → d = e
  ordinary : ∀ d ∈ scope.types, Ordinary d.qualifiedName
  applied : ∀ d ∈ scope.types, d.qualifiedName ≠ "Promise" ∧ builtin? d.qualifiedName ≠ some .dictionary
  nameOnly : ∀ name ∈ scope.options.nameOnly, Ordinary name ∧ ∀ d ∈ scope.types, d.qualifiedName ≠ name

end Resolve.Scope

/-! ## Terms -/

variable {scope : Scope}

/-- A word that stands for the same type everywhere. -/
inductive TypeTerm.Constant where
  | primitive (p : Primitive)
  | boolean (value : Bool)
  | number (value : Binary64) (h : value.Canonical)

/-- A name that stands for a type. -/
inductive TypeTerm.Name (scope : Scope) where
  | parameter (name : String) (h : scope.Free name)
  | unexpanded (name : String) (h : name ∈ scope.options.nameOnly)
  | declared (d : TypeDecl) (h : d ∈ scope.types)

/-- A type that is one word in a key. -/
inductive TypeTerm.Word (scope : Scope) where
  | constant (c : TypeTerm.Constant)
  | name (n : TypeTerm.Name scope)

/-- What is applied to arguments in a key. -/
inductive TypeTerm.Head (scope : Scope) where
  | promise
  | dictionary (name : String) (h : builtin? name = some .dictionary)
  | declared (d : TypeDecl) (h : d ∈ scope.types)

mutual

/-- A type as its key tells it: one atom or the intersection of several, in so many arrays. -/
inductive TypeTerm (scope : Scope) : Type where
  | of (first : TypeAtom scope) (more : List (TypeAtom scope)) (arrays : Nat)

inductive TypeAtom (scope : Scope) : Type where
  | word (w : TypeTerm.Word scope)
  | quoted (s : String)
  | apply (h : TypeTerm.Head scope) (first : TypeTerm scope) (more : List (TypeTerm scope))
  | record (fields : List (FieldTerm scope))
  | union (members : List (TypeTerm scope))

inductive FieldTerm (scope : Scope) : Type where
  | mk (name : String) (h : IsFieldName name) (required : Bool) (type : TypeTerm scope)

end

namespace TypeTerm

def Constant.text : Constant → String
  | primitive p => p.display
  | boolean b => (Literal.boolean b).display
  | number x _ => (Literal.number x).display

def Name.text : Name scope → String
  | parameter name _ => name
  | unexpanded name _ => name
  | declared d _ => d.qualifiedName

def Word.text : Word scope → String
  | constant c => c.text
  | name n => n.text

def Head.text : Head scope → String
  | promise => "Promise"
  | dictionary name _ => name
  | declared d _ => d.qualifiedName

def brackets : Nat → String
  | 0 => ""
  | n + 1 => brackets n ++ "[]"

mutual

def text : TypeTerm scope → String
  | of a more n => String.intercalate " & " (atomText a :: atomTexts more) ++ brackets n

def atomText : TypeAtom scope → String
  | .word w => w.text
  | .quoted s => Text.quoted s
  | .apply h t ts => WireType.withArguments h.text (text t :: texts ts)
  | .record fs => WireType.inlineObject (fieldTexts fs)
  | .union ts => "(" ++ String.intercalate " | " (texts ts) ++ ")"

def texts : List (TypeTerm scope) → List String
  | [] => []
  | t :: ts => text t :: texts ts

def atomTexts : List (TypeAtom scope) → List String
  | [] => []
  | a :: as => atomText a :: atomTexts as

def fieldTexts : List (FieldTerm scope) → List String
  | [] => []
  | ⟨name, _, required, t⟩ :: fs => WireType.fieldText name required (text t) :: fieldTexts fs

end

def fieldText : FieldTerm scope → String
  | ⟨name, _, required, t⟩ => WireType.fieldText name required (text t)

theorem texts_eq_map (ts : List (TypeTerm scope)) : texts ts = ts.map text := by
  induction ts with
  | nil => rfl
  | cons t ts ih => rw [texts, ih, List.map_cons]

theorem atomTexts_eq_map (as : List (TypeAtom scope)) : atomTexts as = as.map atomText := by
  induction as with
  | nil => rfl
  | cons a as ih => rw [atomTexts, ih, List.map_cons]

theorem fieldTexts_eq_map (fs : List (FieldTerm scope)) : fieldTexts fs = fs.map fieldText := by
  induction fs with
  | nil => rfl
  | cons f fs ih =>
    obtain ⟨name, h, required, t⟩ := f
    rw [fieldTexts, ih, List.map_cons, fieldText]

/-! ## Words -/

theorem isWord_number {x : Binary64} (hx : x.isFinite = true) :
    IsWord (Literal.number x).display := by
  obtain ⟨c, rest, htext, hc, hrest⟩ := Literal.exists_numeral hx
  have hplain : ∀ c ∈ '.' :: numeralHeads, c ∉ marks := by decide
  refine ⟨fun hempty => by simp [hempty] at htext, fun e he => ?_⟩
  rw [htext] at he
  rcases List.mem_cons.mp he with rfl | he
  · exact hplain e (List.mem_cons_of_mem _ hc)
  · exact hplain e (hrest e he)

namespace Constant

theorem isWord (c : Constant) : IsWord c.text := by
  cases c with
  | primitive p => cases p <;> decide
  | boolean b => cases b <;> decide
  | number x h => exact isWord_number h.finite

/-- A constant is reserved or begins like a number. -/
theorem text_reserved (c : Constant) :
    c.text ∈ reserved ∨ ∃ e ∈ c.text.toList.head?, e ∈ numeralHeads := by
  cases c with
  | primitive p => exact .inl (by cases p <;> decide)
  | boolean b => exact .inl (by cases b <;> decide)
  | number x h =>
    obtain ⟨e, rest, htext, he, _⟩ := Literal.exists_numeral h.finite
    exact .inr ⟨e, by simp [text, htext], he⟩

theorem not_ordinary (c : Constant) : ¬ Ordinary c.text := by
  rintro ⟨_, hfree, hhead⟩
  rcases c.text_reserved with h | ⟨e, he, hmem⟩
  · exact hfree h
  · exact hhead e he hmem

theorem number_ne_reserved {x : Binary64} (hx : x.isFinite = true) {s : String} (hs : s ∈ reserved) :
    s ≠ (Literal.number x).display := by
  rintro rfl
  have hall : ∀ s ∈ reserved, ∀ e ∈ s.toList.head?, e ∉ numeralHeads := by decide
  obtain ⟨e, rest, htext, he, _⟩ := Literal.exists_numeral hx
  exact hall _ hs e (by simp [htext]) he

theorem text_injective : Function.Injective text := by
  have hreserved : ∀ p q : Primitive ⊕ Bool,
      p.elim Primitive.display (fun b => (Literal.boolean b).display) =
        q.elim Primitive.display (fun b => (Literal.boolean b).display) → p = q := by
    rintro (p | p) (q | q) <;> cases p <;> cases q <;> decide
  intro c c' h
  cases c with
  | primitive p =>
    cases c' with
    | primitive q => exact congrArg _ (Sum.inl.inj (hreserved (.inl p) (.inl q) h))
    | boolean b => exact absurd (hreserved (.inl p) (.inr b) h) (by simp)
    | number x hx => exact absurd h (number_ne_reserved hx.finite (by cases p <;> decide))
  | boolean b =>
    cases c' with
    | primitive q => exact absurd (hreserved (.inr b) (.inl q) h) (by simp)
    | boolean b' => exact congrArg _ (Sum.inr.inj (hreserved (.inr b) (.inr b') h))
    | number x hx => exact absurd h (number_ne_reserved hx.finite (by cases b <;> decide))
  | number x hx =>
    cases c' with
    | primitive q => exact absurd h.symm (number_ne_reserved hx.finite (by cases q <;> decide))
    | boolean b => exact absurd h.symm (number_ne_reserved hx.finite (by cases b <;> decide))
    | number y hy =>
      obtain rfl := Literal.number_eq_of_display_eq hx hy h
      rfl

end Constant

section Named

variable (hs : scope.Named)
include hs

theorem Name.ordinary (n : Name scope) : Ordinary n.text := by
  cases n with
  | parameter name h => exact h.ordinary
  | unexpanded name h => exact (hs.nameOnly name h).1
  | declared d h => exact hs.ordinary d h

theorem Name.text_injective : Function.Injective (@Name.text scope) := by
  intro n n' h
  cases n with
  | parameter name hn =>
    cases n' with
    | parameter name' hn' => cases h; rfl
    | unexpanded name' hn' => cases h; exact absurd hn' hn.nameOnly
    | declared d hd => exact absurd h.symm (hn.declared d hd)
  | unexpanded name hn =>
    cases n' with
    | parameter name' hn' => cases h; exact absurd hn hn'.nameOnly
    | unexpanded name' hn' => cases h; rfl
    | declared d hd => exact absurd h.symm ((hs.nameOnly name hn).2 d hd)
  | declared d hd =>
    cases n' with
    | parameter name' hn' => exact absurd h (hn'.declared d hd)
    | unexpanded name' hn' => exact absurd h ((hs.nameOnly name' hn').2 d hd)
    | declared e he =>
      obtain rfl := hs.distinct d hd e he h
      rfl

theorem Word.isWord (w : Word scope) : IsWord w.text := by
  cases w with
  | constant c => exact c.isWord
  | name n => exact (n.ordinary hs).word

theorem Constant.text_ne (c : Constant) (n : Name scope) : c.text ≠ n.text :=
  fun h => c.not_ordinary (h ▸ n.ordinary hs)

theorem Word.text_injective : Function.Injective (@Word.text scope) := by
  intro w w' h
  cases w with
  | constant c =>
    cases w' with
    | constant c' => exact congrArg _ (Constant.text_injective h)
    | name n => exact absurd h (c.text_ne hs n)
  | name n =>
    cases w' with
    | constant c => exact absurd h.symm (c.text_ne hs n)
    | name n' => exact congrArg _ (Name.text_injective hs h)

omit hs in
theorem dictionary_name {name : String} (h : builtin? name = some .dictionary) :
    name = "Record" ∨ name = "Map" := by
  unfold builtin? at h
  split at h <;> simp_all

theorem Head.isWord (h : Head scope) : IsWord h.text := by
  cases h with
  | promise => exact (by decide : IsWord "Promise")
  | dictionary name h =>
    rcases dictionary_name h with rfl | rfl
    · exact (by decide : IsWord "Record")
    · exact (by decide : IsWord "Map")
  | declared d h => exact (hs.ordinary d h).word

theorem Head.text_injective : Function.Injective (@Head.text scope) := by
  intro h h' heq
  cases h with
  | promise =>
    cases h' with
    | promise => rfl
    | dictionary name hn => cases heq; cases hn
    | declared d hd => exact absurd heq.symm (hs.applied d hd).1
  | dictionary name hn =>
    cases h' with
    | promise => cases heq; cases hn
    | dictionary name' hn' => cases heq; rfl
    | declared d hd => cases heq; exact absurd hn (hs.applied d hd).2
  | declared d hd =>
    cases h' with
    | promise => exact absurd heq (hs.applied d hd).1
    | dictionary name hn => cases heq; exact absurd hn (hs.applied d hd).2
    | declared e he =>
      obtain rfl := hs.distinct d hd e he heq
      rfl

end Named

/-! ## Cancellation -/

/-- Whether an element is told from what follows its text, wherever that may follow. -/
def Cancels {α : Type} (text : α → String) (Follows : List Char → Prop) (a : α) : Prop :=
  ∀ b x y, Follows x → Follows y → (text a).toList ++ x = (text b).toList ++ y → a = b ∧ x = y

section

variable {α : Type} {text : α → String} {Follows : List Char → Prop} {separator : String}
  {x y : List Char}

/-- The texts of some elements, each behind a separator. -/
def separated (text : α → String) (separator : String) (as : List α) : List Char :=
  as.flatMap fun a => separator.toList ++ (text a).toList

theorem toList_intercalate (first : α) (more : List α) :
    (String.intercalate separator ((first :: more).map text)).toList =
      (text first).toList ++ separated text separator more := by
  induction more generalizing first with
  | nil => simp [separated]
  | cons a more ih =>
    have hstep := ih a
    rw [List.map_cons] at hstep ⊢
    simp [String.intercalate_cons_cons, hstep, separated]

variable (hseparator : ∀ z, Follows (separator.toList ++ z))
include hseparator

theorem follows_separated {z : List Char} (hz : Follows z) (as : List α) :
    Follows (separated text separator as ++ z) := by
  cases as with
  | nil => exact hz
  | cons a as =>
    simp only [separated, List.flatMap_cons, List.append_assoc]
    exact hseparator _

/-- A list is told from what follows it if that does not go on with a separator. -/
theorem Cancels.separated {as bs : List α} (has : ∀ a ∈ as, Cancels text Follows a) (hx : Follows x)
    (hy : Follows y) (hx' : ∀ z, x ≠ separator.toList ++ z) (hy' : ∀ z, y ≠ separator.toList ++ z)
    (h : separated text separator as ++ x = separated text separator bs ++ y) : as = bs ∧ x = y := by
  induction as generalizing bs with
  | nil =>
    cases bs with
    | nil => exact ⟨rfl, h⟩
    | cons b bs => exact absurd (by simpa [TypeTerm.separated] using h) (hx' _)
  | cons a as ih =>
    cases bs with
    | nil => exact absurd (by simpa [TypeTerm.separated] using h.symm) (hy' _)
    | cons b bs =>
      simp only [TypeTerm.separated, List.flatMap_cons, List.append_assoc,
        List.append_cancel_left_eq] at h
      obtain ⟨ha, hrest⟩ := List.forall_mem_cons.mp has
      obtain ⟨rfl, htail⟩ := ha b _ _ (follows_separated hseparator hx as)
        (follows_separated hseparator hy bs) h
      obtain ⟨rfl, hxy⟩ := ih hrest htail
      exact ⟨rfl, hxy⟩

theorem Cancels.intercalate {a b : α} {as bs : List α} (ha : Cancels text Follows a)
    (has : ∀ a ∈ as, Cancels text Follows a) (hx : Follows x) (hy : Follows y)
    (hx' : ∀ z, x ≠ separator.toList ++ z) (hy' : ∀ z, y ≠ separator.toList ++ z)
    (h : (String.intercalate separator ((a :: as).map text)).toList ++ x =
      (String.intercalate separator ((b :: bs).map text)).toList ++ y) :
    a = b ∧ as = bs ∧ x = y := by
  simp only [toList_intercalate, List.append_assoc] at h
  obtain ⟨rfl, htail⟩ := ha b _ _ (follows_separated hseparator hx as)
    (follows_separated hseparator hy bs) h
  obtain ⟨rfl, hxy⟩ := Cancels.separated hseparator has hx hy hx' hy' htail
  exact ⟨rfl, rfl, hxy⟩

theorem Cancels.intercalate_list {as bs : List α} (has : ∀ a ∈ as, Cancels text Follows a)
    (hx : Follows x) (hy : Follows y) (hx' : ∀ z, x ≠ separator.toList ++ z)
    (hy' : ∀ z, y ≠ separator.toList ++ z) (hxa : ∀ a z, x ≠ (text a).toList ++ z)
    (hya : ∀ a z, y ≠ (text a).toList ++ z)
    (h : (String.intercalate separator (as.map text)).toList ++ x =
      (String.intercalate separator (bs.map text)).toList ++ y) : as = bs ∧ x = y := by
  cases as with
  | nil =>
    cases bs with
    | nil => exact ⟨rfl, by simpa using h⟩
    | cons b bs =>
      rw [toList_intercalate, List.append_assoc] at h
      exact absurd (by simpa using h) (hxa b _)
  | cons a as =>
    cases bs with
    | nil =>
      rw [toList_intercalate, List.append_assoc] at h
      exact absurd (by simpa using h.symm) (hya a _)
    | cons b bs =>
      obtain ⟨ha, has⟩ := List.forall_mem_cons.mp has
      obtain ⟨rfl, rfl, hxy⟩ := Cancels.intercalate hseparator ha has hx hy hx' hy' h
      exact ⟨rfl, hxy⟩

end

/-- What may follow a term inside another one. -/
inductive Ends : List Char → Prop where
  | nil : Ends []
  | mark {c : Char} {rest : List Char} : c ∈ [',', ';', '>', ')'] → Ends (c :: rest)
  | spaced {c : Char} {rest : List Char} : c ∈ ['|', '\x7d'] → Ends (' ' :: c :: rest)

/-- What may follow an atom: what may follow a term, and what may stand between the atom and the end
of the term. -/
def Stops (x : List Char) : Prop := ∀ c ∈ x.head?, c ∈ [' ', ',', ';', '>', ')', '[']

theorem Ends.stops {x : List Char} (h : Ends x) : Stops x := by
  cases h with
  | nil => simp [Stops]
  | mark h =>
    have hall : ∀ c ∈ [',', ';', '>', ')'], c ∈ [' ', ',', ';', '>', ')', '['] := by decide
    simpa [Stops] using hall _ h
  | spaced => simp [Stops]

theorem Ends.ne_bracket {x : List Char} (h : Ends x) (z : List Char) : x ≠ '[' :: z := by
  rintro rfl
  cases h with
  | mark h => exact absurd h (by decide)

theorem Ends.ne_and {x : List Char} (h : Ends x) (z : List Char) : x ≠ ' ' :: '&' :: z := by
  rintro rfl
  cases h with
  | mark h => exact absurd h (by decide)
  | spaced h => exact absurd h (by decide)

theorem Stops.mark {x : List Char} (h : Stops x) : ∀ c ∈ x.head?, c ∈ marks := by
  have hall : ∀ c ∈ [' ', ',', ';', '>', ')', '['], c ∈ marks := by decide
  exact fun c hc => hall c (h c hc)

theorem Stops.ne_angle {x : List Char} (h : Stops x) (z : List Char) : x ≠ '<' :: z := by
  rintro rfl
  exact absurd (h '<' rfl) (by decide)

/-! ### Brackets -/

theorem toList_brackets_succ (n : Nat) :
    (brackets (n + 1)).toList = '[' :: ']' :: (brackets n).toList := by
  induction n with
  | zero => rfl
  | succ n ih =>
    have hstep : ∀ n, (brackets (n + 1)).toList = (brackets n).toList ++ ['[', ']'] := fun n =>
      String.toList_append
    calc (brackets (n + 2)).toList
        = (brackets (n + 1)).toList ++ ['[', ']'] := hstep (n + 1)
      _ = '[' :: ']' :: ((brackets n).toList ++ ['[', ']']) := by rw [ih]; rfl
      _ = '[' :: ']' :: (brackets (n + 1)).toList := by rw [← hstep n]

theorem brackets_append_inj {m n : Nat} {x y : List Char} (hx : Ends x) (hy : Ends y)
    (h : (brackets m).toList ++ x = (brackets n).toList ++ y) : m = n ∧ x = y := by
  induction m generalizing n with
  | zero =>
    cases n with
    | zero => exact ⟨rfl, h⟩
    | succ n =>
      rw [toList_brackets_succ] at h
      exact absurd h (hx.ne_bracket _)
  | succ m ih =>
    cases n with
    | zero =>
      rw [toList_brackets_succ] at h
      exact absurd h.symm (hy.ne_bracket _)
    | succ n =>
      simp only [toList_brackets_succ, List.cons_append, List.cons.injEq, true_and] at h
      obtain ⟨rfl, hxy⟩ := ih h
      exact ⟨rfl, hxy⟩

theorem stops_brackets (n : Nat) {x : List Char} (hx : Ends x) : Stops ((brackets n).toList ++ x) := by
  cases n with
  | zero => exact hx.stops
  | succ n => simp [toList_brackets_succ, Stops]

theorem brackets_ne_and (n : Nat) {x : List Char} (hx : Ends x) (z : List Char) :
    (brackets n).toList ++ x ≠ " & ".toList ++ z := by
  cases n with
  | zero => exact hx.ne_and _
  | succ n => simp [toList_brackets_succ]

/-! ### Atoms -/

theorem word_append_inj {s t : String} (hs : IsWord s) (ht : IsWord t) {x y : List Char}
    (hx : ∀ c ∈ x.head?, c ∈ marks) (hy : ∀ c ∈ y.head?, c ∈ marks)
    (h : s.toList ++ x = t.toList ++ y) : s = t ∧ x = y := by
  obtain ⟨hst, hxy⟩ := Text.append_inj_of_run hs.2 ht.2 (fun c hc => not_not.mpr (hx c hc))
    (fun c hc => not_not.mpr (hy c hc)) h
  exact ⟨String.toList_inj.mp hst, hxy⟩

theorem toList_apply (f : Head scope) (t : TypeTerm scope) (ts : List (TypeTerm scope)) :
    (atomText (.apply f t ts)).toList =
      f.text.toList ++ '<' :: ((String.intercalate ", " ((t :: ts).map text)).toList ++ ['>']) := by
  simp [atomText, WireType.withArguments, texts_eq_map, String.toList_append]

theorem toList_record (fs : List (FieldTerm scope)) : (atomText (.record fs)).toList =
    '\x7b' :: ' ' :: ((String.intercalate "; " (fs.map fieldText)).toList ++ [' ', '\x7d']) := by
  simp [atomText, WireType.inlineObject, fieldTexts_eq_map, String.toList_append]

theorem toList_union (ts : List (TypeTerm scope)) : (atomText (.union ts)).toList =
    '(' :: ((String.intercalate " | " (ts.map text)).toList ++ [')']) := by
  simp [atomText, texts_eq_map, String.toList_append]

/-- The mark with which the text of an atom begins, unless it begins with a word. -/
def opening : TypeAtom scope → Option Char
  | .word _ => none
  | .quoted _ => some '"'
  | .apply _ _ _ => none
  | .record _ => some '\x7b'
  | .union _ => some '('

theorem IsWord.exists_cons {s : String} (h : IsWord s) : ∃ c rest, s.toList = c :: rest ∧ c ∉ marks := by
  cases htext : s.toList with
  | nil => exact absurd (String.toList_eq_nil_iff.mp htext) h.1
  | cons c rest => exact ⟨c, rest, rfl, h.2 c (by rw [htext]; exact List.mem_cons_self ..)⟩

section

variable (hs : scope.Named)
include hs

theorem exists_opening (a : TypeAtom scope) :
    ∃ c rest, (atomText a).toList = c :: rest ∧ opening a = if c ∈ marks then some c else none := by
  cases a with
  | word w =>
    obtain ⟨c, rest, htext, hc⟩ := IsWord.exists_cons (w.isWord hs)
    exact ⟨c, rest, htext, (if_neg hc).symm⟩
  | quoted s => exact ⟨'"', _, by simp only [atomText, Text.quoted, String.toList_ofList]; rfl, rfl⟩
  | apply f t ts =>
    obtain ⟨c, rest, htext, hc⟩ := IsWord.exists_cons (f.isWord hs)
    exact ⟨c, _, by rw [toList_apply, htext]; rfl, (if_neg hc).symm⟩
  | record fs => exact ⟨_, _, toList_record fs, rfl⟩
  | union ts => exact ⟨_, _, toList_union ts, rfl⟩

theorem opening_eq {a b : TypeAtom scope} {x y : List Char}
    (h : (atomText a).toList ++ x = (atomText b).toList ++ y) : opening a = opening b := by
  obtain ⟨c, rest, ha, hopen⟩ := exists_opening hs a
  obtain ⟨d, rest', hb, hopen'⟩ := exists_opening hs b
  rw [ha, hb] at h
  rw [hopen, hopen', (List.cons.inj h).1]

theorem cancels_word (w : Word scope) : Cancels atomText Stops (.word w) := by
  intro b x y hx hy h
  have hopen := opening_eq hs h
  cases b with
  | word w' =>
    obtain ⟨htext, hxy⟩ := word_append_inj (w.isWord hs) (w'.isWord hs) hx.mark hy.mark h
    exact ⟨congrArg _ (Word.text_injective hs htext), hxy⟩
  | apply f t ts =>
    rw [toList_apply, List.append_assoc, List.cons_append] at h
    obtain ⟨_, hxy⟩ := word_append_inj (w.isWord hs) (f.isWord hs) hx.mark (by simp [marks]) h
    exact absurd hxy (hx.ne_angle _)
  | _ => cases hopen

theorem cancels_quoted (s : String) : Cancels atomText Stops (.quoted s : TypeAtom scope) := by
  intro b x y _ _ h
  have hopen := opening_eq hs h
  cases b with
  | quoted s' =>
    obtain ⟨rfl, hxy⟩ := Text.quoted_append_inj h
    exact ⟨rfl, hxy⟩
  | _ => cases hopen

theorem cancels_apply (f : Head scope) {t : TypeTerm scope} {ts : List (TypeTerm scope)}
    (ht : Cancels text Ends t) (hts : ∀ t ∈ ts, Cancels text Ends t) :
    Cancels atomText Stops (.apply f t ts) := by
  intro b x y hx hy h
  have hopen := opening_eq hs h
  cases b with
  | word w =>
    obtain ⟨heq, _⟩ := cancels_word hs w _ _ _ hy hx h.symm
    cases heq
  | apply f' t' ts' =>
    simp only [toList_apply, List.append_assoc, List.cons_append, List.nil_append] at h
    obtain ⟨hhead, hrest⟩ := word_append_inj (f.isWord hs) (f'.isWord hs) (by simp [marks])
      (by simp [marks]) h
    have hcomma : ∀ z, Ends (", ".toList ++ z) := fun z => .mark (by decide)
    obtain ⟨rfl, rfl, hxy⟩ := Cancels.intercalate hcomma ht hts
      (.mark (by decide)) (.mark (by decide)) (by simp) (by simp) (List.cons.inj hrest).2
    obtain rfl := Head.text_injective hs hhead
    exact ⟨rfl, (List.cons.inj hxy).2⟩
  | _ => cases hopen

/-- A term does not begin with what closes an atom around it. -/
theorem text_append_ne (t : TypeTerm scope) {c : Char} (hc : c ∈ [' ', ')', '>']) (x y : List Char) :
    c :: y ≠ (text t).toList ++ x := by
  obtain ⟨a, more, n⟩ := t
  obtain ⟨e, rest, ha, hopen⟩ := exists_opening hs a
  intro h
  simp only [text, atomTexts_eq_map, ← List.map_cons, String.toList_append, toList_intercalate, ha,
    List.cons_append, List.cons.injEq] at h
  obtain ⟨rfl, _⟩ := h
  have hmark : ∀ c ∈ [' ', ')', '>'], c ∈ marks := by decide
  rw [if_pos (hmark c hc)] at hopen
  cases a <;> cases hopen <;> exact absurd hc (by decide)

theorem cancels_union {ts : List (TypeTerm scope)} (hts : ∀ t ∈ ts, Cancels text Ends t) :
    Cancels atomText Stops (.union ts) := by
  intro b x y hx hy h
  have hopen := opening_eq hs h
  cases b with
  | union ts' =>
    simp only [toList_union, List.append_assoc, List.cons_append, List.nil_append, List.cons.injEq,
      true_and] at h
    have hbar : ∀ z, Ends (" | ".toList ++ z) := fun z => .spaced (by decide)
    obtain ⟨rfl, hxy⟩ := Cancels.intercalate_list hbar hts
      (.mark (by decide)) (.mark (by decide)) (by simp) (by simp)
      (fun t z => text_append_ne hs t (by decide) z _) (fun t z => text_append_ne hs t (by decide) z _) h
    exact ⟨rfl, (List.cons.inj hxy).2⟩
  | _ => cases hopen

omit hs in
theorem fieldText_append_ne (f : FieldTerm scope) (x y : List Char) :
    ' ' :: y ≠ (fieldText f).toList ++ x := by
  obtain ⟨name, hname, required, t⟩ := f
  intro h
  cases htext : name.toList with
  | nil => cases required <;> simp [fieldText, WireType.fieldText, htext] at h
  | cons c rest =>
    simp only [fieldText, WireType.fieldText, String.toList_append, htext, List.cons_append,
      List.cons.injEq] at h
    exact hname c (by rw [htext]; exact List.mem_cons_self ..) (by simp [← h.1])

omit hs in
theorem cancels_field {name : String} (hname : IsFieldName name) (required : Bool)
    {t : TypeTerm scope} (ht : Cancels text Ends t) :
    Cancels fieldText Ends (.mk name hname required t) := by
  rintro ⟨name', hname', required', t'⟩ x y hx hy h
  simp only [fieldText, WireType.fieldText, String.toList_append, List.append_assoc] at h
  have hcolon : ∀ (r : Bool) z, ∀ c ∈ ((if r then "" else "?").toList ++ (": ".toList ++ z)).head?,
      ¬ c ∉ [' ', ':', '?'] := by
    intro r z
    cases r <;> simp
  obtain ⟨htext, hrest⟩ := Text.append_inj_of_run hname hname' (hcolon _ _) (hcolon _ _) h
  obtain rfl := String.toList_inj.mp htext
  cases required <;> cases required' <;> simp at hrest
  all_goals
    obtain ⟨rfl, hxy⟩ := ht _ _ _ hx hy hrest
    exact ⟨rfl, hxy⟩

theorem cancels_record {fs : List (FieldTerm scope)} (hfs : ∀ f ∈ fs, Cancels fieldText Ends f) :
    Cancels atomText Stops (.record fs) := by
  intro b x y hx hy h
  have hopen := opening_eq hs h
  cases b with
  | record fs' =>
    simp only [toList_record, List.append_assoc, List.cons_append, List.nil_append, List.cons.injEq,
      true_and] at h
    have hsemicolon : ∀ z, Ends ("; ".toList ++ z) := fun z => .mark (by decide)
    obtain ⟨rfl, hxy⟩ := Cancels.intercalate_list hsemicolon hfs
      (.spaced (by decide)) (.spaced (by decide)) (by simp) (by simp)
      (fun f z => fieldText_append_ne f z _) (fun f z => fieldText_append_ne f z _) h
    simpa using hxy
  | _ => cases hopen

end

theorem cancels_of {a : TypeAtom scope} {more : List (TypeAtom scope)} (n : Nat)
    (ha : Cancels atomText Stops a) (hmore : ∀ a ∈ more, Cancels atomText Stops a) :
    Cancels text Ends (.of a more n) := by
  rintro ⟨a', more', n'⟩ x y hx hy h
  simp only [text, atomTexts_eq_map, ← List.map_cons, String.toList_append, List.append_assoc] at h
  obtain ⟨rfl, rfl, hrest⟩ := Cancels.intercalate (by simp [Stops]) ha hmore (stops_brackets n hx)
    (stops_brackets n' hy) (brackets_ne_and n hx) (brackets_ne_and n' hy) h
  obtain ⟨rfl, hxy⟩ := brackets_append_inj hx hy hrest
  exact ⟨rfl, hxy⟩

mutual

/-- A term is told from what follows it in another one. -/
theorem cancels (hs : scope.Named) : ∀ t : TypeTerm scope, Cancels text Ends t
  | .of a more n => cancels_of n (cancelsAtom hs a) (cancelsAtoms hs more)

theorem cancelsAtom (hs : scope.Named) : ∀ a : TypeAtom scope, Cancels atomText Stops a
  | .word w => cancels_word hs w
  | .quoted s => cancels_quoted hs s
  | .apply f t ts => cancels_apply hs f (cancels hs t) (cancelsAll hs ts)
  | .record fs => cancels_record hs (cancelsFields hs fs)
  | .union ts => cancels_union hs (cancelsAll hs ts)

theorem cancelsAll (hs : scope.Named) :
    ∀ ts : List (TypeTerm scope), ∀ t ∈ ts, Cancels text Ends t
  | [] => by simp
  | t :: ts => List.forall_mem_cons.mpr ⟨cancels hs t, cancelsAll hs ts⟩

theorem cancelsAtoms (hs : scope.Named) :
    ∀ as : List (TypeAtom scope), ∀ a ∈ as, Cancels atomText Stops a
  | [] => by simp
  | a :: as => List.forall_mem_cons.mpr ⟨cancelsAtom hs a, cancelsAtoms hs as⟩

theorem cancelsFields (hs : scope.Named) :
    ∀ fs : List (FieldTerm scope), ∀ f ∈ fs, Cancels fieldText Ends f
  | [] => by simp
  | ⟨_, hname, required, t⟩ :: fs =>
    List.forall_mem_cons.mpr ⟨cancels_field hname required (cancels hs t), cancelsFields hs fs⟩

end

/-- Where names can be told from each other, the text of a term tells the term. -/
theorem text_injective (hs : scope.Named) : Function.Injective (@text scope) := by
  intro t u h
  exact (cancels hs t u [] [] .nil .nil (by rw [h])).1

end TypeTerm

end AnnotatedApi
