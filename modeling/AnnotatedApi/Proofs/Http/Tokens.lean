import AnnotatedApi.Http.Route
import Mathlib.Data.List.Basic

/-!
# Routes with their tokens taken out

The check of a route accepts the texts in which braces stand around names only. Such a text falls apart into
plain characters and tokens in one way; its key has the plain characters and a pair of braces for each token,
and its tokens are the names. So a route that is accepted is told by its key and its tokens, and the key
forgets nothing but the names.
-/

namespace AnnotatedApi.Route

set_option autoImplicit false

/-! ## Names -/

/-- What may stand between the braces of a token. -/
def IsName (name : List Char) : Prop := name ≠ [] ∧ ∀ c ∈ name, isTokenChar c = true

instance (name : List Char) : Decidable (IsName name) :=
  decidable_of_iff (name ≠ [] ∧ name.all isTokenChar = true) (by rw [IsName, List.all_eq_true])

theorem ne_braces {c : Char} (h : isTokenChar c = true) : c ≠ '\x7b' ∧ c ≠ '\x7d' := by
  constructor <;>
  · rintro rfl
    cases h

section Name

variable {name : List Char} (rest : List Char)

theorem faultOfTokens?_name {n : Nat} (h : ∀ c ∈ name, isTokenChar c = true) (hlen : n + name.length ≠ 0) :
    faultOfTokens? (some n) (name ++ '\x7d' :: rest) = faultOfTokens? none rest := by
  induction name generalizing n with
  | nil =>
    have hn : n ≠ 0 := hlen
    simp [faultOfTokens?, hn]
  | cons c name ih =>
    obtain ⟨hc, hname⟩ := List.forall_mem_cons.mp h
    obtain ⟨hopen, hclose⟩ := ne_braces hc
    simp [faultOfTokens?, hopen, hclose, hc, ih (n := n + 1) hname (by omega)]

theorem keyChars_name (h : ∀ c ∈ name, isTokenChar c = true) :
    keyChars true (name ++ '\x7d' :: rest) = keyChars false rest := by
  induction name with
  | nil => simp [keyChars]
  | cons c name ih =>
    obtain ⟨hc, hname⟩ := List.forall_mem_cons.mp h
    obtain ⟨hopen, hclose⟩ := ne_braces hc
    have hinside : (c != '\x7d') = true := bne_iff_ne.mpr hclose
    simp only [List.cons_append, keyChars, if_neg hopen, if_true, hinside, ih hname]

theorem tokenChars_name (read : List Char) (h : ∀ c ∈ name, isTokenChar c = true) :
    tokenChars (some read) (name ++ '\x7d' :: rest) = (read.reverse ++ name) :: tokenChars none rest := by
  induction name generalizing read with
  | nil => simp [tokenChars]
  | cons c name ih =>
    obtain ⟨hc, hname⟩ := List.forall_mem_cons.mp h
    obtain ⟨-, hclose⟩ := ne_braces hc
    simp [tokenChars, hclose, ih (c :: read) hname]

end Name

/-! ## Templates -/

/-- A text in which braces stand around names only; behind it, its key and the names. -/
inductive Template : List Char → List Char → List (List Char) → Prop where
  | nil : Template [] [] []
  | plain {c : Char} {route key : List Char} {names : List (List Char)} :
    c ≠ '\x7b' → c ≠ '\x7d' → Template route key names → Template (c :: route) (c :: key) names
  | token {name route key : List Char} {names : List (List Char)} :
    IsName name → Template route key names →
    Template ('\x7b' :: (name ++ '\x7d' :: route)) ('\x7b' :: '\x7d' :: key) (name :: names)

/-- Inside a token, what is accepted is the rest of its name, a closing brace, and what is accepted outside. -/
theorem exists_name_of_faultOfTokens? {n : Nat} {cs : List Char} (h : faultOfTokens? (some n) cs = none) :
    ∃ name rest, cs = name ++ '\x7d' :: rest ∧ (∀ c ∈ name, isTokenChar c = true) ∧ n + name.length ≠ 0 ∧
      faultOfTokens? none rest = none := by
  induction cs generalizing n with
  | nil => simp [faultOfTokens?] at h
  | cons c cs ih =>
    simp only [faultOfTokens?] at h
    split_ifs at h with hopen hclose hn hc
    · exact ⟨[], cs, by rw [hclose, List.nil_append], by simp, hn, h⟩
    · obtain ⟨name, rest, rfl, hname, -, hrest⟩ := ih h
      exact ⟨c :: name, rest, rfl, List.forall_mem_cons.mpr ⟨hc, hname⟩, by simp, hrest⟩

theorem exists_template (cs : List Char) (h : faultOfTokens? none cs = none) :
    ∃ key names, Template cs key names := by
  -- A token is taken off as a whole, so the induction is on the length.
  induction hlen : cs.length using Nat.strongRecOn generalizing cs with
  | ind k ih =>
    cases cs with
    | nil => exact ⟨_, _, .nil⟩
    | cons c cs =>
      simp only [faultOfTokens?] at h
      split_ifs at h with hopen hclose
      · obtain ⟨name, rest, rfl, hname, hne, hrest⟩ := exists_name_of_faultOfTokens? h
        obtain ⟨key, names, htemplate⟩ := ih rest.length (by simp [← hlen]; omega) rest hrest rfl
        subst hopen
        exact ⟨_, _, .token ⟨by simpa using hne, hname⟩ htemplate⟩
      · obtain ⟨key, names, htemplate⟩ := ih cs.length (by simp [← hlen]) cs h rfl
        exact ⟨_, _, .plain hopen hclose htemplate⟩

namespace Template

variable {route key : List Char} {names : List (List Char)}

theorem faultOfTokens?_eq_none (h : Template route key names) : faultOfTokens? none route = none := by
  induction h with
  | nil => rfl
  | plain hopen hclose _ ih => simp [faultOfTokens?, hopen, hclose, ih]
  | @token name _ _ _ hname _ ih =>
    have hlen : 0 + name.length ≠ 0 := by simpa using hname.1
    simp [faultOfTokens?, faultOfTokens?_name _ hname.2 hlen, ih]

theorem keyChars_eq (h : Template route key names) : keyChars false route = key := by
  induction h with
  | nil => rfl
  | plain hopen _ _ ih => simp [keyChars, hopen, ih]
  | token hname _ ih => simp [keyChars, keyChars_name _ hname.2, ih]

theorem tokenChars_eq (h : Template route key names) : tokenChars none route = names := by
  induction h with
  | nil => rfl
  | plain hopen _ _ ih => simp [tokenChars, hopen, ih]
  | token hname _ ih => simp [tokenChars, tokenChars_name _ _ hname.2, ih]

end Template

/-- The check accepts templates and nothing else. -/
theorem faultOfTokens?_eq_none_iff (route : List Char) :
    faultOfTokens? none route = none ↔ ∃ key names, Template route key names :=
  ⟨exists_template route, fun ⟨_, _, h⟩ => h.faultOfTokens?_eq_none⟩

theorem Template.isName {route key : List Char} {names : List (List Char)} (h : Template route key names) :
    ∀ name ∈ names, IsName name := by
  induction h with
  | nil => simp
  | plain _ _ _ ih => exact ih
  | token hname _ ih => exact List.forall_mem_cons.mpr ⟨hname, ih⟩

/-! ## From a key and names -/

/-- Puts names, one after the other, into the empty pairs of braces of a key. -/
def fillChars : List Char → List (List Char) → List Char
  | '\x7b' :: '\x7d' :: key, name :: names => '\x7b' :: (name ++ '\x7d' :: fillChars key names)
  | c :: key, names => c :: fillChars key names
  | [], _ => []

theorem fillChars_cons {c : Char} (hc : c ≠ '\x7b') (key : List Char) (names : List (List Char)) :
    fillChars (c :: key) names = c :: fillChars key names := by
  conv_lhs => unfold fillChars
  split <;> simp_all

/-- How often an empty pair of braces stands in a text. -/
def emptyTokens (key : List Char) : Nat := key.tails.countP (['\x7b', '\x7d'].isPrefixOf ·)

namespace Template

variable {route key : List Char} {names : List (List Char)}

theorem fillChars_eq (h : Template route key names) : fillChars key names = route := by
  induction h with
  | nil => rfl
  | plain hopen _ _ ih => rw [fillChars_cons hopen, ih]
  | token _ _ ih => rw [fillChars, ih]

theorem emptyTokens_eq (h : Template route key names) : emptyTokens key = names.length := by
  induction h with
  | nil => rfl
  | plain hopen _ _ ih => simpa [emptyTokens, List.countP_cons, Ne.symm hopen] using ih
  | token _ _ ih => simpa [emptyTokens, List.countP_cons] using ih

end Template

/-! ## Renaming -/

/-- One text becomes the other when its tokens are given other names, each in its place. -/
inductive Renamed : List Char → List Char → Prop where
  | nil : Renamed [] []
  | plain {c : Char} {r s : List Char} : c ≠ '\x7b' → c ≠ '\x7d' → Renamed r s → Renamed (c :: r) (c :: s)
  | token {name name' r s : List Char} : IsName name → IsName name' → Renamed r s →
    Renamed ('\x7b' :: (name ++ '\x7d' :: r)) ('\x7b' :: (name' ++ '\x7d' :: s))

theorem Renamed.keyChars_eq {r s : List Char} (h : Renamed r s) : keyChars false r = keyChars false s := by
  induction h with
  | nil => rfl
  | plain hopen _ _ ih => simp [keyChars, hopen, ih]
  | token hname hname' _ ih => simp [keyChars, keyChars_name _ hname.2, keyChars_name _ hname'.2, ih]

/-- Templates of one key differ in their names only. -/
theorem Template.renamed {r s key : List Char} {names names' : List (List Char)} (hr : Template r key names)
    (hs : Template s key names') : Renamed r s := by
  induction hr generalizing s names' with
  | nil =>
    cases hs
    exact .nil
  | plain hopen hclose _ ih =>
    cases hs with
    | plain _ _ hs => exact .plain hopen hclose (ih hs)
    | token => exact absurd rfl hopen
  | token hname _ ih =>
    cases hs with
    | plain hopen => exact absurd rfl hopen
    | token hname' hs => exact .token hname hname' (ih hs)

/-! ## On texts -/

/-- Puts names into the empty pairs of braces of a key. -/
def fill (key : String) (names : List String) : String :=
  String.ofList (fillChars key.toList (names.map String.toList))

theorem faultOf?_eq_none_iff (path : List Char) :
    faultOf? path = none ↔ (path = [] ∨ ∃ rest, path = '/' :: rest) ∧ faultOfTokens? none path = none := by
  unfold faultOf?
  split
  · simp [faultOfTokens?]
  · simp
  · simp_all

/-- A route that is accepted is a template with its key and its tokens. -/
theorem template_of_fault? {route : String} (h : fault? route = none) :
    Template route.toList (key route).toList ((tokens route).map String.toList) := by
  obtain ⟨key', names, htemplate⟩ :=
    (faultOfTokens?_eq_none_iff _).mp ((faultOf?_eq_none_iff _).mp h).2
  have hkey : (key route).toList = key' := by rw [key, String.toList_ofList, htemplate.keyChars_eq]
  have htokens : (tokens route).map String.toList = names := by
    simp [tokens, Function.comp_def, htemplate.tokenChars_eq]
  rwa [hkey, htokens]

/-- A route that is accepted is told by its key and its tokens, and the key forgets the names alone. -/
theorem key_and_tokens {r s : String} (hr : fault? r = none) (hs : fault? s = none) :
    fill (key r) (tokens r) = r ∧ emptyTokens (key r).toList = (tokens r).length ∧
      (key r = key s ↔ Renamed r.toList s.toList) := by
  have hr := template_of_fault? hr
  have hs := template_of_fault? hs
  refine ⟨?_, ?_, ?_⟩
  · rw [fill, hr.fillChars_eq, String.ofList_toList]
  · rw [hr.emptyTokens_eq, List.length_map]
  · constructor
    · intro hkey
      rw [← hkey] at hs
      exact hr.renamed hs
    · intro hrenamed
      rw [key, key, hrenamed.keyChars_eq]

/-- Two tokens within one segment, under two pairs of names. -/
theorem key_and_tokens_files :
    fault? "/files/\x7bname\x7d.\x7bext\x7d" = none ∧ fault? "/files/\x7bid\x7d.\x7bformat\x7d" = none ∧
      fill "/files/\x7b\x7d.\x7b\x7d" ["name", "ext"] = "/files/\x7bname\x7d.\x7bext\x7d" ∧
      Renamed "/files/\x7bname\x7d.\x7bext\x7d".toList "/files/\x7bid\x7d.\x7bformat\x7d".toList := by
  have hname : fault? "/files/\x7bname\x7d.\x7bext\x7d" = none := by decide
  have hid : fault? "/files/\x7bid\x7d.\x7bformat\x7d" = none := by decide
  obtain ⟨hfill, -, hkeys⟩ := key_and_tokens hname hid
  have hkey : key "/files/\x7bname\x7d.\x7bext\x7d" = "/files/\x7b\x7d.\x7b\x7d" := by decide
  have htokens : tokens "/files/\x7bname\x7d.\x7bext\x7d" = ["name", "ext"] := by decide
  exact ⟨hname, hid, by rwa [hkey, htokens] at hfill, hkeys.mp (by decide)⟩

end AnnotatedApi.Route
