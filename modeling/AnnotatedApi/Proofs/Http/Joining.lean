import AnnotatedApi.Proofs.Http.NormalForm
import AnnotatedApi.Proofs.Http.Tokens

/-!
# Joining routes that are accepted

A slash stands in no name, so a route is accepted part by part. The normal form changes those parts that begin
with a colon and keeps the others: what stands behind the colon becomes a token as it is, and the check, which
looks at the text before that, takes it for plain text. So a route joined from accepted ones is accepted just
if the names behind colons are names.
-/

namespace AnnotatedApi.Route

set_option autoImplicit false

/-! ## Part by part -/

theorem faultOfTokens?_append_slash (name : Option Nat) (a b : List Char) :
    faultOfTokens? name (a ++ '/' :: b) = none ↔
      faultOfTokens? name a = none ∧ faultOfTokens? none b = none := by
  induction a generalizing name with
  | nil =>
    have hslash : isTokenChar '/' = false := rfl
    cases name <;> simp [faultOfTokens?, hslash]
  | cons c a ih =>
    rw [List.cons_append]
    cases name <;> simp only [faultOfTokens?] <;> split_ifs <;> simp [ih]

theorem faultOfTokens?_append_flatMap (part : List Char) (others : List (List Char)) :
    faultOfTokens? none (part ++ others.flatMap ('/' :: ·)) = none ↔
      ∀ p ∈ part :: others, faultOfTokens? none p = none := by
  induction others generalizing part with
  | nil => simp
  | cons p others ih =>
    rw [List.flatMap_cons, List.cons_append, faultOfTokens?_append_slash, ih]
    simp only [List.forall_mem_cons]

theorem faultOfTokens?_iff_parts (cs : List Char) :
    faultOfTokens? none cs = none ↔ ∀ part ∈ parts cs, faultOfTokens? none part = none := by
  obtain ⟨part, others, h⟩ := exists_parts_eq_cons cs
  have hcs := flatMap_parts cs
  rw [h, List.flatMap_cons, List.cons_append] at hcs
  rw [h, ← faultOfTokens?_append_flatMap, (List.cons.inj hcs).2]

theorem faultOf?_ofSegments_eq_none_iff (ss : List (List Char)) :
    faultOf? (ofSegments ss) = none ↔ ∀ s ∈ ss, faultOfTokens? none s = none := by
  rw [faultOf?_eq_none_iff, and_iff_right (.inr (exists_ofSegments_eq_cons ss))]
  by_cases hne : ss = []
  · subst hne
    simp [ofSegments, faultOfTokens?]
  · have h := faultOfTokens?_append_flatMap [] ss
    rw [List.nil_append, List.forall_mem_cons] at h
    rw [ofSegments_of_ne_nil hne, h]
    exact and_iff_right rfl

/-! ## Names behind colons -/

/-- What stands behind the colon that a part begins with. -/
def behindColon : List Char → List Char
  | ':' :: name => name
  | _ => []

/-- What stands behind the colons of a text could stand in a token. -/
def ColonsName (path : List Char) : Prop :=
  ∀ part ∈ parts path, ∀ c ∈ behindColon part, isTokenChar c = true

instance (path : List Char) : Decidable (ColonsName path) :=
  decidable_of_iff ((parts path).all fun part => (behindColon part).all isTokenChar)
    (by simp only [ColonsName, List.all_eq_true])

theorem behindColon_eq_nil {part : List Char} (h : ∀ c rest, part ≠ ':' :: c :: rest) :
    behindColon part = [] := by
  unfold behindColon
  split
  · rename_i name
    cases name with
    | nil => rfl
    | cons c rest => exact absurd rfl (h c rest)
  · rfl

/-- What is accepted by itself and as the rest of a token can have no brace, so all of it is in the name. -/
theorem isTokenChar_of_enclosed {n : Nat} {name : List Char} (h : faultOfTokens? none name = none)
    (hclosed : faultOfTokens? (some n) (name ++ ['\x7d']) = none) : ∀ c ∈ name, isTokenChar c = true := by
  induction name generalizing n with
  | nil => simp
  | cons c name ih =>
    simp only [faultOfTokens?] at h
    simp only [List.cons_append, faultOfTokens?] at hclosed
    split_ifs at h with hopen hclose
    · simp [hopen] at hclosed
    · split_ifs at hclosed with hc
      exact List.forall_mem_cons.mpr ⟨hc, ih h hclosed⟩

/-- Where a part is accepted, its spelling in braces is accepted just if there is a name behind its colon. -/
theorem faultOfTokens?_braced_iff {part : List Char} (h : faultOfTokens? none part = none) :
    faultOfTokens? none (braced part) = none ↔ ∀ c ∈ behindColon part, isTokenChar c = true := by
  by_cases hcolon : ∃ c rest, part = ':' :: c :: rest
  · obtain ⟨c, rest, rfl⟩ := hcolon
    have hrest : faultOfTokens? none (c :: rest) = none := by simpa [faultOfTokens?] using h
    have henclosed : faultOfTokens? none (braced (':' :: c :: rest)) =
        faultOfTokens? (some 0) (c :: rest ++ ['\x7d']) := by
      rw [braced_colon, faultOfTokens?, if_pos rfl]
    rw [henclosed, behindColon]
    exact ⟨isTokenChar_of_enclosed hrest, fun hname => faultOfTokens?_name [] hname (by simp)⟩
  · have hnone : ∀ c rest, part ≠ ':' :: c :: rest := fun c rest hpart => hcolon ⟨c, rest, hpart⟩
    rw [braced_eq_self hnone, behindColon_eq_nil hnone]
    simpa using h

/-- Of a text that is accepted, the normal form is accepted just if names stand behind its colons. -/
theorem faultOf?_normalizeChars_eq_none_iff {path : List Char} (h : faultOfTokens? none path = none) :
    faultOf? (normalizeChars path) = none ↔ ColonsName path := by
  have hparts := (faultOfTokens?_iff_parts path).mp h
  rw [normalizeChars, faultOf?_ofSegments_eq_none_iff, segments, List.forall_mem_map, ColonsName]
  constructor
  · intro hsegments part hpart
    by_cases hne : part = []
    · simp [hne, behindColon]
    · exact (faultOfTokens?_braced_iff (hparts part hpart)).mp
        (hsegments part (List.mem_filter.mpr ⟨hpart, by simpa using hne⟩))
  · intro hnames part hpart
    have hmem := (List.mem_filter.mp hpart).1
    exact (faultOfTokens?_braced_iff (hparts part hmem)).mpr (hnames part hmem)

theorem colonsName_append_slash (a b : List Char) :
    ColonsName (a ++ '/' :: b) ↔ ColonsName a ∧ ColonsName b := by
  rw [ColonsName, parts_append_slash, List.forall_mem_append, ColonsName, ColonsName]

/-! ## Joined routes -/

/-- What is joined from routes that are accepted is accepted just if names stand behind the colons of both; its
tokens are names then, and there is one for each pair of braces in its key. -/
theorem fault?_join {base path : String} (hbase : fault? base = none) (hpath : fault? path = none) :
    (fault? (join base path) = none ↔ ColonsName base.toList ∧ ColonsName path.toList) ∧
    (ColonsName base.toList → ColonsName path.toList →
      (∀ token ∈ tokens (join base path), IsName token.toList) ∧
        emptyTokens (key (join base path)).toList = (tokens (join base path)).length) := by
  have hjoined : faultOfTokens? none (base.toList ++ '/' :: path.toList) = none :=
    (faultOfTokens?_append_slash none _ _).mpr
      ⟨((faultOf?_eq_none_iff _).mp hbase).2, ((faultOf?_eq_none_iff _).mp hpath).2⟩
  have hiff : fault? (join base path) = none ↔ ColonsName base.toList ∧ ColonsName path.toList := by
    rw [fault?, toList_join, joinChars, faultOf?_normalizeChars_eq_none_iff hjoined, colonsName_append_slash]
  refine ⟨hiff, fun hbaseNames hpathNames => ?_⟩
  have htemplate := template_of_fault? (hiff.mpr ⟨hbaseNames, hpathNames⟩)
  exact ⟨List.forall_mem_map.mp htemplate.isName, by rw [htemplate.emptyTokens_eq, List.length_map]⟩

theorem fault?_join_pets :
    fault? "/api" = none ∧ fault? "/pets/:id/\x7bkind\x7d.json" = none ∧
      fault? (join "/api" "/pets/:id/\x7bkind\x7d.json") = none ∧
      (∀ token ∈ tokens (join "/api" "/pets/:id/\x7bkind\x7d.json"), IsName token.toList) := by
  have hbase : fault? "/api" = none := by decide
  have hpath : fault? "/pets/:id/\x7bkind\x7d.json" = none := by decide
  obtain ⟨hiff, htokens⟩ := fault?_join hbase hpath
  exact ⟨hbase, hpath, hiff.mpr (by decide), (htokens (by decide) (by decide)).1⟩

/-- The name behind a colon is not checked: one with a hyphen becomes a token that is refused when it is
written in braces, and braces within it are taken apart in two ways. -/
theorem fault?_join_colon :
    (fault? "/api" = none ∧ fault? "/:a-b" = none ∧ fault? (join "/api" "/:a-b") = some .badToken ∧
      tokens (join "/api" "/:a-b") = ["a-b"] ∧ ¬ IsName "a-b".toList) ∧
    (fault? "/:\x7bid\x7d" = none ∧ fault? (join "/api" "/:\x7bid\x7d") = some .nestedToken ∧
      emptyTokens (key (join "/api" "/:\x7bid\x7d")).toList = 2 ∧
      tokens (join "/api" "/:\x7bid\x7d") = ["\x7bid"]) := by
  decide

end AnnotatedApi.Route
