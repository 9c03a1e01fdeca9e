import AnnotatedApi.Proofs.Linking.Links

/-!
# Dependencies that a pass says nothing about

A dependency may take what it asks for from an argument. If the argument is left out there is nothing to ask
for, and a pass says nothing; if it is there, the pass has something to say, provided that the argument is a
text. The definition of an annotation is only checked for the place of that argument, not for its type, so an
argument of another type is accepted, and the pass is silent about it. What type and validator leave open is
settled here: which places take nothing but texts, and which take none.
-/

namespace AnnotatedApi

set_option autoImplicit false

/-! ## Places that take texts -/

namespace Annotation.ArgumentSpec

/-- Whether type or validator let nothing but a text through. -/
def TakesText (spec : ArgumentSpec) : Prop :=
  spec.type = .string ∨ spec.type = .identifier ∨ ∃ v ∈ spec.validator, v ≠ .httpStatus

variable {spec : ArgumentSpec} {x : Argument}

theorem Admits.spells (hx : spec.Admits x) (h : spec.TakesText) : ∃ text, x.Spells text := by
  rcases h with htype | htype | ⟨v, hv, hne⟩
  · have hholds := hx.type
    rw [htype] at hholds
    cases hholds with
    | string text => exact ⟨text, .inr rfl⟩
  · have hholds := hx.type
    rw [htype] at hholds
    cases hholds with
    | name hspells => exact ⟨_, hspells⟩
  · cases hx.validator v hv with
    | text hspells _ => exact ⟨_, hspells⟩
    | status _ _ => exact absurd rfl hne

/-- Where texts are accepted, nothing else is, or anything is. -/
theorem Admits.takesText (hx : spec.Admits x) {text : String} (h : x.Spells text) :
    spec.TakesText ∨ spec.type = .any ∧ spec.validator = none := by
  have htype := hx.type
  cases hspec : spec.type with
  | any =>
    cases hv : spec.validator with
    | none => exact .inr ⟨rfl, rfl⟩
    | some v =>
      refine .inl (.inr (.inr ⟨v, hv, ?_⟩))
      rintro rfl
      cases hx.validator _ hv with
      | text _ hfalse => exact hfalse
      | status _ _ => rcases h with h | h <;> cases h
  | string => exact .inl (.inl hspec)
  | identifier => exact .inl (.inr (.inl hspec))
  | _ =>
    rw [hspec] at htype
    cases htype
    rcases h with h | h <;> cases h

end Annotation.ArgumentSpec

/-! ## What a pass has to say -/

namespace Forest

variable {f : Forest} {x : Asking}

/-- Whether a pass links a dependency or reports that there is nothing to link it to. -/
def Heeds (f : Forest) (x : Asking) : Prop :=
  (∃ l ∈ f.links, f.Answers x l) ∨ ∃ r ∈ f.removals, f.Reports x r

/-- A pass is silent about those dependencies only of which it is not known what they ask for. -/
theorem heeds_iff_formed (hx : x ∈ f.askings) : f.Heeds x ↔ x.Formed := by
  constructor
  · rintro (⟨l, -, hanswers⟩ | ⟨r, -, q, hq, -⟩)
    · exact ⟨l.requirement, hanswers.requirement⟩
    · exact ⟨q, hq⟩
  · intro hformed
    obtain ⟨result, hresult, hhandles⟩ := exists_result hx hformed
    have hmem : result ∈ f.dependencyResults := by
      rw [dependencyResults_eq]
      exact List.mem_filterMap.mpr ⟨x, hx, hresult⟩
    cases hhandles with
    | link hanswers => exact .inl ⟨_, mem_links_iff.mpr hmem, hanswers⟩
    | removal hreports => exact .inr ⟨_, mem_removals_of_result hmem, hreports⟩

/-- A requirement is formed from an argument if and only if that is a text. -/
theorem formed_iff_spells {i : Nat} {y : Annotation.Argument}
    (hi : x.dependency.target.position? = some i) (hy : x.annotation.arguments[i]? = some y) :
    x.Formed ↔ ∃ text, y.Spells text := by
  have hof : (Requirement.of? x.annotation x.dependency).isSome = (x.annotation.textArgument? i).isSome := by
    unfold Requirement.of?
    cases htarget : x.dependency.target with
    | providerArgument position =>
      obtain rfl : position = i := by simpa [htarget, Annotation.DependencyTarget.position?] using hi
      exact Option.isSome_map
    | declarationArgument position =>
      obtain rfl : position = i := by simpa [htarget, Annotation.DependencyTarget.position?] using hi
      exact Option.isSome_map
    | _ => simp [htarget, Annotation.DependencyTarget.position?] at hi
  have htext : x.annotation.textArgument? i = y.asText? := by
    rw [Applied.textArgument?, hy, Option.bind_some]
  rw [Asking.formed_iff, hof, htext, Option.isSome_iff_exists]
  exact exists_congr fun text => Annotation.Argument.asText?_eq_some_iff

/-- A pass links or reports a dependency that takes what it asks for from an argument that is there if and only
if the argument is a text. So it does for all arguments that fit where the place takes nothing but texts, for
none where it takes no text, and for some where it takes anything. -/
theorem heeds_iff (hx : x ∈ f.askings)
    (hfit : x.annotation.definition.mismatches x.annotation.arguments = []) {i : Nat}
    (hi : x.dependency.target.position? = some i) {y : Annotation.Argument}
    (hy : x.annotation.arguments[i]? = some y) :
    (f.Heeds x ↔ ∃ text, y.Spells text) ∧
      ∃ spec, x.annotation.definition.arguments[i]? = some spec ∧ (spec.TakesText → f.Heeds x) ∧
        (f.Heeds x → spec.TakesText ∨ spec.type = .any ∧ spec.validator = none) := by
  have hheeds : f.Heeds x ↔ ∃ text, y.Spells text :=
    (heeds_iff_formed hx).trans (formed_iff_spells hi hy)
  obtain ⟨spec, hspec, hadmits⟩ := Annotation.Definition.exists_admits hfit hy
  refine ⟨hheeds, spec, hspec, ?_, ?_⟩
  · intro htext
    exact hheeds.mpr (hadmits.spells htext)
  · intro h
    obtain ⟨text, htext⟩ := hheeds.mp h
    exact hadmits.takesText htext

/-! ## A place that takes anything -/

/-- A marker that asks for the provider which its argument names. -/
def needs : Annotation.Definition where
  name := "Needs"
  targets := [.method]
  arguments := [{ name := "tag" }]
  dependencies := [⟨.providerArgument 0, .enclosing⟩]

/-- A class without annotations whose method has the marker. -/
def needing (y : Annotation.Argument) : Forest :=
  [⟨⟨"C", .nowhere, [], []⟩, "m.ts#C",
    [⟨.method (.primitive .string) none, ⟨"hello", .nowhere, [⟨needs, [y], .nowhere⟩], []⟩, []⟩]⟩]

def need (y : Annotation.Argument) : Asking := ⟨[0, 0], ⟨needs, [y], .nowhere⟩, ⟨.providerArgument 0, .enclosing⟩⟩

theorem heeds_iff_needing :
    let db : Annotation.Argument := .identifier "db"
    let x := need db
    x ∈ (needing db).askings ∧ needs.mismatches [db] = [] ∧ x.dependency.target.position? = some 0 ∧
      x.annotation.arguments[0]? = some db ∧ (needing db).Heeds x := by
  intro db x
  have hx : x ∈ (needing db).askings := List.mem_singleton.mpr rfl
  have hfit : needs.mismatches [db] = [] := rfl
  exact ⟨hx, hfit, rfl, rfl, (heeds_iff hx hfit rfl rfl).1.mpr ⟨"db", .inl rfl⟩⟩

/-- The number fits and the definition passes its check, but a pass has nothing to say: no link, no removal. -/
theorem silent_about_number :
    let answer : Annotation.Argument := .literal (.ofNat 42)
    let x := need answer
    needs.fault? = none ∧ needs.mismatches [answer] = [] ∧ x ∈ (needing answer).askings ∧
      x.dependency.target.position? = some 0 ∧ x.annotation.arguments[0]? = some answer ∧
      (needing answer).links = [] ∧ (needing answer).removals = [] :=
  ⟨by decide, rfl, List.mem_singleton.mpr rfl, rfl, rfl, rfl, rfl⟩

end Forest

end AnnotatedApi
