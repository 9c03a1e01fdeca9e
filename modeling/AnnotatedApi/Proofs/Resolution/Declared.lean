import AnnotatedApi.Proofs.Resolution.Uses
import AnnotatedApi.Proofs.Text.Brackets

/-!
# Objects match their declarations

An object that carries the name and the identity of an interface without type parameters has the fields
that the interface declares and those that its base types were resolved to when it was expanded. The
expansion may have happened anywhere in the history of the resolver: inside another one, for a base
type, or long before the object came out of the cache. So the history is taken apart call by call, and
each call that is made obeys the law of its step.
-/

namespace AnnotatedApi

set_option autoImplicit false

open Resolve

namespace Resolver

section

variable (types : List TypeDecl) (options : Options) (uses : List Use)

/-- Whether a declaration has been expanded in the course of the history, and its base types were resolved
to the objects then: a step for a reference to the declaration entered it and called for its base types
one after the other. -/
def ExpandedWith (d : TypeDecl) (bases : List TypeExpr) (os : List ObjectType) : Prop :=
  ∃ depth t S cache, Asked types options uses (depth + 1) t S ∧
    Scope.declaration? ⟨types, options⟩ t = some d ∧
      InTurn (fun u s w next =>
          Asks (resolveStep ⟨types, options⟩ · t) (resolveType ⟨types, options⟩ depth) S u s ∧
            resolveType ⟨types, options⟩ depth u s = .ok w next)
        bases ⟨cache, S.context.enter (frameOf d []) []⟩ os

end

end Resolver

/-! ## Names of objects -/

/-- Whether a name has none of the marks of composed names: of type arguments, of inline objects and of
intersections. -/
def Unmarked (s : String) : Prop := ∀ c ∈ s.toList, c ≠ '<' ∧ c ≠ '\x7b' ∧ c ≠ '&'

instance (s : String) : Decidable (Unmarked s) :=
  inferInstanceAs <| Decidable <| ∀ c ∈ s.toList, c ≠ '<' ∧ c ≠ '\x7b' ∧ c ≠ '&'

namespace ObjectType

theorem name_of_unmarked_display {o : ObjectType} (h : Unmarked o.type.display) :
    o.name = some o.type.display := by
  obtain ⟨identity, name, arguments, fields⟩ := o
  cases name with
  | none =>
    have hmark : '\x7b' ∈ (type ⟨identity, none, arguments, fields⟩).display.toList := by
      simp [type, WireType.display, WireType.inlineObject]
    exact absurd rfl (h _ hmark).2.1
  | some name =>
    cases arguments with
    | nil => simp [type, WireType.display, WireType.displayList, WireType.withArguments]
    | cons t arguments =>
      have hmark : '<' ∈ (type ⟨identity, some name, t :: arguments, fields⟩).display.toList := by
        simp [type, WireType.display, WireType.displayList, WireType.withArguments]
      exact absurd rfl (h _ hmark).1

theorem eq_nil_or_single_of_unmarked_meet {os : List ObjectType} (h : Unmarked (meet os).identity) :
    os = [] ∨ ∃ o, os = [o] := by
  match os with
  | [] => exact .inl rfl
  | [o] => exact .inr ⟨o, rfl⟩
  | o :: o' :: os =>
    have hmark : '&' ∈ (meet (o :: o' :: os)).identity.toList := by
      simp [meet, joinedIdentity, String.intercalate_cons_cons, String.toList_append]
    exact absurd rfl (h _ hmark).2.2

end ObjectType

theorem parameters_eq_nil_of_unmarked {d : TypeDecl} {arguments : List WireType}
    (h : Unmarked (instanceIdentity d arguments)) :
    d.parameters = [] ∧ instanceIdentity d arguments = d.qualifiedName := by
  unfold instanceIdentity at h ⊢
  split
  · rename_i hempty
    exact ⟨List.isEmpty_iff.mp hempty, rfl⟩
  · rename_i hempty
    rw [if_neg hempty] at h
    exact absurd rfl (h '<' (by simp)).1

namespace Resolver

/-! ## What is kept -/

/-- Whether declarations can be told apart, and from everything with a composed name. -/
structure Distinguishable (types : List TypeDecl) : Prop where
  distinct : (types.map (·.qualifiedName)).Nodup
  name : ∀ d ∈ types, Unmarked d.name
  qualifiedName : ∀ d ∈ types, Unmarked d.qualifiedName

/-- An interface without type parameters, and with a name. -/
structure PlainInterface (types : List TypeDecl) (d : TypeDecl) (bases : List TypeExpr)
    (own : List (FieldDecl TypeExpr)) : Prop where
  mem : d ∈ types
  parameters : d.parameters = []
  body : d.body = .interface bases own
  named : ¬ (d.name = "" ∧ d.qualifiedName = "")

section

variable (types : List TypeDecl) (options : Options) (uses : List Use) (d : TypeDecl)
  (bases : List TypeExpr) (own : List (FieldDecl TypeExpr))

/-- Whether an object has the fields of the interface if it carries its name and its identity. -/
def Matches (o : ObjectType) : Prop :=
  o.identity = d.qualifiedName → o.name = some d.name →
    ∃ os, ExpandedWith types options uses d bases os ∧ Follows own os o.fields

end

variable {types : List TypeDecl} {options : Options} {uses : List Use} {d : TypeDecl}
  {bases : List TypeExpr} {own : List (FieldDecl TypeExpr)}

theorem Matches.of_none {o : ObjectType} (h : o.name = none) :
    Matches types options uses d bases own o := by
  intro _ hname
  rw [h] at hname
  cases hname

/-- The intersection of one object that has the fields of the interface has them too. -/
theorem Matches.meet (h : Distinguishable types) (hd : PlainInterface types d bases own)
    {os : List ObjectType} (hos : ∀ o ∈ os, Matches types options uses d bases own o) :
    Matches types options uses d bases own (ObjectType.meet os) := by
  intro hidentity hname
  have hdisplay : ObjectType.joinedName os = d.name := Option.some.inj hname
  have hunmarked := hidentity ▸ h.qualifiedName d hd.mem
  rcases ObjectType.eq_nil_or_single_of_unmarked_meet hunmarked with rfl | ⟨o, rfl⟩
  -- The intersection of nothing has no name, but the interface has one.
  · exact absurd ⟨hdisplay.symm, hidentity.symm⟩ hd.named
  · have hsingle : o.type.display = d.name := by simpa [ObjectType.joinedName] using hdisplay
    have honame := ObjectType.name_of_unmarked_display (hsingle ▸ h.name d hd.mem)
    obtain ⟨bs, hbs, hfollows⟩ := hos o (List.mem_singleton.mpr rfl)
      (by simpa [ObjectType.meet, ObjectType.joinedIdentity] using hidentity) (hsingle ▸ honame)
    have hfields : (ObjectType.meet [o]).fields = o.fields :=
      mergeFields_of_nodup hfollows.distinct
    exact ⟨bs, hbs, hfields ▸ hfollows⟩

/-- An instance with the identity of the interface is the interface itself, without type arguments. -/
theorem Distinguishable.of_identity (h : Distinguishable types)
    (hd : PlainInterface types d bases own) {resolve : TypeExpr → Resolving WireType}
    {B : State → TypeExpr → Prop} {I : Cache → Prop} {P : List Frame → WireType → Prop} {cache : Cache}
    {c : Context} {e : TypeDecl} {arguments : List WireType} {environment : Table WireType}
    (hexpands : Expands ⟨types, options⟩ resolve B I P cache c e arguments environment)
    (hidentity : instanceIdentity e arguments = d.qualifiedName) :
    e = d ∧ arguments = [] ∧ environment = [] := by
  have hunmarked : Unmarked (instanceIdentity e arguments) := hidentity ▸ h.qualifiedName d hd.mem
  obtain ⟨hparameters, hqualified⟩ := parameters_eq_nil_of_unmarked hunmarked
  have hnone : arguments = [] :=
    List.eq_nil_of_length_eq_zero (by rw [hexpands.length, hparameters, List.length_nil])
  refine ⟨List.inj_on_of_nodup_map h.distinct hexpands.mem hd.mem (hqualified.symm.trans hidentity),
    hnone, List.eq_nil_iff_forall_not_mem.mpr fun entry hentry => ?_⟩
  have hbound := hexpands.bound entry hentry
  rw [hnone] at hbound
  cases hbound

/-- What a step that is asked for keeps: the objects that it puts together match. -/
theorem stepLaw (h : Distinguishable types) (hd : PlainInterface types d bases own) {depth : Nat}
    {t : TypeExpr} {S : State} (hasked : Asked types options uses (depth + 1) t S) :
    StepLaw ⟨types, options⟩ (ownCalls ⟨types, options⟩ depth t S) (fun s u => s = S ∧ u = t)
      (fun _ _ => True) (Cache.Holds (AllObjects (Matches types options uses d bases own)))
      (fun _ => True) (fun _ => AllObjects (Matches types options uses d bases own)) where
  toRules := (AllObjects.structural _).rules (fun _ _ _ _ _ _ => trivial) fun identity fields hfields =>
    .object (o := ⟨identity, none, [], fields⟩) (.of_none rfl) (by simp) hfields
  intersection _ _ os _ _ hos := .meet (.meet h hd fun o ho => hos o ho o .self) hos
  interface cache c e arguments environment bases' own' os gs hexpands hbody hinTurn hos hgs _ := by
    refine .object (o := ⟨instanceIdentity e arguments, some e.name, arguments, _⟩) ?_ hexpands.lawful
      fun f hf => ?_
    -- Only the interface itself has its identity, so it is its expansion that the step calls for.
    · intro hidentity _
      obtain ⟨rfl, rfl, rfl⟩ := h.of_identity hd hexpands hidentity
      obtain ⟨rfl, rfl⟩ := TypeBody.interface.inj (hbody.symm.trans hd.body)
      obtain ⟨S, name, args, rfl, ⟨rfl, rfl⟩, he, _⟩ := hexpands.referred
      exact ⟨os, ⟨depth, _, S, cache, hasked, he, hinTurn.mono fun _ _ _ _ => of_restricted_eq_ok⟩,
        hgs.follows os⟩
    · rcases mem_or_mem_of_mem_mergeFields hf with hf | hf
      · obtain ⟨o, ho, hf⟩ := ObjectType.exists_of_mem_mergeAll hf
        exact (hos o ho).field hf
      · exact hgs.types f hf
  record _ c e arguments environment fs gs hexpands hbody hgs _ := by
    refine .object (o := ⟨instanceIdentity e arguments, some e.name, arguments, gs⟩) ?_ hexpands.lawful
      hgs.types
    intro hidentity _
    obtain ⟨rfl, _⟩ := h.of_identity hd hexpands hidentity
    cases hbody.symm.trans hd.body

/-- Whatever a resolver is asked in the course of its history, the answer matches. -/
theorem matches_asked (h : Distinguishable types) (hd : PlainInterface types d bases own) (depth : Nat) :
    Lawful (fun _ _ => True) (Cache.Holds (AllObjects (Matches types options uses d bases own)))
      (fun _ => True) (fun _ => AllObjects (Matches types options uses d bases own))
      (restricted (resolveType ⟨types, options⟩ depth) (Asked types options uses depth)) :=
  asked_lawful (A := fun (_ : Unit) _ _ => True) (I := fun _ => _) (P := fun _ _ => _) trivial
    (fun _ _ _ hasked _ _ _ => stepLaw h hd hasked) depth ()

/-- Whatever has been resolved before: an object in an answer that carries the name and the identity of an
interface without type parameters has the fields that the interface declares, and those of the objects
that its base types were resolved to in an expansion of the interface. -/
theorem afterUses_follows (h : Distinguishable types) {depth : Nat} {t : TypeExpr} {origin : String}
    {w : WireType} (hw : (((fresh types options).afterUses uses).resolve depth t (.ofOrigin origin)).1 = .ok w)
    (hd : d ∈ types) (hparameters : d.parameters = []) (hbody : d.body = .interface bases own)
    (hnamed : ¬ (d.name = "" ∧ d.qualifiedName = "")) {arguments : List WireType}
    {fields : List (Field WireType)}
    (hobject : w.Contains (.object d.qualifiedName (some d.name) arguments fields)) :
    ∃ os, ExpandedWith types options (uses ++ [.resolve depth t origin]) d bases os ∧
      Follows own os fields := by
  have hinterface : PlainInterface types d bases own := ⟨hd, hparameters, hbody, hnamed⟩
  exact yields_of_asked (matches_asked h hinterface) Cache.holds_empty (fun _ _ => trivial) hw
    ⟨d.qualifiedName, some d.name, arguments, fields⟩ hobject rfl rfl

def nowhere : Span := ⟨"m.ts", .zero, .zero⟩

def pet : TypeDecl :=
  ⟨"Pet", "m.ts#Pet", [], .interface [] [⟨"id", .keyword "number", false, none, none, nowhere⟩,
    ⟨"tag", .keyword "string", true, none, none, nowhere⟩], nowhere⟩

/-- A field of the base type is declared anew, and that twice. -/
def catFields : List (FieldDecl TypeExpr) :=
  [⟨"tag", .keyword "string", false, none, none, nowhere⟩,
    ⟨"lives", .keyword "number", false, none, none, nowhere⟩,
    ⟨"tag", .union [.keyword "string", .keyword "undefined"], false, none, some "collar", nowhere⟩]

def cat : TypeDecl := ⟨"Cat", "m.ts#Cat", [], .interface [.reference "Pet" []] catFields, nowhere⟩

/-- The base type comes out of the cache when the object is put together inside an array. -/
theorem afterUses_follows_cat : ∃ w fields os,
    (((fresh [pet, cat] .default).afterUses [.resolve 4 (.reference "Pet" []) "m"]).resolve 6
      (.array (.reference "Cat" [])) (.ofOrigin "m")).1 = .ok w ∧
    w.Contains (.object "m.ts#Cat" (some "Cat") [] fields) ∧
    fields.map (fun f => (f.name, f.required, f.description)) =
      [("id", true, none), ("tag", false, some "collar"), ("lives", true, none)] ∧
    ExpandedWith [pet, cat] .default [.resolve 4 (.reference "Pet" []) "m",
      .resolve 6 (.array (.reference "Cat" [])) "m"] cat [.reference "Pet" []] os ∧
    Follows catFields os fields := by
  have hresolved : ∃ fields,
      (((fresh [pet, cat] .default).afterUses [.resolve 4 (.reference "Pet" []) "m"]).resolve 6
        (.array (.reference "Cat" [])) (.ofOrigin "m")).1 =
          .ok (.array (.object "m.ts#Cat" (some "Cat") [] fields)) ∧
      fields.map (fun f => (f.name, f.required, f.description)) =
        [("id", true, none), ("tag", false, some "collar"), ("lives", true, none)] := ⟨_, rfl, rfl⟩
  obtain ⟨fields, hw, hfields⟩ := hresolved
  have hobject : (WireType.array (.object "m.ts#Cat" (some "Cat") [] fields)).Contains
      (.object "m.ts#Cat" (some "Cat") [] fields) := .child (List.mem_singleton.mpr rfl) .self
  have hapart : Distinguishable [pet, cat] := ⟨by decide, by decide, by decide⟩
  obtain ⟨os, hos, hfollows⟩ :=
    afterUses_follows hapart hw (.tail _ (.head _)) rfl rfl (by decide) hobject
  exact ⟨_, fields, os, hw, hobject, hfields, hos, hfollows⟩

def nameless : TypeDecl :=
  ⟨"", "", [], .interface [] [⟨"a", .keyword "string", false, none, none, nowhere⟩], nowhere⟩

/-- The intersection of nothing carries the names of a declaration without a name, and has no fields. -/
theorem not_follows_nameless : Distinguishable [nameless] ∧
    ((fresh [nameless] .default).resolve 1 (.intersection []) (.ofOrigin "m")).1 =
      .ok (.object nameless.qualifiedName (some nameless.name) [] []) ∧
    nameless.parameters = [] ∧ ∃ own, nameless.body = .interface [] own ∧ ∀ os, ¬ Follows own os [] := by
  refine ⟨⟨by decide, by decide, by decide⟩, rfl, rfl, _, rfl, fun os h => ?_⟩
  obtain ⟨_, _, _, g, hg, _⟩ := h.declared _ (.head _)
  cases hg

end Resolver

end AnnotatedApi
