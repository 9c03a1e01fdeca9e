import AnnotatedApi.Proofs.Keeping
import AnnotatedApi.Proofs.Resolution.Fields
import AnnotatedApi.WireType.Name

/-!
# How objects are put together

An object is made of the objects that its base types or members are resolved to, one after the other,
and of its own fields. The names of its fields stand where they occur first.
-/

namespace AnnotatedApi

set_option autoImplicit false

open Resolve

/-! ## Objects -/

/-- An object type with its parts at hand. -/
structure ObjectType where
  identity : String
  name : Option String
  arguments : List WireType
  fields : List (Field WireType)

namespace ObjectType

def type (o : ObjectType) : WireType := .object o.identity o.name o.arguments o.fields

theorem type_injective : Function.Injective type := by
  rintro ⟨i, n, as, fs⟩ ⟨j, m, bs, gs⟩ h
  cases h
  rfl

/-- The fields of some objects, merged into others. -/
def mergeAll (os : List ObjectType) (fields : List (Field WireType)) : List (Field WireType) :=
  os.foldl (fun merged o => mergeFields merged o.fields) fields

def joinedIdentity (os : List ObjectType) : String :=
  String.intercalate " & " (os.map (·.identity))

def joinedName (os : List ObjectType) : String :=
  String.intercalate " & " (os.map (·.type.display))

/-- The intersection of some objects. -/
def meet (os : List ObjectType) : ObjectType :=
  ⟨joinedIdentity os, some (joinedName os), [], mergeAll os []⟩

/-- Whether the object is an instance of a declaration. -/
structure IsInstance (o : ObjectType) (d : TypeDecl) : Prop where
  identity : o.identity = instanceIdentity d o.arguments
  name : o.name = some d.name
  length : o.arguments.length = d.parameters.length

theorem mergeAll_eq_mergeFields (os : List ObjectType) (fields : List (Field WireType)) :
    mergeAll os fields = mergeFields fields (os.flatMap (·.fields)) := by
  rw [mergeAll, mergeFields, List.foldl_flatMap]
  rfl

theorem nodup_mergeAll (os : List ObjectType) : ((mergeAll os []).map (·.name)).Nodup := by
  rw [mergeAll_eq_mergeFields]
  exact nodup_mergeFields (by simp) _

theorem exists_of_mem_mergeAll {os : List ObjectType} {g : Field WireType} (hg : g ∈ mergeAll os []) :
    ∃ o ∈ os, g ∈ o.fields := by
  rw [mergeAll_eq_mergeFields] at hg
  exact List.mem_flatMap.mp ((mem_or_mem_of_mem_mergeFields hg).resolve_left (by simp))

end ObjectType

/-! ## Declared fields -/

/-- The field that a declared field becomes, given its type. -/
def FieldDecl.resolved (f : FieldDecl TypeExpr) (w : WireType) : Field WireType :=
  ⟨f.name, w, !(f.optional || f.default.isSome || f.type.stripUndefined.2), f.description⟩

namespace Resolve

/-- Whether the fields are what declared fields become, each with a type that has a property. -/
def Become (p : WireType → Prop) (fs : List (FieldDecl TypeExpr)) (gs : List (Field WireType)) : Prop :=
  List.Forall₂ (fun f g => ∃ w, g = f.resolved w ∧ p w) fs gs

namespace Become

variable {p : WireType → Prop} {fs : List (FieldDecl TypeExpr)} {gs : List (Field WireType)}

theorem names (h : Become p fs gs) : gs.map (·.name) = fs.map (·.name) := by
  induction h with
  | nil => rfl
  | cons hg _ ih =>
    obtain ⟨w, rfl, _⟩ := hg
    rw [List.map_cons, List.map_cons, ih]
    rfl

theorem types (h : Become p fs gs) : ∀ g ∈ gs, p g.type := by
  induction h with
  | nil => simp
  | cons hg _ ih =>
    obtain ⟨w, rfl, hw⟩ := hg
    exact List.forall_mem_cons.mpr ⟨hw, ih⟩

theorem split {before after : List (FieldDecl TypeExpr)} {f : FieldDecl TypeExpr}
    (h : Become p (before ++ f :: after) gs) : ∃ before' w after', gs = before' ++ f.resolved w :: after' ∧
      after'.map (·.name) = after.map (·.name) := by
  induction before generalizing gs with
  | nil =>
    obtain ⟨_, after', ⟨w, rfl, _⟩, hafter, rfl⟩ := List.forall₂_cons_left_iff.mp h
    exact ⟨[], w, after', rfl, Become.names hafter⟩
  | cons _ before ih =>
    obtain ⟨g, gs', _, hgs', rfl⟩ := List.forall₂_cons_left_iff.mp h
    obtain ⟨before', w, after', rfl, hnames⟩ := ih hgs'
    exact ⟨g :: before', w, after', rfl, hnames⟩

end Become

/-! ## What the fields of an interface are -/

/-- Whether a field is the last one that is declared under its name. -/
def LastDeclared (own : List (FieldDecl TypeExpr)) (f : FieldDecl TypeExpr) : Prop :=
  ∃ before after, own = before ++ f :: after ∧ f.name ∉ after.map (·.name)

theorem exists_lastDeclared {own : List (FieldDecl TypeExpr)} {name : String}
    (h : name ∈ own.map (·.name)) : ∃ last, LastDeclared own last ∧ last.name = name := by
  obtain ⟨before, last, after, hsplit, rfl, hnot⟩ := exists_last_of_mem_map h
  exact ⟨last, ⟨before, after, hsplit, hnot⟩, rfl⟩

/-- Whether the fields of an object are those of an interface that declares the fields `own`, where the
base types have been resolved to the objects. -/
structure Follows (own : List (FieldDecl TypeExpr)) (os : List ObjectType)
    (fields : List (Field WireType)) : Prop where
  distinct : (fields.map (·.name)).Nodup
  /-- Every declared field is there, as it is declared last. -/
  declared : ∀ f ∈ own, ∃ last, LastDeclared own last ∧ last.name = f.name ∧
    ∃ g ∈ fields, g.name = f.name ∧ g.description = last.description ∧
      (g.required = false ↔
        last.optional = true ∨ last.default.isSome = true ∨ last.type.MayBeUndefined)
  /-- Every other field comes from the object that a base type has been resolved to. -/
  inherited : ∀ g ∈ fields, g.name ∉ own.map (·.name) → ∃ o ∈ os, g ∈ o.fields
  /-- The names stand in the order in which they occur first. -/
  order : fields.map (·.name) =
    ((os.flatMap (·.fields)).map (·.name) ++ own.map (·.name)).eraseDups

theorem required_resolved (f : FieldDecl TypeExpr) (w : WireType) : (f.resolved w).required = false ↔
    f.optional = true ∨ f.default.isSome = true ∨ f.type.MayBeUndefined := by
  rw [← TypeExpr.stripUndefined_iff, FieldDecl.resolved]
  dsimp only
  rw [Bool.not_eq_false', Bool.or_eq_true, Bool.or_eq_true, or_assoc]

/-- Merging makes the fields of an interface out of those of its base types and its own. -/
theorem Become.follows {p : WireType → Prop} {own : List (FieldDecl TypeExpr)}
    {gs : List (Field WireType)} (h : Become p own gs) (os : List ObjectType) :
    Follows own os (mergeFields (ObjectType.mergeAll os []) gs) where
  distinct := nodup_mergeFields (ObjectType.nodup_mergeAll os) gs
  declared f hf := by
    obtain ⟨last, ⟨before, after, rfl, hnot⟩, hname⟩ :=
      exists_lastDeclared (List.mem_map_of_mem hf)
    obtain ⟨before', w, after', rfl, hafter⟩ := h.split
    refine ⟨last, ⟨before, after, rfl, hnot⟩, hname, last.resolved w, ?_, hname, rfl,
      required_resolved last w⟩
    exact mem_mergeFields_last before' (hafter ▸ hnot)
  inherited g hg hnot := by
    rcases mem_or_mem_of_mem_mergeFields hg with hg | hg
    · exact ObjectType.exists_of_mem_mergeAll hg
    · exact absurd (h.names ▸ List.mem_map_of_mem hg) hnot
  order := by
    rw [ObjectType.mergeAll_eq_mergeFields, mergeFields, mergeFields, ← List.foldl_append, ← h.names,
      ← List.map_append]
    exact map_name_mergeFields (by simp) _

/-! ## One after the other -/

/-- Whether a way to resolve types yields a type in some state, and which state comes next. -/
def Yields (resolve : TypeExpr → Resolving WireType) (t : TypeExpr) (s : State) (w : WireType)
    (next : State) : Prop :=
  resolve t s = .ok w next

/-- The objects that type expressions are resolved to one after the other; `R` tells what a type
expression is resolved to in a state, and which state comes next. -/
inductive InTurn (R : TypeExpr → State → WireType → State → Prop) :
    List TypeExpr → State → List ObjectType → Prop where
  | nil {s : State} : InTurn R [] s []
  | cons {t : TypeExpr} {ts : List TypeExpr} {s next : State} {o : ObjectType} {os : List ObjectType} :
    R t s o.type next → InTurn R ts next os → InTurn R (t :: ts) s (o :: os)

namespace InTurn

variable {R R' : TypeExpr → State → WireType → State → Prop} {ts : List TypeExpr} {s : State}
  {os : List ObjectType}

theorem length_eq (h : InTurn R ts s os) : os.length = ts.length := by
  induction h with
  | nil => rfl
  | cons _ _ ih => exact congrArg (· + 1) ih

theorem mono (h : InTurn R ts s os) (hR : ∀ t s w next, R t s w next → R' t s w next) :
    InTurn R' ts s os := by
  induction h with
  | nil => exact .nil
  | cons hR' _ ih => exact .cons (hR _ _ _ _ hR') ih

end InTurn

section

variable {resolve : TypeExpr → Resolving WireType} {ts : List TypeExpr}
  {merged fields : List (Field WireType)} {s s' : State}

theorem inTurn_of_resolveBases {declaration : String}
    (h : resolveBases resolve declaration ts merged s = .ok fields s') :
    ∃ os, InTurn (Yields resolve) ts s os ∧ fields = ObjectType.mergeAll os merged := by
  induction ts generalizing merged s with
  | nil =>
    cases h
    exact ⟨[], .nil, rfl⟩
  | cons t ts ih =>
    obtain ⟨w, next, hw, h⟩ := exists_of_bind_eq_ok h
    cases w with
    | object identity name arguments gs =>
      obtain ⟨os, hos, rfl⟩ := ih h
      exact ⟨⟨identity, name, arguments, gs⟩ :: os, .cons hw hos, rfl⟩
    | _ => cases h

theorem inTurn_of_resolveMembers {text : String} {identities names : List String}
    (h : resolveMembers resolve text ts merged s = .ok (identities, names, fields) s') :
    ∃ os, InTurn (Yields resolve) ts s os ∧ identities = os.map (·.identity) ∧
      names = os.map (·.type.display) ∧ fields = ObjectType.mergeAll os merged := by
  induction ts generalizing merged fields s s' identities names with
  | nil =>
    cases h
    exact ⟨[], .nil, rfl, rfl, rfl⟩
  | cons t ts ih =>
    obtain ⟨w, next, hw, h⟩ := exists_of_bind_eq_ok h
    cases w with
    | object identity name arguments gs =>
      obtain ⟨⟨identities', names', fields'⟩, next', hrest, h⟩ := exists_of_bind_eq_ok h
      obtain ⟨os, hos, rfl, rfl, rfl⟩ := ih hrest
      cases h
      exact ⟨⟨identity, name, arguments, gs⟩ :: os, .cons hw hos, rfl, rfl, rfl⟩
    | _ => cases h

end

end Resolve

end AnnotatedApi
