import AnnotatedApi.Handlers.Applied
import AnnotatedApi.WireType.Basic

/-!
# The handler forest

The forest has a tree for every class that exposes handlers: below the class its constructor, if
that takes injected parameters, and its methods, and below those their parameters. A node is named
by the indices that lead to it.
-/

namespace AnnotatedApi

set_option autoImplicit false

/-! ## Paths -/

/-- The indices that lead to a node: class, member, parameter. -/
abbrev NodePath := List Nat

namespace NodePath

def display (path : NodePath) : String :=
  "/" ++ String.intercalate "/" (path.map toString)

def parent? (path : NodePath) : Option NodePath :=
  if path.length ≤ 1 then none else some path.dropLast

/-- Whether the path leads to the other node or below it. -/
def isWithin (path other : NodePath) : Bool := other.isPrefixOf path

/-- Lexicographic order; a path comes before those below it. -/
def order : NodePath → NodePath → Ordering
  | [], [] => .eq
  | [], _ :: _ => .lt
  | _ :: _, [] => .gt
  | i :: rest, j :: others =>
    match compare i j with
    | .eq => order rest others
    | o => o

end NodePath

/-! ## Nodes -/

/-- What all nodes have: the declaration they stand for. -/
structure Site where
  name : String
  span : Span
  annotations : List Applied
  metadata : Table Json

structure ParameterNode where
  site : Site
  type : WireType
  position : Nat
  required : Bool
  default : Option Json
  doc : Option String

inductive MemberKind where
  | constructor
  | method (returnType : WireType) (doc : Option String)

structure MemberNode where
  kind : MemberKind
  site : Site
  parameters : List ParameterNode

/-- A class with handlers. -/
structure ClassNode where
  site : Site
  qualifiedName : String
  members : List MemberNode

namespace Site

open Annotation

def isAnnotated (s : Site) (name : String) : Bool := s.annotations.any (·.name == name)

def metadataText? (s : Site) (key : String) : Option String :=
  (s.metadata.get? key).bind Json.asString?

def provides (s : Site) : List String := s.annotations.flatMap Applied.provides

/-- The first binding of the declaration, with its annotation. -/
def binding? (s : Site) : Option (BindingKind × Applied) :=
  s.annotations.findSome? fun a => a.definition.binding?.map (·, a)

/-- The name of a parameter outside the program: the one that the metadata give, else the declared
one. -/
def bindingName (s : Site) : String := (s.metadataText? MetadataKey.name).getD s.name

/-- The verb under which the declaration is exposed: the one that the metadata give, else that of
the first route annotation. Without a route annotation there is none. -/
def verb? (s : Site) : Option Verb :=
  (s.annotations.findSome? fun a => a.definition.routeVerb?).map fun verb =>
    ((s.metadataText? MetadataKey.method).bind Verb.ofText?).getD verb

/-- The description: the one that the metadata give, else the documentation. -/
def description? (s : Site) (doc : Option String) : Option String :=
  (s.metadataText? MetadataKey.description).or doc

end Site

namespace MemberNode

def isMethod (m : MemberNode) : Bool :=
  match m.kind with
  | .constructor => false
  | .method _ _ => true

end MemberNode

namespace ClassNode

def methods (c : ClassNode) : List (MemberNode × Nat) := c.members.zipIdx.filter (·.1.isMethod)

def hasMethod (c : ClassNode) : Bool := c.members.any (·.isMethod)

def routeOf (c : ClassNode) (m : MemberNode) : String :=
  Route.join ((c.site.metadataText? Annotation.MetadataKey.basePath).getD "")
    ((m.site.metadataText? Annotation.MetadataKey.path).getD "")

end ClassNode

/-- The trees of a handler forest. -/
abbrev Forest := List ClassNode

namespace Forest

def member? (f : Forest) (i j : Nat) : Option MemberNode := f[i]?.bind (·.members[j]?)

def site? (f : Forest) : NodePath → Option Site
  | [i] => f[i]?.map (·.site)
  | [i, j] => (f.member? i j).map (·.site)
  | [i, j, k] => (f.member? i j).bind fun m => m.parameters[k]?.map (·.site)
  | _ => none

/-- All nodes with their paths, each after those below it. -/
def sites (f : Forest) : List (NodePath × Site) :=
  f.zipIdx.flatMap fun (c, i) =>
    (c.members.zipIdx.flatMap fun (m, j) =>
      (m.parameters.zipIdx.map fun (p, k) => ([i, j, k], p.site)) ++ [([i, j], m.site)]) ++
    [([i], c.site)]

theorem mem_sites {f : Forest} {p : NodePath} {s : Site} : (p, s) ∈ f.sites ↔ f.site? p = some s := by
  simp only [sites, List.mem_flatMap, List.mem_append, List.mem_map, List.mem_singleton, Prod.exists,
    List.mk_mem_zipIdx_iff_getElem?, Prod.mk.injEq]
  constructor
  · rintro ⟨c, i, hc, ⟨m, j, hm, ⟨q, k, hq, rfl, rfl⟩ | ⟨rfl, rfl⟩⟩ | ⟨rfl, rfl⟩⟩
    · simp [site?, member?, hc, hm, hq]
    · simp [site?, member?, hc, hm]
    · simp [site?, hc]
  · intro h
    match p with
    | [i] =>
      obtain ⟨c, hc, rfl⟩ := Option.map_eq_some_iff.mp h
      exact ⟨c, i, hc, .inr ⟨rfl, rfl⟩⟩
    | [i, j] =>
      obtain ⟨m, hm, rfl⟩ := Option.map_eq_some_iff.mp h
      obtain ⟨c, hc, hm⟩ := Option.bind_eq_some_iff.mp hm
      exact ⟨c, i, hc, .inl ⟨m, j, hm, .inr ⟨rfl, rfl⟩⟩⟩
    | [i, j, k] =>
      obtain ⟨m, hm, hs⟩ := Option.bind_eq_some_iff.mp h
      obtain ⟨c, hc, hm⟩ := Option.bind_eq_some_iff.mp hm
      obtain ⟨q, hq, rfl⟩ := Option.map_eq_some_iff.mp hs
      exact ⟨c, i, hc, .inl ⟨m, j, hm, .inl ⟨q, k, hq, rfl, rfl⟩⟩⟩

/-- How many classes and members the forest has. -/
def size (f : Forest) : Nat := f.foldr (fun c total => c.members.length + 1 + total) 0

end Forest

end AnnotatedApi
