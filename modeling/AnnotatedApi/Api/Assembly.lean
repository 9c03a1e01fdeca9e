import AnnotatedApi.Api.Manifest
import AnnotatedApi.Handlers.Link

/-!
# From the linked forest to operations

Every method of the forest is a candidate for an operation. Verb and route key identify an
operation, so candidates that share them are all left out and reported. The others are grouped by
route; in a group the operation for any verb comes last.
-/

namespace AnnotatedApi.Api

set_option autoImplicit false

/-! ## Candidates -/

def parameterOf? (l : LinkedForest) (p : ParameterNode) (path : NodePath) : Option Parameter :=
  p.site.binding?.map fun (kind, _) =>
    { name := p.site.bindingName
      declaredName := p.site.name
      position := p.position
      kind := kind
      type := p.type
      required := p.required
      default := p.default
      validator := p.site.metadataText? Annotation.MetadataKey.validator
      dependsOn := (l.linksFrom path).filterMap fun link =>
        match link.requirement with
        | .declaration _ => (l.forest.site? link.target).map (·.name)
        | _ => none
      description := p.site.description? p.doc }

def addNew (texts : List String) (text : String) : List String :=
  if texts.contains text then texts else texts ++ [text]

/-- The tags that the nodes at or below a path need, each once. -/
def providersOf (l : LinkedForest) (path : NodePath) : List String :=
  (l.linksWithin path).foldl
    (fun tags link =>
      match link.requirement with
      | .provider tag => addNew tags tag
      | _ => tags)
    []

/-- The operation of a member of a class: of a method with a route annotation. -/
def operationOf? (l : LinkedForest) (c : ClassNode) (m : MemberNode) (path : NodePath) :
    Option Operation :=
  match m.kind with
  | .constructor => none
  | .method returnType doc =>
    m.site.verb?.map fun verb =>
      let route := c.routeOf m
      { verb := verb
        route := route
        routeKey := Route.key route
        handler := ⟨c.site.name, c.qualifiedName, m.site.name⟩
        returnType := returnType
        isAsync := returnType.isPromise
        parameters := m.parameters.zipIdx.filterMap fun (p, k) => parameterOf? l p (path ++ [k])
        providers := providersOf l path
        status := (m.site.metadata.get? Annotation.MetadataKey.status).bind statusOf?
        description := m.site.description? doc
        location := m.site.span }

/-- The operations of all methods, in the order of the forest. -/
def candidates (l : LinkedForest) : List Operation :=
  l.forest.zipIdx.flatMap fun (c, i) =>
    c.methods.filterMap fun (m, j) => operationOf? l c m [i, j]

/-! ## Clashes -/

def Operation.sameClaim (o other : Operation) : Bool :=
  o.verb == other.verb && o.routeKey == other.routeKey

/-- A candidate whose verb and route an earlier one has claimed: the indices of both. -/
structure Clash where
  first : Nat
  again : Nat
deriving DecidableEq, Repr

def clashes (candidates : List Operation) : List Clash :=
  candidates.zipIdx.filterMap fun (o, i) =>
    match candidates.findIdx? o.sameClaim with
    | some first => if first < i then some ⟨first, i⟩ else none
    | none => none

def clashDiagnostic (o first : Operation) : Diagnostic :=
  (Diagnostic.error .duplicateRoute
    (o.verb.name ++ " " ++ o.route ++ " is handled by both `" ++ first.handler.display ++
      "` and `" ++ o.handler.display ++ "`") o.location).withRelated
    first.location ("`" ++ first.handler.display ++ "` declared here")

def clashDiagnostics (candidates : List Operation) : List Diagnostic :=
  (clashes candidates).filterMap fun clash =>
    match candidates[clash.again]?, candidates[clash.first]? with
    | some o, some first => some (clashDiagnostic o first)
    | _, _ => none

/-- The candidates that take part in no clash. -/
def published (candidates : List Operation) : List Operation :=
  (candidates.zipIdx.filter fun (_, i) =>
    !(clashes candidates).any fun clash => clash.first == i || clash.again == i).map (·.1)

/-! ## Groups -/

/-- Adds an operation to the group of its route, which is new if there is none. -/
def addToGroup (o : Operation) (index : Nat) : List RouteGroup → List RouteGroup
  | [] => [⟨o.routeKey, o.route, [(o.verb, index)]⟩]
  | g :: rest =>
    if g.routeKey = o.routeKey then { g with entries := g.entries ++ [(o.verb, index)] } :: rest
    else g :: addToGroup o index rest

/-- The group with the operation for any verb at the end. -/
def RouteGroup.withFallbackLast (g : RouteGroup) : RouteGroup :=
  { g with entries := g.entries.filter (·.1 != .any) ++ g.entries.filter (·.1 == .any) }

/-- The operations grouped by route key, in the order of the first operation of each group. -/
def groupRoutes (operations : List Operation) : List RouteGroup :=
  (operations.zipIdx.foldl (fun groups (o, i) => addToGroup o i groups) []).map
    RouteGroup.withFallbackLast

/-! ## Assembly -/

structure Assembled where
  operations : List Operation
  routes : List RouteGroup
  diagnostics : List Diagnostic

def assemble (l : LinkedForest) : Assembled :=
  let all := candidates l
  let operations := published all
  ⟨operations, groupRoutes operations, clashDiagnostics all⟩

end AnnotatedApi.Api
