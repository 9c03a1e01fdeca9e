import AnnotatedApi.Annotation.Catalog
import AnnotatedApi.Diagnostic
import AnnotatedApi.Handlers.Node
import AnnotatedApi.Resolve.Resolver

/-!
# From classes to the handler forest

Every class with a route method becomes a tree of the forest, with the annotations that the catalog
recognizes and the types resolved. Whatever is wrong with a parameter costs its method, and what is
wrong with a class or a parameter of its constructor costs the class; every such loss is reported.

Each step yields a verdict: the node or nothing, and what there is to report. Annotations with names
that the catalog does not have are passed over.
-/

namespace AnnotatedApi

set_option autoImplicit false

/-- A result that may be withheld, with what there is to say about it. -/
structure Verdict (α : Type) where
  value : Option α
  diagnostics : List Diagnostic

/-- Why a walk cannot go on. Nothing of it is kept then. -/
inductive Abort where
  | invariant (site : String) (fault : Resolve.InvariantFault)
  | exhausted (site : String)
deriving DecidableEq, Repr

def Abort.message : Abort → String
  | invariant site fault => "type resolution failed internally at " ++ site ++ ": " ++ fault.message
  | exhausted site =>
    "type resolution failed internally at " ++ site ++ ": " ++ Resolve.Failure.exhausted.message

/-- A walk under way, which uses up and fills the memory of a resolver. -/
abbrev Walking := EStateM Abort Resolver

namespace Walk

open Annotation (Catalog Target Use)

variable (catalog : Catalog) (depth : Nat)

/-! ## Annotations -/

/-- What is wrong with a recognized annotation on a declaration where annotations with the names in
`seen` stand before it. -/
def useFault? (target : Target) (seen : List String) (d : Annotation.Definition) (use : Use) :
    Option Diagnostic :=
  if !d.appliesTo target then
    some <| (Diagnostic.error .misplaced
        ("@" ++ use.name ++ " cannot be applied to a " ++ target.display) use.span).withSuggestion
      ("@" ++ use.name ++ " applies to: " ++
        String.intercalate ", " (d.targets.map Target.display))
  else if seen.contains use.name && !d.repeatable then
    some <| Diagnostic.error .conflictingBinding
      ("@" ++ use.name ++ " may only appear once on a declaration") use.span
  else
    match d.mismatches use.arguments with
    | [] => none
    | mismatches =>
      some <| Diagnostic.error .argumentShape
        (d.mismatchMessage mismatches) use.span

/-- The recognized annotations that are in order, and the faults of the others. -/
def sortUses (target : Target) (seen : List String) :
    List Use → List Applied × List Diagnostic
  | [] => ([], [])
  | use :: rest =>
    match catalog.lookup use.name with
    | none => sortUses target seen rest
    | some d =>
      let seenNext := if d.appliesTo target then use.name :: seen else seen
      let (applied, faults) := sortUses target seenNext rest
      match useFault? target seen d use with
      | some fault => (applied, fault :: faults)
      | none => (⟨d, use.arguments, use.span⟩ :: applied, faults)

/-- The annotations of a declaration; a single fault makes all of them invalid. -/
def applyUses (target : Target) (uses : List Use) : Verdict (List Applied) :=
  let (applied, faults) := sortUses catalog target [] uses
  ⟨if faults.isEmpty then some applied else none, faults⟩

/-! ## Types -/

def resolveAt (site : String) (t : TypeExpr) : Walking (Except Resolve.Unsupported WireType) :=
  fun resolver =>
    match resolver.resolve depth t (.ofOrigin site) with
    | (.ok w, _, resolver) => .ok (.ok w) resolver
    | (.error (.unsupported cause), _, resolver) => .ok (.error cause) resolver
    | (.error (.invariant fault), _, resolver) => .error (.invariant site fault) resolver
    | (.error .exhausted, _, resolver) => .error (.exhausted site) resolver

/-! ## Parameters -/

def theBinding (owner : String) (p : ParameterDecl) (annotations : List Applied) :
    Except Diagnostic Applied :=
  match annotations.filter (·.definition.binding?.isSome) with
  | [binding] => .ok binding
  | [] =>
    .error <| (Diagnostic.error .missingBinding
        ("parameter `" ++ p.name ++ "` of `" ++ owner ++ "` has no binding annotation")
        p.span).withSuggestion
      "bind it with @Query, @Path, @Header, @Body, or @Inject"
  | first :: second :: _ =>
    .error <| (Diagnostic.error .conflictingBinding
        ("parameter `" ++ p.name ++ "` of `" ++ owner ++ "` is bound by both @" ++ first.name ++
          " and @" ++ second.name) second.span).withRelated first.span "first binding"

def typeFault? (owner : String) (p : ParameterDecl) (binding : Applied) (t : WireType) :
    Option Diagnostic :=
  let restrictions := binding.definition.restrictions
  if permits restrictions t then none
  else
    some <| (Diagnostic.error .typeRestriction
        ("parameter `" ++ p.name ++ "` of `" ++ owner ++ "` has type `" ++ t.display ++
          "`, which @" ++ binding.name ++ " does not accept") p.span).withSuggestion
      ("use one of: " ++ String.intercalate ", " (restrictions.map Restriction.display))

def parameterType (owner : String) (p : ParameterDecl) (binding : Applied) (t : TypeExpr) :
    Walking (Except Diagnostic WireType) := do
  match binding.definition.resolution with
  | .nameOnly => return .ok (Resolver.nameOnly t)
  | .full =>
    match ← resolveAt depth (owner ++ "(" ++ p.name ++ ")") t with
    | .ok w => return .ok w
    | .error cause =>
      return .error <| Diagnostic.error .unsupportedType
        ("cannot resolve type of parameter `" ++ p.name ++ "` of `" ++ owner ++ "`: " ++
          cause.message) p.span

def parameter (owner : String) (position : Nat) (p : ParameterDecl) (target : Target) :
    Walking (Verdict ParameterNode) := do
  let ⟨applied, faults⟩ := applyUses catalog target p.annotations
  match applied with
  | none => return ⟨none, faults⟩
  | some annotations =>
    match theBinding owner p annotations with
    | .error fault => return ⟨none, [fault]⟩
    | .ok binding =>
      let (t, undefined) := (p.type.getD (.keyword "any")).stripUndefined
      match ← parameterType depth owner p binding t with
      | .error fault => return ⟨none, [fault]⟩
      | .ok w =>
        match typeFault? owner p binding w with
        | some fault => return ⟨none, [fault]⟩
        | none =>
          return {
            value := some {
              site := ⟨p.name, p.span, annotations, Applied.metadataOf annotations⟩
              type := w
              position := position
              required := !(p.optional || p.default.isSome || undefined)
              default := p.default
              doc := p.doc }
            diagnostics := [] }

/-- The nodes of some parameters with their positions, and whether all of them have one. -/
def parameters (owner : String) (target : Target) (ps : List (ParameterDecl × Nat)) :
    Walking (Verdict (List ParameterNode)) := do
  let verdicts ← ps.mapM fun (p, position) => parameter catalog depth owner position p target
  return ⟨verdicts.mapM (·.value), verdicts.flatMap (·.diagnostics)⟩

/-! ## Methods -/

def hasRoute (m : MethodDecl) : Bool :=
  m.annotations.any fun use => (catalog.lookup use.name).any (·.routeVerb?.isSome)

def routeFault? (handler : String) (annotations : List Applied) : Option Diagnostic :=
  let routes := annotations.filter (·.definition.routeVerb?.isSome)
  match routes with
  | first :: second :: _ =>
    some <| (Diagnostic.error .conflictingBinding
        ("method `" ++ handler ++ "` has more than one route annotation (" ++
          String.intercalate ", " (routes.map fun a => "@" ++ a.name) ++ ")")
        second.span).withRelated first.span "first route annotation"
  | _ => none

def bindsBody (p : ParameterNode) : Bool := p.site.binding?.any (·.1 == .body)

def bodyFault? (handler : String) (ps : List ParameterNode) : Option Diagnostic :=
  match ps.filter bindsBody with
  | first :: second :: _ =>
    some <| (Diagnostic.error .conflictingBinding
        ("method `" ++ handler ++ "` binds the request body to both `" ++ first.site.name ++
          "` and `" ++ second.site.name ++ "`")
        second.site.span).withRelated first.site.span "body already bound here"
  | _ => none

/-- The return type of a method; a method without one returns nothing. -/
def returnType (handler : String) (m : MethodDecl) : Walking (Except Diagnostic WireType) := do
  match ← resolveAt depth (handler ++ "(return)") (m.returnType.getD (.keyword "void")) with
  | .ok w => return .ok w
  | .error cause =>
    return .error <| Diagnostic.error .unsupportedType
      ("cannot resolve return type of `" ++ handler ++ "`: " ++ cause.message) m.span

/-- The parameters of a method that have a node, and all there is to report about the others. -/
def methodParameters (handler : String) (m : MethodDecl) :
    Walking (List (Verdict ParameterNode)) :=
  m.parameters.zipIdx.mapM fun (p, position) =>
    parameter catalog depth handler position p .parameter

/-- The node of a method. Everything is checked, whatever has gone wrong already. -/
def method (c : ClassDecl) (m : MethodDecl) : Walking (Verdict MemberNode) := do
  let handler := c.name ++ "." ++ m.name
  let ⟨applied, annotationFaults⟩ := applyUses catalog .method m.annotations
  let annotations := applied.getD []
  let routeFaults := (routeFault? handler annotations).toList
  let returned ← returnType depth handler m
  let verdicts ← methodParameters catalog depth handler m
  let kept := verdicts.filterMap (·.value)
  let returnFaults := match returned with
    | .ok _ => []
    | .error fault => [fault]
  let faults := annotationFaults ++ routeFaults ++ returnFaults ++
    verdicts.flatMap (·.diagnostics) ++ (bodyFault? handler kept).toList
  match returned with
  | .ok w =>
    if faults.isEmpty then
      return {
        value := some {
          kind := .method w m.doc
          site := ⟨m.name, m.span, annotations, Applied.metadataOf annotations⟩
          parameters := kept }
        diagnostics := [] }
    else return ⟨none, faults⟩
  | .error _ => return ⟨none, faults⟩

/-! ## Classes -/

/-- The node of a constructor, if it has parameters with annotations; the others are left to the
program. -/
def constructor (c : ClassDecl) : Walking (Verdict (Option MemberNode)) := do
  match c.constructor with
  | none => return ⟨some none, []⟩
  | some k =>
    let annotated := k.parameters.zipIdx.filter (!·.1.annotations.isEmpty)
    let ⟨nodes, faults⟩ ←
      parameters catalog depth (c.name ++ ".constructor") .constructorParameter annotated
    match nodes with
    | none => return ⟨none, faults⟩
    | some [] => return ⟨some none, faults⟩
    | some nodes =>
      return ⟨some (some ⟨.constructor, ⟨"constructor", k.span, [], []⟩, nodes⟩), faults⟩

def members (c : ClassDecl) (routed : List MethodDecl) (annotations : List Applied) :
    Walking (Verdict ClassNode) := do
  let ⟨built, constructorFaults⟩ ← constructor catalog depth c
  match built with
  | none => return ⟨none, constructorFaults⟩
  | some built =>
    let verdicts ← routed.mapM (method catalog depth c)
    let methods := verdicts.filterMap (·.value)
    let faults := constructorFaults ++ verdicts.flatMap (·.diagnostics)
    if methods.isEmpty then return ⟨none, faults⟩
    else
      return {
        value := some {
          site := ⟨c.name, c.span, annotations, Applied.metadataOf annotations⟩
          qualifiedName := c.qualifiedName
          members := built.toList ++ methods }
        diagnostics := faults }

/-- The tree of a class. A class without route methods has none and is not looked at. -/
def classTree (c : ClassDecl) : Walking (Verdict ClassNode) := do
  let routed := c.methods.filter (hasRoute catalog)
  if routed.isEmpty then return ⟨none, []⟩
  else
    let ⟨applied, faults⟩ := applyUses catalog .classDeclaration c.annotations
    match applied with
    | none => return ⟨none, faults⟩
    | some annotations => members catalog depth c routed annotations

def forest (classes : List ClassDecl) : Walking (Forest × List Diagnostic) := do
  let verdicts ← classes.mapM (classTree catalog depth)
  return (verdicts.filterMap (·.value), verdicts.flatMap (·.diagnostics))

end Walk

end AnnotatedApi
