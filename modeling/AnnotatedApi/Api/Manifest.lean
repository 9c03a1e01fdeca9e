import AnnotatedApi.Compilation.Document
import AnnotatedApi.Http.Binding
import AnnotatedApi.Http.Verb
import AnnotatedApi.WireType.Document

/-!
# The API manifest

What an extraction is for: the operations that the handlers offer, and for every route the
operations that share it.
-/

namespace AnnotatedApi.Api

set_option autoImplicit false

structure Parameter where
  /-- The name outside the program: query key, header name, path token or injection token. -/
  name : String
  declaredName : String
  position : Nat
  kind : BindingKind
  type : WireType
  required : Bool
  default : Option Json
  validator : Option String
  /-- The parameters that this one makes sense with only. -/
  dependsOn : List String
  description : Option String

structure Handler where
  className : String
  qualifiedClass : String
  method : String
deriving DecidableEq, Repr

def Handler.display (h : Handler) : String := h.className ++ "." ++ h.method

structure Operation where
  verb : Verb
  route : String
  /-- The route without the names of its tokens. -/
  routeKey : String
  handler : Handler
  returnType : WireType
  isAsync : Bool
  parameters : List Parameter
  /-- The tags that the handler needs from its class. -/
  providers : List String
  status : Option Nat
  description : Option String
  location : Span

/-- The operations of one route: verbs and indices of operations. -/
structure RouteGroup where
  routeKey : String
  route : String
  entries : List (Verb × Nat)

/-- Whether some operation answers every verb that the others do not. -/
def RouteGroup.hasFallback (g : RouteGroup) : Bool := g.entries.any (·.1 == .any)

structure Manifest where
  version : String
  project : Option String
  operations : List Operation
  routes : List RouteGroup

def currentVersion : String := "1"

/-! ## Documents -/

def Parameter.toJson (p : Parameter) : Json :=
  .object <|
    Json.member "name" (.string p.name) ++
    Json.member "parameter" (.string p.declaredName) ++
    Json.member "position" (.ofNat p.position) ++
    Json.member "kind" p.kind.toJson ++
    Json.member "type" p.type.toJson ++
    Json.member "required" (.bool p.required) ++
    Json.memberIfSome "default" p.default ++
    Json.memberIfSome "validator" (p.validator.map .string) ++
    Json.memberIfAny "depends_on" (p.dependsOn.map .string) ++
    Json.memberIfSome "description" (p.description.map .string)

def Parameter.ofJson? (v : Json) : Option Parameter := do
  let fields ← v.record? .plain
    ["name", "parameter", "position", "kind", "type", "required", "default", "validator",
      "depends_on", "description"]
  return {
    name := ← fields.needed "name" Json.asString?
    declaredName := ← fields.needed "parameter" Json.asString?
    position := ← fields.needed "position" Json.asNat?
    kind := ← fields.needed "kind" (BindingKind.ofJson? .plain)
    type := ← fields.needed "type" WireType.ofJson?
    required := ← fields.needed "required" Json.asBool?
    default := ← fields.optional "default" Json.anything?
    validator := ← fields.optional "validator" Json.asString?
    dependsOn := ← fields.orElse "depends_on" [] (Json.list? Json.asString?)
    description := ← fields.optional "description" Json.asString? }

def Handler.toJson (h : Handler) : Json :=
  .object [("class", .string h.className), ("qualified_class", .string h.qualifiedClass),
    ("method", .string h.method)]

def Handler.ofJson? (v : Json) : Option Handler := do
  let fields ← v.record? .plain ["class", "qualified_class", "method"]
  return {
    className := ← fields.needed "class" Json.asString?
    qualifiedClass := ← fields.needed "qualified_class" Json.asString?
    method := ← fields.needed "method" Json.asString? }

/-- A status code of 16 bits. -/
def statusOf? (v : Json) : Option Nat := v.asNat?.filter (· < Nat.pow 2 16)

def Operation.toJson (o : Operation) : Json :=
  .object <|
    Json.member "verb" o.verb.toJson ++
    Json.member "route" (.string o.route) ++
    Json.member "route_key" (.string o.routeKey) ++
    Json.member "handler" o.handler.toJson ++
    Json.member "return_type" o.returnType.toJson ++
    Json.member "is_async" (.bool o.isAsync) ++
    Json.member "parameters" (.array (o.parameters.map Parameter.toJson)) ++
    Json.memberIfAny "providers" (o.providers.map .string) ++
    Json.memberIfSome "status" (o.status.map .ofNat) ++
    Json.memberIfSome "description" (o.description.map .string) ++
    Json.member "location" o.location.toJson

def Operation.ofJson? (v : Json) : Option Operation := do
  let fields ← v.record? .plain
    ["verb", "route", "route_key", "handler", "return_type", "is_async", "parameters",
      "providers", "status", "description", "location"]
  return {
    verb := ← fields.needed "verb" (Verb.ofJson? .plain)
    route := ← fields.needed "route" Json.asString?
    routeKey := ← fields.needed "route_key" Json.asString?
    handler := ← fields.needed "handler" Handler.ofJson?
    returnType := ← fields.needed "return_type" WireType.ofJson?
    isAsync := ← fields.needed "is_async" Json.asBool?
    parameters := ← fields.needed "parameters" (Json.list? Parameter.ofJson?)
    providers := ← fields.orElse "providers" [] (Json.list? Json.asString?)
    status := ← fields.optional "status" statusOf?
    description := ← fields.optional "description" Json.asString?
    location := ← fields.needed "location" Span.ofJson? }

def RouteGroup.toJson (g : RouteGroup) : Json :=
  .object [
    ("route_key", .string g.routeKey),
    ("route", .string g.route),
    ("verbs", .array (g.entries.map (·.1.toJson))),
    ("definitions", .array (g.entries.map fun e => .ofNat e.2))]

def RouteGroup.ofJson? (v : Json) : Option RouteGroup := do
  let fields ← v.record? .plain ["route_key", "route", "verbs", "definitions"]
  let routeKey ← fields.needed "route_key" Json.asString?
  let route ← fields.needed "route" Json.asString?
  let verbs ← fields.needed "verbs" (Json.list? (Verb.ofJson? .plain))
  let operations ← fields.needed "definitions" (Json.list? Json.asNat?)
  if verbs.length = operations.length then return ⟨routeKey, route, verbs.zip operations⟩
  else none

def Manifest.toJson (m : Manifest) : Json :=
  .object <|
    Json.member "version" (.string m.version) ++
    Json.memberIfSome "project" (m.project.map .string) ++
    Json.member "definitions" (.array (m.operations.map Operation.toJson)) ++
    Json.member "routes" (.array (m.routes.map RouteGroup.toJson))

def Manifest.ofJson? (v : Json) : Option Manifest := do
  let fields ← v.record? .plain ["version", "project", "definitions", "routes"]
  return {
    version := ← fields.needed "version" Json.asString?
    project := ← fields.optional "project" Json.asString?
    operations := ← fields.needed "definitions" (Json.list? Operation.ofJson?)
    routes := ← fields.needed "routes" (Json.list? RouteGroup.ofJson?) }

end AnnotatedApi.Api
