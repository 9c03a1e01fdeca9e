import AnnotatedApi.Annotation.Definition
import AnnotatedApi.Json.Record

/-!
# Annotation definitions in documents

Definitions are read from documents and written back with every member present, except what an
argument specification leaves open. The role `marker` is a text; the other roles, and the targets of
dependencies, are objects with one member that names the case.
-/

namespace AnnotatedApi

set_option autoImplicit false

namespace Restriction

def ofJson? (v : Json) : Option Restriction :=
  v.asString?.bind fun text => (ofText text).toOption

end Restriction

namespace Annotation

def Target.ofJson? : Json.Latitude → Json → Option Target :=
  Json.choice? (Target.all.map fun t => (t.name, t))

def ArgumentType.ofJson? : Json.Latitude → Json → Option ArgumentType :=
  Json.choice? (ArgumentType.all.map fun t => (t.name, t))

def Validator.ofJson? : Json.Latitude → Json → Option Validator :=
  Json.choice? (Validator.all.map fun v => (v.name, v))

def Scope.ofJson? : Json.Latitude → Json → Option Scope :=
  Json.choice? [("enclosing", .enclosing), ("parent", .enclosing), ("peer", .peer)]

def Resolution.ofJson? : Json.Latitude → Json → Option Resolution :=
  Json.choice? [("full", .full), ("opaque", .nameOnly)]

namespace DependencyTarget

def ofJson? : Json → Option DependencyTarget
  | .object [("annotation", v)] => v.asString?.map annotated
  | .object [("provider", v)] => v.asString?.map provider
  | .object [("provider-argument", v)] => v.asNat?.map providerArgument
  | .object [("declaration-argument", v)] => v.asNat?.map declarationArgument
  | _ => none

def toJson : DependencyTarget → Json
  | annotated name => .object [("annotation", .string name)]
  | provider tag => .object [("provider", .string tag)]
  | providerArgument position => .object [("provider-argument", .ofNat position)]
  | declarationArgument position => .object [("declaration-argument", .ofNat position)]

end DependencyTarget

namespace Dependency

def ofJson? (latitude : Json.Latitude) (v : Json) : Option Dependency := do
  let fields ← v.record? latitude ["target", "scope"]
  return {
    target := ← fields.needed "target" DependencyTarget.ofJson?
    scope := ← fields.orElse "scope" .enclosing (Scope.ofJson? latitude) }

def toJson (d : Dependency) : Json :=
  .object [("target", d.target.toJson), ("scope", .string d.scope.name)]

end Dependency

namespace Role

def ofJson? (latitude : Json.Latitude) : Json → Option Role
  | .object [("route", v)] => (Verb.ofJson? latitude v).map route
  | .object [("binding", v)] => (BindingKind.ofJson? latitude v).map binding
  | v => Json.choice? [("marker", marker)] latitude v

def toJson : Role → Json
  | route verb => .object [("route", verb.toJson)]
  | binding kind => .object [("binding", kind.toJson)]
  | marker => .string "marker"

end Role

namespace ArgumentSpec

def ofJson? (latitude : Json.Latitude) (v : Json) : Option ArgumentSpec := do
  let fields ← v.record? latitude
    ["name", "type", "optional", "validator", "metadata", "default"]
  return {
    name := ← fields.needed "name" Json.asString?
    type := ← fields.orElse "type" .any (ArgumentType.ofJson? latitude)
    optional := ← fields.orElse "optional" false Json.asBool?
    validator := ← fields.optional "validator" (Validator.ofJson? latitude)
    metadata := ← fields.optional "metadata" Json.asString?
    default := ← fields.optional "default" Json.anything? }

def toJson (spec : ArgumentSpec) : Json :=
  .object <|
    Json.member "name" (.string spec.name) ++
    Json.member "type" (.string spec.type.name) ++
    Json.member "optional" (.bool spec.optional) ++
    Json.memberIfSome "validator" (spec.validator.map fun v => .string v.name) ++
    Json.memberIfSome "metadata" (spec.metadata.map .string) ++
    Json.memberIfSome "default" spec.default

end ArgumentSpec

namespace Definition

def ofJson? (latitude : Json.Latitude) (v : Json) : Option Definition := do
  let fields ← v.record? latitude
    ["name", "targets", "role", "arguments", "dependencies", "provides", "provides_argument",
      "restrictions", "resolution", "repeatable"]
  return {
    name := ← fields.needed "name" Json.asString?
    targets := ← fields.needed "targets" (Json.list? (Target.ofJson? latitude))
    role := ← fields.orElse "role" .marker (Role.ofJson? latitude)
    arguments := ← fields.orElse "arguments" [] (Json.list? (ArgumentSpec.ofJson? latitude))
    dependencies := ← fields.orElse "dependencies" [] (Json.list? (Dependency.ofJson? latitude))
    provides := ← fields.orElse "provides" [] (Json.list? Json.asString?)
    providesArgument := ← fields.optional "provides_argument" Json.asNat?
    restrictions := ← fields.orElse "restrictions" [] (Json.list? Restriction.ofJson?)
    resolution := ← fields.orElse "resolution" .full (Resolution.ofJson? latitude)
    repeatable := ← fields.orElse "repeatable" false Json.asBool? }

def toJson (d : Definition) : Json :=
  .object [
    ("name", .string d.name),
    ("targets", .ofStrings (d.targets.map Target.name)),
    ("role", d.role.toJson),
    ("arguments", .array (d.arguments.map ArgumentSpec.toJson)),
    ("dependencies", .array (d.dependencies.map Dependency.toJson)),
    ("provides", .ofStrings d.provides),
    ("provides_argument",
      match d.providesArgument with
      | some position => .ofNat position
      | none => .null),
    ("restrictions", .ofStrings (d.restrictions.map Restriction.display)),
    ("resolution", .string d.resolution.name),
    ("repeatable", .bool d.repeatable)]

end Definition

end Annotation

end AnnotatedApi
