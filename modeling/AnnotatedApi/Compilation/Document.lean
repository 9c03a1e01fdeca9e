import AnnotatedApi.Compilation.Declaration
import AnnotatedApi.Json.Reader
import AnnotatedApi.Json.Record

/-!
# Compilations in documents

The host writes a compilation as a document of records. Members that have a value when they are
left out are written back with that value, except absent options and some empty lists, which are
left out again.
-/

namespace AnnotatedApi

set_option autoImplicit false

def kindRecord (kind : String) (members : List (String × Json)) : Json :=
  .object (("kind", .string kind) :: members)

/-! ## Type expressions -/

namespace FieldDecl

variable {α : Type}

def record (f : FieldDecl α) (type : Json) : Json :=
  .object <|
    Json.member "name" (.string f.name) ++ Json.member "type" type ++
    Json.member "optional" (.bool f.optional) ++
    Json.memberIfSome "default" f.default ++
    Json.memberIfSome "description" (f.description.map .string) ++
    Json.member "span" f.span.toJson

def ofJson? (read : Json → Option α) (v : Json) : Option (FieldDecl α) := do
  let fields ← v.record? .plain ["name", "type", "optional", "default", "description", "span"]
  return {
    name := ← fields.needed "name" Json.asString?
    type := ← fields.needed "type" read
    optional := ← fields.orElse "optional" false Json.asBool?
    default := ← fields.optional "default" Json.anything?
    description := ← fields.optional "description" Json.asString?
    span := ← fields.orElse "span" .nowhere Span.ofJson? }

end FieldDecl

namespace TypeExpr

mutual

def toJson : TypeExpr → Json
  | keyword name => kindRecord "keyword" [("name", .string name)]
  | literal value => kindRecord "literal" [("value", value)]
  | array e => kindRecord "array" [("element", toJson e)]
  | tuple elements => kindRecord "tuple" [("elements", .array (toJsonList elements))]
  | union members => kindRecord "union" [("members", .array (toJsonList members))]
  | intersection members => kindRecord "intersection" [("members", .array (toJsonList members))]
  | reference name arguments =>
    kindRecord "reference" <|
      Json.member "name" (.string name) ++
      Json.memberIfAny "type_arguments" (toJsonList arguments)
  | parameter name => kindRecord "type-parameter" [("name", .string name)]
  | object fields => kindRecord "object" [("fields", .array (toJsonFields fields))]
  | function parameters result =>
    kindRecord "function"
      [("params", .array (toJsonList parameters)), ("return_type", toJson result)]

def toJsonList : List TypeExpr → List Json
  | [] => []
  | t :: rest => toJson t :: toJsonList rest

def toJsonFields : List (FieldDecl TypeExpr) → List Json
  | [] => []
  | ⟨name, t, optional, default, description, span⟩ :: rest =>
    FieldDecl.record ⟨name, t, optional, default, description, span⟩ (toJson t) ::
      toJsonFields rest

end

theorem toJson_ne_null (t : TypeExpr) : t.toJson ≠ .null := by
  cases t <;> simp [toJson, kindRecord]

theorem toJsonList_eq_map (ts : List TypeExpr) : toJsonList ts = ts.map toJson := by
  induction ts with
  | nil => rfl
  | cons t ts ih => rw [toJsonList, ih, List.map_cons]

theorem toJsonFields_eq_map (fs : List (FieldDecl TypeExpr)) :
    toJsonFields fs = fs.map fun f => f.record f.type.toJson := by
  induction fs with
  | nil => rfl
  | cons f fs ih => rw [toJsonFields, ih, List.map_cons]

/-- The names of the kinds, in the order of their numbers. -/
def kinds : List String :=
  ["keyword", "literal", "array", "tuple", "union", "intersection", "reference", "type-parameter",
    "object", "function"]

def readWith (latitude : Json.Latitude) (read : Json → Option TypeExpr) (v : Json) :
    Option TypeExpr := do
  let (kind, rest) ← v.kindAndRest? latitude kinds
  match kind with
  | "keyword" =>
    let fields ← rest.record? .plain ["name"]
    return keyword (← fields.needed "name" Json.asString?)
  | "literal" =>
    let fields ← rest.record? .plain ["value"]
    return literal (← fields.needed "value" Json.anything?)
  | "array" =>
    let fields ← rest.record? .plain ["element"]
    return array (← fields.needed "element" read)
  | "tuple" =>
    let fields ← rest.record? .plain ["elements"]
    return tuple (← fields.needed "elements" (Json.list? read))
  | "union" =>
    let fields ← rest.record? .plain ["members"]
    return union (← fields.needed "members" (Json.list? read))
  | "intersection" =>
    let fields ← rest.record? .plain ["members"]
    return intersection (← fields.needed "members" (Json.list? read))
  | "reference" =>
    let fields ← rest.record? .plain ["name", "type_arguments"]
    return reference (← fields.needed "name" Json.asString?)
      (← fields.orElse "type_arguments" [] (Json.list? read))
  | "type-parameter" =>
    let fields ← rest.record? .plain ["name"]
    return parameter (← fields.needed "name" Json.asString?)
  | "object" =>
    let fields ← rest.record? .plain ["fields"]
    return object (← fields.needed "fields" (Json.list? (FieldDecl.ofJson? read)))
  | "function" =>
    let fields ← rest.record? .plain ["params", "return_type"]
    return function (← fields.orElse "params" [] (Json.list? read))
      (← fields.needed "return_type" read)
  | _ => none

/-- Reads a type that is nested less deeply than the given depth. The types inside it stand inside a
record that has a kind. -/
def readWithin : Nat → Json.Latitude → Json → Option TypeExpr
  | 0, _, _ => none
  | depth + 1, latitude, v => readWith latitude (readWithin depth .nested) v

def ofNestedJson? (v : Json) : Option TypeExpr := readWithin (v.depth + 1) .nested v

def ofJson? (v : Json) : Option TypeExpr := readWithin (v.depth + 1) .plain v

end TypeExpr

/-! ## Type declarations -/

namespace TypeParameter

def toJson (p : TypeParameter) : Json :=
  .object <|
    Json.member "name" (.string p.name) ++
    Json.memberIfSome "default" (p.default.map TypeExpr.toJson)

/-- What of a type parameter in a document is used. -/
def shape : Json.Shape :=
  .record [("name", .whole), ("default", .whole)]

def ofJson? (v : Json) : Option TypeParameter := do
  let fields ← v.record? .plain shape.names
  return {
    name := ← fields.needed "name" Json.asString?
    default := ← fields.optional "default" TypeExpr.ofJson? }

end TypeParameter

namespace EnumMember

def toJson (m : EnumMember) : Json := .object [("name", .string m.name), ("value", m.value)]

def ofJson? (v : Json) : Option EnumMember := do
  let fields ← v.record? .plain ["name", "value"]
  return {
    name := ← fields.needed "name" Json.asString?
    value := ← fields.needed "value" Json.anything? }

end EnumMember

namespace TypeBody

/-- The kind and the members of a declaration that depend on it. -/
def members : TypeBody → List (String × Json)
  | interface bases fields =>
    Json.member "kind" (.string "interface") ++
    Json.memberIfAny "extends" (TypeExpr.toJsonList bases) ++
    Json.member "fields" (.array (TypeExpr.toJsonFields fields))
  | synonym target => [("kind", .string "alias"), ("target", target.toJson)]
  | enumeration members =>
    [("kind", .string "enum"), ("members", .array (members.map EnumMember.toJson))]

def kinds : List String := ["interface", "alias", "enum"]

def ofMembers? (kind : String) (members : List (String × Json)) : Option TypeBody :=
  match kind with
  | "interface" => do
    let fields ← Json.knownMembers? ["extends", "fields"] members
    return interface (← fields.orElse "extends" [] (Json.list? TypeExpr.ofNestedJson?))
      (← fields.orElse "fields" [] (Json.list? (FieldDecl.ofJson? TypeExpr.ofNestedJson?)))
  | "alias" => do
    let fields ← Json.knownMembers? ["target"] members
    return synonym (← fields.needed "target" TypeExpr.ofNestedJson?)
  | "enum" => do
    let fields ← Json.knownMembers? ["members"] members
    return enumeration (← fields.needed "members" (Json.list? EnumMember.ofJson?))
  | _ => none

end TypeBody

namespace TypeDecl

def toJson (d : TypeDecl) : Json :=
  .object <|
    Json.member "name" (.string d.name) ++
    Json.member "qualified_name" (.string d.qualifiedName) ++
    Json.memberIfAny "type_parameters" (d.parameters.map TypeParameter.toJson) ++
    d.body.members ++
    Json.member "span" d.span.toJson

/-- What of a declaration in a document is used. Which members the kind knows is not known before
all are read. -/
def shape : Json.Shape :=
  .extended [("name", .whole), ("qualified_name", .whole),
    ("type_parameters", .list TypeParameter.shape), ("span", Span.shape), ("kind", .whole)]

/-- Reads a declaration, which is always written as an object. What depends on its kind, and the
kind itself, stands inside a record that has a kind. -/
def ofJson? : Json → Option TypeDecl
  | .object members => do
    let fields ← Json.knownMembers? shape.names members
    let kind ← fields.needed "kind" (Json.kindOf? .nested TypeBody.kinds)
    return {
      name := ← fields.needed "name" Json.asString?
      qualifiedName := ← fields.needed "qualified_name" Json.asString?
      parameters := ← fields.orElse "type_parameters" [] (Json.list? TypeParameter.ofJson?)
      body := ← TypeBody.ofMembers? kind members
      span := ← fields.orElse "span" .nowhere Span.ofJson? }
  | _ => none

end TypeDecl

/-! ## Classes -/

namespace Annotation.Use

def toJson (a : Annotation.Use) : Json :=
  .object [("name", .string a.name), ("args", .array (a.arguments.map Argument.toJson)),
    ("span", a.span.toJson)]

def shape : Json.Shape :=
  .record [("name", .whole), ("args", .whole), ("span", Span.shape)]

def ofJson? (v : Json) : Option Annotation.Use := do
  let fields ← v.record? .plain shape.names
  return {
    name := ← fields.needed "name" Json.asString?
    arguments := ← fields.orElse "args" [] (Json.list? Argument.ofJson?)
    span := ← fields.orElse "span" .nowhere Span.ofJson? }

end Annotation.Use

def annotationsJson (uses : List Annotation.Use) : Json :=
  .array (uses.map Annotation.Use.toJson)

namespace ParameterDecl

def toJson (p : ParameterDecl) : Json :=
  .object <|
    Json.member "name" (.string p.name) ++
    Json.member "annotations" (annotationsJson p.annotations) ++
    Json.memberIfSome "type" (p.type.map TypeExpr.toJson) ++
    Json.member "optional" (.bool p.optional) ++
    Json.memberIfSome "default" p.default ++
    Json.memberIfSome "doc" (p.doc.map .string) ++
    Json.member "span" p.span.toJson

def shape : Json.Shape :=
  .record [("name", .whole), ("annotations", .list Annotation.Use.shape), ("type", .whole),
    ("optional", .whole), ("default", .whole), ("doc", .whole), ("span", Span.shape)]

def ofJson? (v : Json) : Option ParameterDecl := do
  let fields ← v.record? .plain shape.names
  return {
    name := ← fields.needed "name" Json.asString?
    annotations := ← fields.orElse "annotations" [] (Json.list? Annotation.Use.ofJson?)
    type := ← fields.optional "type" TypeExpr.ofJson?
    optional := ← fields.orElse "optional" false Json.asBool?
    default := ← fields.optional "default" Json.anything?
    doc := ← fields.optional "doc" Json.asString?
    span := ← fields.orElse "span" .nowhere Span.ofJson? }

end ParameterDecl

namespace MethodDecl

def toJson (m : MethodDecl) : Json :=
  .object <|
    Json.member "name" (.string m.name) ++
    Json.member "annotations" (annotationsJson m.annotations) ++
    Json.member "params" (.array (m.parameters.map ParameterDecl.toJson)) ++
    Json.memberIfSome "return_type" (m.returnType.map TypeExpr.toJson) ++
    Json.memberIfSome "doc" (m.doc.map .string) ++
    Json.member "span" m.span.toJson

def shape : Json.Shape :=
  .record [("name", .whole), ("annotations", .list Annotation.Use.shape),
    ("params", .list ParameterDecl.shape), ("return_type", .whole), ("doc", .whole),
    ("span", Span.shape)]

def ofJson? (v : Json) : Option MethodDecl := do
  let fields ← v.record? .plain shape.names
  return {
    name := ← fields.needed "name" Json.asString?
    annotations := ← fields.orElse "annotations" [] (Json.list? Annotation.Use.ofJson?)
    parameters := ← fields.orElse "params" [] (Json.list? ParameterDecl.ofJson?)
    returnType := ← fields.optional "return_type" TypeExpr.ofJson?
    doc := ← fields.optional "doc" Json.asString?
    span := ← fields.orElse "span" .nowhere Span.ofJson? }

end MethodDecl

namespace ConstructorDecl

def toJson (c : ConstructorDecl) : Json :=
  .object [("params", .array (c.parameters.map ParameterDecl.toJson)), ("span", c.span.toJson)]

def shape : Json.Shape :=
  .record [("params", .list ParameterDecl.shape), ("span", Span.shape)]

def ofJson? (v : Json) : Option ConstructorDecl := do
  let fields ← v.record? .plain shape.names
  return {
    parameters := ← fields.orElse "params" [] (Json.list? ParameterDecl.ofJson?)
    span := ← fields.orElse "span" .nowhere Span.ofJson? }

end ConstructorDecl

namespace ClassDecl

def toJson (c : ClassDecl) : Json :=
  .object <|
    Json.member "name" (.string c.name) ++
    Json.member "qualified_name" (.string c.qualifiedName) ++
    Json.member "annotations" (annotationsJson c.annotations) ++
    Json.memberIfSome "constructor" (c.constructor.map ConstructorDecl.toJson) ++
    Json.member "methods" (.array (c.methods.map MethodDecl.toJson)) ++
    Json.member "span" c.span.toJson

def shape : Json.Shape :=
  .record [("name", .whole), ("qualified_name", .whole),
    ("annotations", .list Annotation.Use.shape), ("constructor", ConstructorDecl.shape),
    ("methods", .list MethodDecl.shape), ("span", Span.shape)]

def ofJson? (v : Json) : Option ClassDecl := do
  let fields ← v.record? .plain shape.names
  return {
    name := ← fields.needed "name" Json.asString?
    qualifiedName := ← fields.needed "qualified_name" Json.asString?
    annotations := ← fields.orElse "annotations" [] (Json.list? Annotation.Use.ofJson?)
    constructor := ← fields.optional "constructor" ConstructorDecl.ofJson?
    methods := ← fields.orElse "methods" [] (Json.list? MethodDecl.ofJson?)
    span := ← fields.orElse "span" .nowhere Span.ofJson? }

end ClassDecl

/-! ## Compilations -/

namespace Compilation

def toJson (c : Compilation) : Json :=
  .object <|
    Json.memberIfAny "source_files" (c.sourceFiles.map .string) ++
    Json.member "classes" (.array (c.classes.map ClassDecl.toJson)) ++
    Json.member "types" (.array (c.types.map TypeDecl.toJson))

def shape : Json.Shape :=
  .record [("source_files", .whole), ("classes", .list ClassDecl.shape),
    ("types", .list TypeDecl.shape)]

def ofJson? (v : Json) : Option Compilation := do
  let fields ← v.record? .plain shape.names
  return {
    sourceFiles := ← fields.orElse "source_files" [] (Json.list? Json.asString?)
    classes := ← fields.orElse "classes" [] (Json.list? ClassDecl.ofJson?)
    types := ← fields.orElse "types" [] (Json.list? TypeDecl.ofJson?) }

def ofText? (text : String) : Option Compilation := (Json.parse? shape text).bind ofJson?

end Compilation

end AnnotatedApi
