import AnnotatedApi.Json.Record
import AnnotatedApi.WireType.Basic

/-!
# Wire types in documents

Every wire type is a record of the kind that its constructor names. Absent names and descriptions
and empty lists of type arguments are not written.
-/

namespace AnnotatedApi

set_option autoImplicit false

namespace Primitive

def toJson (p : Primitive) : Json := .string p.name

def ofJson? : Json.Latitude → Json → Option Primitive :=
  Json.choice? (all.map fun p => (p.name, p))

end Primitive

def Field.record (name : String) (type : Json) (required : Bool) (description : Option String) :
    Json :=
  .object <|
    Json.member "name" (.string name) ++ Json.member "type" type ++
    Json.member "required" (.bool required) ++
    Json.memberIfSome "description" (description.map .string)

def Field.ofJson? {α : Type} (read : Json → Option α) (v : Json) : Option (Field α) := do
  let fields ← v.record? .plain ["name", "type", "required", "description"]
  return {
    name := ← fields.needed "name" Json.asString?
    type := ← fields.needed "type" read
    required := ← fields.needed "required" Json.asBool?
    description := ← fields.optional "description" Json.asString? }

namespace WireType

def kind : WireType → String
  | primitive _ => "primitive"
  | literal _ => "literal"
  | array _ => "array"
  | object _ _ _ _ => "object"
  | union _ => "union"
  | generic _ _ => "generic-reference"
  | promise _ => "promise"
  | unexpanded _ => "opaque"
  | back _ => "recursive-reference"

def ofKind (kind : String) (members : List (String × Json)) : Json :=
  .object (("kind", .string kind) :: members)

mutual

def toJson : WireType → Json
  | primitive p => ofKind "primitive" [("primitive", p.toJson)]
  | literal v => ofKind "literal" [("value", v.toJson)]
  | array e => ofKind "array" [("element", toJson e)]
  | object identity name args fields =>
    ofKind "object" <|
      Json.member "identity" (.string identity) ++
      Json.memberIfSome "name" (name.map .string) ++
      Json.memberIfAny "type_arguments" (toJsonList args) ++
      Json.member "fields" (.array (toJsonFields fields))
  | union members => ofKind "union" [("members", .array (toJsonList members))]
  | generic name args =>
    ofKind "generic-reference" <|
      Json.member "name" (.string name) ++ Json.memberIfAny "type_arguments" (toJsonList args)
  | promise t => ofKind "promise" [("inner", toJson t)]
  | unexpanded name => ofKind "opaque" [("name", .string name)]
  | back identity => ofKind "recursive-reference" [("identity", .string identity)]

def toJsonList : List WireType → List Json
  | [] => []
  | t :: rest => toJson t :: toJsonList rest

def toJsonFields : List (Field WireType) → List Json
  | [] => []
  | ⟨name, t, required, description⟩ :: rest =>
    Field.record name (toJson t) required description :: toJsonFields rest

end

theorem toJsonList_eq_map (ts : List WireType) : toJsonList ts = ts.map toJson := by
  induction ts with
  | nil => rfl
  | cons t ts ih => rw [toJsonList, ih, List.map_cons]

theorem toJsonFields_eq_map (fs : List (Field WireType)) :
    toJsonFields fs = fs.map fun f => Field.record f.name f.type.toJson f.required f.description := by
  induction fs with
  | nil => rfl
  | cons f fs ih => rw [toJsonFields, ih, List.map_cons]

/-- The names of the kinds, in the order of their numbers. -/
def kinds : List String :=
  ["primitive", "literal", "array", "object", "union", "generic-reference", "promise", "opaque",
    "recursive-reference"]

def readWith (latitude : Json.Latitude) (read : Json → Option WireType) (v : Json) :
    Option WireType := do
  let (kind, rest) ← v.kindAndRest? latitude kinds
  match kind with
  | "primitive" =>
    let fields ← rest.record? .plain ["primitive"]
    return primitive (← fields.needed "primitive" (Primitive.ofJson? .nested))
  | "literal" =>
    let fields ← rest.record? .plain ["value"]
    return literal (← fields.needed "value" Literal.ofJson?)
  | "array" =>
    let fields ← rest.record? .plain ["element"]
    return array (← fields.needed "element" read)
  | "object" =>
    let fields ← rest.record? .plain ["identity", "name", "type_arguments", "fields"]
    return object (← fields.needed "identity" Json.asString?)
      (← fields.optional "name" Json.asString?)
      (← fields.orElse "type_arguments" [] (Json.list? read))
      (← fields.needed "fields" (Json.list? (Field.ofJson? read)))
  | "union" =>
    let fields ← rest.record? .plain ["members"]
    return union (← fields.needed "members" (Json.list? read))
  | "generic-reference" =>
    let fields ← rest.record? .plain ["name", "type_arguments"]
    return generic (← fields.needed "name" Json.asString?)
      (← fields.orElse "type_arguments" [] (Json.list? read))
  | "promise" =>
    let fields ← rest.record? .plain ["inner"]
    return promise (← fields.needed "inner" read)
  | "opaque" =>
    let fields ← rest.record? .plain ["name"]
    return unexpanded (← fields.needed "name" Json.asString?)
  | "recursive-reference" =>
    let fields ← rest.record? .plain ["identity"]
    return back (← fields.needed "identity" Json.asString?)
  | _ => none

/-- Reads a type that is nested less deeply than the given depth. The types inside it stand inside a
record that has a kind. -/
def readWithin : Nat → Json.Latitude → Json → Option WireType
  | 0, _, _ => none
  | depth + 1, latitude, v => readWith latitude (readWithin depth .nested) v

def ofJson? (v : Json) : Option WireType := readWithin (v.depth + 1) .plain v

end WireType

end AnnotatedApi
