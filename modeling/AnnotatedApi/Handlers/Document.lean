import AnnotatedApi.Compilation.Document
import AnnotatedApi.Handlers.Link
import AnnotatedApi.WireType.Document

/-!
# The handler forest in documents

All nodes are written as records of the same form. A position and a required flag are written for
every node, though only parameters have them.
-/

namespace AnnotatedApi

set_option autoImplicit false

def Applied.toJson (a : Applied) : Json :=
  .object [("name", .string a.name), ("args", .array (a.arguments.map Annotation.Argument.toJson)),
    ("span", a.span.toJson)]

/-- What the record of a node has beside the members that all nodes have. -/
structure NodeExtras where
  kind : String
  qualifiedName : Option String := none
  type : Option WireType := none
  position : Nat := 0
  required : Bool := true
  default : Option Json := none
  doc : Option String := none
  children : List Json := []

def Site.record (s : Site) (extras : NodeExtras) : Json :=
  .object <|
    Json.member "kind" (.string extras.kind) ++
    Json.member "name" (.string s.name) ++
    Json.memberIfSome "qualified_name" (extras.qualifiedName.map .string) ++
    Json.member "span" s.span.toJson ++
    Json.member "annotations" (.array (s.annotations.map Applied.toJson)) ++
    Json.memberIfSome "type" (extras.type.map WireType.toJson) ++
    Json.member "metadata" (.object s.metadata) ++
    Json.member "position" (.ofNat extras.position) ++
    Json.member "required" (.bool extras.required) ++
    Json.memberIfSome "default" extras.default ++
    Json.memberIfSome "doc" (extras.doc.map .string) ++
    Json.memberIfAny "children" extras.children

def ParameterNode.toJson (p : ParameterNode) : Json :=
  p.site.record {
    kind := "parameter", type := some p.type, position := p.position, required := p.required,
    default := p.default, doc := p.doc }

def MemberNode.toJson (m : MemberNode) : Json :=
  let children := m.parameters.map ParameterNode.toJson
  match m.kind with
  | .constructor => m.site.record { kind := "constructor", children := children }
  | .method returnType doc =>
    m.site.record { kind := "method", type := some returnType, doc := doc, children := children }

def ClassNode.toJson (c : ClassNode) : Json :=
  c.site.record {
    kind := "class", qualifiedName := some c.qualifiedName,
    children := c.members.map MemberNode.toJson }

def Forest.toJson (f : Forest) : Json := .array (f.map ClassNode.toJson)

def NodePath.toJson (path : NodePath) : Json := .array (path.map .ofNat)

def Requirement.toJson : Requirement → Json
  | annotated name => .object [("kind", .string "annotation"), ("value", .string name)]
  | provider tag => .object [("kind", .string "provider"), ("value", .string tag)]
  | declaration name => .object [("kind", .string "declaration"), ("value", .string name)]

def Link.toJson (l : Link) : Json :=
  .object [("source", NodePath.toJson l.source), ("target", NodePath.toJson l.target),
    ("annotation", .string l.annotationName), ("requirement", l.requirement.toJson)]

def LinkedForest.toJson (l : LinkedForest) : Json :=
  .object [("roots", l.forest.toJson), ("links", .array (l.links.map Link.toJson))]

end AnnotatedApi
