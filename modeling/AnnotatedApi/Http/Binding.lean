import AnnotatedApi.Json.Record

/-!
# Where parameters come from
-/

namespace AnnotatedApi

set_option autoImplicit false

/-- Where the value of a handler parameter comes from. -/
inductive BindingKind where
  | query
  | body
  | path
  | header
  | callback
  | transport
  | dependency
deriving DecidableEq, Repr

namespace BindingKind

def all : List BindingKind := [query, body, path, header, callback, transport, dependency]

def name : BindingKind → String
  | query => "query"
  | body => "body"
  | path => "path"
  | header => "header"
  | callback => "callback"
  | transport => "transport"
  | dependency => "dependency"

def toJson (k : BindingKind) : Json := .string k.name

def ofJson? : Json.Latitude → Json → Option BindingKind :=
  Json.choice? (all.map fun k => (k.name, k))

end BindingKind

end AnnotatedApi
