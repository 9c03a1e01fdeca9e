import AnnotatedApi.Json.Record

/-!
# HTTP verbs
-/

namespace AnnotatedApi

set_option autoImplicit false

/-- The verb of a handler; `any` answers every verb that no other handler of the route takes. -/
inductive Verb where
  | get
  | post
  | put
  | patch
  | delete
  | head
  | options
  | any
deriving DecidableEq, Repr

namespace Verb

def all : List Verb := [get, post, put, patch, delete, head, options, any]

def name : Verb → String
  | get => "GET"
  | post => "POST"
  | put => "PUT"
  | patch => "PATCH"
  | delete => "DELETE"
  | head => "HEAD"
  | options => "OPTIONS"
  | any => "ANY"

/-- The verb that a text names: a name in upper or lower case letters, or `*` for any verb. -/
def ofText? (text : String) : Option Verb :=
  if text = "*" then some any
  else all.find? fun verb => verb.name.toList == text.toList.map Char.toUpper

def toJson (v : Verb) : Json := .string v.name

def ofJson? : Json.Latitude → Json → Option Verb :=
  Json.choice? (all.map fun verb => (verb.name, verb))

end Verb

end AnnotatedApi
