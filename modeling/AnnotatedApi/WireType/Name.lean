import AnnotatedApi.WireType.Basic

/-!
# Names of wire types

A wire type has two texts. Messages use `display`. Identities of generic instances use `key`, in
which an object stands by its identity, so that objects of one name from different modules differ,
and an inline object by its structure, since several inline objects can share a site.
-/

namespace AnnotatedApi.WireType

set_option autoImplicit false

def withArguments (name : String) (arguments : List String) : String :=
  if arguments.isEmpty then name else name ++ "<" ++ String.intercalate ", " arguments ++ ">"

def inlineObject (fields : List String) : String :=
  "\x7b " ++ String.intercalate "; " fields ++ " \x7d"

def fieldText (name : String) (required : Bool) (type : String) : String :=
  name ++ (if required then "" else "?") ++ ": " ++ type

/-- The text of an array with the given element, in parentheses if that is a union. -/
def arrayText (element : WireType) (text : String) : String :=
  match element with
  | union _ => "(" ++ text ++ ")[]"
  | _ => text ++ "[]"

mutual

def display : WireType → String
  | primitive p => p.display
  | literal v => v.display
  | array e => arrayText e (display e)
  | object _ (some name) args _ => withArguments name (displayList args)
  | object _ none _ fields => inlineObject (displayFields fields)
  | union members => String.intercalate " | " (displayList members)
  | generic name args => withArguments name (displayList args)
  | promise t => "Promise<" ++ display t ++ ">"
  | unexpanded name => name
  | back identity => identity

def displayList : List WireType → List String
  | [] => []
  | t :: rest => display t :: displayList rest

def displayFields : List (Field WireType) → List String
  | [] => []
  | ⟨name, t, required, _⟩ :: rest => fieldText name required (display t) :: displayFields rest

end

mutual

/-- The text of a type as an argument in the identity of a generic instance. -/
def key : WireType → String
  | primitive p => p.display
  | literal v => v.display
  | array e => key e ++ "[]"
  | object identity (some _) _ _ => identity
  | object _ none _ fields => inlineObject (keyFields fields)
  | union members => "(" ++ String.intercalate " | " (keyList members) ++ ")"
  | generic name args => withArguments name (keyList args)
  | promise t => "Promise<" ++ key t ++ ">"
  | unexpanded name => name
  | back identity => identity

def keyList : List WireType → List String
  | [] => []
  | t :: rest => key t :: keyList rest

def keyFields : List (Field WireType) → List String
  | [] => []
  | ⟨name, t, required, _⟩ :: rest => fieldText name required (key t) :: keyFields rest

end

end AnnotatedApi.WireType
