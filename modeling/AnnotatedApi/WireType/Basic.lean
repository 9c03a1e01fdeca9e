import AnnotatedApi.Json.Value
import AnnotatedApi.Number.Text
import AnnotatedApi.Text.Quoted

/-!
# Wire types

The normalized form of a static type: what a value looks like when it is sent or received. A wire
type is a finite tree; a type that contains itself points back to the enclosing object by that
object's identity.
-/

namespace AnnotatedApi

set_option autoImplicit false

inductive Primitive where
  | string
  | number
  | boolean
  | date
  | null
  /-- No value at all. -/
  | void
  | any
deriving DecidableEq, Repr

namespace Primitive

def all : List Primitive := [string, number, boolean, date, null, void, any]

def name : Primitive → String
  | string => "string"
  | number => "number"
  | boolean => "boolean"
  | date => "date"
  | null => "null"
  | void => "void"
  | any => "any"

def display : Primitive → String
  | date => "Date"
  | p => p.name

end Primitive

inductive Literal where
  | boolean (value : Bool)
  | number (value : Binary64)
  | string (value : String)
deriving DecidableEq, Repr

namespace Literal

def primitive : Literal → Primitive
  | boolean _ => .boolean
  | number _ => .number
  | string _ => .string

/-- Equality of values; numbers are compared as numbers. -/
def same : Literal → Literal → Bool
  | boolean a, boolean b => a == b
  | number x, number y => x.sameNumber y
  | string s, string t => s == t
  | _, _ => false

/-- A literal in a message: a whole number below `10 ^ 15` as an integer, any other number in
positional notation, a text in quotes. -/
def display : Literal → String
  | boolean b => if b then "true" else "false"
  | number x =>
    match x.toInt? with
    | some n => if n.natAbs < Nat.pow 10 15 then toString n else x.plainText
    | none => x.plainText
  | string s => Text.quoted s

/-- The literal of a JSON scalar; `null`, arrays and objects are no literals. -/
def ofJson? : Json → Option Literal
  | .bool b => some (.boolean b)
  | .number n => some (.number n.toReal)
  | .string s => some (.string s)
  | _ => none

/-- A number that is not finite has no JSON form and becomes `null`. -/
def toJson : Literal → Json
  | boolean b => .bool b
  | number x => if x.isFinite then .number (.real x) else .null
  | string s => .string s

end Literal

structure Field (α : Type) where
  name : String
  type : α
  required : Bool
  description : Option String

/-- A normalized type. -/
inductive WireType where
  | primitive (primitive : Primitive)
  | literal (value : Literal)
  | array (element : WireType)
  /-- An object. Its identity is that of the declaration and its type arguments, or of the site of
  an inline object type, which has no name. -/
  | object (identity : String) (name : Option String) (typeArguments : List WireType)
      (fields : List (Field WireType))
  | union (members : List WireType)
  /-- A type parameter without a value, or a dictionary. -/
  | generic (name : String) (typeArguments : List WireType)
  | promise (inner : WireType)
  /-- A type of which only the name is kept. -/
  | unexpanded (name : String)
  /-- The enclosing object with this identity. -/
  | back (identity : String)

namespace WireType

/-! ## Structural equality -/

mutual

/-- Structural equality; literal numbers are compared as numbers. -/
def same : WireType → WireType → Bool
  | primitive p, primitive q => p == q
  | literal a, literal b => a.same b
  | array a, array b => same a b
  | object i n as fs, object j m bs gs =>
    i == j && n == m && sameList as bs && sameFields fs gs
  | union as, union bs => sameList as bs
  | generic n as, generic m bs => n == m && sameList as bs
  | promise a, promise b => same a b
  | unexpanded n, unexpanded m => n == m
  | back i, back j => i == j
  | _, _ => false

def sameList : List WireType → List WireType → Bool
  | [], [] => true
  | a :: as, b :: bs => same a b && sameList as bs
  | _, _ => false

def sameFields : List (Field WireType) → List (Field WireType) → Bool
  | [], [] => true
  | ⟨n, a, r, d⟩ :: fs, g :: gs =>
    n == g.name && same a g.type && r == g.required && d == g.description && sameFields fs gs
  | _, _ => false

end

/-! ## Unions -/

/-- Adds a member at the end unless an equal one is there. -/
def pushDistinct (members : List WireType) (candidate : WireType) : List WireType :=
  if members.any (same · candidate) then members else members ++ [candidate]

def distinct (members : List WireType) : List WireType :=
  members.foldl pushDistinct []

/-- The members that a type contributes to a union: those of a union, else itself. -/
def alternatives : WireType → List WireType
  | union members => members
  | t => [t]

def isBooleanLiteral : WireType → Bool
  | literal (.boolean _) => true
  | _ => false

/-- `true` and `false` together are `boolean`: a boolean literal becomes the scalar. -/
def widenBoolean (t : WireType) : WireType :=
  if t.isBooleanLiteral then primitive .boolean else t

def hasLiteral (members : List WireType) (value : Literal) : Bool :=
  members.any fun
    | literal v => v.same value
    | _ => false

/-- The members of the union of some types: nested unions dissolve, equal members collapse into
the first of them, and `true | false` widens to `boolean`. -/
def unionMembers (types : List WireType) : List WireType :=
  let flat := distinct (types.flatMap alternatives)
  if hasLiteral flat (.boolean true) && hasLiteral flat (.boolean false) then
    distinct (flat.map widenBoolean)
  else flat

/-- The union of some types; a union of one type is that type. -/
def unionOf (types : List WireType) : WireType :=
  match unionMembers types with
  | [single] => single
  | members => union members

/-! ## Parts -/

mutual

/-- The type and everything inside it, each before what it contains. -/
def parts : WireType → List WireType
  | array e => array e :: parts e
  | promise t => promise t :: parts t
  | union members => union members :: partsOfList members
  | generic n args => generic n args :: partsOfList args
  | object i n args fields => object i n args fields :: (partsOfList args ++ partsOfFields fields)
  | t => [t]

def partsOfList : List WireType → List WireType
  | [] => []
  | t :: rest => parts t ++ partsOfList rest

def partsOfFields : List (Field WireType) → List WireType
  | [] => []
  | ⟨_, t, _, _⟩ :: rest => parts t ++ partsOfFields rest

end

mutual

/-- The identities to which the type points back without containing them. A type without open
references can be shared out of its context. -/
def openReferences : WireType → List String
  | back identity => [identity]
  | array e => openReferences e
  | promise t => openReferences t
  | union members => openOfList members
  | generic _ args => openOfList args
  | object identity _ args fields =>
    (openOfList args ++ openOfFields fields).filter (· != identity)
  | _ => []

def openOfList : List WireType → List String
  | [] => []
  | t :: rest => openReferences t ++ openOfList rest

def openOfFields : List (Field WireType) → List String
  | [] => []
  | ⟨_, t, _, _⟩ :: rest => openReferences t ++ openOfFields rest

end

def isClosed (t : WireType) : Bool := t.openReferences.isEmpty

def isPromise : WireType → Bool
  | promise _ => true
  | _ => false

def isPrimitive (p : Primitive) : WireType → Bool
  | primitive q => q == p
  | _ => false

end WireType

/-- The members of a set of texts in increasing order, each once. -/
def sortedTexts (texts : List String) : List String :=
  (texts.foldr (fun s rest => if rest.contains s then rest else s :: rest) []).mergeSort
    (fun s t => decide (s ≤ t))

end AnnotatedApi
