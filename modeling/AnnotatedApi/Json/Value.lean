import AnnotatedApi.Number.Binary64
import AnnotatedApi.Table

/-!
# JSON values

Object members keep the order in which they were written. A number that is written as an integer
and fits 64 bits stays an integer; every other number is a double.
-/

namespace AnnotatedApi

set_option autoImplicit false

inductive Json.Number where
  | integer (value : Int)
  | real (value : Binary64)
deriving DecidableEq, Repr

inductive Json where
  | null
  | bool (value : Bool)
  | number (value : Json.Number)
  | string (value : String)
  | array (items : List Json)
  | object (members : List (String × Json))
deriving Repr

namespace Json

/-- The number as a double, an integer being rounded to the nearest one. -/
def Number.toReal : Number → Binary64
  | .integer n => Binary64.ofInt n
  | .real x => x

def ofNat (n : Nat) : Json := .number (.integer n)

def ofStrings (texts : List String) : Json := .array (texts.map .string)

def asString? : Json → Option String
  | .string s => some s
  | _ => none

def asBool? : Json → Option Bool
  | .bool b => some b
  | _ => none

/-- An integer that is not negative. -/
def asNat? : Json → Option Nat
  | .number (.integer n) => if 0 ≤ n then some n.toNat else none
  | _ => none

mutual

/-- How deeply arrays and objects are nested. -/
def depth : Json → Nat
  | .array items => depthOfItems items + 1
  | .object members => depthOfMembers members + 1
  | _ => 0

def depthOfItems : List Json → Nat
  | [] => 0
  | item :: rest => max (depth item) (depthOfItems rest)

def depthOfMembers : List (String × Json) → Nat
  | [] => 0
  | (_, value) :: rest => max (depth value) (depthOfMembers rest)

end

mutual

/-- The value with each member name once in every object: the last value of a name counts, at the
place of its first. -/
def settled : Json → Json
  | .array items => .array (settledItems items)
  | .object members => .object (settledMembers members [])
  | v => v

def settledItems : List Json → List Json
  | [] => []
  | item :: rest => settled item :: settledItems rest

def settledMembers : List (String × Json) → Table Json → Table Json
  | [], table => table
  | (name, value) :: rest, table => settledMembers rest (table.put name (settled value))

end

end Json

end AnnotatedApi
