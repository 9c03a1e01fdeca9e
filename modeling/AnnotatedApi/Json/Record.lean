import AnnotatedApi.Json.Value

/-!
# Reading records from JSON

A record is written as an object; members that it does not know are passed over, and a known member
may stand only once. It may also be written as an array of its leading members in their order. A
record of one of several kinds names its kind in the member `kind`, at any place, or in the first
item.

An optional member may be left out or be `null`; a member with a default may only be left out.

How freely some of this may be written depends on where a value stands, which its `Latitude` says.
-/

namespace AnnotatedApi.Json

set_option autoImplicit false

/-- Where a value stands. -/
inductive Latitude where
  /-- In a JSON document, outside every record that has a kind. -/
  | plain
  /-- Inside a record that has a kind. There a kind may also be given by its number, and a chosen
  name may hold an empty object instead of `null`. -/
  | nested
  /-- In a project file, where no value is `null`. There a chosen name holds an empty table or
  array, and what an array holds beyond the members of a record is passed over. -/
  | settings
deriving DecidableEq, Repr

abbrev Fields := Table Json

def distinctNames : List String → Bool
  | [] => true
  | name :: rest => !rest.contains name && distinctNames rest

/-- The members of an object that the record knows, if each stands once. -/
def knownMembers? (names : List String) (members : List (String × Json)) : Option Fields :=
  let known := members.filter fun member => names.contains member.1
  if distinctNames (known.map Prod.fst) then some known else none

def record? (latitude : Latitude) (names : List String) : Json → Option Fields
  | .object members => knownMembers? names members
  | .array items =>
    if items.length ≤ names.length || latitude = .settings then some (names.zip items) else none
  | _ => none

/-- The kind that a value stands for: one of several names, or the place of one among them. -/
def kindOf? (latitude : Latitude) (kinds : List String) : Json → Option String
  | .string kind => some kind
  | .number (.integer n) =>
    if latitude = .nested && decide (0 ≤ n) then kinds[n.toNat]? else none
  | _ => none

/-- The kind of a record that has one of several kinds, and the record without it. -/
def kindAndRest? (latitude : Latitude) (kinds : List String) : Json → Option (String × Json)
  | .object members =>
    match members.filter (·.1 == "kind") with
    | [(_, v)] =>
      (kindOf? latitude kinds v).map (·, .object (members.filter (·.1 != "kind")))
    | _ => none
  | .array (v :: rest) => (kindOf? latitude kinds v).map (·, .array rest)
  | _ => none

namespace Fields

variable {α : Type}

def needed (fields : Fields) (name : String) (read : Json → Option α) : Option α :=
  (fields.get? name).bind read

def orElse (fields : Fields) (name : String) (default : α) (read : Json → Option α) : Option α :=
  match fields.get? name with
  | some v => read v
  | none => some default

/-- A member that may be left out or be `null`. -/
def optional (fields : Fields) (name : String) (read : Json → Option α) : Option (Option α) :=
  match fields.get? name with
  | none | some .null => some none
  | some v => (read v).map some

end Fields

variable {α : Type}

def list? (read : Json → Option α) : Json → Option (List α)
  | .array items => items.mapM read
  | _ => none

/-- Whether a value may stand after a chosen name that needs none. -/
def isNothing : Latitude → Json → Bool
  | .plain, .null => true
  | .nested, .null | .nested, .object [] => true
  | .settings, .object [] | .settings, .array [] => true
  | _, _ => false

/-- One of several names; also written as an object whose one member has that name and holds
nothing. -/
def choice? (options : List (String × α)) (latitude : Latitude) : Json → Option α
  | .string name => Table.get? options name
  | .object [(name, v)] => if isNothing latitude v then Table.get? options name else none
  | _ => none

def word32? (v : Json) : Option Nat :=
  v.asNat?.filter (· < Nat.pow 2 32)

/-- Any value, each member name of its objects counted once. -/
def anything? (v : Json) : Option Json := some v.settled

/-! ## Writing records -/

def member (name : String) (v : Json) : List (String × Json) := [(name, v)]

def memberIfSome (name : String) (v : Option Json) : List (String × Json) :=
  match v with
  | some v => [(name, v)]
  | none => []

/-- A list that is written unless it is empty. -/
def memberIfAny (name : String) (items : List Json) : List (String × Json) :=
  if items.isEmpty then [] else [(name, .array items)]

end AnnotatedApi.Json
