/-!
# What of a document is used

A reader that knows which members of a record are used need not read the others. A shape says so
for a whole document.
-/

namespace AnnotatedApi.Json

set_option autoImplicit false

/-- What of a value is used. -/
inductive Shape where
  | whole
  | list (item : Shape)
  /-- The known members of a record. -/
  | record (members : List (String × Shape))
  /-- All members of a record, of which those that are not listed are used as a whole. -/
  | extended (members : List (String × Shape))

namespace Shape

/-- The names of the known members of a record, in the order in which they are written. -/
def names : Shape → List String
  | record members | extended members => members.map (·.1)
  | _ => []

def member? : Shape → String → Option Shape
  | record members, name => (members.find? (·.1 == name)).map (·.2)
  | extended members, name => some (((members.find? (·.1 == name)).map (·.2)).getD whole)
  | _, _ => some whole

/-- What of the item at a place in an array is used. A record may be written as an array of its
members. -/
def item : Shape → Nat → Shape
  | list item, _ => item
  | record members, place => ((members[place]?).map (·.2)).getD whole
  | _, _ => whole

end Shape

end AnnotatedApi.Json
