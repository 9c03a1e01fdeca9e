import AnnotatedApi.Resolve.Failure
import AnnotatedApi.WireType.Basic

/-!
# The cache of resolved types

Types are remembered under the identity of their declaration and type arguments. Only closed types
are remembered: they mean the same wherever they are put.
-/

namespace AnnotatedApi.Resolve

set_option autoImplicit false

structure Cache where
  entries : Table WireType
  hits : Nat

namespace Cache

def empty : Cache := ⟨[], 0⟩

def contains (c : Cache) (key : String) : Bool := c.entries.has key

def size (c : Cache) : Nat := c.entries.length

/-- Looks a key up and counts a hit. An object has to carry the key as its identity. -/
def find (c : Cache) (key : String) : Except InvariantFault (Option WireType × Cache) :=
  match c.entries.get? key with
  | none => .ok (none, c)
  | some (.object identity name arguments fields) =>
    if identity = key then
      .ok (some (.object identity name arguments fields), { c with hits := c.hits + 1 })
    else .error (.foreignEntry key identity)
  | some t => .ok (some t, { c with hits := c.hits + 1 })

/-- Remembers a closed type. -/
def insert (c : Cache) (key : String) (t : WireType) : Except InvariantFault Cache :=
  if t.isClosed then .ok { c with entries := c.entries.put key t }
  else .error (.openEntry key (sortedTexts t.openReferences))

end Cache

end AnnotatedApi.Resolve
