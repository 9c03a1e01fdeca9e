import AnnotatedApi.WireType.Basic

/-!
# The context of a resolution

While a type is resolved, the context knows which declarations are being expanded, from the
innermost outwards, what the type parameters of the innermost one stand for, and which fields lead
from it to the current place.
-/

namespace AnnotatedApi.Resolve

set_option autoImplicit false

/-- A declaration that is being expanded. -/
structure Frame where
  identity : String
  generic : Bool
deriving DecidableEq, Repr

structure Context where
  /-- The site that asked for the type; it owns the inline objects outside any declaration. -/
  origin : String
  /-- The declarations being expanded, innermost first. -/
  frames : List Frame
  environment : Table WireType
  /-- The fields since the innermost declaration, innermost first. -/
  fieldPath : List String

namespace Context

def ofOrigin (origin : String) : Context := ⟨origin, [], [], []⟩

def depth (c : Context) : Nat := c.frames.length

def genericDepth (c : Context) : Nat := c.frames.countP (·.generic)

def isExpanding (c : Context) (identity : String) : Bool := c.frames.any (·.identity == identity)

def pushField (name : String) (c : Context) : Context := { c with fieldPath := name :: c.fieldPath }

def popField (c : Context) : Context := { c with fieldPath := c.fieldPath.tail }

def enter (frame : Frame) (environment : Table WireType) (c : Context) : Context :=
  { c with frames := frame :: c.frames, environment := environment, fieldPath := [] }

/-- Ends the innermost expansion and goes back to what surrounded it. -/
def leave (environment : Table WireType) (fieldPath : List String) (c : Context) : Context :=
  { c with frames := c.frames.tail, environment := environment, fieldPath := fieldPath }

/-- The identity of an inline object at the current place: the innermost declaration, or the site,
and the fields that lead here. -/
def inlineIdentity (c : Context) : String :=
  let owner := match c.frames with
    | frame :: _ => frame.identity
    | [] => c.origin
  if c.fieldPath.isEmpty then owner
  else owner ++ "." ++ String.intercalate "." c.fieldPath.reverse

end Context

end AnnotatedApi.Resolve
