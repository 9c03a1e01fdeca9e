import AnnotatedApi.Annotation.Standard

/-!
# The catalog of annotations

The catalog holds the annotations that an extraction recognizes, in the order of registration. It
is only ever extended: a registration adds a sound definition under a new name or changes nothing.
-/

namespace AnnotatedApi.Annotation

set_option autoImplicit false

/-- The recognized annotations, in the order of registration. -/
structure Catalog where
  definitions : List Definition

inductive RegistrationError where
  | alreadyRegistered (name : String)
  | malformed (name : String) (fault : Fault)
deriving DecidableEq, Repr

def RegistrationError.message : RegistrationError → String
  | alreadyRegistered name => "annotation `" ++ name ++ "` is already registered"
  | malformed name fault => "annotation `" ++ name ++ "` is malformed: " ++ fault.message

namespace Catalog

def empty : Catalog := ⟨[]⟩

def standard : Catalog := ⟨standardDefinitions⟩

def names (c : Catalog) : List String := c.definitions.map (·.name)

def lookup (c : Catalog) (name : String) : Option Definition :=
  c.definitions.find? (·.name == name)

def contains (c : Catalog) (name : String) : Bool := (c.lookup name).isSome

/-- Adds a definition. That its name is taken counts before what is wrong with it. -/
def register (d : Definition) : EStateM RegistrationError Catalog Unit := do
  if (← get).contains d.name then throw (.alreadyRegistered d.name)
  else
    match d.fault? with
    | some fault => throw (.malformed d.name fault)
    | none => modify fun c => ⟨c.definitions ++ [d]⟩

/-- Adds definitions one after the other, up to the first that cannot be registered. -/
def registerAll (ds : List Definition) : EStateM RegistrationError Catalog Unit := ds.forM register

end Catalog

end AnnotatedApi.Annotation
