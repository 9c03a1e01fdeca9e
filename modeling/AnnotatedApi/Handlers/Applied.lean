import AnnotatedApi.Annotation.Argument
import AnnotatedApi.Annotation.Standard
import AnnotatedApi.Source.Span

/-!
# Applied annotations

An applied annotation is a recognized annotation together with arguments that fit it. The applied
annotations of a declaration yield its metadata: each argument with a metadata key contributes its
value, or the default if it is left out. Repeatable annotations gather their values in an array,
the others overwrite each other.
-/

namespace AnnotatedApi

set_option autoImplicit false

/-- A recognized annotation on a declaration. -/
structure Applied where
  definition : Annotation.Definition
  arguments : List Annotation.Argument
  span : Span

namespace Applied

def name (a : Applied) : String := a.definition.name

/-- The argument at a position, if it is a name. -/
def textArgument? (a : Applied) (position : Nat) : Option String :=
  a.arguments[position]?.bind Annotation.Argument.asText?

def provides (a : Applied) : List String :=
  a.definition.provides ++ (a.definition.providesArgument.bind a.textArgument?).toList

def contributedValue? (a : Applied) (spec : Annotation.ArgumentSpec) (position : Nat) :
    Option Json :=
  match a.arguments[position]? with
  | some argument => some argument.value
  | none => spec.default

/-- What an annotation contributes to the metadata: keys and values in the order of the
arguments. -/
def contributions (a : Applied) : List (String × Json) :=
  a.definition.arguments.zipIdx.filterMap fun (spec, position) =>
    match spec.metadata, a.contributedValue? spec position with
    | some key, some value => some (key, value)
    | _, _ => none

/-- Adds a value of a repeatable annotation. A value that is there and is no array stays. -/
def gather (metadata : Table Json) (key : String) (value : Json) : Table Json :=
  match metadata.get? key with
  | none => metadata.put key (.array [value])
  | some (.array items) => metadata.put key (.array (items ++ [value]))
  | some _ => metadata

def addTo (metadata : Table Json) (a : Applied) : Table Json :=
  a.contributions.foldl
    (fun metadata (key, value) =>
      if a.definition.repeatable then gather metadata key value else metadata.put key value)
    metadata

def metadataOf (annotations : List Applied) : Table Json := annotations.foldl addTo []

end Applied

end AnnotatedApi
