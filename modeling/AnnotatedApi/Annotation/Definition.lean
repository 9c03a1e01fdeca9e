import AnnotatedApi.Annotation.Restriction
import AnnotatedApi.Http.Binding
import AnnotatedApi.Http.Verb

/-!
# Annotation definitions

What an annotation means: where it may stand, what role it plays there, which arguments it takes,
what it depends on and what it provides. `Definition.fault?` says when a definition contradicts
itself.
-/

namespace AnnotatedApi.Annotation

set_option autoImplicit false

inductive Target where
  | classDeclaration
  | method
  | parameter
  | constructorParameter
deriving DecidableEq, Repr

namespace Target

def all : List Target := [classDeclaration, method, parameter, constructorParameter]

def name : Target → String
  | classDeclaration => "class"
  | method => "method"
  | parameter => "parameter"
  | constructorParameter => "constructor"

def display : Target → String
  | constructorParameter => "constructor parameter"
  | t => t.name

end Target

inductive ArgumentType where
  | string
  | number
  | boolean
  | object
  /-- A bare name, or a string with a name. -/
  | identifier
  | any
deriving DecidableEq, Repr

namespace ArgumentType

def all : List ArgumentType := [string, number, boolean, object, identifier, any]

def name : ArgumentType → String
  | string => "string"
  | number => "number"
  | boolean => "boolean"
  | object => "object"
  | identifier => "identifier"
  | any => "any"

end ArgumentType

inductive Validator where
  | routePath
  | httpMethod
  | httpStatus
  | nonEmpty
deriving DecidableEq, Repr

namespace Validator

def all : List Validator := [routePath, httpMethod, httpStatus, nonEmpty]

def name : Validator → String
  | routePath => "route-path"
  | httpMethod => "http-method"
  | httpStatus => "http-status"
  | nonEmpty => "non-empty"

end Validator

/-- One positional argument. Its value, or the default if it is left out, is recorded under the
metadata key. -/
structure ArgumentSpec where
  name : String
  type : ArgumentType := .any
  optional : Bool := false
  validator : Option Validator := none
  metadata : Option String := none
  default : Option Json := none
deriving Repr

/-- What a dependency has to find. -/
inductive DependencyTarget where
  /-- A declaration with the named annotation. -/
  | annotated (name : String)
  /-- A declaration that provides the tag. -/
  | provider (tag : String)
  /-- A declaration that provides the tag given by the argument at the position. -/
  | providerArgument (position : Nat)
  /-- A declaration whose name is given by the argument at the position. -/
  | declarationArgument (position : Nat)
deriving DecidableEq, Repr

def DependencyTarget.position? : DependencyTarget → Option Nat
  | providerArgument position => some position
  | declarationArgument position => some position
  | _ => none

inductive Scope where
  /-- Around the declaration, from the inside out. -/
  | enclosing
  /-- Beside the declaration. -/
  | peer
deriving DecidableEq, Repr

namespace Scope

def name : Scope → String
  | enclosing => "enclosing"
  | peer => "peer"

end Scope

structure Dependency where
  target : DependencyTarget
  scope : Scope
deriving DecidableEq, Repr

inductive Role where
  /-- Exposes a method under a verb. -/
  | route (verb : Verb)
  /-- Binds a parameter. -/
  | binding (kind : BindingKind)
  /-- Only adds metadata. -/
  | marker
deriving DecidableEq, Repr

inductive Resolution where
  | full
  | nameOnly
deriving DecidableEq, Repr

namespace Resolution

def name : Resolution → String
  | full => "full"
  | nameOnly => "opaque"

end Resolution

structure Definition where
  name : String
  targets : List Target
  role : Role := .marker
  arguments : List ArgumentSpec := []
  dependencies : List Dependency := []
  /-- Tags that a declaration with the annotation provides. -/
  provides : List String := []
  /-- The position of an argument that is a provided tag too. -/
  providesArgument : Option Nat := none
  restrictions : List Restriction := []
  resolution : Resolution := .full
  repeatable : Bool := false
deriving Repr

inductive Fault where
  | emptyName
  | noTargets
  | requiredAfterOptional (argument : String)
  | positionOutOfRange (position arity : Nat)
  | bindingTargets
  | routeTargets
  | markerRestrictions
deriving DecidableEq, Repr

def Fault.message : Fault → String
  | emptyName => "annotation name must not be empty"
  | noTargets => "at least one target is required"
  | requiredAfterOptional argument =>
    "required argument `" ++ argument ++ "` follows an optional argument"
  | positionOutOfRange position arity =>
    "argument position " ++ toString position ++ " is out of range (" ++ toString arity ++
      " arguments declared)"
  | bindingTargets => "binding annotations must target parameters"
  | routeTargets => "route annotations must target methods"
  | markerRestrictions => "type restrictions require a binding role"

namespace Definition

def appliesTo (d : Definition) (target : Target) : Bool := d.targets.contains target

def binding? (d : Definition) : Option BindingKind :=
  match d.role with
  | .binding kind => some kind
  | _ => none

def routeVerb? (d : Definition) : Option Verb :=
  match d.role with
  | .route verb => some verb
  | _ => none

def requiredArguments (d : Definition) : Nat := d.arguments.countP (!·.optional)

def argumentPositions (d : Definition) : List Nat :=
  d.dependencies.filterMap (·.target.position?) ++ d.providesArgument.toList

def roleFault? (d : Definition) : Option Fault :=
  match d.role with
  | .binding _ =>
    if d.appliesTo .parameter || d.appliesTo .constructorParameter then none
    else some .bindingTargets
  | .route _ => if d.appliesTo .method then none else some .routeTargets
  | .marker => if d.restrictions.isEmpty then none else some .markerRestrictions

def fault? (d : Definition) : Option Fault :=
  if (Text.trim d.name).isEmpty then some .emptyName
  else if d.targets.isEmpty then some .noTargets
  else
    match (d.arguments.dropWhile (!·.optional)).find? (!·.optional) with
    | some argument => some (.requiredAfterOptional argument.name)
    | none =>
      match d.argumentPositions.find? (d.arguments.length ≤ ·) with
      | some position => some (.positionOutOfRange position d.arguments.length)
      | none => d.roleFault?

end Definition

end AnnotatedApi.Annotation
