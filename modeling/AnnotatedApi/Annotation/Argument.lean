import AnnotatedApi.Annotation.Definition
import AnnotatedApi.Http.Route
import AnnotatedApi.Json.Record

/-!
# Arguments of annotations

An argument is a bare identifier or a literal. `Definition.mismatches` checks a list of arguments
against a definition and reports every position that does not fit.
-/

namespace AnnotatedApi.Annotation

set_option autoImplicit false

inductive Argument where
  | identifier (name : String)
  | literal (value : Json)
deriving Repr

namespace Argument

def asText? : Argument → Option String
  | identifier name => some name
  | literal v => v.asString?

/-- The value that metadata records: for an identifier its name. -/
def value : Argument → Json
  | identifier name => .string name
  | literal v => v

def describe : Argument → String
  | identifier _ => "identifier"
  | literal .null => "null"
  | literal (.bool _) => "boolean"
  | literal (.number _) => "number"
  | literal (.string _) => "string"
  | literal (.array _) => "array"
  | literal (.object _) => "object"

/-- Reads an argument: an object with a text named `identifier` is an identifier, everything else a
literal. -/
def ofJson? (v : Json) : Option Argument :=
  match v with
  | .object members =>
    match Json.knownMembers? ["identifier"] members with
    | some [(_, .string name)] => some (identifier name)
    | _ => some (literal v.settled)
  | v => some (literal v.settled)

def toJson : Argument → Json
  | identifier name => .object [("identifier", .string name)]
  | literal v => v

end Argument

inductive ValueFault where
  | notRoute
  | badRoute (path : String) (fault : Route.Fault)
  | notVerb
  | notStatus
  | empty
deriving DecidableEq, Repr

def ValueFault.message : ValueFault → String
  | notRoute => "must be a route string"
  | badRoute path fault => fault.message path
  | notVerb => "is not an HTTP method"
  | notStatus => "must be an integer status code between 100 and 599"
  | empty => "must not be empty"

inductive ArgumentFault where
  | wrongType (name : String) (expected : ArgumentType) (found : String)
  | badValue (name : String) (fault : ValueFault)
  | missing (name : String)
  | surplus (owner : String) (arity : Nat)
deriving DecidableEq, Repr

def ArgumentFault.message : ArgumentFault → String
  | wrongType name expected found =>
    "`" ++ name ++ "` expects " ++ expected.name ++ ", found " ++ found
  | badValue name fault => "`" ++ name ++ "` " ++ fault.message
  | missing name => "missing required argument `" ++ name ++ "`"
  | surplus owner arity =>
    "unexpected argument (@" ++ owner ++ " takes at most " ++ toString arity ++ ")"

/-- An argument position, counted from zero, that does not fit. -/
structure Mismatch where
  position : Nat
  fault : ArgumentFault
deriving DecidableEq, Repr

namespace ArgumentType

def fits : ArgumentType → Argument → Bool
  | any, _ => true
  | identifier, .identifier _ => true
  | identifier, .literal (.string _) => true
  | string, .literal (.string _) => true
  | number, .literal (.number _) => true
  | boolean, .literal (.bool _) => true
  | object, .literal (.object _) => true
  | _, _ => false

end ArgumentType

namespace Validator

def fault? (v : Validator) (argument : Argument) : Option ValueFault :=
  match v with
  | routePath =>
    match argument.asText? with
    | none => some .notRoute
    | some path => (Route.fault? path).map (.badRoute path)
  | httpMethod =>
    match argument.asText?.bind Verb.ofText? with
    | some _ => none
    | none => some .notVerb
  | httpStatus =>
    match argument.value.asNat? with
    | some code => if 100 ≤ code ∧ code ≤ 599 then none else some .notStatus
    | none => some .notStatus
  | nonEmpty =>
    match argument.asText? with
    | some text => if (Text.trim text).isEmpty then some .empty else none
    | none => some .empty

end Validator

namespace ArgumentSpec

def fault? (spec : ArgumentSpec) : Option Argument → Option ArgumentFault
  | none => if spec.optional then none else some (.missing spec.name)
  | some argument =>
    if !spec.type.fits argument then some (.wrongType spec.name spec.type argument.describe)
    else (spec.validator.bind (·.fault? argument)).map (.badValue spec.name)

end ArgumentSpec

namespace Definition

/-- Every argument position that does not fit, in order: first the declared positions, then those
beyond them. The arguments fit if there is none. -/
def mismatches (d : Definition) (arguments : List Argument) : List Mismatch :=
  let arity := d.arguments.length
  (d.arguments.zipIdx.filterMap fun (spec, position) =>
    (spec.fault? arguments[position]?).map (⟨position, ·⟩)) ++
  (List.range' arity (arguments.length - arity)).map (⟨·, .surplus d.name arity⟩)

def mismatchMessage (d : Definition) (mismatches : List Mismatch) : String :=
  "invalid arguments for @" ++ d.name ++ ": " ++
    String.intercalate "; "
      (mismatches.map fun m =>
        "argument " ++ toString (m.position + 1) ++ ": " ++ m.fault.message)

end Definition

end AnnotatedApi.Annotation
