import AnnotatedApi.Source.Span

/-!
# Diagnostics

What an extraction has to say about its input. A diagnostic with an error kind of its own costs the
handler or the class that it is about; a warning costs nothing.
-/

namespace AnnotatedApi

set_option autoImplicit false

inductive Severity where
  | error
  | warning
  | info
deriving DecidableEq, Repr

inductive ErrorKind where
  /-- A type has no normalized form. -/
  | unsupportedType
  /-- Arguments do not fit their annotation. -/
  | argumentShape
  /-- A parameter's type is not one that its binding accepts. -/
  | typeRestriction
  /-- Two annotations claim one place. -/
  | conflictingBinding
  /-- A dependency found nothing in its scope. -/
  | dependencyResolution
  /-- Two handlers share verb and route. -/
  | duplicateRoute
  /-- An annotation stands where it does not apply. -/
  | misplaced
  /-- A parameter has no binding. -/
  | missingBinding
deriving DecidableEq, Repr

namespace Severity

def name : Severity → String
  | error => "error"
  | warning => "warning"
  | info => "info"

end Severity

namespace ErrorKind

def all : List ErrorKind :=
  [unsupportedType, argumentShape, typeRestriction, conflictingBinding, dependencyResolution,
    duplicateRoute, misplaced, missingBinding]

def name : ErrorKind → String
  | unsupportedType => "UnsupportedType"
  | argumentShape => "ArgumentShape"
  | typeRestriction => "TypeRestriction"
  | conflictingBinding => "ConflictingBinding"
  | dependencyResolution => "DependencyResolution"
  | duplicateRoute => "DuplicateRoute"
  | misplaced => "MisplacedAnnotation"
  | missingBinding => "MissingBinding"

def code (k : ErrorKind) : String := k.name ++ "Error"

def ofCode? (code : String) : Option ErrorKind := all.find? (·.code == code)

end ErrorKind

/-- A further place that a diagnostic points to. -/
structure RelatedSpan where
  span : Span
  message : String
deriving DecidableEq, Repr

structure Diagnostic where
  severity : Severity
  kind : Option ErrorKind
  message : String
  span : Option Span
  related : List RelatedSpan
  suggestion : Option String
deriving DecidableEq, Repr

namespace Diagnostic

def error (kind : ErrorKind) (message : String) (span : Span) : Diagnostic :=
  ⟨.error, some kind, message, some span, [], none⟩

def warning (message : String) (span : Span) : Diagnostic :=
  ⟨.warning, none, message, some span, [], none⟩

def withRelated (d : Diagnostic) (span : Span) (message : String) : Diagnostic :=
  { d with related := d.related ++ [⟨span, message⟩] }

def withSuggestion (d : Diagnostic) (text : String) : Diagnostic :=
  { d with suggestion := some text }

def isError (d : Diagnostic) : Bool := d.severity == .error

/-- The rendered text: severity, code and message, and on a line of its own the place. -/
def render (d : Diagnostic) : String :=
  d.severity.name ++
    (match d.kind with
      | some kind => "[" ++ kind.code ++ "]"
      | none => "") ++
    ": " ++ d.message ++
    (match d.span with
      | some span => "\n  --> " ++ span.display
      | none => "")

def toJson (d : Diagnostic) : Json :=
  .object <|
    Json.member "severity" (.string d.severity.name) ++
    Json.memberIfSome "kind" (d.kind.map fun k => .string k.name) ++
    Json.member "message" (.string d.message) ++
    Json.memberIfSome "span" (d.span.map Span.toJson) ++
    Json.memberIfAny "related"
      (d.related.map fun r => .object [("span", r.span.toJson), ("message", .string r.message)]) ++
    Json.memberIfSome "suggestion" (d.suggestion.map .string)

end Diagnostic

def errorCount (ds : List Diagnostic) : Nat := ds.countP Diagnostic.isError

end AnnotatedApi
