import AnnotatedApi.CommandLine.Label
import AnnotatedApi.Diagnostic
import AnnotatedApi.Source.CharRange

/-!
# Printing diagnostics

A diagnostic about a file that can be read is printed with the place in that file and with a label
for each stretch of it that the diagnostic points to. Any other is printed plainly.
-/

namespace AnnotatedApi.CommandLine

set_option autoImplicit false

/-! ## Plain -/

/-- The lines of a diagnostic without its source, and an empty one. -/
def plainLines (d : Diagnostic) : List String :=
  [d.render] ++
  d.related.map (fun r => "   = note: " ++ r.message ++ " (" ++ r.span.display ++ ")") ++
  (d.suggestion.map fun text => "   = help: " ++ text).toList ++
  [""]

/-! ## With the source -/

def headline (d : Diagnostic) : String :=
  (match d.kind with
    | some kind => "[" ++ kind.code ++ "] "
    | none => "") ++
  (if d.isError then "Error" else "Warning") ++ ": " ++ d.message

def labels (d : Diagnostic) (span : Span) (source : List Char) : List Label :=
  let places := (span, d.message) ::
    (d.related.filter (·.span.file == span.file)).map fun r => (r.span, r.message)
  places.map fun (place, message) =>
    let (start, stop) := place.charRange source
    ⟨start, stop, message⟩

/-- The messages of the labels that can be seen, sorted. -/
def labelMessages (d : Diagnostic) (span : Span) (source : List Char) : List String :=
  let all := labels d span source
  ((all.filter (Label.isSeen source all)).map (·.message)).mergeSort fun s t => decide (s ≤ t)

/-- The lines of a diagnostic with its source. Of an empty source there is nothing to show. -/
def sourceLines (d : Diagnostic) (span : Span) (source : List Char) : List String :=
  if source.isEmpty then [headline d]
  else
    let (line, column) := Source.lineAndColumn 1 1 (span.charRange source).1 source
    [headline d,
      "at " ++ span.file ++ ":" ++ toString line ++ ":" ++ toString column] ++
    (d.suggestion.map fun text => "help " ++ text).toList ++
    (labelMessages d span source).map fun message => "label " ++ message

/-- The file whose source a diagnostic is printed with. -/
def sourceSpan? (d : Diagnostic) : Option Span := d.span.filter fun span => !span.isNowhere

def diagnosticLines (d : Diagnostic) (source : Option String) : List String :=
  match sourceSpan? d, source with
  | some span, some text => sourceLines d span text.toList
  | _, _ => plainLines d

end AnnotatedApi.CommandLine
