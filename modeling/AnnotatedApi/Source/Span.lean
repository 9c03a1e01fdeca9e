import AnnotatedApi.Json.Record
import AnnotatedApi.Json.Shape

/-!
# Places in source text

A position is a 1-based line and column, and a byte offset where the host reports one. A span runs
from a start to an end in one file; hosts that only report a start leave the end at zero.
-/

namespace AnnotatedApi

set_option autoImplicit false

structure Position where
  line : Nat
  column : Nat
  offset : Nat
deriving DecidableEq, Repr

structure Span where
  file : String
  start : Position
  stop : Position
deriving DecidableEq, Repr

namespace Position

def zero : Position := ⟨0, 0, 0⟩

def display (p : Position) : String := toString p.line ++ ":" ++ toString p.column

def toJson (p : Position) : Json :=
  .object [("line", .ofNat p.line), ("column", .ofNat p.column), ("offset", .ofNat p.offset)]

def shape : Json.Shape := .record [("line", .whole), ("column", .whole), ("offset", .whole)]

def ofJson? (v : Json) : Option Position := do
  let fields ← v.record? .plain shape.names
  return {
    line := ← fields.needed "line" Json.word32?
    column := ← fields.needed "column" Json.word32?
    offset := ← fields.orElse "offset" 0 Json.word32? }

end Position

namespace Span

/-- The span of something that is nowhere. -/
def nowhere : Span := ⟨"", .zero, .zero⟩

/-- Whether the span points nowhere; its end does not matter. -/
def isNowhere (s : Span) : Bool := s.file.isEmpty && s.start == .zero

def display (s : Span) : String := s.file ++ ":" ++ s.start.display

def toJson (s : Span) : Json :=
  .object [("file", .string s.file), ("start", s.start.toJson), ("end", s.stop.toJson)]

def shape : Json.Shape :=
  .record [("file", .whole), ("start", Position.shape), ("end", Position.shape)]

def ofJson? (v : Json) : Option Span := do
  let fields ← v.record? .plain shape.names
  return {
    file := ← fields.needed "file" Json.asString?
    start := ← fields.needed "start" Position.ofJson?
    stop := ← fields.orElse "end" .zero Position.ofJson? }

end Span

end AnnotatedApi
