import AnnotatedApi.Source.Span

/-!
# The characters of a span

A report marks characters, counted from the start of the file. A position with a byte offset is at
the first character that starts at or after that byte; one without an offset is found by its line,
a line running up to and including its line feed, and its column. A span without an end, and one
that ends where it starts or before, covers one character.
-/

namespace AnnotatedApi

set_option autoImplicit false

def charsBeforeByte (byte : Nat) : List Char → Nat
  | [] => 0
  | c :: rest => if byte = 0 then 0 else charsBeforeByte (byte - c.utf8Size) rest + 1

/-- How many characters the first lines have, line feeds included. -/
def charsOfLines : Nat → List Char → Nat
  | 0, _ => 0
  | _, [] => 0
  | lines + 1, c :: rest =>
    (if c = '\n' then charsOfLines lines rest else charsOfLines (lines + 1) rest) + 1

namespace Position

/-- The number of characters before a position; a column beyond its line runs on into the next
lines, or past the end. -/
def charIndex (source : List Char) (p : Position) : Nat :=
  if p.offset > 0 || p.line = 0 then charsBeforeByte p.offset source
  else charsOfLines (p.line - 1) source + (p.column - 1)

end Position

namespace Span

/-- The characters a report marks: at least one, the first of them not past the end of the
source. -/
def charRange (source : List Char) (s : Span) : Nat × Nat :=
  let count := source.length
  let start := min (s.start.charIndex source) count
  let stop := if s.stop = .zero then start else s.stop.charIndex source
  (start, min (max stop (start + 1)) (max count (start + 1)))

end Span

end AnnotatedApi
