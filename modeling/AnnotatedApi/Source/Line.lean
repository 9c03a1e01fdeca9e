/-!
# Lines of a source

A line ends after a line feed, a carriage return, or one of five other characters; a carriage return
and a line feed end it together. The characters that end a line belong to it, and so does the end of
the source to its last line.
-/

namespace AnnotatedApi.Source

set_option autoImplicit false

def isLineEnd (c : Char) : Bool :=
  ['\n', '\r', '\x0b', '\x0c', '\u0085', '\u2028', '\u2029'].contains c

def endsLine (c : Char) (rest : List Char) : Bool :=
  isLineEnd c && !(c == '\r' && rest.head? == some '\n')

/-- Line and column of the character at an index, counted on from the line and column of the first
one. -/
def lineAndColumn (line column index : Nat) : List Char → Nat × Nat
  | [] => (line, column)
  | c :: rest =>
    if index = 0 then (line, column)
    else if endsLine c rest && !rest.isEmpty then lineAndColumn (line + 1) 1 (index - 1) rest
    else lineAndColumn line (column + 1) (index - 1) rest

def firstLine : List Char → List Char
  | [] => []
  | c :: rest => if endsLine c rest then [c] else c :: firstLine rest

/-- The number of characters before the line that has the character at an index. -/
def lineStart (source : List Char) (index : Nat) : Nat :=
  index + 1 - (lineAndColumn 1 1 index source).2

end AnnotatedApi.Source
