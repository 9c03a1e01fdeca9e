import AnnotatedApi.Source.Line
import AnnotatedApi.Text.Width

/-!
# Labels under a source

A label covers some characters of a source. Its message stands below the last line that it covers,
at the end of a stroke: one of several lines hangs on the margin of these lines, and one within a
line on a corner below its middle character. The stroke of a line runs on to two characters after
the last one that a label of the line covers.

Corner and stroke are drawn as wide as the characters above them. A label can be seen if its corner
takes a column and at least one column of stroke is left after it.
-/

namespace AnnotatedApi.CommandLine

set_option autoImplicit false

open Source Text

/-- A label: the characters from `start` up to `stop`, at least one, and what it says. -/
structure Label where
  start : Nat
  stop : Nat
  message : String
deriving DecidableEq, Repr

namespace Label

def isInside (source : List Char) (l : Label) : Bool := l.stop ≤ source.length

def isInLine (source : List Char) (l : Label) : Bool :=
  lineStart source l.start == lineStart source (l.stop - 1)

/-- The index of the character that the corner of a label stands below. -/
def middle (l : Label) : Nat := (l.start + l.stop) / 2

/-- How far the labels of a report reach in the line that starts at an index. One of several lines
takes all of the last one. -/
def reach (source : List Char) (labels : List Label) (start : Nat) : Nat :=
  let here := labels.filter fun l => l.isInside source && lineStart source (l.stop - 1) == start
  let extents := here.map fun l =>
    if l.isInLine source then l.stop - start else (firstLine (source.drop start)).length
  extents.foldl max 0

/-- How many columns a character takes in its line; a tab fills up to a multiple of four. -/
def columnsIn (place : Nat) (c : Char) : Nat := if c = '\t' then 4 - place % 4 else columns c

/-- Whether corner and stroke of a label can be seen. After the end of the line every place takes a
column. -/
def hasStroke (source : List Char) (labels : List Label) (l : Label) : Bool :=
  let start := lineStart source l.start
  let characters := firstLine (source.drop start)
  let place := l.middle - start
  let reached := reach source labels start + 2
  match (characters[place]?).map (columnsIn place) with
  | some 0 => false
  | some 1 =>
    characters.length < reached ||
      ((characters.drop (place + 1)).take (reached - (place + 1))).any fun c => columns c != 0
  | _ => true

def isSeen (source : List Char) (labels : List Label) (l : Label) : Bool :=
  l.isInside source && (!l.isInLine source || hasStroke source labels l)

end Label

end AnnotatedApi.CommandLine
