import AnnotatedApi.Toml.Scalar
import AnnotatedApi.Toml.Text
import AnnotatedApi.Toml.Tree

/-!
# Reading TOML

A document is a list of lines: headers of tables, headers of arrays of tables, and keys with their
values. It is read into one JSON object, its members in the order in which they were written.
-/

namespace AnnotatedApi.Toml

set_option autoImplicit false

/-! ## Values -/

mutual

/-- Reads a value that starts right here. At most `depth - 1` containers may be nested; `fuel`
bounds the number of steps. -/
def readValue (fuel depth : Nat) (cs : List Char) : Option (Json × List Char) :=
  match fuel with
  | 0 => none
  | fuel + 1 =>
    match cs with
    | '[' :: rest =>
      if depth ≤ 1 then none
      else
        match skipFiller false rest with
        | ']' :: rest => some (.array [], rest)
        | rest => readItems fuel (depth - 1) [] rest
    | '\x7b' :: rest =>
      if depth ≤ 1 then none
      else
        match skipBlanks rest with
        | '\x7d' :: rest => some (.object [], rest)
        | rest => readPairs fuel (depth - 1) [] rest
    | cs => ((readString? cs).map fun (s, rest) => (.string s, rest)).or (readScalar? cs)

def readItems (fuel depth : Nat) (done : List Json) (cs : List Char) :
    Option (Json × List Char) :=
  match fuel with
  | 0 => none
  | fuel + 1 =>
    match readValue fuel depth cs with
    | none => none
    | some (item, rest) =>
      match skipFiller false rest with
      | ',' :: rest =>
        match skipFiller false rest with
        | ']' :: rest => some (.array (item :: done).reverse, rest)
        | rest => readItems fuel depth (item :: done) rest
      | ']' :: rest => some (.array (item :: done).reverse, rest)
      | _ => none

def readPairs (fuel depth : Nat) (done : Entries) (cs : List Char) : Option (Json × List Char) :=
  match fuel with
  | 0 => none
  | fuel + 1 =>
    match readKey nestingLimit cs with
    | some (key, '=' :: rest) =>
      match readValue fuel depth (skipBlanks rest) with
      | none => none
      | some (value, rest) =>
        match done.putValue value key with
        | none => none
        | some done =>
          match skipBlanks rest with
          | ',' :: rest => readPairs fuel depth done rest
          | '\x7d' :: rest => some (.object (membersOf done), rest)
          | _ => none
    | _ => none

end

/-! ## Documents -/

/-- A document as far as it is read: its tables, and the header under which keys stand now. -/
structure Document where
  entries : Entries
  header : List String

namespace Document

def empty : Document := ⟨[], []⟩

/-- Starts the table of a header. -/
def start (openLast : String → Entries → Option Entries) (key : List String) (d : Document) :
    Option Document :=
  match key.getLast? with
  | none => none
  | some last => (d.entries.atPath (openLast last) key.dropLast).map (⟨·, key⟩)

def write (key : List String) (value : Json) (d : Document) : Option Document :=
  (d.entries.atPath (fun table => table.putValue value key) d.header).map (⟨·, d.header⟩)

def toJson (d : Document) : Json := .object (membersOf d.entries)

end Document

/-- Reads one line that is not blank, and gives the text after it. -/
def readLine (d : Document) (cs : List Char) : Option (Document × List Char) := do
  match cs with
  | '[' :: '[' :: rest =>
    match ← readKey nestingLimit rest with
    | (key, ']' :: ']' :: rest) => return (← d.start Entries.appendTable key, ← nextLine? rest)
    | _ => none
  | '[' :: rest =>
    match ← readKey nestingLimit rest with
    | (key, ']' :: rest) => return (← d.start Entries.openTable key, ← nextLine? rest)
    | _ => none
  | cs =>
    match ← readKey nestingLimit cs with
    | (key, '=' :: rest) =>
      let (value, rest) ← readValue (2 * rest.length + 2) nestingLimit (skipBlanks rest)
      return (← d.write key value, ← nextLine? rest)
    | _ => none

/-- Reads lines to the end of the text. Every line takes a character. -/
def readLines (fuel : Nat) (d : Document) (cs : List Char) : Option Document :=
  match fuel with
  | 0 => none
  | fuel + 1 =>
    match nextLine? cs, skipBlanks cs with
    | some [], _ => some d
    | some rest, _ => readLines fuel d rest
    | none, cs =>
      match readLine d cs with
      | some (d, rest) => readLines fuel d rest
      | none => none

/-- The text without a byte order mark. -/
def withoutMark : List Char → List Char
  | '\ufeff' :: rest => rest
  | cs => cs

def parse? (text : String) : Option Json :=
  let cs := withoutMark text.toList
  (readLines (cs.length + 1) .empty cs).map Document.toJson

end AnnotatedApi.Toml
