import AnnotatedApi.Json.Value

/-!
# The tables of a TOML document

A document builds its tables piece by piece. A table is *open* when a header or a key in front of it
named only something inside it: it may still get a header of its own, or more parts through keys.
Once it had its header, it may only be extended by headers of tables inside it. What was written as
a value is complete.
-/

namespace AnnotatedApi.Toml

set_option autoImplicit false

inductive Standing where
  /-- By its own header. -/
  | headed
  /-- By the header of something inside it. -/
  | implied
  /-- By a key with several parts. -/
  | dotted
deriving DecidableEq, Repr

inductive Entry where
  | value (v : Json)
  | table (standing : Standing) (entries : List (String × Entry))
  /-- An array of tables, each with its own header. -/
  | tables (elements : List (List (String × Entry)))

abbrev Entries := Table Entry

namespace Entries

def changeLast (change : Entries → Option Entries) : List Entries → Option (List Entries)
  | [] => none
  | [last] => (change last).map ([·])
  | first :: rest => (changeLast change rest).map (first :: ·)

/-- Changes the table that a path of headers leads to, counting from the given table. Tables that
are missing on the way are implied; an array of tables stands for its last one. -/
def atPath (change : Entries → Option Entries) (entries : Entries) : List String → Option Entries
  | [] => change entries
  | key :: path =>
    match entries.get? key with
    | none => (atPath change [] path).map fun inner => entries.put key (.table .implied inner)
    | some (.table standing inner) =>
      (atPath change inner path).map fun inner => entries.put key (.table standing inner)
    | some (.tables elements) =>
      (changeLast (fun last => atPath change last path) elements).map fun elements =>
        entries.put key (.tables elements)
    | some (.value _) => none

/-- Gives a table its header. An implied one moves behind its neighbours. -/
def openTable (key : String) (entries : Entries) : Option Entries :=
  match entries.get? key with
  | none => some (entries.put key (.table .headed []))
  | some (.table .implied inner) =>
    some (Table.put (entries.filter (·.1 != key)) key (.table .headed inner))
  | some _ => none

def appendTable (key : String) (entries : Entries) : Option Entries :=
  match entries.get? key with
  | none => some (entries.put key (.tables [[]]))
  | some (.tables elements) => some (entries.put key (.tables (elements ++ [[]])))
  | some _ => none

/-- Writes the value of a key that may have several parts. The parts before the last lead through
tables that have no header, the innermost of which has come to be by such a key. -/
def putValue (value : Json) (entries : Entries) : List String → Option Entries
  | [] => none
  | [key] => if entries.has key then none else some (entries.put key (.value value))
  | key :: path =>
    match entries.get? key with
    | none => (putValue value [] path).map fun inner => entries.put key (.table .dotted inner)
    | some (.table standing inner) =>
      if standing = .headed ∨ (standing = .implied ∧ path.length = 1) then none
      else (putValue value inner path).map fun inner => entries.put key (.table standing inner)
    | some (.tables elements) =>
      if path.length = 1 then none
      else
        (changeLast (fun last => putValue value last path) elements).map fun elements =>
          entries.put key (.tables elements)
    | some (.value _) => none

end Entries

mutual

def Entry.toJson : Entry → Json
  | .value v => v
  | .table _ entries => .object (membersOf entries)
  | .tables elements => .array (itemsOf elements)

def membersOf : List (String × Entry) → List (String × Json)
  | [] => []
  | (key, entry) :: rest => (key, entry.toJson) :: membersOf rest

def itemsOf : List (List (String × Entry)) → List Json
  | [] => []
  | entries :: rest => .object (membersOf entries) :: itemsOf rest

end

end AnnotatedApi.Toml
