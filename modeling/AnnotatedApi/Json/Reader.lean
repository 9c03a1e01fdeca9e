import AnnotatedApi.Json.Numeral
import AnnotatedApi.Json.Shape
import AnnotatedApi.Json.Token

/-!
# Reading JSON

The reader is strict: no comments, no trailing commas, and nothing but blanks after the value. What
is used of the document may be nested 127 containers deep.

A member that is not used is passed over. It has to be well formed, but nothing is made of it, so
that it may hold numbers without a value and strings without characters, nested at any depth.
-/

namespace AnnotatedApi.Json

set_option autoImplicit false

/-! ## Passing over a value -/

inductive Container where
  | array
  | object

/-- What follows the end of a container, if it ends here. -/
def Container.afterEnd? : Container → List Char → Option (List Char)
  | array, ']' :: rest => some rest
  | object, '\x7d' :: rest => some rest
  | _, _ => none

/-- The start of the next value in a container: in an object it follows a name and a colon. -/
def Container.toValue? : Container → List Char → Option (List Char)
  | array, cs => some cs
  | object, '"' :: rest =>
    match (passString rest).map skipBlanks with
    | some (':' :: rest) => some (skipBlanks rest)
    | _ => none
  | object, _ => none

/-- Passes over a value that is no container, or over the start of one. -/
def passStart : List Char → Option (Option Container × List Char)
  | 'n' :: 'u' :: 'l' :: 'l' :: rest => some (none, rest)
  | 't' :: 'r' :: 'u' :: 'e' :: rest => some (none, rest)
  | 'f' :: 'a' :: 'l' :: 's' :: 'e' :: rest => some (none, rest)
  | '"' :: rest => (passString rest).map (none, ·)
  | '[' :: rest => some (some .array, skipBlanks rest)
  | '\x7b' :: rest => some (some .object, skipBlanks rest)
  | cs => (Numeral.read cs).map fun (_, rest) => (none, rest)

/-- Passes over the rest of a value inside the `opened` containers, innermost first. A value starts
right here if `atValue` is set, else one has just ended. `fuel` bounds the number of steps. -/
def pass (fuel : Nat) (atValue : Bool) (opened : List Container) (cs : List Char) :
    Option (List Char) :=
  match fuel with
  | 0 => none
  | fuel + 1 =>
    if atValue then
      match passStart cs with
      | none => none
      | some (none, rest) => pass fuel false opened rest
      | some (some container, rest) =>
        match container.afterEnd? rest with
        | some rest => pass fuel false opened rest
        | none =>
          match container.toValue? rest with
          | some rest => pass fuel true (container :: opened) rest
          | none => none
    else
      match opened, skipBlanks cs with
      | [], _ => some cs
      | container :: outer, ',' :: rest =>
        match container.toValue? (skipBlanks rest) with
        | some rest => pass fuel true (container :: outer) rest
        | none => none
      | container :: outer, rest =>
        match container.afterEnd? rest with
        | some rest => pass fuel false outer rest
        | none => none

/-- Passes over a value that starts right here. Every step takes a character or is the last one. -/
def passValue (cs : List Char) : Option (List Char) := pass (cs.length + 1) true [] cs

/-! ## Reading a value -/

mutual

/-- Reads a value that starts right here. At most `depth - 1` containers may be nested; `fuel`
bounds the number of steps. -/
def readValue (fuel depth : Nat) (shape : Shape) (cs : List Char) : Option (Json × List Char) :=
  match fuel with
  | 0 => none
  | fuel + 1 =>
    match cs with
    | 'n' :: 'u' :: 'l' :: 'l' :: rest => some (.null, rest)
    | 't' :: 'r' :: 'u' :: 'e' :: rest => some (.bool true, rest)
    | 'f' :: 'a' :: 'l' :: 's' :: 'e' :: rest => some (.bool false, rest)
    | '"' :: rest => (readString [] rest).map fun (s, rest) => (.string s, rest)
    | '[' :: rest =>
      if depth ≤ 1 then none
      else
        match skipBlanks rest with
        | ']' :: rest => some (.array [], rest)
        | rest => readItems fuel (depth - 1) shape 0 [] rest
    | '\x7b' :: rest =>
      if depth ≤ 1 then none
      else
        match skipBlanks rest with
        | '\x7d' :: rest => some (.object [], rest)
        | rest => readMembers fuel (depth - 1) shape [] rest
    | cs =>
      match Numeral.read cs with
      | some (n, rest) => n.value?.map fun value => (.number value, rest)
      | none => none

def readItems (fuel depth : Nat) (shape : Shape) (place : Nat) (done : List Json)
    (cs : List Char) : Option (Json × List Char) :=
  match fuel with
  | 0 => none
  | fuel + 1 =>
    match readValue fuel depth (shape.item place) cs with
    | none => none
    | some (item, rest) =>
      match skipBlanks rest with
      | ',' :: rest => readItems fuel depth shape (place + 1) (item :: done) (skipBlanks rest)
      | ']' :: rest => some (.array (item :: done).reverse, rest)
      | _ => none

def readMembers (fuel depth : Nat) (shape : Shape) (done : List (String × Json))
    (cs : List Char) : Option (Json × List Char) :=
  match fuel with
  | 0 => none
  | fuel + 1 =>
    match readMember fuel depth shape done cs with
    | none => none
    | some (done, rest) =>
      match skipBlanks rest with
      | ',' :: rest => readMembers fuel depth shape done (skipBlanks rest)
      | '\x7d' :: rest => some (.object done.reverse, rest)
      | _ => none

/-- Reads a member and adds it to those in `done` if it is used. -/
def readMember (fuel depth : Nat) (shape : Shape) (done : List (String × Json))
    (cs : List Char) : Option (List (String × Json) × List Char) :=
  match fuel, cs with
  | fuel + 1, '"' :: rest =>
    match readString [] rest with
    | none => none
    | some (name, rest) =>
      match skipBlanks rest with
      | ':' :: rest =>
        match shape.member? name with
        | none => (passValue (skipBlanks rest)).map (done, ·)
        | some shape =>
          (readValue fuel depth shape (skipBlanks rest)).map fun (value, rest) =>
            ((name, value) :: done, rest)
      | _ => none
  | _, _ => none

end

/-- How deeply containers may be nested, plus one. -/
def nestingLimit : Nat := 128

/-- Reads what is used of a document. No character takes more than three steps. -/
def parse? (shape : Shape) (text : String) : Option Json :=
  let cs := text.toList
  match readValue (3 * cs.length + 3) nestingLimit shape (skipBlanks cs) with
  | some (v, rest) => if (skipBlanks rest).isEmpty then some v else none
  | none => none

end AnnotatedApi.Json
