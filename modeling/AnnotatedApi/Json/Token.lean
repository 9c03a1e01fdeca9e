import AnnotatedApi.Text.Digits

/-!
# Blanks and strings in JSON text

A string contains no control characters, and surrogate escapes stand in pairs. A string that is
passed over may have surrogates anywhere, for no character is made of them.
-/

namespace AnnotatedApi.Json

set_option autoImplicit false

open Text

/-! ## Blanks -/

def isBlank (c : Char) : Bool := c == ' ' || c == '\t' || c == '\n' || c == '\r'

def skipBlanks (cs : List Char) : List Char := cs.dropWhile isBlank

/-! ## Strings -/

/-- The character that two surrogates stand for. -/
def pairedChar? (high low : Nat) : Option Char :=
  if 0xD800 ≤ high ∧ high < 0xDC00 ∧ 0xDC00 ≤ low ∧ low < 0xE000 then
    charOf? (0x10000 + (high - 0xD800) * 0x400 + (low - 0xDC00))
  else none

/-- The character that a letter after a backslash stands for. -/
def escapeOf? : Char → Option Char
  | '"' => some '"'
  | '\\' => some '\\'
  | '/' => some '/'
  | 'b' => some '\x08'
  | 'f' => some '\x0c'
  | 'n' => some '\n'
  | 'r' => some '\r'
  | 't' => some '\t'
  | _ => none

/-- Reads the rest of a string, the opening quote and the characters in `done` (last one first)
being read already. -/
def readString (done : List Char) : List Char → Option (String × List Char)
  | [] => none
  | '"' :: rest => some (String.ofList done.reverse, rest)
  | '\\' :: 'u' :: a :: b :: c :: d :: '\\' :: 'u' :: e :: f :: g :: h :: rest =>
    match numberOf? 16 [a, b, c, d] with
    | none => none
    | some n =>
      match charOf? n with
      | some ch => readString (ch :: done) ('\\' :: 'u' :: e :: f :: g :: h :: rest)
      | none =>
        match (numberOf? 16 [e, f, g, h]).bind (pairedChar? n) with
        | some ch => readString (ch :: done) rest
        | none => none
  | '\\' :: 'u' :: a :: b :: c :: d :: rest =>
    match (numberOf? 16 [a, b, c, d]).bind charOf? with
    | some ch => readString (ch :: done) rest
    | none => none
  | '\\' :: c :: rest =>
    match escapeOf? c with
    | some ch => readString (ch :: done) rest
    | none => none
  | c :: rest => if c.toNat < 0x20 || c == '\\' then none else readString (c :: done) rest

def passString : List Char → Option (List Char)
  | [] => none
  | '"' :: rest => some rest
  | '\\' :: 'u' :: a :: b :: c :: d :: rest =>
    if [a, b, c, d].all (isDigitOf 16) then passString rest else none
  | '\\' :: c :: rest => if (escapeOf? c).isSome then passString rest else none
  | c :: rest => if c.toNat < 0x20 || c == '\\' then none else passString rest

end AnnotatedApi.Json
