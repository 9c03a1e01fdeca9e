import AnnotatedApi.Text.Digits

/-!
# Characters, strings and keys of TOML

A string stands between single quotes, taken as it is, or between double quotes, with escapes. One
between triple quotes may contain line ends, which count as line feeds, and quotes: one at the
beginning is dropped, and up to two quotes may stand right before the closing ones.

Control characters other than the tabulator stand nowhere, line ends are a line feed with or
without a carriage return before it.
-/

namespace AnnotatedApi.Toml

set_option autoImplicit false

/-! ## Characters -/

def isBlank (c : Char) : Bool := c == ' ' || c == '\t'

def isTextChar (c : Char) : Bool := c == '\t' || (' ' ≤ c && c != '\x7f')

def isKeyChar (c : Char) : Bool := c.isAlphanum || c == '_' || c == '-'

def skipBlanks (cs : List Char) : List Char := cs.dropWhile isBlank

def afterLineEnd? : List Char → Option (List Char)
  | '\n' :: rest => some rest
  | '\r' :: '\n' :: rest => some rest
  | _ => none

def dropLineEnd (cs : List Char) : List Char := (afterLineEnd? cs).getD cs

def skipComment : List Char → List Char
  | '#' :: rest => rest.dropWhile isTextChar
  | cs => cs

/-- The text of the next line, if this one holds nothing more than blanks and a comment. -/
def nextLine? (cs : List Char) : Option (List Char) :=
  match skipComment (skipBlanks cs) with
  | [] => some []
  | cs => afterLineEnd? cs

/-- Skips blanks, line ends and comments. -/
def skipFiller (comment : Bool) : List Char → List Char
  | [] => []
  | '\n' :: rest => skipFiller false rest
  | '\r' :: '\n' :: rest => skipFiller false rest
  | c :: rest =>
    if comment then if isTextChar c then skipFiller true rest else c :: rest
    else if isBlank c then skipFiller false rest
    else if c = '#' then skipFiller true rest
    else c :: rest

/-! ## Strings -/

def escapeOf? : Char → Option Char
  | '"' => some '"'
  | '\\' => some '\\'
  | 'b' => some '\x08'
  | 'f' => some '\x0c'
  | 'n' => some '\n'
  | 'r' => some '\r'
  | 't' => some '\t'
  | _ => none

def escapedChar? (digits : List Char) : Option Char := (Text.numberOf? 16 digits).bind Text.charOf?

/-- How many of the quotes after a closing triple belong to the string. -/
def trailingQuotes (quote : Char) : List Char → Nat
  | a :: b :: _ => if a = quote then if b = quote then 2 else 1 else 0
  | [a] => if a = quote then 1 else 0
  | [] => 0

/-- A string with some quotes at its end, and the text after them. -/
def closeBlock (quote : Char) (done rest : List Char) : String × List Char :=
  let n := trailingQuotes quote rest
  (String.ofList (done.reverse ++ List.replicate n quote), rest.drop n)

/-- Reads the rest of a string with escapes. `block` tells whether it stands between triple quotes,
`skipping` whether blanks and line ends are passed over, `done` holds the characters so far, the
last one first. -/
def readEscaped (block skipping : Bool) (done : List Char) :
    List Char → Option (String × List Char)
  | [] => none
  | '"' :: '"' :: '"' :: rest =>
    if block then some (closeBlock '"' done rest)
    else some (String.ofList done.reverse, '"' :: '"' :: rest)
  | '"' :: rest =>
    if block then readEscaped block false ('"' :: done) rest
    else some (String.ofList done.reverse, rest)
  | '\\' :: 'u' :: a :: b :: c :: d :: rest =>
    match escapedChar? [a, b, c, d] with
    | some ch => readEscaped block false (ch :: done) rest
    | none => none
  | '\\' :: 'U' :: a :: b :: c :: d :: e :: f :: g :: h :: rest =>
    match escapedChar? [a, b, c, d, e, f, g, h] with
    | some ch => readEscaped block false (ch :: done) rest
    | none => none
  | '\\' :: c :: rest =>
    match escapeOf? c with
    | some ch => readEscaped block false (ch :: done) rest
    | none =>
      if block && (afterLineEnd? (skipBlanks (c :: rest))).isSome then
        readEscaped block true done (c :: rest)
      else none
  | '\r' :: '\n' :: rest =>
    if block then readEscaped block skipping (if skipping then done else '\n' :: done) rest
    else none
  | c :: rest =>
    if c = '\n' then
      if block then readEscaped block skipping (if skipping then done else '\n' :: done) rest
      else none
    else if c = '\\' || !isTextChar c then none
    else if skipping && isBlank c then readEscaped block true done rest
    else readEscaped block false (c :: done) rest

def readLiteral (cs : List Char) : Option (String × List Char) :=
  match cs.span fun c => isTextChar c && c != '\'' with
  | (contents, '\'' :: rest) => some (String.ofList contents, rest)
  | _ => none

def readLiteralBlock (done : List Char) : List Char → Option (String × List Char)
  | [] => none
  | '\'' :: '\'' :: '\'' :: rest => some (closeBlock '\'' done rest)
  | '\r' :: '\n' :: rest => readLiteralBlock ('\n' :: done) rest
  | c :: rest =>
    if c = '\n' || isTextChar c then readLiteralBlock (c :: done) rest else none

def readString? : List Char → Option (String × List Char)
  | '"' :: '"' :: '"' :: rest => readEscaped true false [] (dropLineEnd rest)
  | '"' :: rest => readEscaped false false [] rest
  | '\'' :: '\'' :: '\'' :: rest => readLiteralBlock [] (dropLineEnd rest)
  | '\'' :: rest => readLiteral rest
  | _ => none

/-! ## Keys -/

/-- The number of parts that a key may have, plus one; also the number of containers that may be
nested, plus one. -/
def nestingLimit : Nat := 80

/-- Reads one part of a key: a name, or a string on one line. -/
def readKeyPart : List Char → Option (String × List Char)
  | '"' :: rest => readEscaped false false [] rest
  | '\'' :: rest => readLiteral rest
  | cs =>
    match cs.span isKeyChar with
    | ([], _) => none
    | (name, rest) => some (String.ofList name, rest)

/-- Reads a key, its parts separated by points, with blanks around each. It may have fewer parts
than the limit. -/
def readKey (limit : Nat) (cs : List Char) : Option (List String × List Char) :=
  match limit with
  | 0 | 1 => none
  | limit + 1 =>
    match readKeyPart (skipBlanks cs) with
    | none => none
    | some (part, rest) =>
      match skipBlanks rest with
      | '.' :: rest => (readKey limit rest).map fun (parts, rest) => (part :: parts, rest)
      | rest => some ([part], rest)

end AnnotatedApi.Toml
