import AnnotatedApi.Text.Hidden

/-!
# Quoted text in messages

A message quotes a text between double quotes. A quote and a backslash get a backslash before them,
four control characters have a letter, and a character that cannot be seen on its own is shown as
`\u` with its number in braces, in lower-case hexadecimal digits without leading zeros.
-/

namespace AnnotatedApi.Text

set_option autoImplicit false

def hexDigits (n : Nat) : List Char :=
  Nat.toDigits 16 n

/-- How one character is shown inside a quotation. -/
def quotedChar (c : Char) : List Char :=
  match c with
  | '\x00' => ['\\', '0']
  | '\t' => ['\\', 't']
  | '\r' => ['\\', 'r']
  | '\n' => ['\\', 'n']
  | '"' => ['\\', '"']
  | '\\' => ['\\', '\\']
  | c => if isHidden c then '\\' :: 'u' :: '\x7b' :: hexDigits c.toNat ++ ['\x7d'] else [c]

def quoted (s : String) : String :=
  String.ofList ('"' :: s.toList.flatMap quotedChar ++ ['"'])

/-- A set of texts as a message shows it: the quoted members between braces. -/
def quotedSet (members : List String) : String :=
  "\x7b" ++ String.intercalate ", " (members.map quoted) ++ "\x7d"

end AnnotatedApi.Text
