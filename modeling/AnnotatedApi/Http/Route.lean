/-!
# Route templates

A route is a list of segments, each after a `/`; a part of it between braces is a path token and
stands for a value. A segment `:name` is another spelling of the token with that name. Two routes
that differ in the names of their tokens only are dispatched together: they have the same key, in
which every token is left empty.

The operations work on lists of characters; `Route.normalize`, `Route.join`, `Route.key` and
`Route.tokens` are the same on texts.
-/

namespace AnnotatedApi.Route

set_option autoImplicit false

/-! ## Normal form -/

def parts : List Char → List (List Char)
  | [] => [[]]
  | c :: rest =>
    if c = '/' then [] :: parts rest
    else
      match parts rest with
      | [] => [[c]]
      | part :: others => (c :: part) :: others

/-- A segment with its token spelled in braces. -/
def braced : List Char → List Char
  | ':' :: c :: rest => '\x7b' :: c :: rest ++ ['\x7d']
  | segment => segment

def segments (path : List Char) : List (List Char) :=
  ((parts path).filter (!·.isEmpty)).map braced

def ofSegments : List (List Char) → List Char
  | [] => ['/']
  | segments => segments.flatMap ('/' :: ·)

/-- The normal form: a leading slash, no empty segment, no trailing slash unless the route is the
root, and all tokens in braces. -/
def normalizeChars (path : List Char) : List Char := ofSegments (segments path)

def joinChars (base path : List Char) : List Char := normalizeChars (base ++ '/' :: path)

/-! ## Tokens -/

/-- The key of a route, inside a token or not: every token is reduced to its braces. A token that
is not closed runs to the end. -/
def keyChars (inside : Bool) : List Char → List Char
  | [] => []
  | c :: rest =>
    if c = '\x7b' then '\x7b' :: '\x7d' :: keyChars true rest
    else if inside then keyChars (c != '\x7d') rest
    else c :: keyChars false rest

/-- The names of the tokens, in order: what stands between an opening brace and the next closing
one. `name` is the part already read of a token, the last character first. -/
def tokenChars (name : Option (List Char)) : List Char → List (List Char)
  | [] => []
  | c :: rest =>
    match name with
    | none => tokenChars (if c = '\x7b' then some [] else none) rest
    | some name =>
      if c = '\x7d' then name.reverse :: tokenChars none rest
      else tokenChars (some (c :: name)) rest

/-! ## Checking -/

inductive Fault where
  | noLeadingSlash
  | nestedToken
  | unmatchedBrace
  | emptyToken
  | badToken
  | unclosedToken
deriving DecidableEq, Repr

def isTokenChar (c : Char) : Bool := c.isAlphanum || c == '_'

/-- The first fault of the rest of a route; `name` is the number of characters that the open token
has so far. -/
def faultOfTokens? (name : Option Nat) : List Char → Option Fault
  | [] => if name.isSome then some .unclosedToken else none
  | c :: rest =>
    match name with
    | none =>
      if c = '\x7b' then faultOfTokens? (some 0) rest
      else if c = '\x7d' then some .unmatchedBrace
      else faultOfTokens? none rest
    | some length =>
      if c = '\x7b' then some .nestedToken
      else if c = '\x7d' then
        if length = 0 then some .emptyToken else faultOfTokens? none rest
      else if isTokenChar c then faultOfTokens? (some (length + 1)) rest
      else some .badToken

/-- The first fault of a route text. An empty text is a route, and any other starts with a slash. -/
def faultOf? (path : List Char) : Option Fault :=
  match path with
  | [] => none
  | '/' :: _ => faultOfTokens? none path
  | _ => some .noLeadingSlash

def Fault.message (path : String) : Fault → String
  | noLeadingSlash => "route `" ++ path ++ "` must start with `/`"
  | nestedToken => "route `" ++ path ++ "` nests `\x7b`"
  | unmatchedBrace => "route `" ++ path ++ "` has an unmatched `\x7d`"
  | emptyToken => "route `" ++ path ++ "` has an empty path token"
  | badToken => "route `" ++ path ++ "` has an invalid path token"
  | unclosedToken => "route `" ++ path ++ "` has an unclosed `\x7b`"

/-! ## On texts -/

def normalize (path : String) : String := String.ofList (normalizeChars path.toList)

def join (base path : String) : String := String.ofList (joinChars base.toList path.toList)

def key (route : String) : String := String.ofList (keyChars false route.toList)

def tokens (route : String) : List String := (tokenChars none route.toList).map String.ofList

def fault? (path : String) : Option Fault := faultOf? path.toList

end AnnotatedApi.Route
