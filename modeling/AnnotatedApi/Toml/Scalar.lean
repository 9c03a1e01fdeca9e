import AnnotatedApi.Json.Value
import AnnotatedApi.Text.Digits

/-!
# Scalars of TOML

A scalar is one unbroken token: a boolean, an integer of 64 bits, a floating-point number, a date, a
time, or both. Digits may be separated by single underscores. A date and time becomes an object
whose one member holds its text in normal form.
-/

namespace AnnotatedApi.Toml

set_option autoImplicit false

open Text

def isScalarChar (c : Char) : Bool :=
  c.isAlphanum || c == '_' || c == '+' || c == '-' || c == '.' || c == ':'

/-! ## Numbers -/

/-- The digits of a number to a base, without the underscores that separate them. -/
def digits? (base : Nat) : List Char → Option (List Char)
  | [] => none
  | [c] => if isDigitOf base c then some [c] else none
  | c :: '_' :: rest => if isDigitOf base c then (digits? base rest).map (c :: ·) else none
  | c :: rest => if isDigitOf base c then (digits? base rest).map (c :: ·) else none

def signed : List Char → Bool × List Char
  | '-' :: rest => (true, rest)
  | '+' :: rest => (false, rest)
  | cs => (false, cs)

/-- Digits of which the first is not zero, unless there is only one. -/
def wholeDigits? (cs : List Char) : Option (List Char) :=
  match cs with
  | '0' :: _ :: _ => none
  | cs => digits? 10 cs

def integer? (negative : Bool) (magnitude : Nat) : Option Json :=
  if negative then
    if magnitude ≤ Nat.pow 2 63 then some (.number (.integer (-(magnitude : Int)))) else none
  else if magnitude < Nat.pow 2 63 then some (.number (.integer magnitude))
  else none

/-- The integer that a token spells; one to another base than ten has no sign. -/
def integerOf? (token : List Char) : Option Json :=
  match token with
  | '0' :: 'x' :: rest => ((digits? 16 rest).bind (numberOf? 16)).bind (integer? false)
  | '0' :: 'o' :: rest => ((digits? 8 rest).bind (numberOf? 8)).bind (integer? false)
  | '0' :: 'b' :: rest => ((digits? 2 rest).bind (numberOf? 2)).bind (integer? false)
  | token =>
    let (negative, rest) := signed token
    (wholeDigits? rest).bind fun ds => integer? negative (decimalNumber ds)

/-- The rank of the double nearest to `significand * 10 ^ exponent`. Numbers from `10 ^ 310` on are
infinite, and below `10 ^ (-330)` nothing is left of them. -/
def decimalRank (significand : Nat) (exponent : Int) : Nat :=
  let top := exponent + (Nat.toDigits 10 significand).length
  if significand = 0 || top < -330 then 0
  else if 310 < top then Binary64.infinityRank
  else if exponent < 0 then Binary64.nearestRank significand (Nat.pow 10 exponent.natAbs)
  else Binary64.nearestRank (significand * Nat.pow 10 exponent.natAbs) 1

/-- The part of a floating-point number before the exponent: its digits, and how many of them stand
after the point. -/
def mantissa? (cs : List Char) : Option (List Char × Nat) :=
  match cs.span (· != '.') with
  | (whole, []) => (wholeDigits? whole).map (·, 0)
  | (whole, _ :: places) => do
    let whole ← wholeDigits? whole
    let places ← digits? 10 places
    return (whole ++ places, places.length)

def exponent? (cs : List Char) : Option Int :=
  let (down, rest) := signed cs
  (digits? 10 rest).map fun ds =>
    if down then -(decimalNumber ds : Int) else (decimalNumber ds : Int)

def real? (negative : Bool) (digits : List Char) (exponent : Int) : Option Json :=
  let rank := decimalRank (decimalNumber digits) exponent
  if rank = Binary64.infinityRank && !negative then none
  else some (.number (.real ⟨negative, rank⟩))

/-- The floating-point number that a token spells, with a point or an exponent. -/
def realOf? (token : List Char) : Option Json :=
  let (negative, rest) := signed token
  if rest = "inf".toList then some (.number (.real ⟨negative, Binary64.infinityRank⟩))
  else if rest = "nan".toList then some (.number (.real ⟨negative, Binary64.infinityRank + 1⟩))
  else
    match rest.span fun c => c != 'e' && c != 'E' with
    | (number, []) =>
      if number.contains '.' then
        (mantissa? number).bind fun (ds, places) => real? negative ds (-(places : Int))
      else none
    | (number, _ :: power) => do
      let (ds, places) ← mantissa? number
      let power ← exponent? power
      real? negative ds (power - places)

/-! ## Dates and times -/

/-- A number of exactly the given count of digits, between two bounds. -/
def field? (count low high : Nat) (cs : List Char) : Option (Nat × List Char) :=
  let ds := cs.take count
  if ds.length = count ∧ ds.all isDigit then
    let n := decimalNumber ds
    if low ≤ n ∧ n ≤ high then some (n, cs.drop count) else none
  else none

def after? (c : Char) : List Char → Option (List Char)
  | d :: rest => if d = c then some rest else none
  | [] => none

def daysOfMonth (year month : Nat) : Nat :=
  match month with
  | 2 => if year % 4 = 0 ∧ (year % 100 ≠ 0 ∨ year % 400 = 0) then 29 else 28
  | 4 | 6 | 9 | 11 => 30
  | _ => 31

def padded (count n : Nat) : List Char :=
  let ds := Nat.toDigits 10 n
  List.replicate (count - ds.length) '0' ++ ds

/-- Reads a date; gives its normal form and the rest. -/
def date? (cs : List Char) : Option (List Char × List Char) := do
  let (year, cs) ← field? 4 0 9999 cs
  let cs ← after? '-' cs
  let (month, cs) ← field? 2 1 12 cs
  let cs ← after? '-' cs
  let (day, cs) ← field? 2 1 (daysOfMonth year month) cs
  return (padded 4 year ++ '-' :: padded 2 month ++ '-' :: padded 2 day, cs)

/-- The fraction of a second in normal form: nine digits at most, no zeros at the end. -/
def fraction (digits : List Char) : List Char :=
  match ((digits.take 9).reverse.dropWhile (· == '0')).reverse with
  | [] => []
  | ds => '.' :: ds

def time? (cs : List Char) : Option (List Char × List Char) := do
  let (hour, cs) ← field? 2 0 23 cs
  let cs ← after? ':' cs
  let (minute, cs) ← field? 2 0 59 cs
  let cs ← after? ':' cs
  let (second, cs) ← field? 2 0 60 cs
  let text := padded 2 hour ++ ':' :: padded 2 minute ++ ':' :: padded 2 second
  match cs with
  | '.' :: cs =>
    match cs.span isDigit with
    | ([], _) => none
    | (digits, rest) => return (text ++ fraction digits, rest)
  | cs => return (text, cs)

/-- An offset from universal time in normal form, which is the rest of a token. -/
def offset? : List Char → Option (List Char)
  | [] => some []
  | ['Z'] | ['z'] => some ['Z']
  | sign :: rest => do
    let (hours, rest) ← field? 2 0 23 rest
    let rest ← after? ':' rest
    let (minutes, rest) ← field? 2 0 59 rest
    let mark := if sign = '-' ∧ 0 < hours + minutes then '-' else '+'
    if (sign = '+' ∨ sign = '-') ∧ rest.isEmpty then
      return mark :: padded 2 hours ++ ':' :: padded 2 minutes
    else none

def moment (text : List Char) : Json :=
  .object [("$__toml_private_datetime", .string (String.ofList text))]

/-- The date, the time, or both that a token spells; a date and a time are separated by one
character. -/
def momentOf? (token : List Char) : Option Json :=
  match date? token with
  | some (day, []) => some (moment day)
  | some (day, separator :: rest) =>
    if separator = 'T' ∨ separator = 't' ∨ separator = ' ' then do
      let (time, rest) ← time? rest
      let offset ← offset? rest
      return moment (day ++ 'T' :: time ++ offset)
    else none
  | none =>
    match time? token with
    | some (time, []) => some (moment time)
    | _ => none

/-! ## Tokens -/

def scalarOf? (token : List Char) : Option Json :=
  if token = "true".toList then some (.bool true)
  else if token = "false".toList then some (.bool false)
  else ((momentOf? token).or (integerOf? token)).or (realOf? token)

/-- Reads a scalar. A date takes in a time that follows after one blank. -/
def readScalar? (cs : List Char) : Option (Json × List Char) :=
  let (token, rest) := cs.span isScalarChar
  match date? token, rest with
  | some (_, []), ' ' :: more =>
    match more.span isScalarChar with
    | ([], _) => (scalarOf? token).map (·, rest)
    | (time, rest) => (momentOf? (token ++ ' ' :: time)).map (·, rest)
  | _, _ => (scalarOf? token).map (·, rest)

end AnnotatedApi.Toml
