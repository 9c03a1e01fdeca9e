import AnnotatedApi.Json.Value
import AnnotatedApi.Text.Digits

/-!
# Numbers in JSON text

A numeral is a number as it is written: a sign, digits before the point, digits after it, and an
exponent. Every numeral has a form, but not every one has a value: a number that is too large is
none.

The value is read from the leading digits, as many as fit 64 bits, and a power of ten. The digits
are rounded to a double, the power of ten is rounded to a double, and their product or quotient is
rounded once more; for up to fifteen digits and powers up to `10 ^ 22` this is the nearest double.
-/

namespace AnnotatedApi.Json

set_option autoImplicit false

open Text

/-! ## Form -/

/-- A number as it is written. Without a point there are no `places`. -/
structure Numeral where
  negative : Bool
  whole : List Char
  places : List Char
  /-- Whether the exponent is negative, and its digits. -/
  exponent : Option (Bool × List Char)
deriving DecidableEq, Repr

def readExponent (cs : List Char) : Option ((Bool × List Char) × List Char) :=
  let (down, cs) := match cs with
    | '+' :: rest => (false, rest)
    | '-' :: rest => (true, rest)
    | cs => (false, cs)
  let (digits, rest) := cs.span isDigit
  if digits.isEmpty then none else some ((down, digits), rest)

namespace Numeral

def readEnd (n : Numeral) : List Char → Option (Numeral × List Char)
  | 'e' :: rest | 'E' :: rest =>
    (readExponent rest).map fun (exponent, rest) => ({ n with exponent := some exponent }, rest)
  | rest => some (n, rest)

/-- Reads a numeral after its sign. A zero stands alone before the point. -/
def readUnsigned (negative : Bool) (cs : List Char) : Option (Numeral × List Char) :=
  let (whole, rest) := cs.span isDigit
  if whole.isEmpty || (whole.length > 1 && whole.head? == some '0') then none
  else
    match rest with
    | '.' :: rest =>
      let (places, rest) := rest.span isDigit
      if places.isEmpty then none else readEnd ⟨negative, whole, places, none⟩ rest
    | rest => readEnd ⟨negative, whole, [], none⟩ rest

def read : List Char → Option (Numeral × List Char)
  | '-' :: rest => readUnsigned true rest
  | cs => readUnsigned false cs

end Numeral

/-! ## Value -/

/-- The leading digits of a number as far as they fit 64 bits, and the power of ten to go with
them. -/
structure Scaled where
  significand : Nat
  exponent : Int
  full : Bool

/-- Takes a digit before the point: one that no longer fits counts as a factor of ten, and so does
every digit after it. -/
def Scaled.whole (n : Scaled) (c : Char) : Scaled :=
  let next := 10 * n.significand + digitValue c
  if n.full || Nat.pow 2 64 ≤ next then { n with exponent := n.exponent + 1, full := true }
  else { n with significand := next }

/-- Takes a digit after the point: one that no longer fits is dropped, and so is every digit after
it. -/
def Scaled.place (n : Scaled) (c : Char) : Scaled :=
  let next := 10 * n.significand + digitValue c
  if n.full || Nat.pow 2 64 ≤ next then { n with full := true }
  else { n with significand := next, exponent := n.exponent - 1 }

/-- The rank of the double for `rank * 10 ^ exponent`, rounded step by step; none if it is too
large. Powers beyond `10 ^ 308` are no doubles: such a positive power makes the number too large
unless it is zero, such a negative power is divided out in parts. Two parts leave nothing of any
64-bit number. -/
def scaleRank? (rank : Nat) (exponent : Int) : Nat → Option Nat
  | 0 => some 0
  | parts + 1 =>
    if exponent.natAbs ≤ 308 then
      let power := Binary64.nearestRank (Nat.pow 10 exponent.natAbs) 1
      if 0 ≤ exponent then
        let product := Binary64.timesRank rank power
        if product < Binary64.infinityRank then some product else none
      else some (Binary64.overRank rank power)
    else if rank = 0 then some 0
    else if 0 ≤ exponent then none
    else
      let power := Binary64.nearestRank (Nat.pow 10 308) 1
      scaleRank? (Binary64.overRank rank power) (exponent + 308) parts

/-- The double with the given sign, digits and power of ten. -/
def realOf? (negative : Bool) (n : Scaled) (exponent : Int) : Option Number :=
  (scaleRank? (Binary64.nearestRank n.significand 1) exponent 4).map fun rank =>
    .real ⟨negative, rank⟩

/-- An integer literal: an integer if it fits 64 bits, signed or unsigned, and is not a negative
zero; a double otherwise. -/
def integerOf? (negative : Bool) (digits : List Char) : Option Number :=
  let value := decimalNumber digits
  if !negative && value < Nat.pow 2 64 then some (.integer value)
  else if negative && 0 < value && value ≤ Nat.pow 2 63 then some (.integer (-value))
  else
    let n := digits.foldl Scaled.whole ⟨0, 0, false⟩
    realOf? negative n n.exponent

/-- The exponents a literal may give; a longer one counts as too large or as no number left. -/
def greatestExponent : Nat := Nat.pow 2 31 - 1

namespace Numeral

def scaled (n : Numeral) : Scaled :=
  n.places.foldl Scaled.place { n.whole.foldl Scaled.whole ⟨0, 0, false⟩ with full := false }

def value? (n : Numeral) : Option Number :=
  match n.exponent, n.places with
  | none, [] => integerOf? n.negative n.whole
  | none, _ => realOf? n.negative n.scaled n.scaled.exponent
  | some (down, digits), _ =>
    let value := decimalNumber digits
    if greatestExponent < value then
      if down || n.scaled.significand = 0 then some (.real ⟨n.negative, 0⟩) else none
    else
      realOf? n.negative n.scaled (n.scaled.exponent + if down then -(value : Int) else value)

end Numeral

end AnnotatedApi.Json
