import AnnotatedApi.Number.Shortest

/-!
# The text of a double

Two texts of a double are in use. In a message a number stands in plain positional notation, with
neither an exponent nor a trailing `.0`. In a document it always shows that it is not an integer:
positionally with at least one decimal place while the decimal exponent lies between -5 and 15, in
scientific notation with a signed exponent otherwise.
-/

namespace AnnotatedApi.Binary64

set_option autoImplicit false

def digitChars (ds : List Nat) : String :=
  String.ofList (ds.map Nat.digitChar)

def zeros (n : Nat) : String :=
  String.ofList (List.replicate n '0')

/-- The decimal in positional notation; `places` is the least number of digits after the point. -/
def positional (d : Decimal) (places : Nat) : String :=
  let count := d.digits.length
  let fraction (s : String) : String := if s.isEmpty then "" else "." ++ s
  if d.exponent < 0 then
    "0" ++ fraction (zeros (d.exponent.natAbs - 1) ++ digitChars d.digits)
  else
    let whole := d.exponent.toNat + 1
    if count ≤ whole then
      digitChars d.digits ++ zeros (whole - count) ++ fraction (zeros places)
    else
      digitChars (d.digits.take whole) ++ fraction (digitChars (d.digits.drop whole))

/-- The decimal in scientific notation with one digit before the point. -/
def scientific (d : Decimal) : String :=
  let rest := digitChars (d.digits.drop 1)
  digitChars (d.digits.take 1) ++ (if rest.isEmpty then "" else "." ++ rest) ++
    (if d.exponent < 0 then "e-" else "e+") ++ toString d.exponent.natAbs

def sign (x : Binary64) : String := if x.negative then "-" else ""

/-- The text of a double in a message, a tie between two shortest decimals going upward. -/
def plainText (x : Binary64) : String :=
  if x.isNaN then "NaN"
  else if !x.isFinite then x.sign ++ "inf"
  else if x.rank = 0 then x.sign ++ "0"
  else x.sign ++ positional (shortest .upward x.rank) 0

/-- The text of a finite double in a document, a tie between two shortest decimals going to the
even digit. -/
def documentText (x : Binary64) : String :=
  if x.rank = 0 then x.sign ++ "0.0"
  else
    let d := shortest .toEven x.rank
    x.sign ++ if -5 ≤ d.exponent ∧ d.exponent ≤ 15 then positional d 1 else scientific d

end AnnotatedApi.Binary64
