/-!
# Double-precision numbers

A double is kept as its sign and its *rank*: the place of its magnitude among all nonnegative
doubles, counted from zero. The finite magnitudes are ranks `0` to `infinityRank - 1`, then follows
infinity, and every larger rank is a NaN. The rank is also what the lower 63 bits of the usual
encoding spell, so nothing is lost, and neighbours in rank are neighbours on the number line.

All arithmetic here is exact on natural numbers with one rounding at the end: `nearestRank` takes a
quotient to the closest double, a tie to the even rank.
-/

namespace AnnotatedApi

set_option autoImplicit false

/-- A double-precision number: sign, and place of the magnitude among the nonnegative doubles. -/
structure Binary64 where
  negative : Bool
  rank : Nat
deriving DecidableEq, Repr

namespace Binary64

/-- How many doubles share one power of two. -/
def binade : Nat := Nat.pow 2 52

/-- The rank of infinity. -/
def infinityRank : Nat := 2047 * binade

def isFinite (x : Binary64) : Bool := decide (x.rank < infinityRank)

def isNaN (x : Binary64) : Bool := decide (infinityRank < x.rank)

/-- Equality of numbers: a NaN equals nothing, and the two zeros are equal. -/
def sameNumber (x y : Binary64) : Bool :=
  !x.isNaN && !y.isNaN && x.rank == y.rank && (x.negative == y.negative || x.rank == 0)

/-- The finite magnitude of a rank as `m * 2 ^ (e - 1074)`, in the form `(m, e)`. -/
def parts (rank : Nat) : Nat × Nat :=
  let place := rank / binade
  if place = 0 then (rank, 0) else (rank % binade + binade, place - 1)

/-- The finite magnitude of a rank as a quotient. -/
def quotient (rank : Nat) : Nat × Nat :=
  let (m, e) := parts rank
  (m * Nat.pow 2 e, Nat.pow 2 1074)

/-- The quotient rounded to a whole number, a tie to the even one. -/
def roundDiv (num den : Nat) : Nat :=
  let q := num / den
  let twice := 2 * (num % den)
  if twice < den then q
  else if den < twice then q + 1
  else if q % 2 = 0 then q else q + 1

/-- The exponent `e` for which `num / den = m * 2 ^ (e - 1074)` has `m` between `binade` and twice
that, or the least exponent if the quotient is too small. The leading powers of two of `num` and
`den` give it up to one. -/
def roundingExponent (num den : Nat) : Nat :=
  let estimate := num.log2 + 1022 - den.log2
  if num * Nat.pow 2 1074 < binade * den * Nat.pow 2 estimate then estimate - 1 else estimate

/-- The rank of the double nearest to `num / den`, a tie going to the even rank; infinity where the
quotient is too large. -/
def nearestRank (num den : Nat) : Nat :=
  if num = 0 then 0
  else
    let e := roundingExponent num den
    min (e * binade + roundDiv (num * Nat.pow 2 1074) (den * Nat.pow 2 e)) infinityRank

def ofNat (n : Nat) : Binary64 := ⟨false, nearestRank n 1⟩

def ofInt (n : Int) : Binary64 := ⟨decide (n < 0), nearestRank n.natAbs 1⟩

/-- The rounded product of two magnitudes, given by finite ranks. -/
def timesRank (a b : Nat) : Nat :=
  let (n, d) := quotient a
  let (n', d') := quotient b
  nearestRank (n * n') (d * d')

/-- The rounded quotient of two magnitudes, given by finite ranks, the second not zero. -/
def overRank (a b : Nat) : Nat :=
  let (n, d) := quotient a
  let (n', d') := quotient b
  nearestRank (n * d') (d * n')

def toInt? (x : Binary64) : Option Int :=
  let (num, den) := quotient x.rank
  if x.isFinite && num % den == 0 then
    some (if x.negative then -((num / den : Nat) : Int) else ((num / den : Nat) : Int))
  else none

end Binary64

end AnnotatedApi
