import AnnotatedApi.Number.Binary64

/-!
# The shortest decimal that reads back

Every real number between the two midpoints around a double rounds to that double; the midpoints
themselves do so exactly when the double is even. Among the decimals in this interval the ones
with the fewest digits are wanted, and of these the nearest. For each digit count in turn only the
two neighbours of the double on the grid of that many digits have to be looked at: if any point of
the grid lies in the interval, so does one of them. Seventeen digits always suffice.
-/

namespace AnnotatedApi

set_option autoImplicit false

/-- Which of two equally near decimals is taken. -/
inductive DecimalTie where
  | toEven
  | upward
deriving DecidableEq, Repr

/-- A positive decimal: its significant digits, the first before the point, times a power of
ten. -/
structure Decimal where
  digits : List Nat
  exponent : Int
deriving DecidableEq, Repr

namespace Decimal

def digitsOf (n : Nat) : List Nat :=
  (Nat.toDigits 10 n).map fun c => c.toNat - '0'.toNat

/-- The decimal `n * 10 ^ scale`, without trailing zeros. -/
def ofScaled (n : Nat) (scale : Int) : Decimal :=
  let ds := digitsOf n
  ⟨(ds.reverse.dropWhile (· == 0)).reverse, scale + ds.length - 1⟩

end Decimal

namespace Binary64

/-- The numbers that round to the double of a finite positive rank, in units of a quarter of its
last place: the value, the ends of the interval, and whether the ends belong to it. Below a power
of two the spacing halves, so the lower end is nearer there. -/
structure Neighbourhood where
  value : Nat
  low : Nat
  high : Nat
  closed : Bool

def neighbourhood (rank : Nat) : Neighbourhood :=
  let (m, e) := parts rank
  ⟨4 * m, if m = binade ∧ 0 < e then 4 * m - 1 else 4 * m - 2, 4 * m + 2, m % 2 == 0⟩

/-- The quarter of the last place of a rank, as a quotient. -/
def quarterPlace (rank : Nat) : Nat × Nat :=
  (Nat.pow 2 (parts rank).2, Nat.pow 2 1076)

def powerOfTen (scale : Int) : Nat × Nat :=
  if scale < 0 then (1, Nat.pow 10 scale.natAbs) else (Nat.pow 10 scale.natAbs, 1)

/-- The count of digits before the point of `num / den`, not positive if it is below one tenth:
the least `k` with `num / den < 10 ^ k`. The estimate from the leading powers of two is at most
one too small. -/
def magnitudeOfTen (num den : Nat) : Int :=
  let bits : Int := (num.log2 : Int) - den.log2
  let estimate : Int := (bits - 1) * 30103 / 100000
  let below (k : Int) : Bool :=
    let (p, q) := powerOfTen k
    num * q < den * p
  if below estimate then estimate
  else if below (estimate + 1) then estimate + 1
  else if below (estimate + 2) then estimate + 2
  else estimate + 3

/-- The nearest decimal on the grid of multiples of `10 ^ scale` that reads back as the double of
the rank, if one of the two grid neighbours does. -/
def onGrid (tie : DecimalTie) (rank : Nat) (scale : Int) : Option Nat :=
  let n := neighbourhood rank
  let (unitNum, unitDen) := quarterPlace rank
  let (gridNum, gridDen) := powerOfTen scale
  -- both sides of a comparison in units of `1 / (unitDen * gridDen)`
  let quarter := unitNum * gridDen
  let step := gridNum * unitDen
  let value := n.value * quarter
  let below := value / step
  let fits (k : Nat) : Bool :=
    let point := k * step
    if n.closed then n.low * quarter ≤ point && point ≤ n.high * quarter
    else n.low * quarter < point && point < n.high * quarter
  let twice := 2 * (value - below * step)
  let upper : Bool :=
    if twice < step then false
    else if step < twice then true
    else match tie with
      | .toEven => below % 2 == 1
      | .upward => true
  match fits below, fits (below + 1) with
  | true, true => some (if upper then below + 1 else below)
  | true, false => some below
  | false, true => some (below + 1)
  | false, false => none

/-- The shortest decimal that reads back as the double of a finite positive rank; of several the
nearest. -/
def shortest (tie : DecimalTie) (rank : Nat) : Decimal :=
  let (num, den) := quotient rank
  let top := magnitudeOfTen num den
  let hit := (List.range 17).findSome? fun i =>
    let scale := top - (i + 1 : Nat)
    (onGrid tie rank scale).map fun n => Decimal.ofScaled n scale
  hit.getD (Decimal.ofScaled num 0)

end Binary64

end AnnotatedApi
