/-!
# Durations

A duration is a whole number of nanoseconds. A clock counts seconds in 64 bits; a duration
`fits` if such a clock can show it.

Reports write a duration in seconds with three places (`Duration.seconds`). The number that
is written is the sum, in double precision, of the whole seconds and of the nanoseconds
divided by 10⁹; a tie between two neighbours of three places goes to the even one.
`Binary.round` is rounding to double precision, in exact arithmetic.
-/

namespace TestCoverage

/-- Division rounded to the nearest whole number, ties to the even one. -/
def divideToEven (numerator denominator : Nat) : Nat :=
  let quotient := numerator / denominator
  let twice := 2 * (numerator % denominator)
  if twice < denominator then quotient
  else if denominator < twice then quotient + 1
  else quotient + quotient % 2

namespace Binary

/-- A binary fraction: `mantissa / 2 ^ places`. -/
structure Fraction where
  mantissa : Nat
  places : Nat
deriving DecidableEq, Repr

/-- The fraction with 53 significant digits that is nearest to a quotient, ties to the even
mantissa. A quotient between two neighbouring powers of two is scaled to lie between 2⁵² and
2⁵³ and rounded there. -/
def round (numerator denominator : Nat) : Fraction :=
  if denominator ≤ numerator then
    let log := (numerator / denominator).log2
    if log ≤ 52 then
      ⟨divideToEven (numerator <<< (52 - log)) denominator, 52 - log⟩
    else
      let unit := 1 <<< (log - 52)
      ⟨divideToEven numerator (denominator * unit) * unit, 0⟩
  else
    let places := 53 + (denominator / numerator).log2
    ⟨divideToEven (numerator <<< places) denominator, places⟩

/-- The sum of two fractions, rounded. -/
def add (a b : Fraction) : Fraction :=
  let places := max a.places b.places
  round (a.mantissa <<< (places - a.places) + b.mantissa <<< (places - b.places))
    (1 <<< places)

end Binary

/-- A length of time in nanoseconds. -/
structure Duration where
  nanos : Nat
deriving DecidableEq, Repr, Inhabited

namespace Duration

def zero : Duration := ⟨0⟩

/-- A duration of whole milliseconds. -/
def ofMillis (millis : Nat) : Duration := ⟨millis * 1000000⟩

/-- One duration after the other. -/
def add (a b : Duration) : Duration := ⟨a.nanos + b.nanos⟩

/-- A clock with 64-bit seconds can show the duration. -/
def fits (d : Duration) : Bool := d.nanos < UInt64.size * 1000000000

/-- The digits of a number, with zeros in front up to three. -/
def threeDigits (n : Nat) : String :=
  String.ofList (List.leftpad 3 '0' (Nat.toDigits 10 n))

/-- The duration in seconds, with three places. -/
def seconds (d : Duration) : String :=
  let value := Binary.add (Binary.round (d.nanos / 1000000000) 1)
    (Binary.round (d.nanos % 1000000000) 1000000000)
  let millis := divideToEven (value.mantissa * 1000) (1 <<< value.places)
  toString (millis / 1000) ++ "." ++ threeDigits (millis % 1000)

end Duration

end TestCoverage
