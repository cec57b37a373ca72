/-!
# Binary fractions of 53 bits

A magnitude is a mantissa of at most 53 bits times a power of two, counted in units of
`2 ^ -1074`, the least positive one. `ofDecimal` gives the magnitude nearest to a decimal
fraction, the one with the even mantissa when two are equally near, and none when the
fraction is beyond the greatest. All arithmetic is exact.
-/

namespace AssemblySemantics.Decimal

/-- A mantissa times two to the power of `shift`, in units of `2 ^ -1074`. -/
structure Binary where
  mantissa : Nat
  shift : Nat
deriving DecidableEq

namespace Binary

/-- The number of units, per one, in which magnitudes are counted. -/
def unit : Nat := Nat.pow 2 1074

/-- The first mantissa of 53 bits. -/
def leading : Nat := Nat.pow 2 52

/-- The greatest shift. -/
def maxShift : Nat := 2045

/-- A magnitude in units. -/
def units (b : Binary) : Nat := b.mantissa * Nat.pow 2 b.shift

/-- The quotient of two numbers, rounded to the nearest, and to the even one of two that
are equally near. -/
def nearestQuotient (num den : Nat) : Nat :=
  let q := num / den
  match compare (2 * (num % den)) den with
  | .lt => q
  | .gt => q + 1
  | .eq => if q % 2 = 0 then q else q + 1

/-- The magnitude nearest to a quotient of units. -/
def ofQuotient (num den : Nat) : Option Binary :=
  let shift := Nat.log2 (num / den) - 52
  let mantissa := nearestQuotient num (den * Nat.pow 2 shift)
  let b : Binary := if mantissa = 2 * leading then ⟨leading, shift + 1⟩ else ⟨mantissa, shift⟩
  if b.shift ≤ maxShift then some b else none

/-- The decimal places, in front of the point or behind it, beyond which every fraction is
infinite or zero. -/
def placeLimit : Int := 400

/-- The magnitude nearest to `digits * 10 ^ exponent`. -/
def ofDecimal (digits : Nat) (exponent : Int) : Option Binary :=
  let point := (Nat.toDigits 10 digits).length + exponent
  if digits = 0 ∨ point < -placeLimit then some ⟨0, 0⟩
  else if point > placeLimit then none
  else ofQuotient (digits * Nat.pow 10 exponent.toNat * unit) (Nat.pow 10 (-exponent).toNat)

end Binary

end AssemblySemantics.Decimal
