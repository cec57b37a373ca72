import AssemblySemantics.Decimal.Binary

/-!
# Shortest decimals

A binary fraction is written with the fewest digits that read back to it. A decimal reads
back to a magnitude when it lies between the points half-way to the neighbours of the
magnitude, where the points themselves count for an even mantissa. For one digit after the
other `shortest` tries the two decimals next to the magnitude, and of two that read back it
takes the nearer, or the even one when they are equally near. The digits are laid out with
a point when the first of them has a place from `10 ^ -4` to `10 ^ 15`, and with an
exponent otherwise.
-/

namespace AssemblySemantics.Decimal

/-- The number `digits * 10 ^ exponent`. -/
structure Scaled where
  digits : Nat
  exponent : Int
deriving DecidableEq

namespace Binary

/-- Compares a decimal with a number of quarters of units. -/
def compareQuarters (d : Scaled) (quarters : Nat) : Ordering :=
  compare (d.digits * Nat.pow 10 d.exponent.toNat * (4 * unit))
    (quarters * Nat.pow 10 (-d.exponent).toNat)

/-- The point half-way to the neighbour below, in quarters of units; that neighbour is
nearer below the first mantissa of a shift. -/
def lowerEnd (b : Binary) : Nat :=
  if b.mantissa = leading ∧ 0 < b.shift then (4 * b.mantissa - 1) * Nat.pow 2 b.shift
  else (4 * b.mantissa - 2) * Nat.pow 2 b.shift

/-- The point half-way to the neighbour above, in quarters of units. -/
def upperEnd (b : Binary) : Nat := (4 * b.mantissa + 2) * Nat.pow 2 b.shift

/-- Whether a decimal reads back to a magnitude. -/
def readsBack (b : Binary) (d : Scaled) : Bool :=
  let low := compareQuarters d b.lowerEnd
  let high := compareQuarters d b.upperEnd
  let closed := b.mantissa % 2 = 0
  (low = .gt || (closed && low = .eq)) && (high = .lt || (closed && high = .eq))

/-- The place of the point from the first digit of a magnitude other than zero: the least
`k` for which the magnitude is below `10 ^ k`. -/
def pointPlace (b : Binary) : Int :=
  (Nat.toDigits 10 (b.units * Nat.pow 10 placeLimit.toNat / unit)).length - placeLimit

/-- Of the two decimals with `n` digits next to a magnitude, the one that reads back, or
the nearer when both do. -/
def withDigits? (b : Binary) (n : Nat) : Option Scaled :=
  let exponent := b.pointPlace - n
  let num := b.units * Nat.pow 10 (-exponent).toNat
  let den := unit * Nat.pow 10 exponent.toNat
  let low := num / den
  let below : Scaled := ⟨low, exponent⟩
  let above : Scaled := ⟨low + 1, exponent⟩
  match b.readsBack below, b.readsBack above with
  | true, true => some ⟨nearestQuotient num den, exponent⟩
  | true, false => some below
  | false, true => some above
  | false, false => none

/-- The most digits that are tried. -/
def maxDigits : Nat := 17

/-- The decimal with the fewest digits that reads back to a magnitude; if none is found,
the magnitude itself. -/
def shortest (b : Binary) : Scaled :=
  ((List.range maxDigits).findSome? fun n => b.withDigits? (n + 1)).getD
    ⟨b.units * Nat.pow 5 1074, -1074⟩

end Binary

/-- The digits of a number without its trailing zeros. -/
def significantDigits (n : Nat) : List Char :=
  ((Nat.toDigits 10 n).reverse.dropWhile (· = '0')).reverse

/-- Digits with a point behind the first `point` of them, filled up with zeros. -/
def positional (digits : List Char) (point : Int) : List Char :=
  if point ≤ 0 then
    '0' :: '.' :: List.replicate (-point).toNat '0' ++ digits
  else if digits.length ≤ point.toNat then
    digits ++ List.replicate (point.toNat - digits.length) '0' ++ ['.', '0']
  else digits.take point.toNat ++ '.' :: digits.drop point.toNat

/-- Digits with a point behind the first one and an exponent of at least two digits. -/
def scientific (digits : List Char) (exponent : Int) : List Char :=
  let written := Nat.toDigits 10 exponent.natAbs
  digits.take 1 ++ (if digits.length ≤ 1 then [] else '.' :: digits.drop 1) ++
    'e' :: (if exponent < 0 then '-' else '+') ::
      (List.replicate (2 - written.length) '0' ++ written)

/-- A decimal other than zero, laid out. -/
def Scaled.layout (d : Scaled) : List Char :=
  let digits := significantDigits d.digits
  let point := (Nat.toDigits 10 d.digits).length + d.exponent
  if -4 < point ∧ point ≤ 16 then positional digits point else scientific digits (point - 1)

/-- A magnitude as a text. -/
def Binary.layout (b : Binary) : List Char :=
  if b.mantissa = 0 then ['0', '.', '0'] else b.shortest.layout

/-- The text of the fraction `digits * 10 ^ exponent` with its sign, as far as 53 bits keep
it; a zero keeps its sign too. -/
def text (isNegative : Bool) (digits : Nat) (exponent : Int) : String :=
  let magnitude :=
    match Binary.ofDecimal digits exponent with
    | none => ['i', 'n', 'f']
    | some b => b.layout
  String.ofList (if isNegative then '-' :: magnitude else magnitude)

end AssemblySemantics.Decimal
