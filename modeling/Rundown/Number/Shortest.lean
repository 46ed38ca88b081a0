import Rundown.Number.Binary64

/-!
# The shortest decimal text of a binary64 number

Reading a decimal text takes the nearest binary64 number, so every number owns an interval of
decimals that read back as it.  `shortest` looks for a decimal of one digit in that interval, then
of two, and so on; on a grid of decimals only the two neighbours of the number itself need a look,
because the interval contains the number.  `Layout` says how the digits are then written.
-/

namespace Rundown

/-- The decimal `digits * 10 ^ exponent`. -/
structure Decimal where
  digits : Nat
  exponent : Int
deriving DecidableEq, Repr

/-- The same decimal without zeros at its end; `fuel` bounds their number. -/
def Decimal.trimZeros : Nat → Decimal → Decimal
  | 0, x => x
  | fuel + 1, x =>
    if x.digits ≠ 0 ∧ x.digits % 10 = 0 then trimZeros fuel ⟨x.digits / 10, x.exponent + 1⟩ else x

/-- The largest power of ten that is at most `num / den`, which is positive. -/
def decimalExponent (num den : Nat) : Int :=
  let estimate := (((num.log2 : Int) - den.log2) * 30103) / 100000
  let reaches (p : Int) : Bool :=
    if 0 ≤ p then Nat.pow 10 p.toNat * den ≤ num else den ≤ num * Nat.pow 10 (-p).toNat
  if reaches (estimate + 1) then estimate + 1
  else if reaches estimate then estimate
  else estimate - 1

namespace Binary64

/-- The ends of the interval of reals that read as `x`, and `x` itself, as numerators over one
denominator.  The lower end is nearer where `x` is a power of two. -/
def readInterval (x : Binary64) : Nat × Nat × Nat × Nat :=
  let below := if x.significand = Nat.pow 2 52 ∧ minExponent < x.exponent then 1 else 2
  let (unit, den) := scaleDown 1 1 (2 - x.exponent)
  let middle := 4 * x.significand
  ((middle - below) * unit, middle * unit, (middle + 2) * unit, den)

/-- A decimal with `count` digits that reads as the magnitude of `x`, the nearest one if there are
two, with an even last digit if both are as near. -/
def decimalOfCount (x : Binary64) (count : Nat) : Option Decimal :=
  let (low, value, high, den) := x.readInterval
  let exponent := decimalExponent value den + 1 - count
  let unit := if 0 ≤ exponent then den * Nat.pow 10 exponent.toNat else den
  let factor := if 0 ≤ exponent then 1 else Nat.pow 10 (-exponent).toNat
  let closed := x.significand % 2 = 0
  let inside (d : Nat) : Bool :=
    let point := d * unit
    if closed then low * factor ≤ point && point ≤ high * factor
    else low * factor < point && point < high * factor
  let lower := value * factor / unit
  let upper := lower + 1
  match inside lower, inside upper with
  | false, false => none
  | true, false => some ⟨lower, exponent⟩
  | false, true => some ⟨upper, exponent⟩
  | true, true => some ⟨roundHalfEven (value * factor) unit, exponent⟩

/-- The decimal with the fewest digits that reads as the magnitude of `x`; seventeen always do. -/
def shortest (x : Binary64) : Decimal :=
  (((List.range 17).findSome? fun n => x.decimalOfCount (n + 1)).getD ⟨0, 0⟩).trimZeros 20

end Binary64

/-- How the digits of a number are laid out. -/
structure Layout where
  /-- Decimal exponents written with a point and zeros; the others get an exponent. -/
  positionalFrom : Int
  positionalTo : Int
  /-- What stands between the digits and a positive exponent. -/
  positiveMark : String
  /-- What stands between the digits and a negative exponent. -/
  negativeMark : String

namespace Layout

def zeros (count : Nat) : String := String.ofList (List.replicate count '0')

/-- A positive decimal in this layout; a whole number keeps a zero after its point. -/
def writeDecimal (layout : Layout) (x : Decimal) : String :=
  let digits := Nat.toDigits 10 x.digits
  let leading : Int := x.exponent + digits.length - 1
  if layout.positionalFrom ≤ leading ∧ leading ≤ layout.positionalTo then
    if 0 ≤ x.exponent then String.ofList digits ++ zeros x.exponent.toNat ++ ".0"
    else if 0 ≤ leading then
      let whole := (leading + 1).toNat
      String.ofList (digits.take whole) ++ "." ++ String.ofList (digits.drop whole)
    else "0." ++ zeros (-leading - 1).toNat ++ String.ofList digits
  else
    let head := String.ofList (digits.take 1)
    let tail := digits.drop 1
    let mantissa := if tail.isEmpty then head else head ++ "." ++ String.ofList tail
    let mark := if 0 ≤ leading then layout.positiveMark else layout.negativeMark
    mantissa ++ mark ++ String.ofList (Nat.toDigits 10 leading.natAbs)

def write (layout : Layout) (x : Binary64) : String :=
  let magnitude := if x.significand = 0 then "0.0" else layout.writeDecimal x.shortest
  if x.neg then "-" ++ magnitude else magnitude

end Layout

end Rundown
