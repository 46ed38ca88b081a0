/-!
# Binary64 numbers, exactly

A finite binary64 number is a sign, a significand below `2 ^ 53` and a power of two.  Rounding is
defined on exact quotients of natural numbers: `ofRatio` takes the nearest representable number, a
tie going to the even significand, and answers `none` where the quotient rounds to infinity.  The
decimal reader and the two operations that the number grammar needs are quotients put through it.
-/

namespace Rundown

/-- The finite number `(-1)^neg * significand * 2 ^ exponent`. -/
structure Binary64 where
  neg : Bool
  significand : Nat
  exponent : Int
deriving DecidableEq, Inhabited, Repr

/-- The quotient rounded to the nearest natural number, a half going to the even neighbour. -/
def roundHalfEven (num den : Nat) : Nat :=
  let quotient := num / den
  let twice := 2 * (num % den)
  if den < twice ∨ (twice = den ∧ quotient % 2 = 1) then quotient + 1 else quotient

/-- `num / den / 2 ^ exponent` as a quotient of natural numbers. -/
def scaleDown (num den : Nat) (exponent : Int) : Nat × Nat :=
  if 0 ≤ exponent then (num, den * Nat.pow 2 exponent.toNat)
  else (num * Nat.pow 2 (-exponent).toNat, den)

namespace Binary64

def minExponent : Int := -1074

def maxExponent : Int := 971

def zero (neg : Bool) : Binary64 := ⟨neg, 0, minExponent⟩

/-- The power of two at which the quotient has a significand of 53 bits, or the smallest one. -/
def ratioExponent (num den : Nat) : Int :=
  let low : Int := (num.log2 : Int) - den.log2 - 53
  let (n, d) := scaleDown num den low
  max minExponent (if Nat.pow 2 53 ≤ n / d then low + 1 else low)

/-- The nearest number to `num / den`; `none` when that is infinite. -/
def ofRatio (neg : Bool) (num den : Nat) : Option Binary64 :=
  if num = 0 then some (zero neg)
  else
    let exponent := ratioExponent num den
    let (n, d) := scaleDown num den exponent
    let significand := roundHalfEven n d
    let (significand, exponent) :=
      if significand = Nat.pow 2 53 then (Nat.pow 2 52, exponent + 1) else (significand, exponent)
    if maxExponent < exponent then none else some ⟨neg, significand, exponent⟩

/-- The magnitude as a quotient of natural numbers. -/
def ratio (x : Binary64) : Nat × Nat := scaleDown x.significand 1 (-x.exponent)

/-- The nearest number to `digits * 10 ^ exponent`.  Exponents far outside the range of the format
are answered without computing the power. -/
def ofDecimal (neg : Bool) (digits : Nat) (exponent : Int) : Option Binary64 :=
  if digits = 0 then some (zero neg)
  else if 400 < exponent then none
  else if exponent + digits.log2 < -400 then some (zero neg)
  else if 0 ≤ exponent then ofRatio neg (digits * Nat.pow 10 exponent.toNat) 1
  else ofRatio neg digits (Nat.pow 10 (-exponent).toNat)

/-- The product, rounded once. -/
def mul (x y : Binary64) : Option Binary64 :=
  let (a, b) := x.ratio
  let (c, d) := y.ratio
  ofRatio (x.neg != y.neg) (a * c) (b * d)

/-- The quotient by a nonzero number, rounded once. -/
def div (x y : Binary64) : Option Binary64 :=
  let (a, b) := x.ratio
  let (c, d) := y.ratio
  ofRatio (x.neg != y.neg) (a * d) (b * c)

end Binary64

end Rundown
