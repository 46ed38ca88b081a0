import Rundown.Number.Binary64

/-!
# Reading a decimal number

A text of digits with an optional sign, point and exponent names the nearest binary64 number, or an
infinity when it is too large.  The words for infinity and for no number are read in any case.
-/

namespace Rundown

/-- What the text of a number names. -/
inductive NumberText where
  | finite (x : Binary64)
  | infinite (neg : Bool)
  | notANumber
deriving DecidableEq, Repr

namespace NumberText

/-- The number that digits name in base ten. -/
def digitsValue (digits : List Char) : Nat :=
  digits.foldl (fun n c => n * 10 + (c.toNat - '0'.toNat)) 0

/-- The text without a leading sign, and whether the sign was a minus. -/
def splitSign : List Char → Bool × List Char
  | '-' :: rest => (true, rest)
  | '+' :: rest => (false, rest)
  | rest => (false, rest)

/-- The exponent that fills the text; no text means zero. -/
def readExponent : List Char → Option Int
  | [] => some 0
  | c :: rest =>
    if c = 'e' ∨ c = 'E' then
      let (neg, digits) := splitSign rest
      if digits.isEmpty || !digits.all Char.isDigit then none
      else some (if neg then -(digitsValue digits : Int) else digitsValue digits)
    else none

/-- The number named by whole digits, fraction digits and an exponent. -/
def ofParts (neg : Bool) (whole fraction : List Char) (exponent : Int) : NumberText :=
  match Binary64.ofDecimal neg (digitsValue (whole ++ fraction)) (exponent - fraction.length) with
  | some x => finite x
  | none => infinite neg

/-- The number without a sign that fills the text. -/
def readUnsigned (neg : Bool) (cs : List Char) : Option NumberText :=
  let whole := cs.takeWhile Char.isDigit
  let rest := cs.dropWhile Char.isDigit
  let (fraction, rest) := match rest with
    | '.' :: rest => (rest.takeWhile Char.isDigit, rest.dropWhile Char.isDigit)
    | rest => ([], rest)
  if whole.isEmpty && fraction.isEmpty then none
  else (readExponent rest).map fun exponent => ofParts neg whole fraction exponent

def read (cs : List Char) : Option NumberText :=
  let (neg, cs) := splitSign cs
  let word := String.ofList (cs.map Char.toLower)
  if word = "inf" ∨ word = "infinity" then some (infinite neg)
  else if word = "nan" then some notANumber
  else readUnsigned neg cs

end NumberText

end Rundown
