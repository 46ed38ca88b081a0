import Rundown.Json.Reader
import Rundown.Number.Reader

/-!
# Plain scalars

What a text stands for that is written without quotes: nothing, a truth value, an integer in one of
four bases, a floating point number, or else itself.  Digits after a leading zero are no number.
-/

namespace Rundown.Yaml.Plain

def isNull (text : String) : Bool := ["null", "Null", "NULL", "~"].contains text

/-- The truth value that the text stands for. -/
def bool? (text : String) : Option Bool :=
  if ["true", "True", "TRUE"].contains text then some true
  else if ["false", "False", "FALSE"].contains text then some false
  else none

/-- Whether digits follow a leading zero, after a sign perhaps. -/
def hasLeadingZero (cs : List Char) : Bool :=
  match (NumberText.splitSign cs).2 with
  | '0' :: d :: rest => (d :: rest).all Char.isDigit
  | _ => false

/-- The number that digits name in a base of at most sixteen. -/
def digits? (base : Nat) (cs : List Char) : Option Nat :=
  if cs.isEmpty then none
  else cs.foldlM (fun n c => do
    let d ← Json.hexValue? c
    if d < base then some (n * base + d) else none) 0

/-- The natural number that a text without a sign stands for. -/
def natural? : List Char → Option Nat
  | '0' :: 'x' :: rest => digits? 16 rest
  | '0' :: 'o' :: rest => digits? 8 rest
  | '0' :: 'b' :: rest => digits? 2 rest
  | cs => if hasLeadingZero cs then none else digits? 10 cs

/-- The natural number that a text stands for, after a plus perhaps. -/
def unsigned? : List Char → Option Nat
  | '+' :: rest => natural? rest
  | cs => natural? cs

/-- The integer that a text stands for, however large. -/
def integer? : List Char → Option Int
  | '-' :: rest => (natural? rest).map fun n => -(n : Int)
  | cs => (unsigned? cs).map Int.ofNat

/-- Whether a word of 64 bits holds the integer, with a sign or without. -/
def fitsWord (n : Int) : Bool := Json.minInt ≤ n ∧ n < Json.intBound

/-- Whether a double word holds the integer, with a sign or without. -/
def fitsDoubleWord (n : Int) : Bool :=
  Json.minInt * Json.intBound ≤ n ∧ n < Json.intBound * Json.intBound

/-- The words for infinity, to which a minus may be added. -/
def infinityWords : List String := [".inf", ".Inf", ".INF"]

/-- The words for no number. -/
def nanWords : List String := [".nan", ".NaN", ".NAN"]

/-- The floating point number that a text stands for.  Infinities are words only: digits that name
a number too large stand for none. -/
def float? (text : String) : Option NumberText :=
  let cs := text.toList
  let signed := cs.head? = some '+'
  let unsigned := if signed then cs.tail else cs
  if signed && (unsigned.head? = some '+' || unsigned.head? = some '-') then none
  else if infinityWords.contains (String.ofList unsigned) then some (.infinite false)
  else if (infinityWords.map ("-" ++ ·)).contains text then some (.infinite true)
  else if nanWords.contains text then some .notANumber
  else match NumberText.read unsigned with
    | some (.finite x) => some (.finite x)
    | _ => none

/-- A floating point number as a JSON value; infinities have none. -/
def ofFloat : NumberText → Json
  | .finite x => .float x
  | _ => .null

/-- The JSON value that a text stands for.  There is none for an integer that only a double word
holds; larger ones are floating point numbers. -/
def toJson? (text : String) : Option Json :=
  if text.isEmpty || isNull text then some .null
  else match bool? text with
    | some b => some (.bool b)
    | none =>
      let other : Json :=
        if hasLeadingZero text.toList then .string text
        else ((float? text).map ofFloat).getD (.string text)
      match integer? text.toList with
      | some n =>
        if fitsWord n then some (.int n)
        else if fitsDoubleWord n then none
        else some other
      | none => some other

end Rundown.Yaml.Plain
