import Rundown.Duration.Basic
import Rundown.Number.Reader
import Rundown.Text.CharClass

/-!
# Durations written out

A duration is written as a number of seconds, or as a clock: minutes and seconds, or hours, minutes
and seconds, with colons between them.  A number of seconds is first the nearest binary64 number and
then that number's exact value rounded to nanoseconds.
-/

namespace Rundown.Duration

/-- A magnitude in seconds, rounded to nanoseconds; `none` when the seconds do not fit. -/
def ofMagnitude (x : Binary64) : Option Duration :=
  let (num, den) := x.ratio
  if secondsBound * den ≤ num then none
  else
    let nanos := roundHalfEven (num * nanosPerSecond) den
    some ⟨nanos / nanosPerSecond, nanos % nanosPerSecond⟩

/-- A number of seconds.  Only zero may carry a minus. -/
def ofNumber : NumberText → Option Duration
  | .finite x => if x.neg ∧ x.significand ≠ 0 then none else ofMagnitude x
  | _ => none

/-- The number, as long as it stays below the bound. -/
def checked (n : Nat) : Option Nat := if n < secondsBound then some n else none

/-- One part of a clock: digits, after a plus if there is one, of a number below the bound. -/
def readPart (cs : List Char) : Option Nat :=
  let digits := match cs with
    | '+' :: rest => rest
    | rest => rest
  if digits.isEmpty || !digits.all Char.isDigit then none
  else checked (NumberText.digitsValue digits)

def splitColons (cs : List Char) : List (List Char) :=
  cs.foldr (fun c parts =>
    if c = ':' then [] :: parts
    else match parts with
      | part :: rest => (c :: part) :: rest
      | [] => [[c]]) [[]]

/-- The duration on a clock.  Every product and every sum on the way to its total is checked. -/
def readClock (cs : List Char) : Option Duration :=
  match splitColons cs with
  | [minutes, seconds] => do
    let minutes ← readPart minutes
    let seconds ← readPart seconds
    let total ← checked ((← checked (minutes * 60)) + seconds)
    some ⟨total, 0⟩
  | [hours, minutes, seconds] => do
    let hours ← readPart hours
    let minutes ← readPart minutes
    let seconds ← readPart seconds
    let whole ← checked ((← checked (hours * 3600)) + (← checked (minutes * 60)))
    let total ← checked (whole + seconds)
    some ⟨total, 0⟩
  | _ => none

/-- The duration that a text stands for, white space around it aside. -/
def read (s : String) : Option Duration :=
  let cs := Text.trim s.toList
  match NumberText.read cs with
  | some number => ofNumber number
  | none => readClock cs

end Rundown.Duration
