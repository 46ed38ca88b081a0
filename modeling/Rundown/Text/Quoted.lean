import Rundown.Text.CharClass

/-!
# Quoted text for people

`inspect` writes a text between double quotes so that every character of it can be seen: what has no
visible form of its own is written as an escape.
-/

namespace Rundown.Text

/-- The digits of a number in base sixteen, in lower case. -/
def hex (n : Nat) : String := String.ofList (Nat.toDigits 16 n)

def inspectChar (c : Char) : String :=
  match c with
  | '"' => "\\\""
  | '\\' => "\\\\"
  | '\n' => "\\n"
  | '\r' => "\\r"
  | '\t' => "\\t"
  | '\x00' => "\\0"
  | c => if isVisible c then c.toString else "\\u\x7b" ++ hex c.toNat ++ "\x7d"

/-- The text between double quotes, everything in it visible. -/
def inspect (s : String) : String :=
  s.foldl (fun out c => out ++ inspectChar c) "\"" ++ "\""

/-- The inspected items between brackets, separated by commas. -/
def bracketed (opening : String) (items : List String) (closing : String) : String :=
  opening ++ ", ".intercalate items ++ closing

end Rundown.Text
