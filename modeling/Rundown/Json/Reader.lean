import Rundown.Json.Basic

/-!
# Reading JSON text

`Json.read` reads one value that fills the text.  Its errors carry the place at which reading
stopped: lines count from one, columns are the UTF-8 bytes read in the line.  An error about a
character that was looked at counts the first byte of that character.

A number without point and exponent that fits 64 bits is an integer.  All others are built from a
significand of 64 bits and one rounded multiplication or division by a power of ten, so the last
digit of a long literal may differ from its correctly rounded value.
-/

namespace Rundown.Json

/-- Why a text is not JSON. -/
inductive ReadFault where
  | endOfValue
  | endOfArray
  | endOfObject
  | endOfString
  | expectedValue
  | expectedWord
  | expectedColon
  | expectedCommaOrBracket
  | expectedCommaOrBrace
  | trailingComma
  | keyNotString
  | trailingCharacters
  | invalidNumber
  | numberOutOfRange
  | invalidEscape
  | controlCharacter
  | loneSurrogate
  | unpairedSurrogate
  | tooDeep
deriving DecidableEq, Repr

/-- What the fault is called in a message. -/
def ReadFault.text : ReadFault → String
  | endOfValue => "EOF while parsing a value"
  | endOfArray => "EOF while parsing a list"
  | endOfObject => "EOF while parsing an object"
  | endOfString => "EOF while parsing a string"
  | expectedValue => "expected value"
  | expectedWord => "expected ident"
  | expectedColon => "expected \x60:\x60"
  | expectedCommaOrBracket => "expected \x60,\x60 or \x60]\x60"
  | expectedCommaOrBrace => "expected \x60,\x60 or \x60\x7d\x60"
  | trailingComma => "trailing comma"
  | keyNotString => "key must be a string"
  | trailingCharacters => "trailing characters"
  | invalidNumber => "invalid number"
  | numberOutOfRange => "number out of range"
  | invalidEscape => "invalid escape"
  | controlCharacter => "control character (\\u0000-\\u001F) found while parsing a string"
  | loneSurrogate => "lone leading surrogate in hex escape"
  | unpairedSurrogate => "unexpected end of hex escape"
  | tooDeep => "recursion limit exceeded"

/-- A fault and its place. -/
structure ReadError where
  fault : ReadFault
  line : Nat
  column : Nat
deriving DecidableEq, Repr

def ReadError.message (e : ReadError) : String :=
  e.fault.text ++ " at line " ++ toString e.line ++ " column " ++ toString e.column

/-- The unread text and the place where it starts. -/
structure Cursor where
  rest : List Char
  line : Nat
  column : Nat
deriving Repr

namespace Cursor

def ofString (s : String) : Cursor := ⟨s.toList, 1, 0⟩

/-- The place after some bytes of the unread text. -/
def place : Nat → List Char → Nat → Nat → Nat × Nat
  | 0, _, line, column => (line, column)
  | _, [], line, column => (line, column)
  | bytes + 1, c :: rest, line, column =>
    if c = '\n' then place bytes rest (line + 1) 0
    else if bytes + 1 ≤ c.utf8Size then (line, column + bytes + 1)
    else place (bytes + 1 - c.utf8Size) rest line (column + c.utf8Size)
termination_by _ cs => cs.length

def advance (cur : Cursor) : Cursor :=
  match cur.rest with
  | [] => cur
  | '\n' :: rest => ⟨rest, cur.line + 1, 0⟩
  | c :: rest => ⟨rest, cur.line, cur.column + c.utf8Size⟩

/-- The cursor after `count` characters none of which ends a line or takes more than a byte. -/
def advanceAscii (cur : Cursor) (count : Nat) : Cursor :=
  ⟨cur.rest.drop count, cur.line, cur.column + count⟩

def failHere (cur : Cursor) (fault : ReadFault) : ReadError := ⟨fault, cur.line, cur.column⟩

def failAfter (cur : Cursor) (bytes : Nat) (fault : ReadFault) : ReadError :=
  let (line, column) := place bytes cur.rest cur.line cur.column
  ⟨fault, line, column⟩

/-- A fault about the character at the cursor. -/
def failAt (cur : Cursor) (fault : ReadFault) : ReadError := cur.failAfter 1 fault

/-- A fault at the end of the text. -/
def failAtEnd (cur : Cursor) (fault : ReadFault) : ReadError :=
  cur.failAfter (cur.rest.foldl (fun bytes c => bytes + c.utf8Size) 0) fault

/-- Whether the character may stand between the parts of a value. -/
def isSpace (c : Char) : Bool := c == ' ' || c == '\n' || c == '\t' || c == '\r'

def skipSpaceFrom : List Char → Nat → Nat → Cursor
  | [], line, column => ⟨[], line, column⟩
  | c :: rest, line, column =>
    if c = '\n' then skipSpaceFrom rest (line + 1) 0
    else if isSpace c then skipSpaceFrom rest line (column + 1)
    else ⟨c :: rest, line, column⟩

def skipSpace (cur : Cursor) : Cursor := skipSpaceFrom cur.rest cur.line cur.column

end Cursor

/-- The result of reading a value at a cursor. -/
abbrev Reading := Except ReadError (Json × Cursor)

/-- The rest of a word of which the first letter has been read. -/
def readWord (value : Json) : List Char → Cursor → Reading
  | [], cur => .ok (value, cur)
  | letter :: letters, cur =>
    match cur.rest with
    | [] => .error (cur.failHere .endOfValue)
    | c :: _ =>
      if c = letter then readWord value letters cur.advance
      else .error (cur.failAt .expectedWord)

/-! ### Numbers -/

def digitsAt (cur : Cursor) : List Nat :=
  (cur.rest.takeWhile Char.isDigit).map fun c => c.toNat - '0'.toNat

/-- Appends digits to a significand as long as it stays below `2 ^ 64`; the rest is left over. -/
def absorbDigits : Nat → List Nat → Nat × List Nat
  | significand, [] => (significand, [])
  | significand, d :: ds =>
    if significand * 10 + d < Nat.pow 2 64 then absorbDigits (significand * 10 + d) ds
    else (significand, d :: ds)

/-- The binary64 number nearest to a power of ten up to the 308th. -/
def powerOfTen (exponent : Nat) : Binary64 :=
  (Binary64.ofRatio false (Nat.pow 10 exponent) 1).getD (Binary64.zero false)

/-- `x * 10 ^ exponent`, each multiplication or division rounded; `none` when it is infinite.  A
significand below `2 ^ 64` reaches zero after at most `steps = 3` divisions by the largest power. -/
def scaleTen : (steps : Nat) → Binary64 → Int → Option Binary64
  | steps, x, exponent =>
    if exponent.natAbs ≤ 308 then
      let power := powerOfTen exponent.natAbs
      if 0 ≤ exponent then x.mul power else x.div power
    else if x.significand = 0 then some x
    else if 0 < exponent then none
    else
      match steps with
      | 0 => some (Binary64.zero x.neg)
      | steps + 1 => (x.div (powerOfTen 308)).bind fun y => scaleTen steps y (exponent + 308)

/-- The floating point number with this sign, significand and power of ten. -/
def readScaled (neg : Bool) (significand : Nat) (exponent : Int) (cur : Cursor) : Reading :=
  match (Binary64.ofRatio false significand 1).bind fun x => scaleTen 3 x exponent with
  | some x => .ok (float { x with neg := neg }, cur)
  | none => .error (cur.failHere .numberOutOfRange)

/-- Largest exponent that is still added up. -/
def exponentBound : Nat := Nat.pow 2 31 - 1

/-- Adds up the digits of an exponent; the number of digits read when it grows too large. -/
def exponentDigits : Nat → Nat → List Nat → Nat ⊕ Nat
  | value, _, [] => .inl value
  | value, count, d :: ds =>
    if exponentBound < value * 10 + d then .inr (count + 1)
    else exponentDigits (value * 10 + d) (count + 1) ds

/-- An exponent whose mark is at the cursor. -/
def readExponent (neg : Bool) (significand : Nat) (start : Int) (cur : Cursor) : Reading :=
  let cur := cur.advance
  let (down, cur) := match cur.rest with
    | '+' :: _ => (false, cur.advance)
    | '-' :: _ => (true, cur.advance)
    | _ => (false, cur)
  match cur.rest with
  | [] => .error (cur.failHere .endOfValue)
  | c :: _ =>
    if !c.isDigit then .error (cur.failAt .invalidNumber)
    else
      let digits := digitsAt cur
      let after := cur.advanceAscii digits.length
      match exponentDigits 0 0 digits with
      | .inl value =>
        readScaled neg significand (if down then start - value else start + value) after
      | .inr count =>
        if significand ≠ 0 ∧ !down then .error ((cur.advanceAscii count).failHere .numberOutOfRange)
        else .ok (float (Binary64.zero neg), after)

/-- A fraction whose point is at the cursor. -/
def readFraction (neg : Bool) (significand : Nat) (start : Int) (cur : Cursor) : Reading :=
  let cur := cur.advance
  let digits := digitsAt cur
  if digits.isEmpty then
    .error (if cur.rest.isEmpty then cur.failHere .endOfValue else cur.failAt .invalidNumber)
  else
    let (significand, left) := absorbDigits significand digits
    let exponent := start - (digits.length - left.length : Nat)
    let cur := cur.advanceAscii digits.length
    match cur.rest with
    | 'e' :: _ | 'E' :: _ => readExponent neg significand exponent cur
    | _ => readScaled neg significand exponent cur

def readNumber (neg : Bool) (cur : Cursor) : Reading :=
  match cur.rest with
  | [] => .error (cur.failHere .endOfValue)
  | c :: _ =>
    if !c.isDigit then .error (cur.failAt .invalidNumber)
    else
      let digits := digitsAt cur
      if c = '0' ∧ 1 < digits.length then .error (cur.advance.failAt .invalidNumber)
      else
        let (significand, left) := absorbDigits 0 digits
        let cur := cur.advanceAscii digits.length
        match cur.rest with
        | '.' :: _ => readFraction neg significand left.length cur
        | 'e' :: _ | 'E' :: _ => readExponent neg significand left.length cur
        | _ =>
          if !left.isEmpty then readScaled neg significand left.length cur
          else if !neg then .ok (int significand, cur)
          else if significand = 0 ∨ Nat.pow 2 63 < significand then
            readScaled true significand 0 cur
          else .ok (int (-significand), cur)

/-! ### Strings -/

/-- The value of a digit in base sixteen. -/
def hexValue? (c : Char) : Option Nat :=
  if c.isDigit then some (c.toNat - '0'.toNat)
  else if 'a' ≤ c ∧ c ≤ 'f' then some (c.toNat - 'a'.toNat + 10)
  else if 'A' ≤ c ∧ c ≤ 'F' then some (c.toNat - 'A'.toNat + 10)
  else none

/-- Four digits in base sixteen.  The group is four bytes of the text, whatever they are. -/
def readHexGroup (cur : Cursor) : Except ReadError (Nat × Cursor) :=
  if (cur.rest.foldl (fun bytes c => bytes + c.utf8Size) 0) < 4 then
    .error (cur.failAtEnd .endOfString)
  else
    match (cur.rest.take 4).mapM hexValue? with
    | some [a, b, c, d] => .ok (((a * 16 + b) * 16 + c) * 16 + d, cur.advanceAscii 4)
    | _ => .error (cur.failAfter 4 .invalidEscape)

/-- The second unit of a surrogate pair, with the escape that announces it. -/
def readLowSurrogate (high : Nat) (cur : Cursor) : Except ReadError (Char × Cursor) :=
  match cur.rest with
  | [] => .error (cur.failHere .endOfString)
  | '\\' :: _ =>
    let cur := cur.advance
    match cur.rest with
    | [] => .error (cur.failHere .endOfString)
    | 'u' :: _ => do
      let (low, after) ← readHexGroup cur.advance
      if low < 0xDC00 ∨ 0xDFFF < low then .error (after.failHere .loneSurrogate)
      else .ok (Char.ofNat (0x10000 + (high - 0xD800) * 0x400 + (low - 0xDC00)), after)
    | _ => .error (cur.failAt .unpairedSurrogate)
  | _ => .error (cur.failAt .unpairedSurrogate)

/-- The character that an escape stands for, the backslash having been read. -/
def readEscape (cur : Cursor) : Except ReadError (Char × Cursor) :=
  match cur.rest with
  | [] => .error (cur.failHere .endOfString)
  | c :: _ =>
    match c with
    | '"' => .ok ('"', cur.advance)
    | '\\' => .ok ('\\', cur.advance)
    | '/' => .ok ('/', cur.advance)
    | 'b' => .ok ('\x08', cur.advance)
    | 'f' => .ok ('\x0c', cur.advance)
    | 'n' => .ok ('\n', cur.advance)
    | 'r' => .ok ('\r', cur.advance)
    | 't' => .ok ('\t', cur.advance)
    | 'u' => do
      let (unit, after) ← readHexGroup cur.advance
      if 0xDC00 ≤ unit ∧ unit ≤ 0xDFFF then .error (after.failHere .loneSurrogate)
      else if 0xD800 ≤ unit ∧ unit ≤ 0xDBFF then readLowSurrogate unit after
      else .ok (Char.ofNat unit, after)
    | _ => .error (cur.failAt .invalidEscape)

/-- The rest of a string after its opening quote.  Every round reads a character, so the length of
the text is fuel enough. -/
def readStringFrom : (fuel : Nat) → List Char → Cursor → Except ReadError (String × Cursor)
  | 0, _, cur => .error (cur.failHere .endOfString)
  | fuel + 1, acc, cur =>
    match cur.rest with
    | [] => .error (cur.failHere .endOfString)
    | '"' :: _ => .ok (String.ofList acc.reverse, cur.advance)
    | '\\' :: _ => do
      let (c, after) ← readEscape cur.advance
      readStringFrom fuel (c :: acc) after
    | c :: _ =>
      if c.toNat < 0x20 then .error (cur.failAt .controlCharacter)
      else readStringFrom fuel (c :: acc) cur.advance

/-- A string whose opening quote is at the cursor. -/
def readString (cur : Cursor) : Except ReadError (String × Cursor) :=
  readStringFrom (cur.rest.length + 1) [] cur.advance

/-! ### Values -/

/-- The elements of an array up to its bracket, each read by `value`. -/
def readItems (value : Cursor → Reading) :
    (fuel : Nat) → (first : Bool) → List Json → Cursor → Reading
  | 0, _, _, cur => .error (cur.failHere .endOfArray)
  | fuel + 1, first, acc, cur => do
    let cur := cur.skipSpace
    let next (cur : Cursor) : Reading := do
      let (item, cur) ← value cur
      readItems value fuel false (item :: acc) cur
    match cur.rest with
    | [] => .error (cur.failHere .endOfArray)
    | ']' :: _ => .ok (array acc.reverse, cur.advance)
    | c :: _ =>
      if first then next cur
      else if c ≠ ',' then .error (cur.failAt .expectedCommaOrBracket)
      else
        let cur := cur.advance.skipSpace
        match cur.rest with
        | [] => .error (cur.failHere .endOfValue)
        | ']' :: _ => .error (cur.failAt .trailingComma)
        | _ => next cur

def readField (value : Cursor → Reading) (cur : Cursor) :
    Except ReadError ((String × Json) × Cursor) := do
  let (key, cur) ← readString cur
  let cur := cur.skipSpace
  match cur.rest with
  | [] => .error (cur.failHere .endOfObject)
  | ':' :: _ => do
    let (v, cur) ← value cur.advance
    .ok ((key, v), cur)
  | _ => .error (cur.failAt .expectedColon)

/-- The members of an object up to its brace. -/
def readFields (value : Cursor → Reading) :
    (fuel : Nat) → (first : Bool) → List (String × Json) → Cursor → Reading
  | 0, _, _, cur => .error (cur.failHere .endOfObject)
  | fuel + 1, first, acc, cur => do
    let cur := cur.skipSpace
    let next (cur : Cursor) : Reading :=
      match cur.rest with
      | '"' :: _ => do
        let (field, cur) ← readField value cur
        readFields value fuel false (field :: acc) cur
      | _ => .error (cur.failAt .keyNotString)
    match cur.rest with
    | [] => .error (cur.failHere .endOfObject)
    | '\x7d' :: _ => .ok (ofFields acc.reverse, cur.advance)
    | c :: _ =>
      if first then next cur
      else if c ≠ ',' then .error (cur.failAt .expectedCommaOrBrace)
      else
        let cur := cur.advance.skipSpace
        match cur.rest with
        | [] => .error (cur.failHere .endOfValue)
        | '\x7d' :: _ => .error (cur.failAt .trailingComma)
        | _ => next cur

/-- One value, at most `depth` arrays and objects inside one another. -/
def readValue (depth : Nat) (cur : Cursor) : Reading :=
  let cur := cur.skipSpace
  match cur.rest with
  | [] => .error (cur.failHere .endOfValue)
  | c :: rest =>
    match c with
    | 'n' => readWord null "ull".toList cur.advance
    | 't' => readWord (bool true) "rue".toList cur.advance
    | 'f' => readWord (bool false) "alse".toList cur.advance
    | '-' => readNumber true cur.advance
    | '"' => do
      let (s, cur) ← readString cur
      .ok (string s, cur)
    | '[' =>
      match depth with
      | 0 => .error (cur.failAt .tooDeep)
      | depth + 1 => readItems (readValue depth) (rest.length + 1) true [] cur.advance
    | '\x7b' =>
      match depth with
      | 0 => .error (cur.failAt .tooDeep)
      | depth + 1 => readFields (readValue depth) (rest.length + 1) true [] cur.advance
    | c =>
      if c.isDigit then readNumber false cur else .error (cur.failAt .expectedValue)

/-- Number of arrays and objects that may stand inside one another. -/
def depthLimit : Nat := 127

def read (text : String) : Except ReadError Json := do
  let (value, cur) ← readValue depthLimit (Cursor.ofString text)
  let cur := cur.skipSpace
  if cur.rest.isEmpty then .ok value else .error (cur.failAt .trailingCharacters)

end Rundown.Json
