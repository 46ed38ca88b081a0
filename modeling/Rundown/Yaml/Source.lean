/-!
# YAML characters and positions

A source is the unread text with its position.  Lines end at a line feed, a carriage return or both
together, and at three other break characters.  Columns count characters, and the index counts bytes
of the text's UTF-8 encoding.
-/

namespace Rundown.Yaml

def isBreak (c : Char) : Bool :=
  c == '\n' || c == '\r' || c.toNat == 0x85 || c.toNat == 0x2028 || c.toNat == 0x2029

/-- Whether the character is a space or a tab. -/
def isGap (c : Char) : Bool := c == ' ' || c == '\t'

def endsWord (c : Char) : Bool := isGap c || isBreak c

def isNameChar (c : Char) : Bool := c.isAlphanum || c == '_' || c == '-'

/-- Whether the character may stand in a text at all. -/
def isAllowed (c : Char) : Bool :=
  let n := c.toNat
  n == 0x09 || n == 0x0a || n == 0x0d || (0x20 ≤ n && n ≤ 0x7e) || n == 0x85 ||
    (0xa0 ≤ n && n ≤ 0xfffd) || 0x10000 ≤ n

/-- The mark that may precede the first token of a line; it takes a column. -/
def byteOrderMark : Char := Char.ofNat 0xfeff

/-- A break as it is kept: the usual ones become a line feed. -/
def keptBreak (c : Char) : Char :=
  if c.toNat == 0x2028 || c.toNat == 0x2029 then c else '\n'

/-- The unread text and its position. -/
structure Source where
  rest : List Char
  index : Nat
  line : Nat
  column : Nat

namespace Source

/-- The start of a text, unless a character of it is not allowed. -/
def ofString (text : String) : Option Source :=
  if text.toList.all isAllowed then some ⟨text.toList, 0, 0, 0⟩ else none

/-- The source after `count` characters of the line. -/
def skip (s : Source) (count : Nat) : Source :=
  let width := (s.rest.take count).foldl (fun n c => n + c.utf8Size) 0
  ⟨s.rest.drop count, s.index + width, s.line, s.column + count⟩

/-- The source after the break that it starts with. -/
def skipBreak (s : Source) : Source :=
  match s.rest with
  | '\r' :: '\n' :: rest => ⟨rest, s.index + 2, s.line + 1, 0⟩
  | c :: rest => ⟨rest, s.index + c.utf8Size, s.line + 1, 0⟩
  | [] => s

/-- The unread characters at the start that satisfy `p`. -/
def leading (s : Source) (p : Char → Bool) : List Char := s.rest.takeWhile p

/-- The source after the characters that satisfy `p`, none of which is a break. -/
def skipWhile (s : Source) (p : Char → Bool) : Source := s.skip (s.leading p).length

def startsWith (s : Source) (c : Char) : Bool := s.rest.head? == some c

def endsWordAt (s : Source) (count : Nat) : Bool :=
  match s.rest[count]? with
  | some c => endsWord c
  | none => true

/-- Whether a line or the text ends here. -/
def atLineEnd (s : Source) : Bool :=
  match s.rest with
  | c :: _ => isBreak c
  | [] => true

/-- Whether the source starts with a document marker, given by its three characters. -/
def atMarker (s : Source) (marker : String) : Bool :=
  s.column == 0 && s.rest.take 3 == marker.toList && s.endsWordAt 3

/-- Whether the source starts with either document marker. -/
def atAnyMarker (s : Source) : Bool := s.atMarker "---" || s.atMarker "..."

/-- The source after a comment, if there is one, up to the end of the line. -/
def skipComment (s : Source) : Source :=
  if s.startsWith '#' then s.skipWhile fun c => !isBreak c else s

/-- The source after spaces, a comment and the break of a line on which nothing else may stand. -/
def skipLineRest (s : Source) : Option Source :=
  let s := (s.skipWhile isGap).skipComment
  if !s.atLineEnd then none
  else if s.rest.isEmpty then some s
  else some s.skipBreak

end Source

end Rundown.Yaml
