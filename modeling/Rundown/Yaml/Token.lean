import Rundown.Yaml.Scalar
import Rundown.Yaml.Tag

/-!
# YAML tokens

The tokens of a text, with the structure that indentation gives it made explicit.  A key without a
question mark is noticed only at its colon; the key token, and the start of a mapping if the key
opens one, are then inserted before it.  Such a key must end on the line on which it starts, within
1024 bytes.
-/

namespace Rundown.Yaml

/-- A token.  A tag is a handle, which a directive may declare, and a suffix. -/
inductive Token where
  | versionDirective (major minor : Nat)
  | tagDirective (handle : String) (scope : Tag)
  | documentStart
  | documentEnd
  | sequenceStart
  | mappingStart
  | blockEnd
  | flowSequenceStart
  | flowSequenceEnd
  | flowMappingStart
  | flowMappingEnd
  | entry
  | flowEntry
  | key
  | value
  | alias (name : String)
  | anchor (name : String)
  | tag (handle : String) (suffix : Tag)
  | scalar (style : Style) (text : String)
  | streamEnd
deriving DecidableEq, Repr

/-- A place where a key without a question mark may have started.  `token` is the number of tokens
before it; a required key is one that must turn out to be a key. -/
structure SimpleKey where
  token : Nat
  required : Bool
  line : Nat
  index : Nat
  column : Nat

/-- The state of reading tokens.  `indent` is the column of the innermost block, `indents` those of
the blocks around it; `keys` holds a possible key for every level of brackets, innermost first. -/
structure Lexer where
  source : Source
  flow : Nat
  indent : Int
  indents : List Int
  keyAllowed : Bool
  keys : List (Option SimpleKey)
  tokens : Array Token

namespace Lexer

/-- The state at the start of a text. -/
def ofSource (s : Source) : Lexer := ⟨s, 0, -1, [], true, [none], #[]⟩

def inFlow (x : Lexer) : Bool := x.flow ≠ 0

def emit (x : Lexer) (t : Token) : Lexer := { x with tokens := x.tokens.push t }

/-- Inserts a token before those from the given number on. -/
def insert (x : Lexer) (number : Nat) (t : Token) : Lexer :=
  let tokens := x.tokens.toList
  { x with tokens := (tokens.take number ++ t :: tokens.drop number).toArray }

def skip (x : Lexer) (count : Nat) : Lexer := { x with source := x.source.skip count }

/-- Allows or forbids a key at the next token. -/
def allowKey (x : Lexer) (allowed : Bool) : Lexer := { x with keyAllowed := allowed }

/-! ### Keys and indentation -/

/-- Gives up the possible key of the innermost level.  A required one cannot be given up. -/
def dropKey (x : Lexer) : Option Lexer :=
  match x.keys with
  | some key :: rest => if key.required then none else some { x with keys := none :: rest }
  | _ => some x

def noteKey (x : Lexer) : Option Lexer :=
  if x.keyAllowed then do
    let x ← x.dropKey
    let s := x.source
    let required := !x.inFlow && x.indent == s.column
    some { x with keys := some ⟨x.tokens.size, required, s.line, s.index, s.column⟩ :: x.keys.tail }
  else some x

/-- Gives up keys that have become too long. -/
def dropStaleKeys (x : Lexer) : Option Lexer := do
  let s := x.source
  let keys ← x.keys.mapM fun
    | some key =>
      if key.line < s.line ∨ key.index + 1024 < s.index then
        if key.required then none else some none
      else some (some key)
    | none => some none
  some { x with keys := keys }

/-- Opens a block at a column, if it is further in than the innermost one; its start is inserted
before the token with the given number. -/
def openBlock (x : Lexer) (column number : Nat) (start : Token) : Lexer :=
  if !x.inFlow && x.indent < column then
    { x with indent := column, indents := x.indent :: x.indents }.insert number start
  else x

/-- Closes the blocks further in than a column. -/
def closeBlocksFrom (column : Int) : Int → List Int → Array Token → Int × List Int × Array Token
  | indent, outer :: rest, tokens =>
    if column < indent then closeBlocksFrom column outer rest (tokens.push .blockEnd)
    else (indent, outer :: rest, tokens)
  | indent, [], tokens => (indent, [], tokens)

/-- Closes the blocks further in than a column; between brackets there is nothing to close. -/
def closeBlocks (x : Lexer) (column : Int) : Lexer :=
  if x.inFlow then x
  else
    let (indent, indents, tokens) := closeBlocksFrom column x.indent x.indents x.tokens
    { x with indent := indent, indents := indents, tokens := tokens }

/-! ### Between tokens -/

/-- Skips spaces, comments and line ends up to the next token.  A line may start with a byte order
mark.  Tabs may stand between brackets and where no key can start; outside brackets, a new line
allows a key. -/
def skipToToken : (fuel : Nat) → Lexer → Lexer
  | 0, x => x
  | fuel + 1, x =>
    let s := x.source
    let s := if s.column == 0 && s.startsWith byteOrderMark then s.skip 1 else s
    let tabs := x.inFlow || !x.keyAllowed
    let s := (s.skipWhile fun c => c == ' ' || (tabs && c == '\t')).skipComment
    match s.rest with
    | c :: _ =>
      if isBreak c then
        skipToToken fuel
          { x with source := s.skipBreak, keyAllowed := x.keyAllowed || !x.inFlow }
      else { x with source := s }
    | [] => { x with source := s }

/-! ### Directives, anchors and tags -/

/-- The name that the source starts with, and what follows. -/
def readName (s : Source) : String × Source :=
  let name := s.leading isNameChar
  (String.ofList name, s.skip name.length)

/-- Characters of a tag besides those of names; some only in a verbatim tag or a directive. -/
def isTagChar (verbatim : Bool) (c : Char) : Bool :=
  isNameChar c || ";/?:@&=+$.!~*'()%".toList.contains c || (verbatim && ",[]".toList.contains c)

/-- The number of bytes of a character whose UTF-8 encoding starts with the given byte. -/
def encodedLength? (first : Nat) : Option Nat :=
  if first < 0x80 then some 1
  else if first / 0x20 = 6 then some 2
  else if first / 0x10 = 0xe then some 3
  else if first / 0x08 = 0x1e then some 4
  else none

/-- Bytes written as a percent sign and two digits. -/
def readBytes : (count : Nat) → List Char → Option (List Nat)
  | 0, _ => some []
  | count + 1, '%' :: a :: b :: rest => do
    let byte := (← Json.hexValue? a) * 16 + (← Json.hexValue? b)
    (readBytes count rest).map (byte :: ·)
  | _, _ => none

/-- The bytes of a character's encoding, as far as the first tells their number and the others look
like bytes that go on with one. -/
def readEncoded (s : Source) : Option (List UInt8 × Source) := do
  let first ← (← readBytes 1 s.rest).head?
  let count ← encodedLength? first
  let bytes ← readBytes count s.rest
  if (bytes.drop 1).all (fun byte => byte / 0x40 = 2) then
    some (bytes.map UInt8.ofNat, s.skip (3 * count))
  else none

/-- The bytes that the characters of a tag name, in reverse. -/
def readTagBytes (verbatim : Bool) :
    (fuel : Nat) → List UInt8 → Source → Option (List UInt8 × Source)
  | 0, bytes, s => some (bytes, s)
  | fuel + 1, bytes, s =>
    match s.rest with
    | [] => some (bytes, s)
    | c :: _ =>
      if !isTagChar verbatim c then some (bytes, s)
      else if c = '%' then do
        let (encoded, s) ← readEncoded s
        readTagBytes verbatim fuel (encoded.reverse ++ bytes) s
      else readTagBytes verbatim fuel (c.toUInt8 :: bytes) (s.skip 1)

/-- The characters of a tag, of which there must be one if there is no `head`.  The head is part of
the tag, its exclamation mark excepted. -/
def readTagText (verbatim : Bool) (head : List Char) (s : Source) : Option (Tag × Source) := do
  let start := ((head.drop 1).map Char.toUInt8).reverse
  let (bytes, s) ← readTagBytes verbatim (s.rest.length + 1) start s
  if head.isEmpty && bytes.isEmpty then none
  else some (Tag.ofBytes bytes.reverse, s)

/-- A handle: an exclamation mark, and a name with another one perhaps. -/
def readHandle (s : Source) : Option (List Char × Source) :=
  if !s.startsWith '!' then none
  else
    let name := (s.skip 1).leading isNameChar
    let s := s.skip (name.length + 1)
    if s.startsWith '!' then some ('!' :: name ++ ['!'], s.skip 1) else some ('!' :: name, s)

/-- A tag: verbatim between angle brackets, or a handle and a suffix.  An exclamation mark alone is
a tag of its own, without a handle. -/
def readTag (s : Source) : Option (Token × Source) :=
  match s.rest with
  | '!' :: '<' :: _ => do
    let (suffix, s) ← readTagText true [] (s.skip 2)
    if s.startsWith '>' then some (.tag "" suffix, s.skip 1) else none
  | _ => do
    let (handle, s) ← readHandle s
    if 1 < handle.length ∧ handle.getLast? = some '!' then
      let (suffix, s) ← readTagText false [] s
      some (.tag (String.ofList handle) suffix, s)
    else
      let (suffix, s) ← readTagText false handle s
      some (if suffix.isEmpty then .tag "" Tag.mark else .tag "!" suffix, s)

/-- The number that the source starts with, of at most nine digits. -/
def readNumber (s : Source) : Option (Nat × Source) :=
  let digits := s.leading Char.isDigit
  if digits.isEmpty || 9 < digits.length then none
  else some (digits.foldl (fun n c => n * 10 + (c.toNat - '0'.toNat)) 0, s.skip digits.length)

def readDirectiveBody (name : String) (s : Source) : Option (Token × Source) :=
  match name with
  | "YAML" => do
    let (major, s) ← readNumber (s.skipWhile isGap)
    if !s.startsWith '.' then none
    else
      let (minor, s) ← readNumber (s.skip 1)
      some (.versionDirective major minor, s)
  | "TAG" => do
    let (handle, s) ← readHandle (s.skipWhile isGap)
    if handle ≠ ['!'] ∧ (handle.length < 2 ∨ handle.getLast? ≠ some '!') then none
    else if !(s.rest.head?.map isGap).getD false then none
    else
      let (scope, s) ← readTagText true [] (s.skipWhile isGap)
      if s.endsWordAt 0 then some (.tagDirective (String.ofList handle) scope, s) else none
  | _ => none

/-- A directive; nothing else may stand on its line. -/
def readDirective (x : Lexer) : Option Lexer := do
  let x ← (x.closeBlocks (-1)).dropKey
  let (name, s) := readName (x.source.skip 1)
  if name.isEmpty || !s.endsWordAt 0 then none
  else
    let (token, s) ← readDirectiveBody name s
    let s ← s.skipLineRest
    some (({ x with source := s }.allowKey false).emit token)

/-- Characters that may follow the name of an anchor directly. -/
def endsAnchor (s : Source) : Bool :=
  match s.rest with
  | [] => true
  | c :: _ => endsWord c || "?:,]\x7d%@\x60".toList.contains c

def readAnchor (make : String → Token) (x : Lexer) : Option Lexer := do
  let x ← x.noteKey
  let (name, s) := readName (x.source.skip 1)
  if name.isEmpty || !endsAnchor s then none
  else some (({ x with source := s }.allowKey false).emit (make name))

def readNodeTag (x : Lexer) : Option Lexer := do
  let x ← x.noteKey
  let (token, s) ← readTag x.source
  if (x.inFlow && s.startsWith ',') || s.endsWordAt 0 then
    some (({ x with source := s }.allowKey false).emit token)
  else none

/-! ### Indicators -/

def readMarker (token : Token) (x : Lexer) : Option Lexer := do
  let x ← (x.closeBlocks (-1)).dropKey
  some (((x.allowKey false).skip 3).emit token)

def readOpening (token : Token) (x : Lexer) : Option Lexer := do
  let x ← x.noteKey
  let x := { x with flow := x.flow + 1, keys := none :: x.keys }
  some (((x.allowKey true).skip 1).emit token)

def readClosing (token : Token) (x : Lexer) : Option Lexer := do
  let x ← x.dropKey
  let x := if x.inFlow then { x with flow := x.flow - 1, keys := x.keys.tail } else x
  some (((x.allowKey false).skip 1).emit token)

def readComma (x : Lexer) : Option Lexer := do
  let x ← x.dropKey
  some (((x.allowKey true).skip 1).emit .flowEntry)

/-- A dash or a question mark outside brackets opens a block, where a key could start. -/
def openBlockHere (start : Token) (x : Lexer) : Option Lexer :=
  if x.inFlow then some x
  else if x.keyAllowed then some (x.openBlock x.source.column x.tokens.size start)
  else none

def readDash (x : Lexer) : Option Lexer := do
  let x ← (← x.openBlockHere .sequenceStart).dropKey
  some (((x.allowKey true).skip 1).emit .entry)

def readQuestion (x : Lexer) : Option Lexer := do
  let x ← (← x.openBlockHere .mappingStart).dropKey
  some (((x.allowKey (!x.inFlow)).skip 1).emit .key)

/-- A colon: after a key without a question mark, that key is now known to be one. -/
def readColon (x : Lexer) : Option Lexer := do
  match x.keys with
  | some key :: rest =>
    let x := ({ x with keys := none :: rest }.insert key.token .key).openBlock key.column key.token
      .mappingStart
    some (((x.allowKey false).skip 1).emit .value)
  | _ =>
    let x ← x.openBlockHere .mappingStart
    some (((x.allowKey (!x.inFlow)).skip 1).emit .value)

/-! ### Scalars -/

def emitScalar (x : Lexer) (style : Style) (lexeme : Lexeme) : Lexer :=
  { x with source := lexeme.source }.emit (.scalar style (String.ofList lexeme.text))

def readBlockScalar (style : Style) (x : Lexer) : Option Lexer := do
  let x ← x.dropKey
  some ((x.allowKey true).emitScalar style (← readBlock style x.indent x.source))

def readQuotedScalar (quote : Char) (x : Lexer) : Option Lexer := do
  let x ← x.noteKey
  some ((x.allowKey false).emitScalar .quoted (← readQuoted quote x.source))

/-- A plain scalar.  A key may follow if the scalar ends with a line. -/
def readPlainScalar (x : Lexer) : Option Lexer := do
  let x ← x.noteKey
  let lexeme ← readPlain x.inFlow (x.indent + 1) x.source
  some ((x.allowKey lexeme.broken).emitScalar .plain lexeme)

/-- Whether a plain scalar can start here; `next` tells of the character after the first. -/
def startsPlain (inFlow : Bool) (c : Char) (s : Source) : Bool :=
  if c == '-' then !((s.rest[1]?.map isGap).getD false)
  else if c == '?' || c == ':' then !inFlow && !s.endsWordAt 1
  else !(endsWord c || ",[]\x7b\x7d#&*!|>'\"%@\x60".toList.contains c)

/-! ### All tokens -/

def readToken (x : Lexer) : Option Lexer :=
  let s := x.source
  match s.rest with
  | [] => do
    let x ← (x.closeBlocks (-1)).dropKey
    some (x.emit .streamEnd)
  | c :: _ =>
    if s.column == 0 && c == '%' then x.readDirective
    else if s.atMarker "---" then readMarker .documentStart x
    else if s.atMarker "..." then readMarker .documentEnd x
    else if c == '[' then readOpening .flowSequenceStart x
    else if c == '\x7b' then readOpening .flowMappingStart x
    else if c == ']' then readClosing .flowSequenceEnd x
    else if c == '\x7d' then readClosing .flowMappingEnd x
    else if c == ',' then x.readComma
    else if c == '-' && s.endsWordAt 1 then x.readDash
    else if c == '?' && (x.inFlow || s.endsWordAt 1) then x.readQuestion
    else if c == ':' && (x.inFlow || s.endsWordAt 1) then x.readColon
    else if c == '*' then readAnchor .alias x
    else if c == '&' then readAnchor .anchor x
    else if c == '!' then x.readNodeTag
    else if c == '|' && !x.inFlow then readBlockScalar .literal x
    else if c == '>' && !x.inFlow then readBlockScalar .folded x
    else if c == '\'' || c == '"' then readQuotedScalar c x
    else if startsPlain x.inFlow c s then x.readPlainScalar
    else none

/-- Reads tokens to the end of the text.  Every token but the last takes a character. -/
def readAll : (fuel : Nat) → Lexer → Option (Array Token)
  | 0, _ => none
  | fuel + 1, x => do
    let x ← (skipToToken (x.source.rest.length + 1) x).dropStaleKeys
    let done := x.source.rest.isEmpty
    let x ← (x.closeBlocks x.source.column).readToken
    if done then some x.tokens else readAll fuel x

end Lexer

def tokens? (text : String) : Option (List Token) := do
  let s ← Source.ofString text
  (Lexer.readAll (s.rest.length + 2) (Lexer.ofSource s)).map Array.toList

end Rundown.Yaml
