import Rundown.Json.Reader
import Rundown.Yaml.Source

/-!
# YAML scalars

The four ways of writing a text: plain, between single or double quotes, and as a block of lines.
Between the words of a plain or quoted text, breaks are folded: a single one becomes a space, and of
several the first is dropped.
-/

namespace Rundown.Yaml

/-- How a scalar is written. -/
inductive Style where
  | plain
  | quoted
  | literal
  | folded
deriving DecidableEq, Repr

/-- The spaces before the first break of a run of spaces and breaks, the breaks, and what
follows. -/
structure Gap where
  spaces : List Char
  breaks : List Char
  source : Source

/-- Breaks between two words, folded. -/
def foldBreaks : List Char → List Char
  | ['\n'] => [' ']
  | '\n' :: rest => rest
  | breaks => breaks

def Gap.joined (g : Gap) : List Char :=
  if g.breaks.isEmpty then g.spaces else foldBreaks g.breaks

/-- Reads spaces and breaks; `broken` tells whether a break came before.  In a line after a break, a
tab left of `margin` is refused.  The length of the text is fuel enough. -/
def readGapFrom (margin : Int) :
    (fuel : Nat) → (broken : Bool) → List Char → List Char → Source → Option Gap
  | 0, _, spaces, breaks, s => some ⟨spaces.reverse, breaks.reverse, s⟩
  | fuel + 1, broken, spaces, breaks, s =>
    match s.rest with
    | [] => some ⟨spaces.reverse, breaks.reverse, s⟩
    | c :: _ =>
      if isGap c then
        if broken && c == '\t' && (s.column : Int) < margin then none
        else
          let spaces := if broken then spaces else c :: spaces
          readGapFrom margin fuel broken spaces breaks (s.skip 1)
      else if isBreak c then
        readGapFrom margin fuel true spaces (keptBreak c :: breaks) s.skipBreak
      else some ⟨spaces.reverse, breaks.reverse, s⟩

def readGap (margin : Int) (broken : Bool) (s : Source) : Option Gap :=
  readGapFrom margin (s.rest.length + 1) broken [] [] s

/-! ### Plain scalars -/

/-- The characters that end a plain scalar between brackets. -/
def isFlowIndicator (c : Char) : Bool :=
  c == ',' || c == '[' || c == ']' || c == '\x7b' || c == '\x7d'

/-- The word at the start of a plain scalar or inside it.  Between brackets, a colon before an
indicator is refused. -/
def plainWord (inFlow : Bool) : List Char → Option (List Char)
  | [] => some []
  | c :: rest =>
    let nextIs (p : Char → Bool) : Bool := match rest with
      | d :: _ => p d
      | [] => false
    if endsWord c then some []
    else if inFlow && c == ':' && nextIs (fun d => isFlowIndicator d || d == '?') then none
    else if c == ':' && (rest.isEmpty || nextIs endsWord) then some []
    else if inFlow && isFlowIndicator c then some []
    else (plainWord inFlow rest).map (c :: ·)

/-- A scalar that has been read; `broken` tells whether a break follows its last word. -/
structure Lexeme where
  text : List Char
  source : Source
  broken : Bool

/-- Reads the words of a plain scalar.  `gap` is what will stand before the next word, if there is
one.  Outside brackets the scalar ends at a line that starts left of `margin`. -/
def readPlainFrom (inFlow : Bool) (margin : Int) :
    (fuel : Nat) → (text gap : List Char) → (broken : Bool) → Source → Option Lexeme
  | 0, text, _, broken, s => some ⟨text, s, broken⟩
  | fuel + 1, text, gap, broken, s =>
    if s.atAnyMarker || s.startsWith '#' then some ⟨text, s, broken⟩
    else do
      let word ← plainWord inFlow s.rest
      let s := s.skip word.length
      let (text, broken) := if word.isEmpty then (text, broken) else (text ++ gap ++ word, false)
      match s.rest with
      | [] => some ⟨text, s, broken⟩
      | c :: _ =>
        if !endsWord c then some ⟨text, s, broken⟩
        else do
          let g ← readGap margin false s
          let broken := !g.breaks.isEmpty
          if !inFlow && (g.source.column : Int) < margin then some ⟨text, g.source, broken⟩
          else readPlainFrom inFlow margin fuel text g.joined broken g.source

def readPlain (inFlow : Bool) (margin : Int) (s : Source) : Option Lexeme :=
  readPlainFrom inFlow margin (s.rest.length + 1) [] [] false s

/-! ### Quoted scalars -/

/-- What a letter after a backslash stands for. -/
def simpleEscape? (c : Char) : Option Char :=
  match c with
  | '0' => some '\x00'
  | 'a' => some '\x07'
  | 'b' => some '\x08'
  | 't' => some '\t'
  | '\t' => some '\t'
  | 'n' => some '\n'
  | 'v' => some '\x0b'
  | 'f' => some '\x0c'
  | 'r' => some '\r'
  | 'e' => some '\x1b'
  | ' ' => some ' '
  | '"' => some '"'
  | '/' => some '/'
  | '\\' => some '\\'
  | 'N' => some (Char.ofNat 0x85)
  | '_' => some (Char.ofNat 0xa0)
  | 'L' => some (Char.ofNat 0x2028)
  | 'P' => some (Char.ofNat 0x2029)
  | _ => none

/-- How many digits follow a letter after a backslash. -/
def escapeDigits? (c : Char) : Option Nat :=
  match c with
  | 'x' => some 2
  | 'u' => some 4
  | 'U' => some 8
  | _ => none

/-- The character with a code point, unless it is a surrogate or too large. -/
def charOfCode? (n : Nat) : Option Char := if n.isValidChar then some (Char.ofNat n) else none

/-- The character that an escape stands for and the source after it; the source starts with the
backslash. -/
def readEscape (s : Source) : Option (Char × Source) :=
  match s.rest with
  | _ :: c :: rest =>
    match simpleEscape? c, escapeDigits? c with
    | some d, _ => some (d, s.skip 2)
    | none, some count => do
      let digits ← (rest.take count).mapM Json.hexValue?
      if digits.length < count then none
      else
        let d ← charOfCode? (digits.foldl (fun n d => n * 16 + d) 0)
        some (d, s.skip (2 + count))
    | none, none => none
  | _ => none

/-- Reads characters of a quoted scalar up to a space, a break or the quote.  A backslash before a
break hides it. -/
def readQuotedWord (quote : Char) : (fuel : Nat) → List Char → Source → Option Lexeme
  | 0, text, s => some ⟨text.reverse, s, false⟩
  | fuel + 1, text, s =>
    match s.rest with
    | [] => some ⟨text.reverse, s, false⟩
    | c :: rest =>
      if endsWord c then some ⟨text.reverse, s, false⟩
      else if c == quote then
        if quote == '\'' && rest.head? == some '\'' then
          readQuotedWord quote fuel ('\'' :: text) (s.skip 2)
        else some ⟨text.reverse, s, false⟩
      else if quote == '"' && c == '\\' then
        if (rest.head?.map isBreak).getD false then
          some ⟨text.reverse, (s.skip 1).skipBreak, true⟩
        else do
          let (d, s) ← readEscape s
          readQuotedWord quote fuel (d :: text) s
      else readQuotedWord quote fuel (c :: text) (s.skip 1)

/-- Reads the words of a quoted scalar and its closing quote. -/
def readQuotedFrom (quote : Char) : (fuel : Nat) → List Char → Source → Option Lexeme
  | 0, _, _ => none
  | fuel + 1, text, s =>
    if s.atAnyMarker || s.rest.isEmpty then none
    else do
      let word ← readQuotedWord quote (s.rest.length + 1) [] s
      let text := text ++ word.text
      if word.source.startsWith quote then some ⟨text, word.source.skip 1, false⟩
      else do
        let g ← readGap 0 word.broken word.source
        let between := if word.broken then g.breaks else g.joined
        readQuotedFrom quote fuel (text ++ between) g.source

/-- Reads a quoted scalar, of which the source starts with the quote. -/
def readQuoted (quote : Char) (s : Source) : Option Lexeme :=
  readQuotedFrom quote (s.rest.length + 1) [] (s.skip 1)

/-! ### Block scalars -/

/-- What happens to the breaks at the end of a block. -/
inductive Chomping where
  | strip
  | clip
  | keep
deriving DecidableEq

/-- The header of a block: its chomping, and its indentation if that is given. -/
def readBlockHeader (s : Source) : Option (Chomping × Nat × Source) :=
  let chomping (s : Source) : Option (Chomping × Source) :=
    match s.rest with
    | '+' :: _ => some (.keep, s.skip 1)
    | '-' :: _ => some (.strip, s.skip 1)
    | _ => none
  let digit (s : Source) : Option (Nat × Source) :=
    match s.rest with
    | c :: _ => if c.isDigit then some (c.toNat - '0'.toNat, s.skip 1) else none
    | [] => none
  match chomping s with
  | some (c, s) =>
    match digit s with
    | some (0, _) => none
    | some (n, s) => some (c, n, s)
    | none => some (c, 0, s)
  | none =>
    match digit s with
    | some (0, _) => none
    | some (n, s) =>
      match chomping s with
      | some (c, s) => some (c, n, s)
      | none => some (.clip, n, s)
    | none => some (.clip, 0, s)

/-- Breaks between two lines of a block, and the source at the next line that is not empty. -/
structure BlockGap where
  breaks : List Char
  source : Source
  widest : Nat

/-- Reads indentation and empty lines.  `indent` is zero while it is not known; a tab in the
indentation is refused. -/
def readBlockGapFrom (indent : Nat) : (fuel : Nat) → List Char → Nat → Source → Option BlockGap
  | 0, breaks, widest, s => some ⟨breaks.reverse, s, widest⟩
  | fuel + 1, breaks, widest, s =>
    let spaces := (s.leading (· == ' ')).length
    let s := s.skip (if indent = 0 then spaces else min spaces (indent - s.column))
    let widest := max widest s.column
    match s.rest with
    | [] => some ⟨breaks.reverse, s, widest⟩
    | c :: _ =>
      if (indent = 0 ∨ s.column < indent) ∧ c = '\t' then none
      else if isBreak c then
        readBlockGapFrom indent fuel (keptBreak c :: breaks) widest s.skipBreak
      else some ⟨breaks.reverse, s, widest⟩

/-- Reads indentation and empty lines of a block whose indentation is `indent`. -/
def readBlockGap (indent : Nat) (s : Source) : Option BlockGap :=
  readBlockGapFrom indent (s.rest.length + 1) [] 0 s

/-- Reads the lines of a block.  `last` is the break of the line before, `empty` the breaks of the
empty lines since, and `loose` tells whether the line before started with a space.  Breaks between
two lines of a folded block become a space, unless one of the lines starts with a space. -/
def readBlockLines (style : Style) (chomping : Chomping) (indent : Nat) :
    (fuel : Nat) → (text last empty : List Char) → (loose : Bool) → Source → Option Lexeme
  | 0, _, _, _, _, _ => none
  | fuel + 1, text, last, empty, loose, s =>
    if s.column = indent ∧ !s.rest.isEmpty then do
      let indented := (s.rest.head?.map isGap).getD false
      let between :=
        if style = .folded ∧ last = ['\n'] ∧ !loose ∧ !indented then
          if empty.isEmpty then [' '] else []
        else last
      let line := s.leading fun c => !isBreak c
      let s := s.skip line.length
      let (last, s) := match s.rest with
        | c :: _ => ([keptBreak c], s.skipBreak)
        | [] => ([], s)
      let g ← readBlockGap indent s
      readBlockLines style chomping indent fuel (text ++ between ++ empty ++ line) last g.breaks
        indented g.source
    else
      let tail := match chomping with
        | .strip => []
        | .clip => last
        | .keep => last ++ empty
      some ⟨text ++ tail, s, false⟩

/-- Reads a block, of which the source starts with the indicator.  `around` is the indentation of
the lines around the block. -/
def readBlock (style : Style) (around : Int) (s : Source) : Option Lexeme := do
  let (chomping, increment, s) ← readBlockHeader (s.skip 1)
  let s ← s.skipLineRest
  let given := if increment = 0 then 0 else (max around 0).toNat + increment
  let g ← readBlockGap given s
  let indent := if given = 0 then max g.widest (max (around + 1).toNat 1) else given
  readBlockLines style chomping indent (s.rest.length + 1) [] [] g.breaks false g.source

end Rundown.Yaml
