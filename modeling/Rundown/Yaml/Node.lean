import Rundown.Yaml.Token

/-!
# YAML nodes

The tree that the tokens of a text describe.  A text holds one document at most; without one its
root is missing.  Anchors are numbered, and an alias holds the number that its name has where the
alias stands; what a number means is known only at the end of the document.
-/

namespace Rundown.Yaml

/-- A node with the tag written for it. -/
inductive Node where
  | alias (number : Nat)
  | scalar (tag : Option Tag) (style : Style) (text : String)
  | sequence (tag : Option Tag) (items : List Node)
  | mapping (tag : Option Tag) (entries : List (Node × Node))
deriving Repr

namespace Node

/-- What stands where nothing is written. -/
def blank : Node := .scalar none .plain ""

mutual

/-- The number of steps in which a node is told: one for a scalar or an alias; the start, the end
and all between for the others. -/
def size : Node → Nat
  | .alias _ | .scalar .. => 1
  | sequence _ items => sizeItems items + 2
  | mapping _ entries => sizeEntries entries + 2

def sizeItems : List Node → Nat
  | [] => 0
  | item :: rest => item.size + sizeItems rest

def sizeEntries : List (Node × Node) → Nat
  | [] => 0
  | (key, value) :: rest => key.size + value.size + sizeEntries rest

end

end Node

/-- A document: its root, unless the text is empty, and the nodes with an anchor by the number of
the anchor, the last one first. -/
structure Document where
  root : Option Node
  anchored : List (Nat × Node)

namespace Document

def size (d : Document) : Nat := (d.root.map Node.size).getD 1

end Document

/-! ### Reading state -/

/-- What is known while tokens are read: the tokens ahead, what the handles of tags stand for, the
names of anchors with their numbers, and the nodes with an anchor in the order in which they start.
A node that has not ended is blank there. -/
structure Outline where
  tokens : List Token
  scopes : List (String × Tag)
  names : List (String × Nat)
  anchored : Array (Nat × Node)

abbrev Reading := StateT Outline Option

namespace Reading

def ahead : Reading Token := do return (← get).tokens.headD .streamEnd

def advance : Reading Unit := modify fun s => { s with tokens := s.tokens.tail }

/-- Enters a node with an anchor and returns its place.  The number of the anchor is that of the
names known before, so a name that comes again takes the number of the next new name. -/
def enterAnchor (name : String) : Reading Nat := do
  let s ← get
  let number := s.names.length
  let names := s.names.filter fun entry => entry.1 ≠ name
  set { s with names := (name, number) :: names, anchored := s.anchored.push (number, Node.blank) }
  return s.anchored.size

/-- Leaves the node with an anchor that was entered at a place. -/
def leaveAnchor (place : Nat) (node : Node) : Reading Unit := modify fun s =>
  { s with anchored := s.anchored.modify place fun (number, _) => (number, node) }

/-- The number that the name of an anchor has here. -/
def numberOf (name : String) : Reading Nat := do (← get).names.lookup name

/-- The tag that a handle and a suffix stand for. -/
def tagOf (handle : String) (suffix : Tag) : Reading Tag := do
  if handle.isEmpty then return suffix
  else return (← (← get).scopes.lookup handle) ++ suffix

/-- An anchor and a tag in any order, each at most once. -/
def properties : Reading (Option String × Option (String × Tag)) := do
  match ← ahead with
  | .anchor name =>
    advance
    match ← ahead with
    | .tag handle suffix =>
      advance
      return (some name, some (handle, suffix))
    | _ => return (some name, none)
  | .tag handle suffix =>
    advance
    match ← ahead with
    | .anchor name =>
      advance
      return (some name, some (handle, suffix))
    | _ => return (none, some (handle, suffix))
  | _ => return (none, none)

/-- Reads a node, which is blank before certain tokens. -/
def orBlank (stops : Token → Bool) (read : Reading Node) : Reading Node := do
  if stops (← ahead) then return Node.blank else read

/-- Reads the value of a key, which is blank without a colon. -/
def afterColon (stops : Token → Bool) (read : Reading Node) : Reading Node := do
  if (← ahead) = .value then
    advance
    orBlank stops read
  else return Node.blank

/-- The tokens before which an item of a block is blank. -/
def endsItem : Token → Bool
  | .entry | .blockEnd => true
  | _ => false

/-- The tokens before which a key or a value of a block is blank. -/
def endsField : Token → Bool
  | .key | .value | .blockEnd => true
  | _ => false

/-- The tokens before which an item is blank whose dash stands in the column of the keys around. -/
def endsFlushItem (t : Token) : Bool := endsItem t || endsField t

/-- The tokens before which a value between square brackets is blank. -/
def endsPair : Token → Bool
  | .flowEntry | .flowSequenceEnd => true
  | _ => false

/-- The tokens before which a value between braces is blank. -/
def endsFlowField : Token → Bool
  | .flowEntry | .flowMappingEnd => true
  | _ => false

/-- The tokens before which a document is blank. -/
def endsDocument : Token → Bool
  | .versionDirective .. | .tagDirective .. | .documentStart | .documentEnd | .streamEnd => true
  | _ => false

/-- Reads the comma between two elements; there is none before the closing bracket. -/
def separator (closing : Token) : Reading Unit := do
  let t ← ahead
  if t = .flowEntry then advance
  else if t = closing then pure ()
  else failure

/-! ### Nodes -/

mutual

/-- Reads a node.  `block` admits blocks; `flush` admits items whose dashes stand in the column of
the keys around. -/
def node (block flush : Bool) : (fuel : Nat) → Reading Node
  | 0 => failure
  | fuel + 1 => do
    match ← ahead with
    | .alias name =>
      advance
      return .alias (← numberOf name)
    | _ =>
      let (anchor, tag) ← properties
      let tag ← tag.mapM fun (handle, suffix) => tagOf handle suffix
      match anchor with
      | some name =>
        let place ← enterAnchor name
        let content ← content block flush true tag fuel
        leaveAnchor place content
        return content
      | none => content block flush tag.isSome tag fuel

/-- Reads a node after its anchor and tag.  A node that is `marked` with one of them may be
blank. -/
def content (block flush marked : Bool) (tag : Option Tag) : (fuel : Nat) → Reading Node
  | 0 => failure
  | fuel + 1 => do
    let t ← ahead
    if t = .entry && flush then return .sequence tag (← flushItems fuel)
    else if t = .sequenceStart && block then
      advance
      return .sequence tag (← blockItems fuel)
    else if t = .mappingStart && block then
      advance
      return .mapping tag (← blockEntries fuel)
    else
      match t with
      | .scalar style text =>
        advance
        return .scalar tag style text
      | .flowSequenceStart =>
        advance
        return .sequence tag (← flowItems true fuel)
      | .flowMappingStart =>
        advance
        return .mapping tag (← flowEntries true fuel)
      | _ => if marked then return .scalar tag .plain "" else failure

/-- Reads the items of a block to its end. -/
def blockItems : (fuel : Nat) → Reading (List Node)
  | 0 => failure
  | fuel + 1 => do
    match ← ahead with
    | .entry =>
      advance
      let item ← orBlank endsItem (node true false fuel)
      return item :: (← blockItems fuel)
    | .blockEnd =>
      advance
      return []
    | _ => failure

/-- Reads items whose dashes stand in the column of the keys around. -/
def flushItems : (fuel : Nat) → Reading (List Node)
  | 0 => failure
  | fuel + 1 => do
    match ← ahead with
    | .entry =>
      advance
      let item ← orBlank endsFlushItem (node true false fuel)
      return item :: (← flushItems fuel)
    | _ => return []

/-- Reads the keys and values of a block to its end. -/
def blockEntries : (fuel : Nat) → Reading (List (Node × Node))
  | 0 => failure
  | fuel + 1 => do
    match ← ahead with
    | .key =>
      advance
      let key ← orBlank endsField (node true true fuel)
      let value ← afterColon endsField (node true true fuel)
      return (key, value) :: (← blockEntries fuel)
    | .blockEnd =>
      advance
      return []
    | _ => failure

/-- Reads items up to the closing square bracket.  A key and its value without braces are a mapping
of their own; the token that shows such a key to be blank belongs to it. -/
def flowItems (first : Bool) : (fuel : Nat) → Reading (List Node)
  | 0 => failure
  | fuel + 1 => do
    if !first then separator .flowSequenceEnd
    match ← ahead with
    | .flowSequenceEnd =>
      advance
      return []
    | .key =>
      advance
      let t ← ahead
      let key ←
        if t = .value || endsPair t then do
          advance
          pure Node.blank
        else node false false fuel
      let value ← afterColon endsPair (node false false fuel)
      return .mapping none [(key, value)] :: (← flowItems false fuel)
    | _ =>
      let item ← node false false fuel
      return item :: (← flowItems false fuel)

/-- Reads keys and values up to the closing brace. -/
def flowEntries (first : Bool) : (fuel : Nat) → Reading (List (Node × Node))
  | 0 => failure
  | fuel + 1 => do
    if !first then separator .flowMappingEnd
    match ← ahead with
    | .flowMappingEnd =>
      advance
      return []
    | .key =>
      advance
      let key ← orBlank (fun t => t = .value || endsFlowField t) (node false false fuel)
      let value ← afterColon endsFlowField (node false false fuel)
      return (key, value) :: (← flowEntries false fuel)
    | _ =>
      let key ← node false false fuel
      return (key, Node.blank) :: (← flowEntries false fuel)

end

end Reading

/-! ### Documents -/

namespace Document

/-- What handles stand for where no directive says otherwise. -/
def usualScopes : List (String × Tag) := [("!", Tag.mark), ("!!", Tag.schemaScope)]

/-- The scopes that the directives ahead declare, and the tokens after them.  Each thing may be
declared once, and the version must be one of two. -/
def readDirectives (versioned : Bool) (scopes : List (String × Tag)) :
    List Token → Option (List (String × Tag) × List Token)
  | .versionDirective major minor :: rest =>
    if versioned || major ≠ 1 || (minor ≠ 1 && minor ≠ 2) then none
    else readDirectives true scopes rest
  | .tagDirective handle scope :: rest =>
    if (scopes.lookup handle).isSome then none
    else readDirectives versioned ((handle, scope) :: scopes) rest
  | rest => some (scopes ++ usualScopes, rest)

/-- Reads the root, and document ends after it; nothing may follow. -/
def readRoot (read : Reading Node) (scopes : List (String × Tag)) (tokens : List Token) :
    Option Document := do
  let (root, s) ← read.run ⟨tokens, scopes, [], #[]⟩
  if (s.tokens.dropWhile (· = .documentEnd)).headD .streamEnd = .streamEnd then
    some ⟨some root, s.anchored.toList.reverse⟩
  else none

/-- The document that tokens describe.  Directives must be followed by a document start.  Every
fourth call of the reader at the latest takes a token, so the fuel lasts. -/
def ofTokens? (tokens : List Token) : Option Document := do
  let fuel := 4 * tokens.length + 4
  let (scopes, rest) ← readDirectives false [] tokens
  match rest with
  | .documentStart :: rest =>
    readRoot (Reading.orBlank Reading.endsDocument (Reading.node true false fuel)) scopes rest
  | _ =>
    if rest.length < tokens.length then none
    else if rest.headD .streamEnd = .streamEnd then some ⟨none, []⟩
    else readRoot (Reading.node true false fuel) scopes rest

def ofString? (text : String) : Option Document := do ofTokens? (← tokens? text)

/-- The node that a number stands for: of the nodes that were given it, the last to start. -/
def node? (d : Document) (number : Nat) : Option Node := d.anchored.lookup number

/-! ### Visiting -/

/-- A step of visiting a document that may fail.  The state is the number of aliases that may still
be followed. -/
abbrev Visit := StateT Nat Option

/-- Visits with the number of aliases that a document of its size allows. -/
def visit {α : Type} (d : Document) (step : Visit α) : Option α :=
  (step.run (100 * d.size)).map Prod.fst

/-- The node itself, or the one that an alias refers to. -/
def follow (d : Document) : Node → Visit Node
  | .alias number => do
    match ← get with
    | 0 => failure
    | left + 1 =>
      set left
      d.node? number
  | node => return node

/-- The text of a key, which must be a scalar.  Neither its tag nor its style matters. -/
def keyText (d : Document) (key : Node) : Visit String := do
  match ← d.follow key with
  | .scalar _ _ text => return text
  | _ => failure

end Document

end Rundown.Yaml
