/-!
# YAML tags

A tag is written in characters, but a percent sign and two digits in it name a byte, so what it
holds need not be text.  It ends before its first zero byte.
-/

namespace Rundown.Yaml

/-- A tag: bytes, none of which is zero. -/
structure Tag where
  bytes : List UInt8
  zero_notMem : 0 ∉ bytes := by decide
deriving DecidableEq, Repr

namespace Tag

def ofBytes (bytes : List UInt8) : Tag where
  bytes := bytes.takeWhile (· ≠ 0)
  zero_notMem := fun h => by simpa using List.all_eq_true.mp List.all_takeWhile 0 h

def ofString (text : String) : Tag := ofBytes (text.toList.flatMap String.utf8EncodeChar)

/-- A tag followed by another. -/
instance : Append Tag where
  append a b := ⟨a.bytes ++ b.bytes,
    fun h => (List.mem_append.mp h).elim a.zero_notMem b.zero_notMem⟩

def isEmpty (t : Tag) : Bool := t.bytes.isEmpty

/-- The exclamation mark alone. -/
def mark : Tag := ⟨[0x21], by decide⟩

/-- The tags of the usual schema start so. -/
def schemaScope : Tag := ofString "tag:yaml.org,2002:"

/-- A tag of the usual schema. -/
def ofSchema (name : String) : Tag := schemaScope ++ ofString name

/-- Whether the tag starts with an exclamation mark. -/
def isMarked (t : Tag) : Bool := t.bytes.head? == some 0x21

/-- The name of a local tag, which belongs to the text itself rather than to a schema: what follows
the exclamation mark, if that is text. -/
def localName? (t : Tag) : Option String :=
  if t.isMarked then String.fromUTF8? ⟨t.bytes.tail.toArray⟩ else none

/-- Whether the tag is a local one. -/
def isLocal (t : Tag) : Bool := t.localName?.isSome

end Tag

end Rundown.Yaml
