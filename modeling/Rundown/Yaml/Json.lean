import Rundown.Yaml.Node
import Rundown.Yaml.Plain

/-!
# JSON values from YAML

A document as a JSON value.  Keys are the texts of scalars, and the last of equal keys wins.
Aliases are replaced by what they refer to, as often as the size of the document allows.
-/

namespace Rundown.Yaml

/-- A scalar without a tag as a JSON value; only a plain one can be anything but a string. -/
def jsonOfUntagged (style : Style) (text : String) : Option Json :=
  if style = .plain then Plain.toJson? text else some (.string text)

/-- A scalar as a JSON value.  A tag of the usual schema must fit the text; a local tag is refused.
Of other tags, one that starts with an exclamation mark changes nothing, and any other makes the
scalar a string. -/
def jsonOfScalar (tag : Option Tag) (style : Style) (text : String) : Option Json :=
  match tag with
  | none => jsonOfUntagged style text
  | some tag =>
    if tag.isLocal then none
    else if tag = Tag.ofSchema "bool" then (Plain.bool? text).map .bool
    else if tag = Tag.ofSchema "int" then do
      let n ← Plain.integer? text.toList
      if Plain.fitsWord n then some (.int n) else none
    else if tag = Tag.ofSchema "float" then (Plain.float? text).map Plain.ofFloat
    else if tag = Tag.ofSchema "null" then if Plain.isNull text then some .null else none
    else if tag.isMarked then jsonOfUntagged style text
    else some (.string text)

/-- The greatest number of sequences and mappings inside one another. -/
def depthLimit : Nat := 128

/-- A node as a JSON value, with at most `depth` sequences and mappings inside one another. -/
def jsonOfNode (d : Document) (depth : Nat) (node : Node) : Document.Visit Json := do
  match ← d.follow node, depth with
  | .scalar tag style text, _ => jsonOfScalar tag style text
  | .sequence tag items, depth + 1 =>
    if tag.any Tag.isLocal then failure
    else return .array (← items.mapM fun item => jsonOfNode d depth item)
  | .mapping tag entries, depth + 1 =>
    if tag.any Tag.isLocal then failure
    else
      let fields ← entries.mapM fun (key, value) => do
        return (← d.keyText key, ← jsonOfNode d depth value)
      return Json.ofFields fields
  | _, _ => failure

/-- The JSON value that a text holds; an empty one holds null. -/
def readJson (text : String) : Option Json := do
  let d ← Document.ofString? text
  match d.root with
  | none => some .null
  | some root => d.visit (jsonOfNode d depthLimit root)

end Rundown.Yaml
