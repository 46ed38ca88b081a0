import Rundown.Descriptor.Classify
import Rundown.Proofs.Text.Bytes

/-!
# Addresses in a JSON value

A reader of descriptors enters groups only: arrays, and objects that name no action.  The nodes that
it can meet are those at entered addresses (`Json.Entered`), and `Json.Offends` says which of them
it has to refuse and why, address by address.  `Path.Before` is the order of the document on
addresses.
-/

namespace Rundown

/-! ## The order of the document -/

/-- The order of what stands directly below a group: indices ascend, and keys ascend by their
bytes. -/
def Segment.Before : Segment → Segment → Prop
  | index i, index j => i < j
  | key k, key k' => Text.bytes k < Text.bytes k'
  | _, _ => False

/-- The order of the document: a node before what is below it, otherwise as the ways to both nodes
part. -/
def Path.Before (p p' : Path) : Prop := List.Lex Segment.Before p p'

namespace Path

variable {p p' : Path} {s s' : Segment}

theorem segment_asymm (h : s.Before s') : ¬s'.Before s := by
  cases s <;> cases s' <;> first | exact h.elim | skip
  · exact Nat.lt_asymm h
  · exact List.lt_asymm h

theorem Before.asymm (h : Before p p') : ¬Before p' p := List.lex_asymm segment_asymm h

/-- What is below one child of a group is before all that is below a later one. -/
theorem before_of_segment (h : s.Before s') (p q q' : Path) :
    Before (p ++ s :: q) (p ++ s' :: q') :=
  .append_left _ (.rel h) p

end Path

/-! ## Nodes that a reader meets -/

namespace Json

/-- The value at an address. -/
def at? : Path → Json → Option Json
  | [], v => some v
  | .index i :: rest, array items => items[i]?.bind (at? rest)
  | .key k :: rest, object fields => (fields.lookup k).bind (at? rest)
  | _ :: _, _ => none

/-- Whether a value stands for a group: an array, or an object that names no action. -/
def IsGroup : Json → Prop
  | array _ => True
  | object fields => fields.lookup ActionRef.nameKey = none
  | _ => False

/-- Whether a reader that goes into `limit` groups at most enters an address: whatever lies on the
way to it is a group.  These are all the groups above it, one for each step. -/
structure Entered (limit : Nat) (v : Json) (p : Path) : Prop where
  groups : ∀ q, q <+: p → q ≠ p → ∃ g, v.at? q = some g ∧ g.IsGroup
  few : p.length ≤ limit

/-- What is wrong with the node at an address: it is neither an action nor a group, its action has
no proper name, or it is a group with `limit` groups above it. -/
def fault? (limit : Nat) (p : Path) : Json → Option DescriptorError
  | null => some (.unclassifiable p.render "null")
  | bool _ => some (.unclassifiable p.render "boolean")
  | int _ | float _ => some (.unclassifiable p.render "number")
  | string _ => some (.unclassifiable p.render "string")
  | array _ => if p.length = limit then some (.tooDeep p.render limit) else none
  | object fields =>
    match fields.lookup ActionRef.nameKey with
    | some (string _) => none
    | some _ => some (.invalidActionName p.render)
    | none => if p.length = limit then some (.tooDeep p.render limit) else none

/-- The node at an entered address has to be refused, with this error. -/
structure Offends (limit : Nat) (v : Json) (p : Path) (err : DescriptorError) : Prop where
  entered : v.Entered limit p
  fault : ∃ node, v.at? p = some node ∧ node.fault? limit p = some err

/-- An address is followed step by step. -/
theorem at?_cons (s : Segment) (q : Path) (v : Json) :
    at? (s :: q) v = (at? [s] v).bind (at? q) := by
  cases v <;> cases s <;> simp [at?]

end Json

end Rundown
