/-!
# Paths

A path leads from the root of a descriptor to one of its nodes, by an index through a sequence and
by a key through a parallel group.
-/

namespace Rundown

/-- One step down into a group. -/
inductive Segment where
  | index (n : Nat)
  | key (name : String)
deriving DecidableEq, Repr

/-- The steps from the root to a node. -/
abbrev Path := List Segment

/-- The step as it stands in a message. -/
def Segment.render : Segment → String
  | index n => "[" ++ toString n ++ "]"
  | key name => "." ++ name

/-- The path as it stands in a message; the root is a dollar sign. -/
def Path.render (path : Path) : String :=
  path.foldl (fun text segment => text ++ segment.render) "$"

end Rundown
