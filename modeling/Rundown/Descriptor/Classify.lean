import Rundown.Descriptor.Basic

/-!
# Descriptors from JSON values

An object that names an action is an action, whatever else it holds; an array is a sequence; any
other object is a parallel group.  `Descriptor.ofJson` converts a whole value and reports its first
bad node in document order.
-/

namespace Rundown

/-- Why a descriptor cannot become a playlist.  Paths are written out. -/
inductive DescriptorError where
  | unknownAction (path name : String)
  | invalidActionName (path : String)
  | invalidOptions (path name reason : String)
  | unclassifiable (path found : String)
  | tooDeep (path : String) (limit : Nat)
  | unreadable (reason : String)
deriving DecidableEq, Repr

def DescriptorError.message : DescriptorError → String
  | unknownAction path name =>
    "incorrect syntax at " ++ path ++ ": action " ++ name ++ " is not registered"
  | invalidActionName path =>
    "incorrect syntax at " ++ path ++ ": actionName must be a string"
  | invalidOptions path name reason =>
    "incorrect syntax at " ++ path ++ ": invalid options for " ++ name ++ ": " ++ reason
  | unclassifiable path found =>
    "incorrect syntax at " ++ path ++ ": expected an action, array or object, found " ++ found
  | tooDeep path limit =>
    "incorrect syntax at " ++ path ++ ": nesting deeper than " ++ toString limit ++ " levels"
  | unreadable reason => "incorrect syntax: " ++ reason

namespace Json

/-- The word for the kind of a value. -/
def kindWord : Json → String
  | null => "null"
  | bool _ => "boolean"
  | int _ | float _ => "number"
  | string _ => "string"
  | array _ => "array"
  | object _ => "object"

/-- The kind of node that a value stands for, without a look below it. -/
def nodeKind? : Json → Option NodeKind
  | array _ => some .sequential
  | object fields =>
    if (fields.lookup ActionRef.nameKey).isSome then some .action else some .parallel
  | _ => none

end Json

namespace Descriptor

/-- Groups that may stand inside one another when nothing else is said. -/
def defaultDepthLimit : Nat := 64

mutual

/-- The node at `path`, which has `level - 1` groups above it. -/
def ofJsonAt (limit : Nat) (path : Path) (level : Nat) : Json → Except DescriptorError Descriptor
  | .object fields =>
    match fields.lookup ActionRef.nameKey with
    | some (.string name) => .ok (action ⟨name, (fields.lookup ActionRef.optionsKey).getD .null⟩)
    | some _ => .error (.invalidActionName path.render)
    | none =>
      if limit < level then .error (.tooDeep path.render limit)
      else parallel <$> ofJsonBranches limit path level fields
  | .array items =>
    if limit < level then .error (.tooDeep path.render limit)
    else sequence <$> ofJsonItems limit path level 0 items
  | other => .error (.unclassifiable path.render other.kindWord)

/-- The nodes of the sequence at `path`, from the one with the given index on. -/
def ofJsonItems (limit : Nat) (path : Path) (level index : Nat) :
    List Json → Except DescriptorError (List Descriptor)
  | [] => .ok []
  | item :: rest => do
    let node ← ofJsonAt limit (path ++ [.index index]) (level + 1) item
    let nodes ← ofJsonItems limit path level (index + 1) rest
    .ok (node :: nodes)

def ofJsonBranches (limit : Nat) (path : Path) (level : Nat) :
    List (String × Json) → Except DescriptorError (List (String × Descriptor))
  | [] => .ok []
  | (key, value) :: rest => do
    let node ← ofJsonAt limit (path ++ [.key key]) (level + 1) value
    let branches ← ofJsonBranches limit path level rest
    .ok ((key, node) :: branches)

end

/-- The descriptor that a value stands for, with at most `limit` groups inside one another. -/
def ofJson (limit : Nat) (value : Json) : Except DescriptorError Descriptor :=
  ofJsonAt limit [] 1 value

end Descriptor

end Rundown
