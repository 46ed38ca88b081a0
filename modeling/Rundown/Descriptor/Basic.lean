import Rundown.Descriptor.Path
import Rundown.Json.Record

/-!
# Descriptors

A descriptor says what a playlist does: an action to build by its registered name, an action that
has been built already, nodes to run one after another, or nodes to start together under keys.
-/

namespace Rundown

/-- A registered action and the options to build it with. -/
structure ActionRef where
  name : String
  options : Json
deriving Inhabited, DecidableEq, Repr

/-- The place of an action in the world. -/
abbrev ActionId := Nat

/-- A node of a playlist. -/
inductive Descriptor where
  | action (ref : ActionRef)
  | instance (id : ActionId)
  | sequence (nodes : List Descriptor)
  | parallel (branches : List (String × Descriptor))
deriving Inhabited

/-- The three kinds of nodes. -/
inductive NodeKind where
  | action
  | sequential
  | parallel
deriving DecidableEq, Repr

def NodeKind.word : NodeKind → String
  | action => "action"
  | sequential => "sequential"
  | parallel => "parallel"

namespace ActionRef

def nameKey : String := "actionName"

def optionsKey : String := "options"

def recordType : RecordType ActionRef where
  name := "ActionRef"
  fields := [
    ⟨nameKey, fun value ref => do .ok { ref with name := ← value.asString }, false⟩,
    ⟨optionsKey, fun value ref => .ok { ref with options := value }, true⟩]
  blank := ⟨"", .null⟩

def toJson (ref : ActionRef) : Json :=
  .object [(nameKey, .string ref.name), (optionsKey, ref.options)]

def inspect (ref : ActionRef) : String :=
  "ActionRef \x7b action_name: " ++ Text.inspect ref.name ++ ", options: " ++ ref.options.inspect ++
    " \x7d"

end ActionRef

namespace Descriptor

def kind : Descriptor → NodeKind
  | action _ | .instance _ => .action
  | sequence _ => .sequential
  | parallel _ => .parallel

/-- Puts a branch under a key: a new key comes last, a known one keeps its place. -/
def insertBranch (branches : List (String × Descriptor)) (key : String) (node : Descriptor) :
    List (String × Descriptor) :=
  if branches.any fun branch => branch.1 == key then
    branches.map fun branch => if branch.1 == key then (key, node) else branch
  else branches ++ [(key, node)]

/-- The parallel group of the given branches, one for each key. -/
def parallelOf (branches : List (String × Descriptor)) : Descriptor :=
  parallel (branches.foldl (fun done branch => insertBranch done branch.1 branch.2) [])

mutual

def actionCount : Descriptor → Nat
  | action _ | .instance _ => 1
  | sequence nodes => countNodes nodes
  | parallel branches => countBranches branches

/-- Number of actions below the nodes of a sequence. -/
def countNodes : List Descriptor → Nat
  | [] => 0
  | node :: rest => node.actionCount + countNodes rest

/-- Number of actions below the branches of a group. -/
def countBranches : List (String × Descriptor) → Nat
  | [] => 0
  | (_, node) :: rest => node.actionCount + countBranches rest

end

mutual

/-- Number of groups on the longest way down. -/
def depth : Descriptor → Nat
  | action _ | .instance _ => 0
  | sequence nodes => depthNodes nodes + 1
  | parallel branches => depthBranches branches + 1

/-- The greatest depth of a node of a sequence. -/
def depthNodes : List Descriptor → Nat
  | [] => 0
  | node :: rest => max node.depth (depthNodes rest)

/-- The greatest depth of a branch of a group. -/
def depthBranches : List (String × Descriptor) → Nat
  | [] => 0
  | (_, node) :: rest => max node.depth (depthBranches rest)

end

mutual

def inspect : Descriptor → String
  | action ref => "Action(" ++ ref.inspect ++ ")"
  | .instance _ => "Instance(..)"
  | sequence nodes => Text.bracketed "Sequence([" (inspectNodes nodes) "])"
  | parallel branches => Text.bracketed "Parallel(\x7b" (inspectBranches branches) "\x7d)"

def inspectNodes : List Descriptor → List String
  | [] => []
  | node :: rest => node.inspect :: inspectNodes rest

def inspectBranches : List (String × Descriptor) → List String
  | [] => []
  | (key, node) :: rest => (Text.inspect key ++ ": " ++ node.inspect) :: inspectBranches rest

end

end Descriptor

end Rundown
