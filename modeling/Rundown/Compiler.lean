import Rundown.Config
import Rundown.Engine
import Rundown.Registry

/-!
# Compiling a descriptor

Compiling builds every action of a descriptor, in document order, before anything runs.  The first
node that cannot be compiled ends it; `Compilation` keeps the constructor calls that were made up to
there.
-/

namespace Rundown

/-- A constructor call and what came of it. -/
structure Construction where
  ref : ActionRef
  result : Except ActionError Action

/-- The constructor calls so far, and the number for the next action built. -/
structure Workshop where
  next : ActionId
  calls : List Construction

abbrev CompileM := ExceptT DescriptorError (StateM Workshop)

/-- What to compile with. -/
structure Compiler where
  registry : Registry
  config : Config

namespace Compiler

def build (c : Compiler) (path : Path) (ref : ActionRef) : CompileM ActionId := do
  match c.registry.resolve ref.name with
  | none => throw (.ofRegistry path.render (.notFound ref.name))
  | some constructor =>
    let result := constructor ref.options
    let shop ← get
    let calls := shop.calls ++ [⟨ref, result⟩]
    match result with
    | .ok _ =>
      set (⟨shop.next + 1, calls⟩ : Workshop)
      pure shop.next
    | .error e =>
      set (⟨shop.next, calls⟩ : Workshop)
      throw (.ofRegistry path.render (.construction ref.name e))

/-- Refuses a group at a level beyond the limit. -/
def checkLevel (c : Compiler) (path : Path) (level : Nat) : CompileM Unit :=
  if c.config.maxDepth < level then throw (.tooDeep path.render c.config.maxDepth) else pure ()

mutual

/-- The step for the node at `path`; a group there has the given level. -/
def compileNode (c : Compiler) (path : Path) (level : Nat) : Descriptor → CompileM Step
  | .action ref => do return .leaf .idle (← c.build path ref)
  | .instance id => pure (.leaf .idle id)
  | .sequence nodes => do
    c.checkLevel path level
    return .group .idle (Group.fresh .sequence) (← compileNodes c path level 0 nodes)
  | .parallel branches => do
    c.checkLevel path level
    let kind := .parallel (branches.map Prod.fst) c.config.parallelFailure
    return .group .idle (Group.fresh kind) (← compileBranches c path level branches)

/-- The steps of the sequence at `path`, from the one with the given index on. -/
def compileNodes (c : Compiler) (path : Path) (level index : Nat) :
    List Descriptor → CompileM (List Step)
  | [] => pure []
  | node :: rest => do
    let s ← compileNode c (path ++ [.index index]) (level + 1) node
    return s :: (← compileNodes c path level (index + 1) rest)

/-- The steps of the parallel group at `path`. -/
def compileBranches (c : Compiler) (path : Path) (level : Nat) :
    List (String × Descriptor) → CompileM (List Step)
  | [] => pure []
  | (key, node) :: rest => do
    let s ← compileNode c (path ++ [.key key]) (level + 1) node
    return s :: (← compileBranches c path level rest)

end

/-- The tree of a whole descriptor.  An action alone becomes a sequence of one step. -/
def compileRoot (c : Compiler) (d : Descriptor) : CompileM Step :=
  match d.kind with
  | .action => do
    c.checkLevel [] 1
    return .group .idle (Group.fresh .sequence) [← c.compileNode [] 1 d]
  | _ => c.compileNode [] 1 d

def addActions (calls : List Construction) (w : World) : World :=
  calls.foldl (fun w call =>
    match call.result with
    | .ok action => (w.addAction action).1
    | .error _ => w) w

/-- What compiling leads to: the constructor calls and, unless a node could not be compiled, the
engine with the new playlist. -/
structure Compilation where
  calls : List Construction
  result : Except DescriptorError (Engine × PlaylistId)

def compile (c : Compiler) (d : Descriptor) (e : Engine) : Compilation :=
  let (result, shop) := (c.compileRoot d).run.run ⟨e.world.instances.length, []⟩
  ⟨shop.calls, result.map fun root =>
    ({ e with world := addActions shop.calls e.world }).addPlaylist d root⟩

def compileJson (c : Compiler) (value : Json) (e : Engine) : Compilation :=
  match Descriptor.ofJson c.config.maxDepth value with
  | .ok d => c.compile d e
  | .error error => ⟨[], .error error⟩

def inspect (c : Compiler) : String :=
  "PlaylistCompiler \x7b registry: " ++ c.registry.inspect ++ ", config: " ++ c.config.inspect ++
    " \x7d"

end Compiler

end Rundown
