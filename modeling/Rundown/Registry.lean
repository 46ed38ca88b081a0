import Rundown.Action.Options
import Rundown.Descriptor.Classify

/-!
# The registry of actions

A registry associates names with constructors.  The last registration of a name counts, and whatever
was built or taken from the registry before keeps what it has.
-/

namespace Rundown

/-- Builds an action from options, or refuses them. -/
abbrev Constructor := Json → Except ActionError Action

/-- Constructors under their names, which ascend. -/
structure Registry where
  entries : List (String × Constructor)

/-- Why an action could not be built by name. -/
inductive RegistryError where
  | notFound (name : String)
  | construction (name : String) (source : ActionError)
deriving DecidableEq, Repr

def RegistryError.message : RegistryError → String
  | notFound name => "action not registered: " ++ name
  | construction name source => "failed to construct action " ++ name ++ ": " ++ source.message

/-- The error of a descriptor whose node at `path` names an action that could not be built. -/
def DescriptorError.ofRegistry (path : String) : RegistryError → DescriptorError
  | .notFound name => .unknownAction path name
  | .construction name source => .invalidOptions path name source.message

namespace Registry

def empty : Registry := ⟨[]⟩

/-- The entries with a constructor under a name. -/
def insert (name : String) (c : Constructor) :
    List (String × Constructor) → List (String × Constructor)
  | [] => [(name, c)]
  | (n, old) :: rest =>
    if name < n then (name, c) :: (n, old) :: rest
    else if name = n then (name, c) :: rest
    else (n, old) :: insert name c rest

/-- Registers a constructor; an earlier one of the name is replaced. -/
def register (r : Registry) (name : String) (c : Constructor) : Registry :=
  ⟨insert name c r.entries⟩

def unregister (r : Registry) (name : String) : Registry :=
  ⟨r.entries.filter fun entry => entry.1 != name⟩

/-- Unregisters a name; the second part tells whether there was something to remove. -/
def remove (r : Registry) (name : String) : Registry × Bool :=
  (r.unregister name, r.entries.any fun entry => entry.1 == name)

def resolve (r : Registry) (name : String) : Option Constructor := r.entries.lookup name

def contains (r : Registry) (name : String) : Bool := (r.resolve name).isSome

def names (r : Registry) : List String := r.entries.map Prod.fst

def size (r : Registry) : Nat := r.entries.length

def isEmpty (r : Registry) : Bool := r.entries.isEmpty

/-- Everything that is registered, as it stands. -/
def snapshot (r : Registry) : List (String × Constructor) := r.entries

def construct (r : Registry) (name : String) (options : Json) : Except RegistryError Action :=
  match r.resolve name with
  | none => .error (.notFound name)
  | some c => (c options).mapError (.construction name)

def registerBuiltins (r : Registry) : Registry :=
  ((((r.register "wait" Action.waitOf).register "stop" Action.stopOf).register "awaitSignal"
    Action.awaitSignalOf).register "emitSignal" Action.emitSignalOf)

def inspect (r : Registry) : String :=
  "ActionRegistry \x7b actions: " ++ Text.bracketed "[" (r.names.map Text.inspect) "]" ++ " \x7d"

end Registry

end Rundown
