import Rundown.Playlist.Step
import Rundown.Json.Record

/-!
# Configuration

Two settings: what a parallel group does when a branch fails, and how many groups may stand inside
one another.
-/

namespace Rundown

namespace FailurePolicy

def word : FailurePolicy → String
  | failFast => "fail_fast"
  | settleAll => "settle_all"

def inspect : FailurePolicy → String
  | failFast => "FailFast"
  | settleAll => "SettleAll"

def ofWord (s : String) : Except DecodeError FailurePolicy :=
  if s = failFast.word then .ok failFast
  else if s = settleAll.word then .ok settleAll
  else .error (.unknownVariant s [failFast.word, settleAll.word])

/-- The policy that a value holds: a word, or an object with the word as its only key and nothing
under it. -/
def ofJson : Json → Except DecodeError FailurePolicy
  | .string s => ofWord s
  | .object [(key, value)] => do
    let policy ← ofWord key
    match value with
    | .null => .ok policy
    | other => .error (.wrongType other "unit")
  | .object _ => .error (.wrongValue "map" "map with a single key")
  | other => .error (.wrongType other "string or map")

end FailurePolicy

/-- The settings of the engine. -/
structure Config where
  parallelFailure : FailurePolicy
  maxDepth : Nat
deriving DecidableEq, Repr

/-- Why a configuration cannot be used. -/
inductive ConfigError where
  | unreadableYaml (source : String)
  | unreadableJson (source : String)
  | invalidValue (key reason : String)
deriving DecidableEq, Repr

def ConfigError.message : ConfigError → String
  | unreadableYaml source => "failed to parse YAML engine config: " ++ source
  | unreadableJson source => "failed to parse JSON engine config: " ++ source
  | invalidValue key reason => "invalid configuration value for '" ++ key ++ "': " ++ reason

namespace Config

/-- End at the first failure, and the usual limit on depth. -/
def default : Config := ⟨.failFast, Descriptor.defaultDepthLimit⟩

def recordType : RecordType Config where
  name := "EngineConfig"
  fields := [
    ⟨"parallel_failure",
      fun value c => do .ok { c with parallelFailure := ← FailurePolicy.ofJson value }, true⟩,
    ⟨"max_depth", fun value c => do .ok { c with maxDepth := ← value.asNatural }, true⟩]
  blank := default

/-- Refuses values out of range. -/
def validate (c : Config) : Except ConfigError Config :=
  if c.maxDepth = 0 then .error (.invalidValue "max_depth" "must be at least 1") else .ok c

def ofJson (value : Json) : Except ConfigError Config :=
  match recordType.decode value with
  | .ok c => c.validate
  | .error e => .error (.unreadableJson e.message)

def toJson (c : Config) : Json :=
  .object [("max_depth", .int c.maxDepth), ("parallel_failure", .string c.parallelFailure.word)]

def inspect (c : Config) : String :=
  "EngineConfig \x7b parallel_failure: " ++ c.parallelFailure.inspect ++ ", max_depth: " ++
    toString c.maxDepth ++ " \x7d"

end Config

end Rundown
