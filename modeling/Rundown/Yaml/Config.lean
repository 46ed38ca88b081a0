import Rundown.Config
import Rundown.Yaml.Node
import Rundown.Yaml.Plain

/-!
# Configuration from YAML

A configuration is a mapping from the names of settings to scalars.  Unknown settings are ignored; a
known one may be given once.
-/

namespace Rundown.Yaml

/-- A natural number of 64 bits, written without a minus.  A block of lines is one only with the tag
that says so. -/
def naturalOfNode (d : Document) (node : Node) : Document.Visit Nat := do
  match ← d.follow node with
  | .scalar tag style text =>
    if style = .plain ∨ (style = .literal ∧ tag = some (Tag.ofSchema "int")) then
      let n ← Plain.unsigned? text.toList
      if (n : Int) < Json.intBound then return n else failure
    else failure
  | _ => failure

/-- A policy: its word as a text or as a tag of nothing. -/
def policyOfNode (d : Document) (node : Node) : Document.Visit FailurePolicy := do
  match ← d.follow node with
  | .scalar tag style text =>
    match tag.bind Tag.localName? with
    | some name =>
      if style = .plain ∧ (text.isEmpty || Plain.isNull text) then
        (FailurePolicy.ofWord name).toOption
      else failure
    | none => (FailurePolicy.ofWord text).toOption
  | _ => failure

/-- The settings read so far, each at most once. -/
structure Settings where
  policy : Option FailurePolicy
  maxDepth : Option Nat

def settingsOfEntries (d : Document) : List (Node × Node) → Settings → Document.Visit Settings
  | [], settings => return settings
  | (key, value) :: rest, settings => do
    let settings ← match ← d.keyText key with
      | "parallel_failure" =>
        if settings.policy.isSome then failure
        else pure { settings with policy := some (← policyOfNode d value) }
      | "max_depth" =>
        if settings.maxDepth.isSome then failure
        else pure { settings with maxDepth := some (← naturalOfNode d value) }
      | _ => pure settings
    settingsOfEntries d rest settings

/-- The settings of a document; an empty one holds none. -/
def settingsOfDocument (d : Document) : Document.Visit Settings :=
  match d.root with
  | none | some (.scalar _ .plain "") => return ⟨none, none⟩
  | some (.mapping _ entries) => settingsOfEntries d entries ⟨none, none⟩
  | some _ => failure

end Rundown.Yaml

namespace Rundown.Config

/-- The configuration that a text holds, with the usual values of settings that are not given. -/
def ofYaml (text : String) : Except ConfigError Config :=
  match do
    let d ← Yaml.Document.ofString? text
    d.visit (Yaml.settingsOfDocument d) with
  | some settings =>
    Config.validate ⟨settings.policy.getD default.parallelFailure,
      settings.maxDepth.getD default.maxDepth⟩
  | none => .error (.unreadableYaml "the text does not hold a configuration")

end Rundown.Config
