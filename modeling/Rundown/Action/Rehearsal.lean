import Rundown.Action.Options

/-!
# Actions for rehearsals

Actions that make a playlist visible from outside.  A probe reports when it is built and when it
begins, and then ends as its options say or waits for somebody outside.  The others end in ways that
try a completion out.
-/

namespace Rundown

/-- Options of a probe. -/
structure ProbeOptions where
  name : String
  result : Option Json
  fail : Option String

def ProbeOptions.recordType : RecordType ProbeOptions where
  name := "ProbeOptions"
  fields := [
    ⟨"name", fun value o => do .ok { o with name := ← value.asString }, false⟩,
    ⟨"result", fun value o => .ok { o with result := value.asOptional }, true⟩,
    ⟨"fail", fun value o => do .ok { o with fail := ← value.asOptionalString }, true⟩]
  blank := ⟨"", none, none⟩

namespace Action

/-- Fails if a reason is given, else completes if a result is given, else parks its completion. -/
def probe (o : ProbeOptions) : Action where
  onBegin _ :=
    match o.fail, o.result with
    | some message, _ => [.settle (.error (.failed message))]
    | none, some value => [.settle (.ok value)]
    | none, none => [.park o.name]
  holdsBus := false
  builtLabel := some o.name
  begunLabel := some o.name

def probeOf (options : Json) : Except ActionError Action :=
  probe <$> readOptions ProbeOptions.recordType options

/-- Completes with its tag, its options and its input. -/
def tagged (tag : String) (options : Json) : Action where
  onBegin input :=
    [.settle (.ok (.object [("input", input), ("options", options), ("tag", .string tag)]))]
  holdsBus := false
  builtLabel := some ("tagged:" ++ tag)
  begunLabel := none

/-- Fails with its tag and its options. -/
def taggedStop (tag : String) (options : Json) : Action :=
  { stop (tag ++ ":" ++ options.render) with builtLabel := some ("tagged:" ++ tag) }

/-- Completes with its input and the number of its begins, of which there can be only one. -/
def echo : Action :=
  ofEffects fun input => [.settle (.ok (.object [("begins", .int 1), ("echo", input)]))]

def double : Action :=
  ofEffects fun _ => [.settle (.ok (.string "first")), .settle (.ok (.string "second")),
    .settle (.error (.failed "third"))]

def failThenComplete : Action :=
  ofEffects fun _ => [.settle (.error (.invalidOptions "early")), .settle (.ok .null)]

end Action

end Rundown
