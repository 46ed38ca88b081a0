import Rundown.Json.Printer
import Rundown.Json.Record

/-!
# Signals

A signal has a name and tells its listeners how to settle.  As JSON it is one object: the name, the
kind of the signal, and the payload or the reason that belongs to the kind.
-/

namespace Rundown

/-- What a signal tells its listeners to do. -/
inductive SignalKind where
  | complete (payload : Json)
  | fail (reason : String)
deriving DecidableEq, Repr

/-- A named signal. -/
structure Signal where
  name : String
  kind : SignalKind
deriving DecidableEq, Repr

namespace Signal

/-- The members of a signal in the order in which its text gives them. -/
def members (s : Signal) : List (String × Json) :=
  match s.kind with
  | .complete payload =>
    [("name", .string s.name), ("kind", .string "complete"), ("payload", payload)]
  | .fail reason =>
    [("name", .string s.name), ("kind", .string "fail"), ("reason", .string reason)]

def toJson (s : Signal) : Json := Json.ofFields s.members

/-- The signal as text, the name first and the kind second. -/
def toText (s : Signal) : String :=
  "\x7b" ++ ",".intercalate (Json.renderFields s.members) ++ "\x7d"

def inspect (s : Signal) : String :=
  let kind := match s.kind with
    | .complete payload => "Complete \x7b payload: " ++ payload.inspect ++ " \x7d"
    | .fail reason => "Fail \x7b reason: " ++ Text.inspect reason ++ " \x7d"
  "Signal \x7b name: " ++ Text.inspect s.name ++ ", kind: " ++ kind ++ " \x7d"

/-- The words for the kinds, in the order of their indices. -/
def kindWords : List String := ["complete", "fail"]

/-- The index of a kind, given by its word or by its index. -/
def kindIndex : Json → Except DecodeError Nat
  | .string word =>
    match kindWords.findIdx? (· == word) with
    | some index => .ok index
    | none => .error (.unknownVariant word kindWords)
  | .int n =>
    if n < 0 then .error (.wrongType (.int n) "variant identifier")
    else if n < kindWords.length then .ok n.toNat
    else
      .error (.wrongValue ("integer " ++ DecodeError.ticked (Json.writeInt n))
        "variant index 0 <= i < 2")
  | other => .error (.wrongType other "variant identifier")

def kindOf (members : List (String × Json)) : Except DecodeError SignalKind := do
  match members.lookup "kind" with
  | none => .error (.missingField "kind")
  | some value =>
    if (← kindIndex value) = 0 then .ok (.complete ((members.lookup "payload").getD .null))
    else
      match members.lookup "reason" with
      | none => .error (.missingField "reason")
      | some value => .fail <$> value.asString

/-- The signal that a value holds: the name is looked at first, then the kind, then what belongs to
the kind.  Other members are ignored. -/
def ofJson : Json → Except DecodeError Signal
  | .object members => do
    match members.lookup "name" with
    | none => .error (.missingField "name")
    | some value => do
      let name ← value.asString
      .ok ⟨name, ← kindOf members⟩
  | other => .error (.wrongType other "struct Signal")

end Signal

end Rundown
