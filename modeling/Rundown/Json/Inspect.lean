import Rundown.Json.Basic
import Rundown.Text.Quoted

/-!
# JSON values for people

`Json.inspect` names the kind of every value and shows strings with everything in them visible.
-/

namespace Rundown.Json

mutual

/-- The value with the names of its kinds. -/
def inspect : Json → String
  | null => "Null"
  | bool true => "Bool(true)"
  | bool false => "Bool(false)"
  | int n => "Number(" ++ writeInt n ++ ")"
  | float x => "Number(" ++ numberLayout.write x ++ ")"
  | string s => "String(" ++ Text.inspect s ++ ")"
  | array items => Text.bracketed "Array [" (inspectItems items) "]"
  | object fields => Text.bracketed "Object \x7b" (inspectFields fields) "\x7d"

def inspectItems : List Json → List String
  | [] => []
  | item :: rest => item.inspect :: inspectItems rest

def inspectFields : List (String × Json) → List String
  | [] => []
  | (key, value) :: rest => (Text.inspect key ++ ": " ++ value.inspect) :: inspectFields rest

end

end Rundown.Json
