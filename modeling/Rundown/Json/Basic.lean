import Rundown.Number.Shortest

/-!
# JSON values

An object is a list of members in ascending order of their keys, each key once.  Keys are compared
by code point, which is also the order of their UTF-8 bytes.  `Json.ofFields` brings members in any
order into this form, the last member of a key winning; `Json.Canonical` says that a value has it
throughout, and that its integers are those that a signed or unsigned word of 64 bits can hold.
-/

namespace Rundown

/-- A JSON value.  Integers and floating point numbers are different values. -/
inductive Json where
  | null
  | bool (b : Bool)
  | int (n : Int)
  | float (x : Binary64)
  | string (s : String)
  | array (items : List Json)
  | object (fields : List (String × Json))
deriving Inhabited, Repr

namespace Json

mutual

/-- Whether two values are equal. -/
def decEq : (a b : Json) → Decidable (a = b)
  | .null, b => match b with
    | .null => isTrue rfl
    | .bool _ | .int _ | .float _ | .string _ | .array _ | .object _ => isFalse nofun
  | .bool x, b => match b with
    | .bool y => decidable_of_iff (x = y) ⟨congrArg bool, bool.inj⟩
    | .null | .int _ | .float _ | .string _ | .array _ | .object _ => isFalse nofun
  | .int x, b => match b with
    | .int y => decidable_of_iff (x = y) ⟨congrArg int, int.inj⟩
    | .null | .bool _ | .float _ | .string _ | .array _ | .object _ => isFalse nofun
  | .float x, b => match b with
    | .float y => decidable_of_iff (x = y) ⟨congrArg float, float.inj⟩
    | .null | .bool _ | .int _ | .string _ | .array _ | .object _ => isFalse nofun
  | .string x, b => match b with
    | .string y => decidable_of_iff (x = y) ⟨congrArg string, string.inj⟩
    | .null | .bool _ | .int _ | .float _ | .array _ | .object _ => isFalse nofun
  | .array items, b => match b with
    | .array items' =>
      have := decEqItems items items'
      decidable_of_iff (items = items') ⟨congrArg array, array.inj⟩
    | .null | .bool _ | .int _ | .float _ | .string _ | .object _ => isFalse nofun
  | .object fields, b => match b with
    | .object fields' =>
      have := decEqFields fields fields'
      decidable_of_iff (fields = fields') ⟨congrArg object, object.inj⟩
    | .null | .bool _ | .int _ | .float _ | .string _ | .array _ => isFalse nofun

def decEqItems : (items items' : List Json) → Decidable (items = items')
  | [], [] => isTrue rfl
  | [], _ :: _ | _ :: _, [] => isFalse nofun
  | a :: rest, b :: rest' =>
    have := decEq a b
    have := decEqItems rest rest'
    decidable_of_iff (a = b ∧ rest = rest') (by rw [List.cons.injEq])

def decEqFields : (fields fields' : List (String × Json)) → Decidable (fields = fields')
  | [], [] => isTrue rfl
  | [], _ :: _ | _ :: _, [] => isFalse nofun
  | (key, a) :: rest, (key', b) :: rest' =>
    have := decEq a b
    have := decEqFields rest rest'
    decidable_of_iff ((key = key' ∧ a = b) ∧ rest = rest')
      (by rw [List.cons.injEq, Prod.mk.injEq])

end

instance : DecidableEq Json := decEq

def insertField (key : String) (value : Json) : List (String × Json) → List (String × Json)
  | [] => [(key, value)]
  | (k, v) :: rest =>
    if key < k then (key, value) :: (k, v) :: rest
    else if key = k then (key, value) :: rest
    else (k, v) :: insertField key value rest

/-- The object with the given members; of two members with one key the later one stays. -/
def ofFields (fields : List (String × Json)) : Json :=
  object (fields.foldl (fun sorted (k, v) => insertField k v sorted) [])

/-- The value of a member of an object. -/
def field? (key : String) : Json → Option Json
  | object fields => fields.lookup key
  | _ => none

/-- Smallest integer that stays an integer: `-2 ^ 63`. -/
def minInt : Int := -9223372036854775808

/-- First integer that is too large to stay one: `2 ^ 64`. -/
def intBound : Int := 18446744073709551616

mutual

/-- Sorted keys without repetition and integers in range, at every depth. -/
def Canonical : Json → Prop
  | int n => minInt ≤ n ∧ n < intBound
  | array items => CanonicalItems items
  | object fields => (fields.map Prod.fst).Pairwise (· < ·) ∧ CanonicalFields fields
  | _ => True

def CanonicalItems : List Json → Prop
  | [] => True
  | item :: rest => item.Canonical ∧ CanonicalItems rest

def CanonicalFields : List (String × Json) → Prop
  | [] => True
  | (_, value) :: rest => value.Canonical ∧ CanonicalFields rest

end

/-- Floating point text: a point and zeros from 1e-5 to 1e15, an exponent with its sign
elsewhere. -/
def numberLayout : Layout := ⟨-5, 15, "e+", "e-"⟩

def writeInt (n : Int) : String :=
  let digits := String.ofList (Nat.toDigits 10 n.natAbs)
  if n < 0 then "-" ++ digits else digits

end Json

end Rundown
