import Rundown.Json.Inspect

/-!
# Records read from JSON values

A record is read from an object, whose unknown members are ignored, or from an array that lists its
fields in the order of their declaration.  Members are visited in the order of their keys and the
first bad one is reported; then come required fields that are missing, in the order of their
declaration.
-/

namespace Rundown

/-- Why a JSON value is not of the expected form. -/
inductive DecodeError where
  /-- A value of another kind. -/
  | wrongType (found : Json) (expected : String)
  /-- A value of the right kind that is not allowed. -/
  | wrongValue (found : String) (expected : String)
  | missingField (name : String)
  | wrongLength (length : Nat) (expected : String)
  | unknownVariant (name : String) (expected : List String)
  /-- None of the forms of a type of several forms. -/
  | noForm (type : String)
deriving BEq, Repr

namespace DecodeError

def ticked (s : String) : String := "\x60" ++ s ++ "\x60"

/-- How a message names a value of a wrong type. -/
def describe : Json → String
  | .null => "null"
  | .bool b => "boolean " ++ ticked (if b then "true" else "false")
  | .int n => "integer " ++ ticked (Json.writeInt n)
  | .float x => "floating point " ++ ticked (Json.numberLayout.write x)
  | .string s => "string " ++ Text.inspect s
  | .array _ => "sequence"
  | .object _ => "map"

def message : DecodeError → String
  | wrongType found expected => "invalid type: " ++ describe found ++ ", expected " ++ expected
  | wrongValue found expected => "invalid value: " ++ found ++ ", expected " ++ expected
  | missingField name => "missing field " ++ ticked name
  | wrongLength length expected =>
    "invalid length " ++ toString length ++ ", expected " ++ expected
  | unknownVariant name expected =>
    "unknown variant " ++ ticked name ++ ", expected " ++ " or ".intercalate (expected.map ticked)
  | noForm type => "data did not match any variant of untagged enum " ++ type

end DecodeError

namespace Json

def asString : Json → Except DecodeError String
  | string s => .ok s
  | other => .error (.wrongType other "a string")

def asOptionalString : Json → Except DecodeError (Option String)
  | null => .ok none
  | other => some <$> other.asString

def asOptional : Json → Option Json
  | null => none
  | other => some other

/-- A natural number of 64 bits. -/
def asNatural : Json → Except DecodeError Nat
  | int n =>
    if n < 0 then .error (.wrongValue ("integer " ++ DecodeError.ticked (writeInt n)) "usize")
    else .ok n.toNat
  | other => .error (.wrongType other "usize")

end Json

/-- One field of a record: how a value given for it changes the record under construction. -/
structure RecordField (α : Type) where
  name : String
  read : Json → α → Except DecodeError α
  /-- Whether the field may be absent. -/
  optional : Bool

/-- A record type: its name, its fields in the order of their declaration, and the record from which
reading starts. -/
structure RecordType (α : Type) where
  name : String
  fields : List (RecordField α)
  blank : α

namespace RecordType

variable {α : Type} (type : RecordType α)

/-- Reads the members that are fields, in the order given. -/
def readMembers : List (String × Json) → α → Except DecodeError α
  | [], record => .ok record
  | (key, value) :: rest, record =>
    match type.fields.find? fun field => field.name == key with
    | some field => do readMembers rest (← field.read value record)
    | none => readMembers rest record

/-- The first required field, in the order of declaration, that no member gives. -/
def firstMissing? (members : List (String × Json)) : Option String :=
  (type.fields.find? fun field =>
    !field.optional && !(members.any fun member => member.1 == field.name)).map RecordField.name

def arrayForm : String :=
  "struct " ++ type.name ++ " with " ++ toString type.fields.length ++
    (if type.fields.length = 1 then " element" else " elements")

/-- Reads elements field by field; `index` counts the fields before. -/
def readElements (index : Nat) : List (RecordField α) → List Json → α → Except DecodeError α
  | [], _, record => .ok record
  | field :: fields, item :: items, record => do
    readElements (index + 1) fields items (← field.read item record)
  | field :: fields, [], record =>
    if field.optional then readElements (index + 1) fields [] record
    else .error (.wrongLength index type.arrayForm)

def decode : Json → Except DecodeError α
  | .object members => do
    let record ← type.readMembers members type.blank
    match type.firstMissing? members with
    | some name => .error (.missingField name)
    | none => .ok record
  | .array items => do
    let record ← type.readElements 0 type.fields items type.blank
    if type.fields.length < items.length then
      .error (.wrongLength items.length "fewer elements in array")
    else .ok record
  | other => .error (.wrongType other ("struct " ++ type.name))

end RecordType

end Rundown
