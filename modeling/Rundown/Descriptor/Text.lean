import Rundown.Descriptor.Classify
import Rundown.Json.Reader
import Rundown.Yaml.Json

/-!
# Descriptors from texts

A descriptor is written as a JSON or a YAML text.  Either is first read as a JSON value, with the
usual limit on depth.
-/

namespace Rundown.Descriptor

def ofJsonText (text : String) : Except DescriptorError Descriptor :=
  match Json.read text with
  | .ok value => ofJson defaultDepthLimit value
  | .error e => .error (.unreadable e.message)

def ofYamlText (text : String) : Except DescriptorError Descriptor :=
  match Yaml.readJson text with
  | some value => ofJson defaultDepthLimit value
  | none => .error (.unreadable "the text does not hold a value")

/-- The descriptor that a value holds as a part of other data: what is wrong with it becomes the
reason why the data cannot be read. -/
def decode (value : Json) : Except DescriptorError Descriptor :=
  (ofJson defaultDepthLimit value).mapError fun e => .unreadable e.message

end Rundown.Descriptor
