import Arbor.Json.Numeral
import Arbor.Table
/-!
Records and variants in JSON.

A variant is an object with one member, named for it; a variant without contents may be its name
alone. The contents of a variant with fields are an object, or an array of all fields in order.
-/
namespace Arbor

abbrev Record := Table String Json

namespace Record

/-- Reads the fields `names`. Other members are passed over; a field given twice is an error. -/
def ofJson? (names : List String) : Json → Option Record
  | .object members =>
    let known := members.filter fun m => names.contains m.1
    if (known.map (·.1)).Nodup then some known else none
  | .array items => if items.length = names.length then some (names.zip items) else none
  | _ => none

def required? {α : Type} (r : Record) (name : String) (read : Json → Option α) : Option α :=
  (r.get? name).bind read

/-- A field that may be missing or null. -/
def optional? {α : Type} (r : Record) (name : String) (read : Json → Option α) :
    Option (Option α) :=
  match r.get? name with
  | none => some none
  | some j => j.optional? read

end Record

def Json.variant? : Json → Option (String × Json)
  | .string name => some (name, .null)
  | .object [(name, contents)] => some (name, contents)
  | _ => none

def Json.variant (name : String) (contents : Json) : Json := .object [(name, contents)]

def Json.record (name : String) (fields : List (String × Json)) : Json :=
  .variant name (.object fields)

def Document.depthLimit : Nat := 127

end Arbor
