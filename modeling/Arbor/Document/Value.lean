import Arbor.Decimal.Notation
import Arbor.Document.Record
import Arbor.Text.Quoted
import Arbor.Value
/-!
Constants in documents.

Floating constants are numerals. JSON has none for those that are not finite, so there is a second,
exact form: the bits of the number in a string. A document in the exact form may hold numerals too.
-/
namespace Arbor

inductive FloatForm where
  | numeral
  | exact
  deriving DecidableEq, Repr

namespace Bits

def nanText : String := "nan"

def write (width bits : Nat) : String :=
  let digits := (Text.hexDigits bits).toList
  "0x" ++ String.ofList (List.replicate (width - digits.length) '0' ++ digits)

def read? (width : Nat) (text : String) : Option Nat :=
  match text.toList with
  | '0' :: 'x' :: digits =>
    if digits.length = width then
      (digits.mapM Json.Reader.hexDigit?).map fun ds => ds.foldl (fun n d => n * 16 + d) 0
    else none
  | _ => none

end Bits

namespace Binary64

def ofText? (text : String) : Option Binary64 :=
  if text = Bits.nanText then some .nan
  else if text = "inf" then some .infinity
  else if text = "-inf" then some .negInfinity
  else (Bits.read? 16 text).map fun n => ⟨UInt64.ofNat n⟩

def toText (v : Binary64) : String :=
  if v.isNaN then Bits.nanText else Bits.write 16 v.bits.toNat

def ofJson? (form : FloatForm) : Json → Option Binary64
  | .number numeral => Json.Numeral.binary64? numeral
  | .string text => if form = .exact then ofText? text else none
  | _ => none

def toJson (form : FloatForm) (v : Binary64) : Json :=
  match form with
  | .exact => .string v.toText
  | .numeral => .ofOption .number (v.write? .documentDouble)

end Binary64

namespace Binary32

def ofText? (text : String) : Option Binary32 :=
  if text = Bits.nanText then some .nan
  else if text = "inf" then some .infinity
  else if text = "-inf" then some .negInfinity
  else (Bits.read? 8 text).map fun n => ⟨UInt32.ofNat n⟩

def toText (v : Binary32) : String :=
  if v.isNaN then Bits.nanText else Bits.write 8 v.bits.toNat

def ofJson? (form : FloatForm) : Json → Option Binary32
  | .number numeral => Json.Numeral.binary32? numeral
  | .string text => if form = .exact then ofText? text else none
  | _ => none

def toJson (form : FloatForm) (v : Binary32) : Json :=
  match form with
  | .exact => .string v.toText
  | .numeral => .ofOption .number (v.write? .documentSingle)

end Binary32

namespace Value

def ofJson? (form : FloatForm) (j : Json) : Option Value := do
  let (name, contents) ← j.variant?
  match name with
  | "Int" => contents.int64?.map .int
  | "UInt" => contents.uint64?.map .uint
  | "Float" => (Binary32.ofJson? form contents).map .float
  | "Double" => (Binary64.ofJson? form contents).map .double
  | "Char" => contents.uint8?.map .char
  | "Bool" => contents.bool?.map .bool
  | _ => none

def toJson (form : FloatForm) : Value → Json
  | .int v => .variant "Int" (.ofInt v.toInt)
  | .uint v => .variant "UInt" (.ofNat v.toNat)
  | .float v => .variant "Float" (v.toJson form)
  | .double v => .variant "Double" (v.toJson form)
  | .char v => .variant "Char" (.ofNat v.toNat)
  | .bool v => .variant "Bool" (.bool v)

end Value
end Arbor
