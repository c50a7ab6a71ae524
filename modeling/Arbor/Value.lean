import Arbor.Decimal.Notation
import Arbor.Text.Quoted
/-!
Values of the host program: the literals that code trees carry, and whatever else the type
registry is asked about. Every value has a class; classes form chains of bases.
-/
namespace Arbor

inductive Value where
  | int (v : Int64)
  | uint (v : UInt64)
  | float (v : Binary32)
  | double (v : Binary64)
  | char (v : UInt8)
  | bool (v : Bool)
  deriving DecidableEq, Repr

inductive ValueClass where
  | root (name : String)
  | derived (name : String) (base : ValueClass)
  deriving DecidableEq, Repr

namespace ValueClass

def name : ValueClass → String
  | .root name => name
  | .derived name _ => name

/-- The class and its bases, nearest first. -/
def ancestry : ValueClass → List String
  | .root name => [name]
  | .derived name base => name :: base.ancestry

def int : ValueClass := .root "int"

def uint : ValueClass := .derived "uint" int

def bool : ValueClass := .derived "bool" int

def float : ValueClass := .root "float"

def float32 : ValueClass := .derived "float32" float

def char : ValueClass := .root "char"

def str : ValueClass := .root "str"

end ValueClass

namespace Value

/-- The value as a signed word, if it is integral. Unsigned words wrap. -/
def toInt64? : Value → Option Int64
  | .int v => some v
  | .uint v => some v.toInt64
  | .float _ => none
  | .double _ => none
  | .char v => some (Int64.ofNat v.toNat)
  | .bool v => some (if v then 1 else 0)

/-- The value as a double; integral values are rounded. -/
def toBinary64 : Value → Binary64
  | .int v => .ofInt64 v
  | .uint v => .ofUInt64 v
  | .float v => v.widen
  | .double v => v
  | .char v => .ofUInt64 v.toUInt64
  | .bool v => .ofUInt64 (if v then 1 else 0)

def isZero : Value → Bool
  | .float v => v.isZero
  | .double v => v.isZero
  | v => v.toInt64? = some 0

def isOne : Value → Bool
  | .float v => v.isOne
  | .double v => v.isOne
  | v => v.toInt64? = some 1

def isFloating : Value → Bool
  | .float _ => true
  | .double _ => true
  | _ => false

/-- Whether the literal starts with a minus sign. -/
def isNegative : Value → Bool
  | .int v => v < 0
  | .float v => v.isNegative
  | .double v => v.isNegative
  | _ => false

def valueClass : Value → ValueClass
  | .int _ => .int
  | .uint _ => .uint
  | .float _ => .float32
  | .double _ => .float
  | .char _ => .char
  | .bool _ => .bool

def describe : Value → String
  | .int v => "Int(" ++ toString v.toInt ++ ")"
  | .uint v => "UInt(" ++ toString v.toNat ++ ")"
  | .float v => "Float(" ++ v.describe ++ ")"
  | .double v => "Double(" ++ v.describe ++ ")"
  | .char v => "Char(" ++ toString v.toNat ++ ")"
  | .bool v => "Bool(" ++ (if v then "true" else "false") ++ ")"

end Value

inductive HostValue where
  | constant (v : Value)
  | signed (n : Int)
  | unsigned (n : Nat)
  | byte (n : UInt8)
  | double (v : Binary64)
  | single (v : Binary32)
  | flag (b : Bool)
  | character (c : Char)
  | text (s : String)
  | other (valueClass : ValueClass) (shown : String)
  deriving DecidableEq, Repr

namespace HostValue

def valueClass : HostValue → ValueClass
  | .constant v => v.valueClass
  | .signed _ => .int
  | .unsigned _ => .uint
  | .byte _ => .char
  | .double _ => .float
  | .single _ => .float32
  | .flag _ => .bool
  | .character _ => .char
  | .text _ => .str
  | .other valueClass _ => valueClass

def describe : HostValue → String
  | .constant v => v.describe
  | .signed n => toString n
  | .unsigned n => toString n
  | .byte n => toString n.toNat
  | .double v => v.describe
  | .single v => v.describe
  | .flag b => if b then "true" else "false"
  | .character c => Text.quoteWith '\'' (String.singleton c)
  | .text s => Text.quoted s
  | .other _ shown => shown

end HostValue
end Arbor
