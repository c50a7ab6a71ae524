import Arbor.CType.Basic
/-!
Integer promotion and the usual arithmetic conversions of C.
-/
namespace Arbor

namespace Scalar

def isInteger : Scalar → Bool
  | .char | .uchar | .short | .ushort | .int | .uint | .long | .ulong => true
  | _ => false

def isFloating : Scalar → Bool
  | .float | .double | .longDouble => true
  | _ => false

def isArithmetic (s : Scalar) : Bool := s.isInteger || s.isFloating

def promote : Scalar → Scalar
  | .char | .uchar | .short | .ushort => .int
  | s => s

/-- The floating types from the widest down, then the promoted integer types that win over
`int`: the first of them that either side has is the common one. -/
def common (s t : Scalar) : Scalar :=
  let either (r : Scalar) (a b : Scalar) : Bool := a = r || b = r
  if either .longDouble s t then .longDouble
  else if either .double s t then .double
  else if either .float s t then .float
  else if either .ulong s.promote t.promote then .ulong
  else if either .long s.promote t.promote then .long
  else if either .uint s.promote t.promote then .uint
  else .int

end Scalar

namespace CType

def isInteger : CType → Bool
  | .scalar s => s.isInteger
  | _ => false

def isFloating : CType → Bool
  | .scalar s => s.isFloating
  | _ => false

def isArithmetic : CType → Bool
  | .scalar s => s.isArithmetic
  | _ => false

def promote : CType → CType
  | .scalar s => .scalar s.promote
  | ty => ty

def common? : CType → CType → Option CType
  | .scalar s, .scalar t =>
    if s.isArithmetic && t.isArithmetic then some (.scalar (s.common t)) else none
  | _, _ => none

end CType
end Arbor
