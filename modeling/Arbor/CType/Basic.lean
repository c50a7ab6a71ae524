/-!
The types of the target language.

Types compare by structure. `display` is the C reading of a type, `debug` shows how it is built.
-/
namespace Arbor

inductive Scalar where
  | void
  | char
  | uchar
  | short
  | ushort
  | int
  | uint
  | long
  | ulong
  | float
  | double
  | longDouble
  deriving DecidableEq, Repr

namespace Scalar

def all : List Scalar :=
  [.void, .char, .uchar, .short, .ushort, .int, .uint, .long, .ulong, .float, .double, .longDouble]

def keyword : Scalar → String
  | .void => "void"
  | .char => "char"
  | .uchar => "unsigned char"
  | .short => "short"
  | .ushort => "unsigned short"
  | .int => "int"
  | .uint => "unsigned int"
  | .long => "long"
  | .ulong => "unsigned long"
  | .float => "float"
  | .double => "double"
  | .longDouble => "long double"

def name : Scalar → String
  | .void => "Void"
  | .char => "Char"
  | .uchar => "UChar"
  | .short => "Short"
  | .ushort => "UShort"
  | .int => "Int"
  | .uint => "UInt"
  | .long => "Long"
  | .ulong => "ULong"
  | .float => "Float"
  | .double => "Double"
  | .longDouble => "LongDouble"

def ofName? (s : String) : Option Scalar := all.find? (·.name == s)

end Scalar

inductive CType where
  | scalar (s : Scalar)
  | pointer (base : CType)
  | function (result : CType) (params : List CType)
  deriving Repr

namespace CType

mutual
protected def decEq : (a b : CType) → Decidable (a = b)
  | .scalar s, .scalar t => decidable_of_decidable_of_iff (p := s = t) (by simp)
  | .pointer a, .pointer b =>
    have := CType.decEq a b
    decidable_of_decidable_of_iff (p := a = b) (by simp)
  | .function r ps, .function r' ps' =>
    have := CType.decEq r r'
    have := CType.decEqAll ps ps'
    decidable_of_decidable_of_iff (p := r = r' ∧ ps = ps') (by simp)
  | .scalar _, .pointer _ => isFalse (by simp)
  | .scalar _, .function _ _ => isFalse (by simp)
  | .pointer _, .scalar _ => isFalse (by simp)
  | .pointer _, .function _ _ => isFalse (by simp)
  | .function _ _, .scalar _ => isFalse (by simp)
  | .function _ _, .pointer _ => isFalse (by simp)
protected def decEqAll : (as bs : List CType) → Decidable (as = bs)
  | [], [] => isTrue rfl
  | a :: as, b :: bs =>
    have := CType.decEq a b
    have := CType.decEqAll as bs
    decidable_of_decidable_of_iff (p := a = b ∧ as = bs) (by simp)
  | [], _ :: _ => isFalse (by simp)
  | _ :: _, [] => isFalse (by simp)
end

instance : DecidableEq CType := CType.decEq

mutual
/-- The C reading: `base*`, `result (*)(params)`. -/
def display : CType → String
  | .scalar s => s.keyword
  | .pointer base => base.display ++ "*"
  | .function result params =>
    result.display ++ " (*)(" ++ ", ".intercalate (displayAll params) ++ ")"
def displayAll : List CType → List String
  | [] => []
  | ty :: rest => ty.display :: displayAll rest
end

mutual
def debug : CType → String
  | .scalar s => s.name
  | .pointer base => "Ptr(" ++ base.debug ++ ")"
  | .function result params =>
    "FuncType \x7b ret: " ++ result.debug ++ ", args: [" ++ ", ".intercalate (debugAll params) ++ "] \x7d"
def debugAll : List CType → List String
  | [] => []
  | ty :: rest => ty.debug :: debugAll rest
end

inductive Tag where
  | scalar (s : Scalar)
  | pointer
  | function
  deriving DecidableEq, Repr

def tag : CType → Tag
  | .scalar s => .scalar s
  | .pointer _ => .pointer
  | .function _ _ => .function

def Tag.name : Tag → String
  | .scalar s => s.name
  | .pointer => "Ptr"
  | .function => "FuncType"

def Tag.ofName? (s : String) : Option Tag :=
  if s = "Ptr" then some .pointer
  else if s = "FuncType" then some .function
  else (Scalar.ofName? s).map .scalar

def Tag.keyword? : Tag → Option String
  | .scalar s => some s.keyword
  | .pointer => none
  | .function => none

mutual
def height : CType → Nat
  | .scalar _ => 0
  | .pointer base => base.height + 1
  | .function result params => max result.height (heightOfAll params) + 1
def heightOfAll : List CType → Nat
  | [] => 0
  | ty :: rest => max ty.height (heightOfAll rest)
end

def pointee? : CType → Option CType
  | .pointer base => some base
  | _ => none

def isPointer : CType → Bool
  | .pointer _ => true
  | _ => false

def isFunction : CType → Bool
  | .function _ _ => true
  | _ => false

def isVoid (ty : CType) : Bool := ty = .scalar .void

end CType
end Arbor
