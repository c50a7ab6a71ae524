/-!
Floating-point numbers by their bit patterns.

A number is its bits, so equality is decidable and tells apart the two zeros and the NaNs.
The tests below (sign, NaN, zero, one) read the bits alone; only `widen`, `narrow`, the
conversions from integers and the four operations go through the machine's arithmetic, and those
only for numbers that are no NaNs. A NaN carries its sign and its payload through: it is made quiet,
and a change of format keeps the high bits of its fraction.
-/
namespace Arbor

structure Binary64 where
  bits : UInt64
  deriving DecidableEq, Repr, Inhabited

structure Binary32 where
  bits : UInt32
  deriving DecidableEq, Repr, Inhabited

/-- What a bit pattern stands for, the sign aside: `significand · 2 ^ exponent` when finite.
`narrowBelow` holds where the next smaller number is nearer than the next larger one. -/
inductive Magnitude where
  | nan
  | infinite
  | finite (significand : Nat) (exponent : Int) (narrowBelow : Bool)
  deriving DecidableEq, Repr

/-- The magnitude with exponent field `field` and fraction `fraction` in a format with
`fractionBits` fraction bits and largest exponent field `top`; the smallest positive number is
`2 ^ lowest`. -/
def Magnitude.ofFields (fractionBits top : Nat) (lowest : Int) (field fraction : Nat) : Magnitude :=
  if field = top then
    if fraction = 0 then .infinite else .nan
  else if field = 0 then
    .finite fraction lowest false
  else
    .finite (Nat.pow 2 fractionBits + fraction) (lowest + (field - 1 : Nat)) (fraction = 0 ∧ 1 < field)

namespace Binary64

def isNegative (x : Binary64) : Bool := 0x8000000000000000 ≤ x.bits.toNat

def magnitude (x : Binary64) : Magnitude :=
  .ofFields 52 2047 (-1074) (x.bits.toNat / 0x10000000000000 % 0x800)
    (x.bits.toNat % 0x10000000000000)

def isNaN (x : Binary64) : Bool := x.magnitude = .nan

def isInfinite (x : Binary64) : Bool := x.magnitude = .infinite

def isFinite (x : Binary64) : Bool := !x.isNaN && !x.isInfinite

def isZero (x : Binary64) : Bool := x.bits.toNat % 0x8000000000000000 = 0

def isOne (x : Binary64) : Bool := x.bits = 0x3ff0000000000000

def nan : Binary64 := ⟨0x7ff8000000000000⟩

def infinity : Binary64 := ⟨0x7ff0000000000000⟩

def negInfinity : Binary64 := ⟨0xfff0000000000000⟩

def zero : Binary64 := ⟨0⟩

def toFloat (x : Binary64) : Float := Float.ofBits x.bits

def ofFloat (f : Float) : Binary64 := ⟨f.toBits⟩

def neg (x : Binary64) : Binary64 := ⟨x.bits ^^^ 0x8000000000000000⟩

def ofInt64 (n : Int64) : Binary64 := ofFloat n.toFloat

def ofUInt64 (n : UInt64) : Binary64 := ofFloat n.toFloat

/-- The quiet NaN with the sign and the payload of a NaN. -/
def quiet (x : Binary64) : Binary64 := ⟨x.bits ||| 0x0008000000000000⟩

/-- An operation on two numbers. If there is a NaN among them, the first one is the result. -/
def combine (operation : Float → Float → Float) (x y : Binary64) : Binary64 :=
  if x.isNaN then x.quiet
  else if y.isNaN then y.quiet
  else ofFloat (operation x.toFloat y.toFloat)

def add (x y : Binary64) : Binary64 := combine (· + ·) x y

def sub (x y : Binary64) : Binary64 := combine (· - ·) x y

def mul (x y : Binary64) : Binary64 := combine (· * ·) x y

def div (x y : Binary64) : Binary64 := combine (· / ·) x y

/-- A key that orders all numbers but the NaNs; the two zeros share one. -/
def orderKey (x : Binary64) : Int :=
  let magnitude : Int := (x.bits.toNat % 0x8000000000000000 : Nat)
  if x.isNegative then -magnitude else magnitude

def compare? (x y : Binary64) : Option Ordering :=
  if x.isNaN || y.isNaN then none else some (compare x.orderKey y.orderKey)

end Binary64

namespace Binary32

def isNegative (x : Binary32) : Bool := 0x80000000 ≤ x.bits.toNat

def magnitude (x : Binary32) : Magnitude :=
  .ofFields 23 255 (-149) (x.bits.toNat / 0x800000 % 0x100) (x.bits.toNat % 0x800000)

def isNaN (x : Binary32) : Bool := x.magnitude = .nan

def isInfinite (x : Binary32) : Bool := x.magnitude = .infinite

def isFinite (x : Binary32) : Bool := !x.isNaN && !x.isInfinite

def isZero (x : Binary32) : Bool := x.bits.toNat % 0x80000000 = 0

def isOne (x : Binary32) : Bool := x.bits = 0x3f800000

def nan : Binary32 := ⟨0x7fc00000⟩

def infinity : Binary32 := ⟨0x7f800000⟩

def negInfinity : Binary32 := ⟨0xff800000⟩

def toFloat32 (x : Binary32) : Float32 := Float32.ofBits x.bits

def ofFloat32 (f : Float32) : Binary32 := ⟨f.toBits⟩

def ofInt64 (n : Int64) : Binary32 := ofFloat32 n.toFloat32

def ofUInt64 (n : UInt64) : Binary32 := ofFloat32 n.toFloat32

def widenNaN (x : Binary32) : Binary64 :=
  let sign : UInt32 := x.bits &&& 0x80000000
  let payload : UInt32 := x.bits &&& 0x7fffff
  ⟨Binary64.nan.bits ||| (sign.toUInt64 <<< 32) ||| (payload.toUInt64 <<< 29)⟩

def widen (x : Binary32) : Binary64 :=
  if x.isNaN then x.widenNaN else .ofFloat x.toFloat32.toFloat

end Binary32

namespace Binary64

/-- The quiet NaN in single precision with the sign and the high bits of the payload of a NaN. -/
def narrowNaN (x : Binary64) : Binary32 :=
  let sign : UInt64 := (x.bits >>> 32) &&& 0x80000000
  let payload : UInt64 := (x.bits >>> 29) &&& 0x7fffff
  ⟨Binary32.nan.bits ||| sign.toUInt32 ||| payload.toUInt32⟩

/-- The nearest single, ties to even; beyond the range it is infinite. -/
def narrow (x : Binary64) : Binary32 :=
  if x.isNaN then x.narrowNaN else .ofFloat32 x.toFloat.toFloat32

end Binary64

end Arbor
