import Arbor.Floating
import Arbor.Table
/-!
Loaded libraries. Every function takes the same registers, six for integers and eight for floating
numbers, reads those it knows of, and leaves a result in the register of its kind.
-/
namespace Arbor

structure Registers where
  ints : List Int64
  floats : List Binary64
  deriving DecidableEq, Repr

namespace Registers

def intCount : Nat := 6

def floatCount : Nat := 8

def int (r : Registers) (n : Nat) : Int64 := r.ints.getD n 0

def float (r : Registers) (n : Nat) : Binary64 := r.floats.getD n .zero

end Registers

structure Returned where
  int : Int64
  float : Binary64
  deriving DecidableEq, Repr

abbrev NativeFunction := Registers → Returned

abbrev Library := Table String NativeFunction

/-- What the loader of the host makes of the text of an artifact. -/
abbrev Loader := String → Option Library

end Arbor
