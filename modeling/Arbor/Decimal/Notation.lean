import Arbor.Decimal.Shortest
/-!
How a decimal is written down.

A `Layout` fixes which numbers are written with a point at its place and which with an exponent.
The exponent meant is that of the leading digit.
-/
namespace Arbor
namespace Decimal

structure Layout where
  /-- The least leading exponent written without an exponent part. -/
  least : Int
  /-- The first leading exponent written with an exponent part again. -/
  limit : Int
  /-- Whether a positive exponent carries a plus sign. -/
  plusSign : Bool
  tie : Tie

/-- Numbers in C text and in diagnostics: positional from `0.0001` to below `10 ^ 16`. -/
def Layout.source : Layout := ⟨-4, 16, false, .up⟩

def Layout.documentDouble : Layout := ⟨-5, 16, true, .even⟩

def Layout.documentSingle : Layout := ⟨-6, 13, true, .even⟩

def zeros (n : Nat) : String := String.ofList (List.replicate n '0')

def leadingExponent (d : Decimal) : Int := d.exponent + ((toString d.digits).length - 1 : Nat)

/-- The digits with a point, and at least one digit on either side of it. -/
def positional (d : Decimal) : String :=
  let digits := toString d.digits
  if 0 ≤ d.exponent then
    digits ++ zeros d.exponent.toNat ++ ".0"
  else
    let places := (-d.exponent).toNat
    if places < digits.length then
      String.ofList (digits.toList.take (digits.length - places)) ++ "." ++
        String.ofList (digits.toList.drop (digits.length - places))
    else
      "0." ++ zeros (places - digits.length) ++ digits

def scientific (plusSign : Bool) (d : Decimal) : String :=
  let e := d.leadingExponent
  let sign := if plusSign && 0 ≤ e then "+" else ""
  let mantissa :=
    match (toString d.digits).toList with
    | first :: second :: rest => String.ofList (first :: '.' :: second :: rest)
    | digits => String.ofList digits
  mantissa ++ "e" ++ sign ++ toString e

def write (layout : Layout) (d : Decimal) : String :=
  let e := d.leadingExponent
  if layout.least ≤ e && e < layout.limit then d.positional else d.scientific layout.plusSign

end Decimal

def Magnitude.write? (layout : Decimal.Layout) (negative : Bool) : Magnitude → Option String
  | .nan => none
  | .infinite => none
  | .finite significand exponent narrowBelow =>
    let sign := if negative then "-" else ""
    if significand = 0 then
      some (sign ++ "0.0")
    else
      let decimal := Decimal.shortest layout.tie significand exponent narrowBelow
      some (sign ++ decimal.write layout)

def Binary64.write? (layout : Decimal.Layout) (x : Binary64) : Option String :=
  x.magnitude.write? layout x.isNegative

def Binary32.write? (layout : Decimal.Layout) (x : Binary32) : Option String :=
  x.magnitude.write? layout x.isNegative

def Magnitude.describe (negative : Bool) (m : Magnitude) : String :=
  match m.write? .source negative with
  | some text => text
  | none => if m = .nan then "NaN" else if negative then "-inf" else "inf"

def Binary64.describe (x : Binary64) : String := x.magnitude.describe x.isNegative

def Binary32.describe (x : Binary32) : String := x.magnitude.describe x.isNegative

end Arbor
