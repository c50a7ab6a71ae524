import Arbor.Floating
/-!
The shortest decimal that stands for a floating-point number.

A positive number `m · 2 ^ q` owns the interval of reals that round to it; its ends belong to it
when `m` is even. `shortest` takes the least number of digits for which a decimal lies in that
interval, and of two such decimals the nearer one. All arithmetic is exact, on naturals.
-/
namespace Arbor

/-- `digits · 10 ^ exponent`. -/
structure Decimal where
  digits : Nat
  exponent : Int
  deriving DecidableEq, Repr

namespace Decimal

inductive Tie where
  | up
  | even
  deriving DecidableEq, Repr

/-- The interval of a number, in quarters of its unit: `value`, `below` and `above` are
multiples of `numerator / denominator`. -/
structure Interval where
  value : Nat
  below : Nat
  above : Nat
  closed : Bool
  numerator : Nat
  denominator : Nat

def Interval.ofNumber (significand : Nat) (exponent : Int) (narrowBelow : Bool) : Interval :=
  { value := 4 * significand
    below := 4 * significand - (if narrowBelow then 1 else 2)
    above := 4 * significand + 2
    closed := significand % 2 = 0
    numerator := Nat.pow 2 (exponent - 2).toNat
    denominator := Nat.pow 2 (2 - exponent).toNat }

def Interval.contains (i : Interval) (n : Nat) (e : Int) : Bool :=
  let point := n * Nat.pow 10 e.toNat * i.denominator
  let low := i.below * i.numerator * Nat.pow 10 (-e).toNat
  let high := i.above * i.numerator * Nat.pow 10 (-e).toNat
  if i.closed then low ≤ point && point ≤ high else low < point && point < high

def Interval.floor (i : Interval) (e : Int) : Nat :=
  i.value * i.numerator * Nat.pow 10 (-e).toNat / (i.denominator * Nat.pow 10 e.toNat)

/-- How twice the value compares with `(2 n + 1) · 10 ^ e`, the point halfway above `n · 10 ^ e`. -/
def Interval.compareHalf (i : Interval) (n : Nat) (e : Int) : Ordering :=
  compare (2 * i.value * i.numerator * Nat.pow 10 (-e).toNat)
    ((2 * n + 1) * i.denominator * Nat.pow 10 e.toNat)

def Interval.onGrid? (i : Interval) (tie : Tie) (e : Int) : Option Nat :=
  let low := i.floor e
  match i.contains low e, i.contains (low + 1) e with
  | false, false => none
  | true, false => some low
  | false, true => some (low + 1)
  | true, true =>
    match i.compareHalf low e, tie with
    | .lt, _ => some low
    | .gt, _ => some (low + 1)
    | .eq, .up => some (low + 1)
    | .eq, .even => some (if low % 2 = 0 then low else low + 1)

/-- The least `k` up to `bound` with the value below `10 ^ k`, counted up from `start`. -/
def Interval.leadingExponent (i : Interval) : Nat → Int → Int
  | 0, k => k
  | bound + 1, k => if i.floor k = 0 then k else i.leadingExponent bound (k + 1)

def Interval.firstHit (i : Interval) (tie : Tie) (top : Int) : Nat → Nat → Decimal
  | 0, count => ⟨i.floor (top - count), top - count⟩
  | fuel + 1, count =>
    match i.onGrid? tie (top - count) with
    | some n => ⟨n, top - count⟩
    | none => i.firstHit tie top fuel (count + 1)

def trimZeros : Nat → Decimal → Decimal
  | 0, d => d
  | fuel + 1, d =>
    if d.digits % 10 = 0 then trimZeros fuel ⟨d.digits / 10, d.exponent + 1⟩ else d

/-- The shortest decimal of `significand · 2 ^ exponent`, a positive number. Seventeen digits
are enough for every double, and the search for the leading digit starts below the smallest one. -/
def shortest (tie : Tie) (significand : Nat) (exponent : Int) (narrowBelow : Bool) : Decimal :=
  let i := Interval.ofNumber significand exponent narrowBelow
  let start : Int := (exponent * 30103) / 100000 - 2
  let top := i.leadingExponent 25 start
  trimZeros 20 (i.firstHit tie top 17 1)

end Decimal
end Arbor
