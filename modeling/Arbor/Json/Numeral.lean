import Arbor.Floating
import Arbor.Json.Reader
/-!
What numerals are worth.

A numeral without fraction and exponent is an integer, except `-0`. Any numeral is also a floating
number: its first digits, as many as fit a word, are scaled by a power of ten in floating
arithmetic. That is exact for short numerals and close for long ones. Numerals beyond the range of
doubles have no value.
-/
namespace Arbor.Json
namespace Numeral

def digitOf (c : Char) : Nat := c.toNat - '0'.toNat

def ofDigits (ds : List Char) : Nat := ds.foldl (fun n c => n * 10 + digitOf c) 0

/-- Takes the digits that fit in a word; the count says how many. -/
def accumulate (word : Nat) : List Char → Nat × Nat
  | [] => (word, 0)
  | c :: rest =>
    if word * 10 + digitOf c < UInt64.size then
      let (word, count) := accumulate (word * 10 + digitOf c) rest
      (word, count + 1)
    else (word, 0)

def largestPower : Nat := 308

def power (n : Nat) : Binary64 := .ofFloat (Float.ofScientific 1 false n)

/-- Divides by a power of ten, in steps if it is large. -/
def scaleDown (v : Binary64) (n : Nat) : Binary64 :=
  if n ≤ largestPower then v.div (power n)
  else if v.isZero then v
  else scaleDown (v.div (power largestPower)) (n - largestPower)
termination_by n
decreasing_by simp_all [largestPower]; omega

def scaleUp? (v : Binary64) (n : Nat) : Option Binary64 :=
  if n ≤ largestPower then
    let product := v.mul (power n)
    if product.isInfinite then none else some product
  else if v.isZero then some v
  else none

def scale? (word : Nat) (exponent : Int) : Option Binary64 :=
  let v := Binary64.ofUInt64 (UInt64.ofNat word)
  if 0 ≤ exponent then scaleUp? v exponent.toNat else some (scaleDown v (-exponent).toNat)

def exponentLimit : Nat := 2147483647

def exponentPart : List Char → Bool × List Char
  | _ :: '-' :: ds => (true, ds)
  | _ :: '+' :: ds => (false, ds)
  | _ :: ds => (false, ds)
  | [] => (false, [])

/-- The word with `start` more powers of ten, scaled by what the exponent says. -/
def withExponent? (word : Nat) (start : Int) (cs : List Char) : Option Binary64 :=
  let (down, ds) := exponentPart cs
  let exponent := ofDigits ds
  if exponent ≤ exponentLimit then
    let limit : Int := exponentLimit
    scale? word (if down then max (start - exponent) (-limit - 1) else min (start + exponent) limit)
  else if down || word = 0 then some (.ofUInt64 0)
  else none

def magnitude? (cs : List Char) : Option Binary64 :=
  let whole := cs.takeWhile Reader.isDigit
  let (word, taken) := accumulate 0 whole
  let skipped : Int := Int.ofNat (whole.length - taken)
  match cs.dropWhile Reader.isDigit with
  | '.' :: rest =>
    let fraction := rest.takeWhile Reader.isDigit
    let (word, taken) := accumulate word fraction
    withExponent? word (skipped - taken) (rest.dropWhile Reader.isDigit)
  | rest => withExponent? word skipped rest

def isWhole (cs : List Char) : Bool := cs.all Reader.isDigit

def int? (text : String) : Option Int :=
  match text.toList with
  | '-' :: ds => if isWhole ds && ofDigits ds != 0 then some (-(ofDigits ds : Int)) else none
  | ds => if isWhole ds then some (ofDigits ds : Int) else none

def word? (text : String) : Option Int :=
  (int? text).bind fun n => if Int64.minValue.toInt ≤ n && n < UInt64.size then some n else none

def ofInt (n : Int) : Binary64 :=
  if n < 0 then .ofInt64 (Int64.ofInt n) else .ofUInt64 (UInt64.ofNat n.toNat)

def singleOfInt (n : Int) : Binary32 :=
  if n < 0 then .ofInt64 (Int64.ofInt n) else .ofUInt64 (UInt64.ofNat n.toNat)

def decimal? (text : String) : Option Binary64 :=
  match text.toList with
  | '-' :: cs => (magnitude? cs).map Binary64.neg
  | cs => magnitude? cs

/-- Words are rounded once; other numerals are read as decimals. -/
def binary64? (text : String) : Option Binary64 :=
  match word? text with
  | some n => some (ofInt n)
  | none => decimal? text

/-- As `binary64?`; decimals are rounded a second time. -/
def binary32? (text : String) : Option Binary32 :=
  match word? text with
  | some n => some (singleOfInt n)
  | none => (decimal? text).map Binary64.narrow

end Numeral

def int? : Json → Option Int
  | .number numeral => Numeral.word? numeral
  | _ => none

def natBelow? (bound : Nat) (j : Json) : Option Nat := do
  let n ← j.int?
  if 0 ≤ n && n < bound then some n.toNat else none

def int64? (j : Json) : Option Int64 := do
  let n ← j.int?
  if n ≤ Int64.maxValue.toInt then some (Int64.ofInt n) else none

def uint64? (j : Json) : Option UInt64 := (j.natBelow? UInt64.size).map UInt64.ofNat

def uint8? (j : Json) : Option UInt8 := (j.natBelow? UInt8.size).map UInt8.ofNat

mutual

/-- Whether every part of a value denotes something: no halves of surrogate pairs, and no number
out of range. -/
def denotes : Json → Bool
  | .null => true
  | .bool _ => true
  | .number numeral => (Numeral.binary64? numeral).isSome
  | .string _ => true
  | .array items => allDenote items
  | .object members => membersDenote members
  | .unreadable => false

def allDenote : List Json → Bool
  | [] => true
  | item :: rest => item.denotes && allDenote rest

def membersDenote : List (String × Json) → Bool
  | [] => true
  | (_, item) :: rest => item.denotes && membersDenote rest

end

end Arbor.Json
