import Arbor.Value
/-!
Literals of C text.
-/
namespace Arbor
namespace Literal

def octal (b : UInt8) : String :=
  String.ofList [Nat.digitChar (b.toNat / 64), Nat.digitChar (b.toNat / 8 % 8),
    Nat.digitChar (b.toNat % 8)]

/-- One byte inside the quotes `quote`: printable characters stand for themselves, the others
are escaped, by a letter where C has one. -/
def escapeByte (quote b : UInt8) : String :=
  if b = 0x5c then "\\\\"
  else if b = 0x0a then "\\n"
  else if b = 0x09 then "\\t"
  else if b = 0x0d then "\\r"
  else if b = 0 then "\\0"
  else if b = quote then String.ofList ['\\', Char.ofNat b.toNat]
  else if 0x20 ≤ b && b ≤ 0x7e then String.singleton (Char.ofNat b.toNat)
  else "\\" ++ octal b

def escape (quote : UInt8) (bytes : List UInt8) : String :=
  String.join (bytes.map (escapeByte quote))

def string (s : String) : String := "\"" ++ escape 0x22 s.toUTF8.data.toList ++ "\""

def char (c : UInt8) : String := "'" ++ escape 0x27 [c] ++ "'"

/-- No literal has the value of the least word, since its magnitude is no `long`. -/
def int (v : Int64) : String :=
  if v = Int64.minValue then "(" ++ toString (v.toInt + 1) ++ "L - 1)" else toString v.toInt

def uint (v : UInt64) : String := toString v.toNat ++ "u"

def unwritable (isNaN isNegative : Bool) : String :=
  if isNaN then "NAN" else if isNegative then "-INFINITY" else "INFINITY"

def double (v : Binary64) : String :=
  match v.write? .source with
  | some text => text
  | none => unwritable v.isNaN v.isNegative

def single (v : Binary32) : String :=
  match v.write? .source with
  | some text => text ++ "f"
  | none => unwritable v.isNaN v.isNegative

end Literal

def Value.literal : Value → String
  | .int v => Literal.int v
  | .uint v => Literal.uint v
  | .float v => Literal.single v
  | .double v => Literal.double v
  | .char v => Literal.char v
  | .bool v => if v then "1" else "0"

end Arbor
