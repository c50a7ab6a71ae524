import Arbor.Text.Printable
/-!
Text in quotes, as diagnostics show it.

The quote in use, the backslash and the control characters with a short form are escaped by a
backslash; other control characters, and those that cannot be shown, are written by their number.
-/
namespace Arbor.Text

def hexDigits (n : Nat) : String := String.ofList (Nat.toDigits 16 n)

def isShown (c : Char) : Bool :=
  if c.toNat < 0x80 then 0x20 ≤ c.toNat && c.toNat < 0x7f else isPrintable c

def quoteChar (quote c : Char) : String :=
  if c = quote || c = '\\' then String.ofList ['\\', c]
  else if c = '\n' then "\\n"
  else if c = '\r' then "\\r"
  else if c = '\t' then "\\t"
  else if c.toNat = 0 then "\\0"
  else if isShown c then String.singleton c
  else "\\u\x7b" ++ hexDigits c.toNat ++ "\x7d"

def quoteWith (quote : Char) (s : String) : String :=
  String.singleton quote ++ String.join (s.toList.map (quoteChar quote)) ++ String.singleton quote

def quoted (s : String) : String := quoteWith '"' s

def quotedList (items : List String) : String :=
  "[" ++ ", ".intercalate (items.map quoted) ++ "]"

end Arbor.Text
