import Arbor.Json.Basic
/-!
JSON text, without blanks.
-/
namespace Arbor.Json
namespace Writer

def hexChar (n : Nat) : Char := Nat.digitChar n

/-- One character of a string: only the quote, the backslash and control characters are escaped. -/
def escape (c : Char) : List Char :=
  if c = '"' then ['\\', '"']
  else if c = '\\' then ['\\', '\\']
  else if c = '\n' then ['\\', 'n']
  else if c = '\r' then ['\\', 'r']
  else if c = '\t' then ['\\', 't']
  else if c.toNat = 0x08 then ['\\', 'b']
  else if c.toNat = 0x0c then ['\\', 'f']
  else if c.toNat < 0x20 then ['\\', 'u', '0', '0', hexChar (c.toNat / 16), hexChar (c.toNat % 16)]
  else [c]

def string (text : String) : List Char := '"' :: text.toList.flatMap escape ++ ['"']

mutual

def value : Json → List Char
  | .null => ['n', 'u', 'l', 'l']
  | .bool true => ['t', 'r', 'u', 'e']
  | .bool false => ['f', 'a', 'l', 's', 'e']
  | .number numeral => numeral.toList
  | .string text => string text
  | .array items => '[' :: elements items ++ [']']
  | .object members => '\x7b' :: membersText members ++ ['\x7d']
  | .unreadable => ['n', 'u', 'l', 'l']

def elements : List Json → List Char
  | [] => []
  | [item] => value item
  | item :: rest => value item ++ ',' :: elements rest

def membersText : List (String × Json) → List Char
  | [] => []
  | [(name, item)] => string name ++ ':' :: value item
  | (name, item) :: rest => string name ++ ':' :: value item ++ ',' :: membersText rest

end

end Writer

def write (j : Json) : String := String.ofList (Writer.value j)

end Arbor.Json
