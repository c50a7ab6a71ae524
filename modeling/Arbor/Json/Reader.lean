import Arbor.Json.Basic
/-!
Reading JSON text. The grammar is strict: no trailing commas, comments, leading zeros, raw control
characters in strings, or text after the value.

The readers take a text and give what they read with the rest. Those of values have a first
argument that bounds the nesting and the length of lists; twice the length of the text is enough,
since every second step takes a character.
-/
namespace Arbor.Json
namespace Reader

def isSpace (c : Char) : Bool := c == ' ' || c == '\t' || c == '\n' || c == '\r'

def skipSpace (cs : List Char) : List Char := cs.dropWhile isSpace

def isDigit (c : Char) : Bool := '0' ≤ c && c ≤ '9'

def hexDigit? (c : Char) : Option Nat :=
  if '0' ≤ c && c ≤ '9' then some (c.toNat - '0'.toNat)
  else if 'a' ≤ c && c ≤ 'f' then some (c.toNat - 'a'.toNat + 10)
  else if 'A' ≤ c && c ≤ 'F' then some (c.toNat - 'A'.toNat + 10)
  else none

/-- A part of a string: a character, or a unit of sixteen bits written by its number. -/
inductive Piece where
  | char (c : Char)
  | unit (n : Nat)
  deriving DecidableEq, Repr

def escaped? : Char → Option Char
  | '"' => some '"'
  | '\\' => some '\\'
  | '/' => some '/'
  | 'b' => some '\x08'
  | 'f' => some '\x0c'
  | 'n' => some '\n'
  | 'r' => some '\r'
  | 't' => some '\t'
  | _ => none

def unit? (a b c d : Char) : Option Nat := do
  return (((← hexDigit? a) * 16 + (← hexDigit? b)) * 16 + (← hexDigit? c)) * 16 + (← hexDigit? d)

def pieces : List Char → Option (List Piece × List Char)
  | [] => none
  | '"' :: rest => some ([], rest)
  | '\\' :: 'u' :: a :: b :: c :: d :: rest => do
    let n ← unit? a b c d
    let (ps, rest) ← pieces rest
    return (.unit n :: ps, rest)
  | '\\' :: e :: rest => do
    let c ← escaped? e
    let (ps, rest) ← pieces rest
    return (.char c :: ps, rest)
  | c :: rest => do
    if c < ' ' then
      none
    else
      let (ps, rest) ← pieces rest
      return (.char c :: ps, rest)

def isHigh (n : Nat) : Bool := 0xd800 ≤ n && n < 0xdc00

def isLow (n : Nat) : Bool := 0xdc00 ≤ n && n < 0xe000

/-- The characters of a string; nothing if it has half of a surrogate pair. -/
def characters? : List Piece → Option (List Char)
  | [] => some []
  | .char c :: rest => (characters? rest).map (c :: ·)
  | .unit high :: .unit low :: rest =>
    if isHigh high && isLow low then
      (characters? rest).map (Char.ofNat (0x10000 + (high - 0xd800) * 0x400 + (low - 0xdc00)) :: ·)
    else if isHigh high || isLow high then none
    else (characters? (.unit low :: rest)).map (Char.ofNat high :: ·)
  | .unit n :: rest =>
    if isHigh n || isLow n then none else (characters? rest).map (Char.ofNat n :: ·)

/-- A string after its opening quote; the text is missing if it denotes none. -/
def string (cs : List Char) : Option (Option String × List Char) := do
  let (ps, rest) ← pieces cs
  return ((characters? ps).map String.ofList, rest)

def digits (cs : List Char) : Option (List Char × List Char) :=
  match cs.takeWhile isDigit with
  | [] => none
  | ds => some (ds, cs.dropWhile isDigit)

/-- The digits before the point: no zero in front of others. -/
def whole (cs : List Char) : Option (List Char × List Char) := do
  let (ds, rest) ← digits cs
  match ds with
  | '0' :: _ :: _ => none
  | _ => return (ds, rest)

def fraction : List Char → Option (List Char × List Char)
  | '.' :: rest => do
    let (ds, rest) ← digits rest
    return ('.' :: ds, rest)
  | rest => some ([], rest)

def sign : List Char → List Char × List Char
  | '+' :: rest => (['+'], rest)
  | '-' :: rest => (['-'], rest)
  | rest => ([], rest)

def exponent : List Char → Option (List Char × List Char)
  | [] => some ([], [])
  | c :: rest =>
    if c = 'e' || c = 'E' then do
      let (s, rest) := sign rest
      let (ds, rest) ← digits rest
      return (c :: s ++ ds, rest)
    else some ([], c :: rest)

def unsignedNumeral (cs : List Char) : Option (List Char × List Char) := do
  let (w, rest) ← whole cs
  let (f, rest) ← fraction rest
  let (e, rest) ← exponent rest
  return (w ++ f ++ e, rest)

def numeral : List Char → Option (List Char × List Char)
  | '-' :: rest => do
    let (ds, rest) ← unsignedNumeral rest
    return ('-' :: ds, rest)
  | rest => unsignedNumeral rest

/-- An object from its members, if every name denotes a text. -/
def objectOf (members : List (Option String × Json)) : Json :=
  match members.mapM fun (name, value) => name.map (·, value) with
  | some members => .object members
  | none => .unreadable

mutual

def value : Nat → List Char → Option (Json × List Char)
  | 0, _ => none
  | n + 1, cs =>
    match skipSpace cs with
    | 'n' :: 'u' :: 'l' :: 'l' :: rest => some (.null, rest)
    | 't' :: 'r' :: 'u' :: 'e' :: rest => some (.bool true, rest)
    | 'f' :: 'a' :: 'l' :: 's' :: 'e' :: rest => some (.bool false, rest)
    | '"' :: rest => do
      let (text, rest) ← string rest
      return (text.elim .unreadable .string, rest)
    | '[' :: rest =>
      match skipSpace rest with
      | ']' :: rest => some (.array [], rest)
      | rest => do
        let (items, rest) ← elements n rest
        return (.array items, rest)
    | '\x7b' :: rest =>
      match skipSpace rest with
      | '\x7d' :: rest => some (.object [], rest)
      | rest => do
        let (members, rest) ← members n rest
        return (objectOf members, rest)
    | rest => do
      let (text, rest) ← numeral rest
      return (.number (String.ofList text), rest)

def elements : Nat → List Char → Option (List Json × List Char)
  | 0, _ => none
  | n + 1, cs => do
    let (item, rest) ← value n cs
    match skipSpace rest with
    | ',' :: rest =>
      let (items, rest) ← elements n rest
      return (item :: items, rest)
    | ']' :: rest => return ([item], rest)
    | _ => none

def members : Nat → List Char → Option (List (Option String × Json) × List Char)
  | 0, _ => none
  | n + 1, cs => do
    match skipSpace cs with
    | '"' :: rest =>
      let (name, rest) ← string rest
      match skipSpace rest with
      | ':' :: rest =>
        let (item, rest) ← value n rest
        match skipSpace rest with
        | ',' :: rest =>
          let (others, rest) ← members n rest
          return ((name, item) :: others, rest)
        | '\x7d' :: rest => return ([(name, item)], rest)
        | _ => none
      | _ => none
    | _ => none

end

end Reader

def parse? (text : String) : Option Json := do
  let cs := text.toList
  let (value, rest) ← Reader.value (2 * cs.length + 2) cs
  if (Reader.skipSpace rest).isEmpty then some value else none

end Arbor.Json
