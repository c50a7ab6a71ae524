/-!
White space: the characters of the Unicode property White_Space, and the trimming and splitting
that go by it.
-/
namespace Arbor.Text

def blankRanges : List (Nat × Nat) :=
  [(0x09, 0x0d), (0x20, 0x20), (0x85, 0x85), (0xa0, 0xa0), (0x1680, 0x1680), (0x2000, 0x200a),
    (0x2028, 0x2029), (0x202f, 0x202f), (0x205f, 0x205f), (0x3000, 0x3000)]

def inRanges (ranges : List (Nat × Nat)) (n : Nat) : Bool :=
  ranges.any fun (low, high) => low ≤ n && n ≤ high

def isBlank (c : Char) : Bool := inRanges blankRanges c.toNat

def dropBlankEnd (cs : List Char) : List Char := (cs.reverse.dropWhile isBlank).reverse

def trimEnd (s : String) : String := String.ofList (dropBlankEnd s.toList)

def trim (s : String) : String := String.ofList (dropBlankEnd (s.toList.dropWhile isBlank))

/-- Cuts at every character of `sep`; the pieces between are kept, empty ones too. -/
def cutAt (sep : Char → Bool) : List Char → List (List Char)
  | [] => [[]]
  | c :: cs =>
    if sep c then [] :: cutAt sep cs
    else
      match cutAt sep cs with
      | [] => [[c]]
      | piece :: pieces => (c :: piece) :: pieces

def words (s : String) : List String :=
  ((cutAt isBlank s.toList).filter fun piece => !piece.isEmpty).map String.ofList

def dropReturn (line : List Char) : List Char :=
  if line.getLast? = some '\r' then line.dropLast else line

/-- The lines of a text. A newline at the end starts no further line, and a carriage return on a
last line without newline belongs to the line. -/
def lines (s : String) : List String :=
  match (cutAt (· == '\n') s.toList).reverse with
  | [] => []
  | last :: earlier =>
    let complete := (earlier.map dropReturn).reverse
    (if last.isEmpty then complete else complete ++ [last]).map String.ofList

end Arbor.Text
