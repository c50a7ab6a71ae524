import Arbor.Json.Numeral
import Arbor.Json.Writer
import Arbor.Proofs.Digits
import Mathlib.Data.List.Forall2
import Mathlib.Data.List.TakeWhile

/-!
JSON text reads back as the value it was written for.

The writer leaves no blanks and spells every character of a string so that the reader finds it
again. A numeral ends where a comma, a bracket or a brace follows. So the reader finds a value at
the head of any text that goes on like this, and twice as many steps as the value has characters
are enough for it.
-/
namespace Arbor.Json

/-- The text is a numeral and nothing more. -/
def IsNumeral (text : String) : Prop := Reader.numeral text.toList = some (text.toList, [])

/-- Values that can be written down: their numbers are numerals and their strings denote a text. -/
inductive Plain : Json → Prop where
  | null : Plain .null
  | bool (value : Bool) : Plain (.bool value)
  | number {numeral : String} : IsNumeral numeral → Plain (.number numeral)
  | string (text : String) : Plain (.string text)
  | array {items : List Json} : (∀ item ∈ items, Plain item) → Plain (.array items)
  | object {members : List (String × Json)} :
      (∀ member ∈ members, Plain member.2) → Plain (.object members)

namespace Reader

/-- The piece of a string that stands for a character: itself, or its number if that is small. -/
def Piece.Denotes : Piece → Char → Prop
  | .char c, d => c = d
  | .unit n, d => n = d.toNat ∧ n < 0x20

/-- A unit that small is no half of a surrogate pair, whatever follows. -/
theorem characters?_unit {n : Nat} (hn : n < 0x20) (ps : List Piece) :
    characters? (.unit n :: ps) = (characters? ps).map (Char.ofNat n :: ·) := by
  have hhigh : isHigh n = false := by simp [isHigh]; omega
  have hlow : isLow n = false := by simp [isLow]; omega
  cases ps with
  | nil => simp [characters?, hhigh, hlow]
  | cons p ps => cases p <;> simp [characters?, hhigh, hlow]

theorem characters?_denoted {ps : List Piece} {cs : List Char}
    (h : List.Forall₂ Piece.Denotes ps cs) : characters? ps = some cs := by
  induction h with
  | nil => rfl
  | @cons p c ps cs hp _ ih =>
    cases p with
    | char d =>
      obtain rfl : d = c := hp
      simp [characters?, ih]
    | unit n =>
      obtain ⟨rfl, hn⟩ : n = c.toNat ∧ n < 0x20 := hp
      rw [characters?_unit hn, ih, Char.ofNat_toNat]
      rfl

theorem hexDigit?_hexChar {n : Nat} (hn : n < 16) : hexDigit? (Writer.hexChar n) = some n := by
  have hall : ∀ n < 16, hexDigit? (Writer.hexChar n) = some n := by decide
  exact hall n hn

theorem pieces_char {c : Char} (hquote : c ≠ '"') (hslash : c ≠ '\\') (hc : 0x20 ≤ c.toNat)
    (rest : List Char) :
    pieces (c :: rest) = (pieces rest).map fun (ps, rest) => (.char c :: ps, rest) := by
  have hprint : ¬ c < ' ' := by
    rw [Char.not_lt]
    exact hc
  rw [pieces]
  · rw [if_neg hprint]
    cases pieces rest <;> rfl
  · exact hquote
  · exact fun _ _ _ _ _ h _ => hslash h
  · exact fun _ _ h _ => hslash h

theorem pieces_escape (c : Char) : ∃ p : Piece, p.Denotes c ∧ ∀ rest,
    pieces (Writer.escape c ++ rest) =
      (pieces rest).map fun (ps, rest) => (p :: ps, rest) := by
  have letter : ∀ e, e ≠ 'u' → escaped? e = some c → ∃ p : Piece, p.Denotes c ∧ ∀ rest,
      pieces (['\\', e] ++ rest) = (pieces rest).map fun (ps, rest) => (p :: ps, rest) := by
    intro e hu he
    refine ⟨.char c, rfl, fun rest => ?_⟩
    rw [List.cons_append, List.singleton_append, pieces]
    · rw [he]
      cases pieces rest <;> rfl
    · exact fun _ _ _ _ _ h _ => hu h
  have named : ∀ d : Char, c.toNat = d.toNat → some d = some c := fun d h => by
    rw [← Char.ofNat_toNat c, h, Char.ofNat_toNat]
  unfold Writer.escape
  split
  · next hc => exact letter '"' (by decide) (by rw [hc]; rfl)
  split
  · next hc => exact letter '\\' (by decide) (by rw [hc]; rfl)
  split
  · next hc => exact letter 'n' (by decide) (by rw [hc]; rfl)
  split
  · next hc => exact letter 'r' (by decide) (by rw [hc]; rfl)
  split
  · next hc => exact letter 't' (by decide) (by rw [hc]; rfl)
  split
  · next hc => exact letter 'b' (by decide) (named '\x08' hc)
  split
  · next hc => exact letter 'f' (by decide) (named '\x0c' hc)
  split
  · next hc =>
    -- the other control characters are written by their number, in four digits
    refine ⟨.unit c.toNat, ⟨rfl, hc⟩, fun rest => ?_⟩
    have hzero : hexDigit? '0' = some 0 := rfl
    have hfirst := hexDigit?_hexChar (n := c.toNat / 16) (by omega)
    have hsecond := hexDigit?_hexChar (n := c.toNat % 16) (by omega)
    have hunit : unit? '0' '0' (Writer.hexChar (c.toNat / 16)) (Writer.hexChar (c.toNat % 16)) =
        some c.toNat := by
      simp only [unit?, hzero, hfirst, hsecond, Option.bind_eq_bind, Option.bind_some,
        Option.pure_def, Option.some.injEq]
      omega
    simp only [List.cons_append, List.nil_append, pieces, hunit]
    cases pieces rest <;> rfl
  · next hquote hslash _ _ _ _ _ hc =>
    exact ⟨.char c, rfl, pieces_char hquote hslash (by omega)⟩

theorem pieces_text (cs rest : List Char) : ∃ ps, List.Forall₂ Piece.Denotes ps cs ∧
    pieces (cs.flatMap Writer.escape ++ '"' :: rest) = some (ps, rest) := by
  induction cs with
  | nil => exact ⟨[], .nil, by simp [pieces]⟩
  | cons c cs ih =>
    obtain ⟨ps, hps, hread⟩ := ih
    obtain ⟨p, hp, hone⟩ := pieces_escape c
    refine ⟨p :: ps, .cons hp hps, ?_⟩
    rw [List.flatMap_cons, List.append_assoc, hone, hread]
    rfl

theorem string_text (text : String) (rest : List Char) :
    string (text.toList.flatMap Writer.escape ++ '"' :: rest) = some (some text, rest) := by
  obtain ⟨ps, hps, hread⟩ := pieces_text text.toList rest
  simp [string, hread, characters?_denoted hps]

def Closes (rest : List Char) : Prop := ∀ c ∈ rest.head?, c ∈ [',', ']', '\x7d']

theorem closes_nil : Closes [] := by simp [Closes]

theorem closes_cons {c : Char} {rest : List Char} (h : c ∈ [',', ']', '\x7d']) :
    Closes (c :: rest) := by
  intro d hd
  obtain rfl : c = d := Option.some.inj hd
  exact h

theorem isDigit_of_mem {n : Nat} {c : Char} (h : c ∈ Nat.toDigits 10 n) : isDigit c := by
  have hc := Digits.isDigit_of_mem c h
  simpa [isDigit, Char.isDigit, Char.le_def] using hc

def Stops (rest : List Char) : Prop := ∀ c ∈ rest.head?, isDigit c = false

theorem Closes.stops {rest : List Char} (h : Closes rest) : Stops rest := by
  intro c hc
  have hall : [',', ']', '\x7d'].all fun c => !isDigit c := by decide
  simpa using List.all_eq_true.mp hall c (h c hc)

theorem Stops.takeWhile {rest : List Char} (h : Stops rest) : rest.takeWhile isDigit = [] := by
  cases rest with
  | nil => rfl
  | cons c rest => simp [h c rfl]

theorem Stops.dropWhile {rest : List Char} (h : Stops rest) : rest.dropWhile isDigit = rest := by
  cases rest with
  | nil => rfl
  | cons c rest => simp [h c rfl]

theorem digits_append {cs ds r rest : List Char} (h : digits cs = some (ds, r))
    (hrest : Stops rest) : digits (cs ++ rest) = some (ds, r ++ rest) := by
  have htake : (cs ++ rest).takeWhile isDigit = cs.takeWhile isDigit := by
    rw [List.takeWhile_append, hrest.takeWhile, List.append_nil]
    split
    · next hall => exact ((List.takeWhile_prefix isDigit).eq_of_length hall).symm
    · rfl
  have hdrop : (cs ++ rest).dropWhile isDigit = cs.dropWhile isDigit ++ rest := by
    rw [List.dropWhile_append, hrest.dropWhile]
    split
    · next hempty => rw [List.isEmpty_iff.1 hempty, List.nil_append]
    · rfl
  unfold digits at h ⊢
  rw [htake, hdrop]
  split at h
  · cases h
  · cases h
    rfl

theorem whole_append {cs ds r rest : List Char} (h : whole cs = some (ds, r))
    (hrest : Stops rest) : whole (cs ++ rest) = some (ds, r ++ rest) := by
  obtain ⟨⟨w, r'⟩, hdigits, h⟩ := Option.bind_eq_some_iff.1 h
  refine Option.bind_eq_some_iff.2 ⟨_, digits_append hdigits hrest, ?_⟩
  simp only at h ⊢
  split at h
  · cases h
  · cases h
    rfl

theorem fraction_append {cs ds r rest : List Char} (h : fraction cs = some (ds, r))
    (hrest : Closes rest) : fraction (cs ++ rest) = some (ds, r ++ rest) := by
  cases cs with
  | nil =>
    cases h
    cases rest with
    | nil => rfl
    | cons c rest => rcases hrest c rfl with _ | ⟨_, _ | ⟨_, _ | ⟨_, ⟨⟩⟩⟩⟩ <;> rfl
  | cons c cs =>
    unfold fraction at h ⊢
    rw [List.cons_append]
    split at h
    · next heq =>
      obtain ⟨rfl, rfl⟩ := List.cons.inj heq
      obtain ⟨_, hdigits, h⟩ := Option.bind_eq_some_iff.1 h
      refine Option.bind_eq_some_iff.2 ⟨_, digits_append hdigits hrest.stops, ?_⟩
      cases h
      rfl
    · next hpoint =>
      cases h
      split
      · next heq => exact absurd (congrArg (· :: cs) (List.cons.inj heq).1) (hpoint cs)
      · rfl

theorem sign_append (c : Char) (cs rest : List Char) :
    sign (c :: cs ++ rest) = ((sign (c :: cs)).1, (sign (c :: cs)).2 ++ rest) := by
  by_cases hplus : c = '+'
  · subst hplus
    rfl
  by_cases hminus : c = '-'
  · subst hminus
    rfl
  simp [sign, hplus, hminus]

theorem exponent_append {cs ds r rest : List Char} (h : exponent cs = some (ds, r))
    (hrest : Closes rest) : exponent (cs ++ rest) = some (ds, r ++ rest) := by
  cases cs with
  | nil =>
    cases h
    cases rest with
    | nil => rfl
    | cons c rest => rcases hrest c rfl with _ | ⟨_, _ | ⟨_, _ | ⟨_, ⟨⟩⟩⟩⟩ <;> rfl
  | cons c cs =>
    rw [List.cons_append, exponent] at *
    split
    · next hc =>
      rw [if_pos hc] at h
      obtain ⟨_, hdigits, h⟩ := Option.bind_eq_some_iff.1 h
      cases cs with
      | nil => cases hdigits
      | cons d cs =>
        rw [sign_append]
        refine Option.bind_eq_some_iff.2 ⟨_, digits_append hdigits hrest.stops, ?_⟩
        cases h
        rfl
    · next hc =>
      rw [if_neg hc] at h
      cases h
      rfl

theorem unsignedNumeral_append {cs ds r rest : List Char} (h : unsignedNumeral cs = some (ds, r))
    (hrest : Closes rest) : unsignedNumeral (cs ++ rest) = some (ds, r ++ rest) := by
  obtain ⟨_, hwhole, h⟩ := Option.bind_eq_some_iff.1 h
  obtain ⟨_, hfraction, h⟩ := Option.bind_eq_some_iff.1 h
  obtain ⟨_, hexponent, h⟩ := Option.bind_eq_some_iff.1 h
  cases h
  refine Option.bind_eq_some_iff.2 ⟨_, whole_append hwhole hrest.stops, ?_⟩
  refine Option.bind_eq_some_iff.2 ⟨_, fraction_append hfraction hrest, ?_⟩
  exact Option.bind_eq_some_iff.2 ⟨_, exponent_append hexponent hrest, rfl⟩

theorem unsignedNumeral_starts {cs ds r : List Char} (h : unsignedNumeral cs = some (ds, r)) :
    ∃ c cs', cs = c :: cs' ∧ isDigit c := by
  obtain ⟨_, hwhole, -⟩ := Option.bind_eq_some_iff.1 h
  obtain ⟨_, hdigits, -⟩ := Option.bind_eq_some_iff.1 hwhole
  cases cs with
  | nil => cases hdigits
  | cons c cs =>
    refine ⟨c, cs, rfl, ?_⟩
    by_contra hc
    simp [digits, hc] at hdigits

theorem numeral_eq_unsigned {c : Char} (h : c ≠ '-') (cs : List Char) :
    numeral (c :: cs) = unsignedNumeral (c :: cs) := by
  rw [numeral]
  rintro _ ⟨rfl, -⟩
  exact h rfl

theorem numeral_starts {cs ds r : List Char} (h : numeral cs = some (ds, r)) :
    ∃ c cs', cs = c :: cs' ∧ (c = '-' ∨ isDigit c) := by
  cases cs with
  | nil => cases h
  | cons c cs =>
    refine ⟨c, cs, rfl, ?_⟩
    by_cases hc : c = '-'
    · exact .inl hc
    · rw [numeral_eq_unsigned hc] at h
      obtain ⟨_, _, heq, hdigit⟩ := unsignedNumeral_starts h
      exact .inr ((List.cons.inj heq).1 ▸ hdigit)

/-- A numeral is read the same whatever follows it. -/
theorem numeral_append {cs ds r rest : List Char} (h : numeral cs = some (ds, r))
    (hrest : Closes rest) : numeral (cs ++ rest) = some (ds, r ++ rest) := by
  cases cs with
  | nil => cases h
  | cons c cs =>
    by_cases hc : c = '-'
    · subst hc
      obtain ⟨_, hunsigned, h⟩ := Option.bind_eq_some_iff.1 h
      refine Option.bind_eq_some_iff.2 ⟨_, unsignedNumeral_append hunsigned hrest, ?_⟩
      cases h
      rfl
    · rw [numeral_eq_unsigned hc] at h
      rw [List.cons_append, numeral_eq_unsigned hc, ← List.cons_append]
      exact unsignedNumeral_append h hrest

theorem digits_toDigits (n : Nat) : digits (Nat.toDigits 10 n) = some (Nat.toDigits 10 n, []) := by
  have hall : ∀ c ∈ Nat.toDigits 10 n, isDigit c := fun c hc => isDigit_of_mem hc
  have htake : (Nat.toDigits 10 n).takeWhile isDigit = Nat.toDigits 10 n :=
    List.takeWhile_eq_self_iff.2 hall
  have hdrop : (Nat.toDigits 10 n).dropWhile isDigit = [] := List.dropWhile_eq_nil_iff.2 hall
  unfold digits
  rw [htake, hdrop]
  split
  · next hnil => exact absurd hnil Nat.toDigits_ne_nil
  · rfl

theorem whole_toDigits (n : Nat) : whole (Nat.toDigits 10 n) = some (Nat.toDigits 10 n, []) := by
  simp only [whole, digits_toDigits n, Option.bind_eq_bind, Option.bind_some]
  split
  · next c ds hds =>
    rcases Nat.eq_zero_or_pos n with rfl | hn
    · simp at hds
    · exact absurd (congrArg List.head? hds) (Digits.head_ne_zero n hn)
  · rfl

theorem unsignedNumeral_toDigits (n : Nat) :
    unsignedNumeral (Nat.toDigits 10 n) = some (Nat.toDigits 10 n, []) := by
  simp [unsignedNumeral, whole_toDigits n, fraction, exponent]

theorem value_numeral {c : Char} (h : c = '-' ∨ isDigit c) (n : Nat) (cs : List Char) :
    value (n + 1) (c :: cs) =
      (numeral (c :: cs)).bind fun r => some (.number (String.ofList r.1), r.2) := by
  have hne : ∀ d ∈ [' ', '\t', '\n', '\r', 'n', 't', 'f', '"', '[', '\x7b'], c ≠ d := by
    rintro d hd rfl
    have hall : [' ', '\t', '\n', '\r', 'n', 't', 'f', '"', '[', '\x7b'].all fun d =>
        !(d = '-' || isDigit d) := by decide
    have hnot : ¬ (c = '-' ∨ isDigit c) := by simpa using List.all_eq_true.mp hall c hd
    exact hnot h
  have hskip : skipSpace (c :: cs) = c :: cs := by
    have hspace : isSpace c = false := by simp [isSpace, hne]
    simp [skipSpace, hspace]
  rw [value, hskip]
  split
  case h_7 => rfl
  all_goals next heq => exact absurd (List.cons.inj heq).1 (hne _ (by decide))

end Reader

theorem isNumeral_integer (i : Int) : IsNumeral (toString i) := by
  unfold IsNumeral
  cases i with
  | ofNat n =>
    have hunsigned := Reader.unsignedNumeral_toDigits n
    obtain ⟨c, cs, hcs, hc⟩ := Reader.unsignedNumeral_starts hunsigned
    have hminus : c ≠ '-' := by
      rintro rfl
      cases hc
    rw [Digits.toList_ofNat, hcs, Reader.numeral_eq_unsigned hminus, ← hcs]
    exact hunsigned
  | negSucc n =>
    rw [Digits.toList_negSucc, Reader.numeral, Reader.unsignedNumeral_toDigits]
    rfl

theorem Plain.integer (i : Int) : Plain (.ofInt i) := .number (isNumeral_integer i)

theorem Plain.natural (n : Nat) : Plain (.ofNat n) := .integer n

/-- At the head of a text, the value is found in as many steps as twice its characters. -/
def ReadsBack (j : Json) : Prop :=
  ∀ n rest, 2 * (Writer.value j).length ≤ n → Reader.Closes rest →
    Reader.value n (Writer.value j ++ rest) = some (j, rest)

namespace Reader

theorem readsBack_number {text : String} (h : IsNumeral text) : ReadsBack (.number text) := by
  intro n rest hn hrest
  obtain ⟨c, cs, hcs, hc⟩ := numeral_starts h
  have htext : Writer.value (.number text) = text.toList := rfl
  rw [htext, hcs, List.length_cons] at hn
  obtain ⟨n, rfl⟩ := Nat.exists_eq_succ_of_ne_zero (n := n) (by omega)
  have hread := numeral_append h hrest
  rw [hcs, List.cons_append] at hread
  rw [htext, hcs, List.cons_append, value_numeral hc, hread, ← hcs]
  simp

theorem readsBack_string (text : String) : ReadsBack (.string text) := by
  intro n rest hn hrest
  have htext : Writer.value (.string text) ++ rest =
      '"' :: (text.toList.flatMap Writer.escape ++ '"' :: rest) := by
    simp [Writer.value, Writer.string]
  obtain ⟨n, rfl⟩ : ∃ m, n = m + 1 := by
    refine Nat.exists_eq_succ_of_ne_zero ?_
    simp only [Writer.value, Writer.string, List.length_cons, List.length_append] at hn
    omega
  have hvalue : ∀ cs, value (n + 1) ('"' :: cs) =
      (string cs).bind fun r => some (r.1.elim .unreadable .string, r.2) :=
    fun _ => rfl
  rw [htext, hvalue, string_text]
  rfl

theorem writer_elements_cons_cons (first second : Json) (others : List Json) :
    Writer.elements (first :: second :: others) =
      Writer.value first ++ ',' :: Writer.elements (second :: others) := by
  rw [Writer.elements]
  exact nofun

theorem elements_text {first : Json} {others : List Json}
    (h : ∀ item ∈ first :: others, ReadsBack item) (n : Nat) (rest : List Char)
    (hn : 2 * (Writer.elements (first :: others)).length < n) :
    elements n (Writer.elements (first :: others) ++ ']' :: rest) =
      some (first :: others, rest) := by
  induction others generalizing first n with
  | nil =>
    obtain ⟨n, rfl⟩ := Nat.exists_eq_succ_of_ne_zero (Nat.ne_zero_of_lt hn)
    rw [Writer.elements] at hn ⊢
    have hread := h first (by simp) n (']' :: rest) (by omega) (closes_cons (by decide))
    rw [elements, hread]
    rfl
  | cons second others ih =>
    obtain ⟨hfirst, hothers⟩ := List.forall_mem_cons.mp h
    obtain ⟨n, rfl⟩ := Nat.exists_eq_succ_of_ne_zero (Nat.ne_zero_of_lt hn)
    rw [writer_elements_cons_cons] at hn ⊢
    simp only [List.length_append, List.length_cons] at hn
    have hread := hfirst n (',' :: (Writer.elements (second :: others) ++ ']' :: rest)) (by omega)
      (closes_cons (by decide))
    have hrest := ih hothers n (by omega)
    rw [List.append_assoc, List.cons_append, elements, hread]
    change (elements n (Writer.elements (second :: others) ++ ']' :: rest)).bind _ = _
    rw [hrest]
    rfl

/-- Neither a blank nor a closing bracket. -/
def Begins (c : Char) : Prop := isSpace c = false ∧ c ≠ ']'

theorem begins_numeral {c : Char} (h : c = '-' ∨ isDigit c) : Begins c := by
  have hne : ∀ d ∈ [' ', '\t', '\n', '\r', ']'], c ≠ d := by
    rintro d hd rfl
    have hall : [' ', '\t', '\n', '\r', ']'].all fun d => !(d = '-' || isDigit d) := by decide
    have hnot : ¬ (c = '-' ∨ isDigit c) := by simpa using List.all_eq_true.mp hall c hd
    exact hnot h
  exact ⟨by simp [isSpace, hne], hne ']' (by decide)⟩

theorem plain_begins {j : Json} (h : Plain j) : ∃ c cs, Writer.value j = c :: cs ∧ Begins c := by
  cases h with
  | null => exact ⟨_, _, rfl, by decide, by decide⟩
  | bool value => cases value <;> exact ⟨_, _, rfl, by decide, by decide⟩
  | number hnumeral =>
    obtain ⟨c, cs, hcs, hc⟩ := numeral_starts hnumeral
    exact ⟨c, cs, hcs, begins_numeral hc⟩
  | string text => exact ⟨_, _, rfl, by decide, by decide⟩
  | array _ => exact ⟨_, _, rfl, by decide, by decide⟩
  | object _ => exact ⟨_, _, rfl, by decide, by decide⟩

theorem elements_begin {first : Json} (h : Plain first) (others : List Json) :
    ∃ c cs, Writer.elements (first :: others) = c :: cs ∧ Begins c := by
  obtain ⟨c, cs, hcs, hc⟩ := plain_begins h
  cases others with
  | nil => exact ⟨c, cs, by rw [Writer.elements, hcs], hc⟩
  | cons second others => exact ⟨c, _, by rw [writer_elements_cons_cons, hcs]; rfl, hc⟩

def arrayTail (n : Nat) : List Char → Option (Json × List Char)
  | ']' :: rest => some (.array [], rest)
  | rest => (elements n rest).bind fun r => some (.array r.1, r.2)

theorem value_array (n : Nat) {c : Char} (h : Begins c) (cs : List Char) :
    value (n + 1) ('[' :: c :: cs) =
      (elements n (c :: cs)).bind fun r => some (.array r.1, r.2) := by
  have hskip : skipSpace (c :: cs) = c :: cs := by simp [skipSpace, h.1]
  have hopen : value (n + 1) ('[' :: c :: cs) = arrayTail n (skipSpace (c :: cs)) := rfl
  rw [hopen, hskip, arrayTail]
  exact fun rest heq => h.2 (List.cons.inj heq).1

theorem readsBack_array {items : List Json} (hp : ∀ item ∈ items, Plain item)
    (h : ∀ item ∈ items, ReadsBack item) : ReadsBack (.array items) := by
  intro n rest hn hrest
  obtain ⟨n, rfl⟩ : ∃ m, n = m + 1 := by
    refine Nat.exists_eq_succ_of_ne_zero ?_
    simp only [Writer.value, List.length_cons, List.length_append] at hn
    omega
  cases items with
  | nil => rfl
  | cons first others =>
    obtain ⟨c, cs, hcs, hc⟩ := elements_begin (hp first (by simp)) others
    have hread := elements_text h n rest (by
      simp only [Writer.value, List.length_cons, List.length_append] at hn
      omega)
    have htext : Writer.value (.array (first :: others)) ++ rest =
        '[' :: (Writer.elements (first :: others) ++ ']' :: rest) := by simp [Writer.value]
    rw [hcs, List.cons_append] at hread htext
    rw [htext, value_array n hc, hread]
    rfl

theorem writer_members_cons_cons (name : String) (item : Json) (second : String × Json)
    (others : List (String × Json)) :
    Writer.membersText ((name, item) :: second :: others) =
      Writer.string name ++ ':' :: Writer.value item ++ ',' ::
        Writer.membersText (second :: others) := by
  rw [Writer.membersText]
  exact nofun

def membersTail (n : Nat) (member : Option String × Json) :
    List Char → Option (List (Option String × Json) × List Char)
  | ',' :: rest => (members n rest).bind fun r => some (member :: r.1, r.2)
  | '\x7d' :: rest => some ([member], rest)
  | _ => none

def membersAfterName (n : Nat) (name : Option String) :
    List Char → Option (List (Option String × Json) × List Char)
  | ':' :: rest => (value n rest).bind fun r => membersTail n (name, r.1) (skipSpace r.2)
  | _ => none

theorem members_step {item : Json} (name : String) (h : ReadsBack item) (n : Nat)
    {rest : List Char} (hn : 2 * (Writer.value item).length ≤ n) (hrest : Closes rest) :
    members (n + 1) (Writer.string name ++ ':' :: (Writer.value item ++ rest)) =
      membersTail n (some name, item) (skipSpace rest) := by
  have hopen : ∀ cs, members (n + 1) ('"' :: cs) =
      (string cs).bind fun r => membersAfterName n r.1 (skipSpace r.2) := fun _ => rfl
  have hcolon : skipSpace (':' :: (Writer.value item ++ rest)) =
    ':' :: (Writer.value item ++ rest) := rfl
  rw [Writer.string, List.cons_append, List.cons_append, List.append_assoc, List.singleton_append,
    hopen, string_text, Option.bind_some, hcolon, membersAfterName, h n rest hn hrest]
  rfl

theorem members_text {first : String × Json} {others : List (String × Json)}
    (h : ∀ member ∈ first :: others, ReadsBack member.2) (n : Nat) (rest : List Char)
    (hn : 2 * (Writer.membersText (first :: others)).length < n) :
    members n (Writer.membersText (first :: others) ++ '\x7d' :: rest) =
      some ((first :: others).map fun member => (some member.1, member.2), rest) := by
  induction others generalizing first n with
  | nil =>
    obtain ⟨name, item⟩ := first
    obtain ⟨n, rfl⟩ := Nat.exists_eq_succ_of_ne_zero (Nat.ne_zero_of_lt hn)
    have hitem : ReadsBack item := h (name, item) (by simp)
    rw [Writer.membersText] at hn ⊢
    simp only [List.length_append, List.length_cons] at hn
    rw [List.append_assoc, List.cons_append, members_step name hitem n (by omega)
      (closes_cons (by decide))]
    rfl
  | cons second others ih =>
    obtain ⟨name, item⟩ := first
    have hitem : ReadsBack item := h (name, item) (by simp)
    obtain ⟨n, rfl⟩ := Nat.exists_eq_succ_of_ne_zero (Nat.ne_zero_of_lt hn)
    rw [writer_members_cons_cons] at hn ⊢
    simp only [List.length_append, List.length_cons] at hn
    have hrest := ih (List.forall_mem_cons.mp h).2 n (by omega)
    rw [List.append_assoc, List.append_assoc, List.cons_append, List.cons_append,
      members_step name hitem n (by omega) (closes_cons (by decide))]
    change (members n (Writer.membersText (second :: others) ++ '\x7d' :: rest)).bind _ = _
    rw [hrest]
    rfl

theorem objectOf_named (members : List (String × Json)) :
    objectOf (members.map fun member => (some member.1, member.2)) = .object members := by
  have hnames : (members.map fun member => (some member.1, member.2)).mapM
      (fun (member : Option String × Json) => member.1.map (·, member.2)) = some members := by
    induction members with
    | nil => rfl
    | cons first others ih => simp [ih]
  simp only [objectOf, hnames]

theorem readsBack_object {members : List (String × Json)}
    (h : ∀ member ∈ members, ReadsBack member.2) : ReadsBack (.object members) := by
  intro n rest hn hrest
  obtain ⟨n, rfl⟩ : ∃ m, n = m + 1 := by
    refine Nat.exists_eq_succ_of_ne_zero ?_
    simp only [Writer.value, List.length_cons, List.length_append] at hn
    omega
  cases members with
  | nil => rfl
  | cons first others =>
    have hread := members_text h n rest (by
      simp only [Writer.value, List.length_cons, List.length_append] at hn
      omega)
    have hquote : ∃ cs, Writer.membersText (first :: others) = '"' :: cs := by
      cases others with
      | nil => exact ⟨_, rfl⟩
      | cons second others => exact ⟨_, rfl⟩
    obtain ⟨cs, hcs⟩ := hquote
    have hopen : ∀ cs, value (n + 1) ('\x7b' :: '"' :: cs) =
        (members n ('"' :: cs)).bind fun r => some (objectOf r.1, r.2) :=
      fun _ => rfl
    have htext : Writer.value (.object (first :: others)) ++ rest =
        '\x7b' :: (Writer.membersText (first :: others) ++ '\x7d' :: rest) := by simp [Writer.value]
    rw [hcs, List.cons_append] at hread htext
    rw [htext, hopen, hread, ← objectOf_named]
    rfl

end Reader

theorem Plain.readsBack {j : Json} (h : Plain j) : ReadsBack j := by
  induction h with
  | null =>
    intro n rest hn hrest
    obtain ⟨n, rfl⟩ := Nat.exists_eq_succ_of_ne_zero (Nat.ne_zero_of_lt hn)
    rfl
  | bool value =>
    intro n rest hn hrest
    cases value <;> obtain ⟨n, rfl⟩ := Nat.exists_eq_succ_of_ne_zero (Nat.ne_zero_of_lt hn) <;> rfl
  | number hnumeral => exact Reader.readsBack_number hnumeral
  | string text => exact Reader.readsBack_string text
  | array hp ih => exact Reader.readsBack_array hp ih
  | object _ ih => exact Reader.readsBack_object ih

theorem Plain.parse?_write {j : Json} (h : Plain j) : parse? j.write = some j := by
  have hread := h.readsBack (2 * (Writer.value j).length + 2) [] (by omega) Reader.closes_nil
  have htext : j.write.toList = Writer.value j := String.toList_ofList
  rw [List.append_nil, ← htext] at hread
  rw [parse?, hread]
  rfl

end Arbor.Json
