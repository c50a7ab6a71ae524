import Arbor.Proofs.FoldedValue
import Arbor.Proofs.Grammar.Reader
import Arbor.Render.Literal
import Mathlib.Data.List.TakeWhile

/-!
What integer literals are worth.

C has no negative numbers: a minus sign is an operator, and the number behind it has to be a word by
itself. The magnitude of the least word is none, so that word is written as a difference. The text
of a signed word is the text of one expression, whose evaluation meets signed words only and ends
with the word; the text of an unsigned word is one number.
-/
namespace Arbor

namespace Token

/-- The digits of a decimal constant. A 0 before other digits would make the number octal. -/
def isDecimal : List Char → Bool
  | [] => false
  | c :: cs => c.isDigit && cs.all Char.isDigit && (c ≠ '0' || cs.isEmpty)

def decimal? (suffixes : List (List Char)) (text : List Char) : Option (List Char) :=
  let digits := text.takeWhile Char.isDigit
  if isDecimal digits && suffixes.contains (text.dropWhile Char.isDigit) then some digits else none

/-- The tokens that C has for a token: a sign is an operator, and a number is a decimal constant
with the suffix `L` or none. -/
def plain? : Token → Option (List Token)
  | .number text => (decimal? [[], ['L']] text).map fun digits => [.number digits]
  | .negative text =>
    (decimal? [[], ['L']] text).map fun digits => [Operator.neg.token, .number digits]
  | t => some [t]

theorem isDecimal_toDigits (n : Nat) : isDecimal (Nat.toDigits 10 n) := by
  rcases Nat.eq_zero_or_pos n with rfl | hn
  · decide
  obtain ⟨c, cs, hdigits⟩ := List.exists_cons_of_ne_nil (@Nat.toDigits_ne_nil n 10)
  have hall := @Digits.isDigit_of_mem n
  have hhead := Digits.head_ne_zero n hn
  rw [hdigits] at hall hhead ⊢
  obtain ⟨hc, hcs⟩ := List.forall_mem_cons.mp hall
  have hzero : c ≠ '0' := fun h => hhead (congrArg some h)
  rw [isDecimal, hc, List.all_eq_true.mpr hcs]
  simp [hzero]

theorem decimal?_toDigits {suffixes : List (List Char)} {suffix : List Char} (n : Nat)
    (hmem : suffix ∈ suffixes) (hstop : ∀ c ∈ suffix.head?, c.isDigit = false) :
    decimal? suffixes (Nat.toDigits 10 n ++ suffix) = some (Nat.toDigits 10 n) := by
  have hnone : suffix.takeWhile Char.isDigit = [] ∧ suffix.dropWhile Char.isDigit = suffix := by
    cases suffix with
    | nil => exact ⟨rfl, rfl⟩
    | cons c cs => simp [hstop c rfl]
  have htake : (Nat.toDigits 10 n ++ suffix).takeWhile Char.isDigit = Nat.toDigits 10 n := by
    rw [List.takeWhile_append_of_pos Digits.isDigit_of_mem, hnone.1, List.append_nil]
  have hdrop : (Nat.toDigits 10 n ++ suffix).dropWhile Char.isDigit = suffix := by
    rw [List.dropWhile_append_of_pos Digits.isDigit_of_mem, hnone.2]
  simp [decimal?, htake, hdrop, isDecimal_toDigits, hmem]

theorem decimal?_bare (n : Nat) :
    decimal? [[], ['L']] (Nat.toDigits 10 n) = some (Nat.toDigits 10 n) := by
  have h := decimal?_toDigits n (@List.mem_cons_self _ [] [['L']]) nofun
  rwa [List.append_nil] at h

theorem lex_number {digits suffix : List Char} (hne : digits ≠ []) (hd : ∀ c ∈ digits, c.isDigit)
    (hs : ∀ c ∈ suffix, isNamePart c) : lex (digits ++ suffix) = [.number (digits ++ suffix)] := by
  obtain ⟨c, cs, rfl⟩ := List.exists_cons_of_ne_nil hne
  obtain ⟨hc, hcs⟩ := List.forall_mem_cons.mp hd
  have htakes : ∀ d ∈ cs ++ suffix, ∀ pre,
      (Token.number pre).extend? d = some (.number (pre ++ [d])) := by
    intro d hmem pre
    have hruns : runsOn pre d := by
      rcases List.mem_append.mp hmem with h | h
      · exact runsOn_of_digit (hcs d h)
      · simp [runsOn, hs d h]
    simp [extend?, hruns]
  have hrun := lexFrom_run [c] [] htakes
  rw [List.append_nil] at hrun
  rw [List.cons_append, lex, lexFrom, start?_digit hc, hrun]
  rfl

end Token

namespace Grammar

open Token
open Precedence (rank)

/-- The tokens that C has for a text of operators and decimal constants. -/
def plainTokens? (text : String) : Option (List Token) :=
  ((lex text.toList).mapM plain?).map List.flatten

/-- The text is an expression over decimal constants, and this is it. -/
def ReadsConstant (text : String) (e : Expr) : Prop :=
  ∃ ts ∈ plainTokens? text, Derives (rank .comma) ts e

/-- The unsigned word of a text that is a decimal constant with the suffix `u`. -/
def unsigned? (text : String) : Option UInt64 :=
  match lex text.toList with
  | [.number cs] =>
    (decimal? [['u']] cs).bind fun digits => Fold.uint64? (Nat.ofDigitChars 10 digits 0)
  | _ => none

theorem unsigned?_of_lex {text : String} {cs : List Char} (h : lex text.toList = [.number cs]) :
    unsigned? text =
      (decimal? [['u']] cs).bind fun digits => Fold.uint64? (Nat.ofDigitChars 10 digits 0) := by
  rw [unsigned?, h]

theorem readsConstant_iff {text : String} {ts : List Token} {e : Expr}
    (ht : plainTokens? text = some ts) (hd : Derives (rank .comma) ts e) (e' : Expr) :
    ReadsConstant text e' ↔ e' = e := by
  constructor
  · rintro ⟨us, hus, hd'⟩
    obtain rfl : ts = us := Option.some.inj (ht.symm.trans hus)
    exact hd'.unique hd
  · rintro rfl
    exact ⟨ts, ht, hd⟩

end Grammar

def IsWord (n : Int) : Prop := Int64.minValue.toInt ≤ n ∧ n ≤ Int64.maxValue.toInt

theorem isWord_iff {n : Int} : IsWord n ↔ ∃ v : Int64, v.toInt = n := by
  constructor
  · rintro ⟨hlow, hhigh⟩
    exact ⟨Int64.ofIntLE n hlow hhigh, Int64.toInt_ofIntLE⟩
  · rintro ⟨v, rfl⟩
    exact ⟨v.minValue_le_toInt, v.toInt_le⟩

namespace Expr

/-- What an expression of literals and minus signs is in exact arithmetic. -/
def integer? : Expr → Option Int
  | .literal n => some n
  | .unary .neg e => e.integer?.map (- ·)
  | .binary l .sub r => l.integer?.bind fun a => r.integer?.map (a - ·)
  | _ => none

/-- The same in signed words: there is no value if a literal or a result is no word. -/
def signed? : Expr → Option Int64
  | .literal n => Meaning.word? n
  | .unary .neg e => e.signed?.bind fun a => Meaning.word? (-a.toInt)
  | .binary l .sub r =>
    l.signed?.bind fun a => r.signed?.bind fun b => Meaning.word? (a.toInt - b.toInt)
  | _ => none

/-- The literals, the intermediate results and the result of exact arithmetic. -/
def results : Expr → List Int
  | .literal n => [n]
  | .unary op e => (Expr.unary op e).integer?.toList ++ e.results
  | .binary l op r => (Expr.binary l op r).integer?.toList ++ (l.results ++ r.results)
  | _ => []

theorem mem_results {e : Expr} {n : Int} (h : e.integer? = some n) : n ∈ e.results := by
  cases e with
  | literal m =>
    obtain rfl : m = n := Option.some.inj h
    exact List.mem_singleton_self _
  | unary op e => simp [results, h]
  | binary l op r => simp [results, h]
  | symbol | augAssign | ternary | cast | call => cases h

theorem isWord_of_mem {own : Option Int} {below : List Int} {v : Int64}
    (hown : own = some v.toInt) (hbelow : ∀ n ∈ below, IsWord n) :
    ∀ n ∈ own.toList ++ below, IsWord n := by
  intro n hn
  rw [hown, Option.toList_some, List.singleton_append, List.mem_cons] at hn
  rcases hn with rfl | hn
  · exact isWord_iff.mpr ⟨v, rfl⟩
  · exact hbelow n hn

theorem signed?_eq_some_iff {e : Expr} {v : Int64} :
    e.signed? = some v ↔ e.integer? = some v.toInt ∧ ∀ n ∈ e.results, IsWord n := by
  -- an operand's exact value is among the results, so that it is a word where all of them are
  fun_induction signed? e generalizing v with
  | case1 n =>
    simp only [integer?, results, List.mem_singleton, forall_eq, Option.some.injEq,
      Meaning.word?_eq_some]
    constructor
    · intro h
      exact ⟨h.symm, isWord_iff.mpr ⟨v, h⟩⟩
    · rintro ⟨h, -⟩
      exact h.symm
  | case2 e ih =>
    constructor
    · intro h
      obtain ⟨a, ha, hv⟩ := Option.bind_eq_some_iff.mp h
      obtain ⟨hinteger, hwords⟩ := ih.mp ha
      have hown : (Expr.unary .neg e).integer? = some v.toInt := by
        rw [integer?, hinteger, Meaning.word?_eq_some.mp hv, Option.map_some]
      exact ⟨hown, isWord_of_mem hown hwords⟩
    · rintro ⟨hinteger, hwords⟩
      have hbelow : ∀ n ∈ e.results, IsWord n := fun n hn => hwords n (List.mem_append_right _ hn)
      obtain ⟨m, hm, hv⟩ := Option.map_eq_some_iff.mp hinteger
      obtain ⟨a, rfl⟩ := isWord_iff.mp (hbelow m (mem_results hm))
      refine Option.bind_eq_some_iff.mpr ⟨a, ih.mpr ⟨hm, hbelow⟩, ?_⟩
      exact Meaning.word?_eq_some.mpr hv.symm
  | case3 l r ihl ihr =>
    constructor
    · intro h
      obtain ⟨a, ha, h⟩ := Option.bind_eq_some_iff.mp h
      obtain ⟨b, hb, hv⟩ := Option.bind_eq_some_iff.mp h
      obtain ⟨hleft, hwordsl⟩ := ihl.mp ha
      obtain ⟨hright, hwordsr⟩ := ihr.mp hb
      have hown : (Expr.binary l .sub r).integer? = some v.toInt := by
        rw [integer?, hleft, hright, Meaning.word?_eq_some.mp hv, Option.bind_some, Option.map_some]
      exact ⟨hown, isWord_of_mem hown (List.forall_mem_append.mpr ⟨hwordsl, hwordsr⟩)⟩
    · rintro ⟨hinteger, hwords⟩
      obtain ⟨hwordsl, hwordsr⟩ := List.forall_mem_append.mp
        fun n hn => hwords n (List.mem_append_right _ hn)
      obtain ⟨m, hm, hinteger⟩ := Option.bind_eq_some_iff.mp hinteger
      obtain ⟨k, hk, hv⟩ := Option.map_eq_some_iff.mp hinteger
      obtain ⟨a, rfl⟩ := isWord_iff.mp (hwordsl m (mem_results hm))
      obtain ⟨b, rfl⟩ := isWord_iff.mp (hwordsr k (mem_results hk))
      refine Option.bind_eq_some_iff.mpr ⟨a, ihl.mpr ⟨hm, hwordsl⟩, ?_⟩
      refine Option.bind_eq_some_iff.mpr ⟨b, ihr.mpr ⟨hk, hwordsr⟩, ?_⟩
      exact Meaning.word?_eq_some.mpr hv.symm
  | case4 e hliteral hneg hsub =>
    have hnone : e.integer? = none := by
      fun_cases integer? e with
      | case1 n => exact (hliteral n rfl).elim
      | case2 e => exact (hneg e rfl).elim
      | case3 l r => exact (hsub l r rfl).elim
      | case4 => rfl
    simp [hnone]

-- a minus sign before the magnitude of the least word would not give that word
example : (Expr.unary .neg (.literal 9223372036854775808)).integer? = some Int64.minValue.toInt ∧
    (Expr.unary .neg (.literal 9223372036854775808)).signed? = none := by decide

end Expr

namespace Grammar

open Precedence (rank)

/-- The text is one expression over decimal constants. No literal and no result of its evaluation is
out of the range of signed words, and this word is what it gives. -/
def Denotes (text : String) (v : Int64) : Prop :=
  ∃ e, (∀ e', ReadsConstant text e' ↔ e' = e) ∧ (∀ n ∈ e.results, IsWord n) ∧ e.signed? = some v

theorem Denotes.intro {text : String} {ts : List Token} {e : Expr} {v : Int64}
    (ht : plainTokens? text = some ts) (hd : Derives (rank .comma) ts e)
    (hinteger : e.integer? = some v.toInt) (hwords : ∀ n ∈ e.results, IsWord n) : Denotes text v :=
  ⟨e, readsConstant_iff ht hd, hwords, Expr.signed?_eq_some_iff.mpr ⟨hinteger, hwords⟩⟩

end Grammar

namespace Literal

open Token Grammar
open Precedence (rank primary)

theorem plainTokens?_ofNat (n : Nat) :
    plainTokens? (toString (Int.ofNat n)) = some [.number (Nat.toDigits 10 n)] := by
  have hlex := (spells_number (@Nat.toDigits_ne_nil n 10) Digits.isDigit_of_mem).lex_eq
  rw [plainTokens?, Digits.toList_ofNat, hlex]
  simp [plain?, decimal?_bare]

theorem plainTokens?_negSucc (n : Nat) : plainTokens? (toString (Int.negSucc n)) =
    some [Operator.neg.token, .number (Nat.toDigits 10 (n + 1))] := by
  have hlex := (spells_negative (@Nat.toDigits_ne_nil (n + 1) 10) Digits.isDigit_of_mem).lex_eq
  rw [plainTokens?, Digits.toList_negSucc, hlex]
  simp [plain?, decimal?_bare]

theorem plainTokens?_least : plainTokens? (int Int64.minValue) =
    some [openParen, Operator.neg.token, .number (Nat.toDigits 10 9223372036854775807),
      Operator.sub.token, .number (Nat.toDigits 10 1), closeParen] := by
  decide +kernel

theorem derives_neg (n : Nat) : Derives (rank .unary)
    [Operator.neg.token, .number (Nat.toDigits 10 n)] (.unary .neg (.literal n)) :=
  .before rfl ((derives_digits n).looser (by decide))

theorem derives_sub {ts us : List Token} {l r : Expr} (hl : Derives (rank .unary) ts l)
    (hr : Derives primary us r) : Derives primary
      (openParen :: (ts ++ Operator.sub.token :: us) ++ [closeParen]) (.binary l .sub r) := by
  have hsub : Derives Operator.sub.precedence.rank (ts ++ Operator.sub.token :: us)
      (.binary l .sub r) :=
    .level (by decide) (hl.looser (by decide)) (hr.looser (by decide))
  exact .parens (hsub.looser (Nat.zero_le _))

theorem int_of_ne {v : Int64} (hne : v ≠ Int64.minValue) : int v = toString v.toInt :=
  if_neg hne

theorem denotes_nonneg {v : Int64} {n : Nat} (hv : v.toInt = Int.ofNat n) :
    Denotes (int v) v := by
  have hne : v ≠ Int64.minValue := by
    rintro rfl
    cases hv
  have hwords : ∀ m ∈ (Expr.literal n).results, IsWord m := by
    intro m hm
    obtain rfl : m = n := List.mem_singleton.mp hm
    exact isWord_iff.mpr ⟨v, hv⟩
  rw [int_of_ne hne, hv]
  exact .intro (plainTokens?_ofNat n) ((derives_digits n).looser (Nat.zero_le _))
    (congrArg some hv.symm) hwords

theorem denotes_negative {v : Int64} {n : Nat} (hv : v.toInt = Int.negSucc n)
    (hne : v ≠ Int64.minValue) : Denotes (int v) v := by
  have hlow : Int64.minValue.toInt < Int.negSucc n := by
    have hdiffer : v.toInt ≠ Int64.minValue.toInt := fun h => hne (Int64.toInt_inj.mp h)
    have hle := v.minValue_le_toInt
    omega
  have hwords : ∀ m ∈ (Expr.unary .neg (.literal (n + 1 : Nat))).results, IsWord m := by
    intro m hm
    have hm : m = -((n + 1 : Nat) : Int) ∨ m = (n + 1 : Nat) := by
      simpa [Expr.results, Expr.integer?] using hm
    rw [Int64.toInt_minValue] at hlow
    rw [IsWord, Int64.toInt_minValue, Int64.toInt_maxValue]
    omega
  rw [int_of_ne hne, hv]
  exact .intro (plainTokens?_negSucc n) ((derives_neg (n + 1)).looser (Nat.zero_le _))
    (congrArg some hv.symm) hwords

theorem denotes_least : Denotes (int Int64.minValue) Int64.minValue := by
  have hd := derives_sub (derives_neg 9223372036854775807) (derives_digits 1)
  refine .intro plainTokens?_least (hd.looser (Nat.zero_le _)) (by decide) ?_
  simp only [IsWord]
  decide

theorem toList_uint (w : UInt64) : (uint w).toList = Nat.toDigits 10 w.toNat ++ ['u'] := by
  rw [uint, String.toList_append]
  exact congrArg (· ++ ['u']) Nat.toList_repr

theorem unsigned?_uint (w : UInt64) : unsigned? (uint w) = some w := by
  have hlex : lex (uint w).toList = [.number (Nat.toDigits 10 w.toNat ++ ['u'])] := by
    rw [toList_uint]
    exact lex_number Nat.toDigits_ne_nil Digits.isDigit_of_mem (List.forall_mem_singleton.mpr rfl)
  have hstop : ∀ c ∈ ['u'].head?, c.isDigit = false := by
    rintro _ ⟨rfl⟩
    rfl
  have hdigits := decimal?_toDigits w.toNat (List.mem_singleton_self ['u']) hstop
  have hword : Fold.uint64? (w.toNat : Int) = some w := by
    have hfits : 0 ≤ (w.toNat : Int) ∧ (w.toNat : Int) < UInt64.size :=
      ⟨Int.natCast_nonneg _, Int.ofNat_lt.mpr w.toNat_lt_size⟩
    rw [Fold.uint64?, if_pos hfits, Int.toNat_natCast, UInt64.ofNat_toNat]
  rw [unsigned?_of_lex hlex, hdigits, Option.bind_some, Nat.ofDigitChars_ten_toDigits, hword]

end Literal

/-- Integer literals denote their values: signed words as expressions that never leave the range of
words, unsigned words as their decimal digits with a suffix. -/
theorem Value.integer_literal_denotes (v : Int64) (w : UInt64) :
    Grammar.Denotes (Value.int v).literal v ∧
      (Value.uint w).literal.toList = Nat.toDigits 10 w.toNat ++ ['u'] ∧
      Grammar.unsigned? (Value.uint w).literal = some w := by
  refine ⟨?_, Literal.toList_uint w, Literal.unsigned?_uint w⟩
  by_cases hleast : v = Int64.minValue
  · subst hleast
    exact Literal.denotes_least
  · cases hv : v.toInt with
    | ofNat n => exact Literal.denotes_nonneg hv
    | negSucc n => exact Literal.denotes_negative hv hleast

example : (Value.int Int64.minValue).literal = "(-9223372036854775807L - 1)" := by decide +kernel

end Arbor
