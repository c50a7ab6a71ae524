import Arbor.Operator
import Arbor.CType.Basic
import Mathlib.Data.List.Basic
import Mathlib.Tactic.IntervalCases

/-!
Tokens of C text.

A text is cut by maximal munch: the token at hand takes the next character as long as it can.
Every beginning of a mark is itself a mark, so one character is enough to decide. A minus sign
that touches a digit belongs to the literal. `Spells` says that a piece of text gives certain
tokens wherever it stands, provided that what follows starts with a character that stops it.
-/
namespace Arbor

inductive Token where
  | word (text : List Char)
  | number (text : List Char)
  /-- The digits behind a minus sign that touches them. -/
  | negative (text : List Char)
  | mark (text : List Char)
  deriving DecidableEq, Repr

namespace Token

def isNamePart (c : Char) : Bool := c.isAlphanum || c = '_'

def isNameStart (c : Char) : Bool := c.isAlpha || c = '_'

/-- Digits, letters and points run on, and so does a sign behind an exponent letter. -/
def runsOn (text : List Char) (c : Char) : Bool :=
  isNamePart c || c = '.' ||
    ((c = '+' || c = '-') && text.getLast?.any fun e => e ∈ ['e', 'E', 'p', 'P'])

/-- The marks of two and three characters, and what opens a comment. -/
def longMarks : List (List Char) :=
  ["->", "++", "--", "<<", ">>", "<=", ">=", "==", "!=", "&&", "||", "+=", "-=", "*=", "/=", "%=",
    "&=", "|=", "^=", "<<=", ">>=", "//", "/*"].map String.toList

def extend? : Token → Char → Option Token
  | .word text, c => if isNamePart c then some (.word (text ++ [c])) else none
  | .number text, c => if runsOn text c then some (.number (text ++ [c])) else none
  | .negative text, c => if runsOn text c then some (.negative (text ++ [c])) else none
  | .mark text, c =>
    if text = ['-'] ∧ c.isDigit then some (.negative [c])
    else if text ++ [c] ∈ longMarks then some (.mark (text ++ [c]))
    else none

def start? (c : Char) : Option Token :=
  if c.isWhitespace then none
  else if isNameStart c then some (.word [c])
  else if c.isDigit then some (.number [c])
  else some (.mark [c])

def lexFrom : Option Token → List Char → List Token
  | t, [] => t.toList
  | none, c :: cs => lexFrom (start? c) cs
  | some t, c :: cs =>
    match t.extend? c with
    | some t => lexFrom (some t) cs
    | none => t :: lexFrom (start? c) cs

def lex (cs : List Char) : List Token := lexFrom none cs

@[simp] theorem lex_nil : lex [] = [] := rfl

theorem lexFrom_some {t : Token} {cs : List Char} (h : ∀ c ∈ cs.head?, t.extend? c = none) :
    lexFrom (some t) cs = t :: lex cs := by
  cases cs with
  | nil => rfl
  | cons c cs =>
    have hc : t.extend? c = none := h c rfl
    simp only [lexFrom, lex, hc]

/-- Followed by a character that stops it, the piece of text gives these tokens. -/
def Spells (stop : Char → Prop) (cs : List Char) (ts : List Token) : Prop :=
  ∀ rest, (∀ c ∈ rest.head?, stop c) → lex (cs ++ rest) = ts ++ lex rest

namespace Spells

variable {stop stop' : Char → Prop} {cs ds : List Char} {ts us : List Token}

theorem lex_eq (h : Spells stop cs ts) : lex cs = ts := by
  have := h [] (by simp)
  simpa using this

theorem mono (h : Spells stop cs ts) (hs : ∀ c, stop' c → stop c) : Spells stop' cs ts :=
  fun rest hr => h rest fun c hc => hs c (hr c hc)

theorem append (h : Spells stop cs ts) (k : Spells stop' ds us) {d : Char}
    (hd : ds.head? = some d) (hs : stop d) : Spells stop' (cs ++ ds) (ts ++ us) := by
  intro rest hr
  have hhead : ∀ c ∈ (ds ++ rest).head?, stop c := by
    intro c hc
    rw [List.head?_append, hd] at hc
    obtain rfl := Option.some.inj hc
    exact hs
  rw [List.append_assoc, h _ hhead, k rest hr, List.append_assoc]

theorem append_any (h : Spells (fun _ => True) cs ts) (k : Spells stop ds us) :
    Spells stop (cs ++ ds) (ts ++ us) := by
  intro rest hr
  rw [List.append_assoc, h _ fun _ _ => trivial, k rest hr, List.append_assoc]

theorem between {ms : List Char} {vs : List Token} (h : Spells stop cs ts)
    (m : Spells (fun _ => True) ms us) (k : Spells stop' ds vs) {c : Char}
    (hc : ms.head? = some c) (hs : stop c) : Spells stop' (cs ++ (ms ++ ds)) (ts ++ (us ++ vs)) :=
  h.append (m.append_any k) (by rw [List.head?_append, hc]; rfl) hs

theorem blank : Spells stop [' '] [] := fun _ _ => rfl

theorem nil : Spells stop [] [] := fun _ _ => rfl

/-- The last token is still open at the end of the piece. -/
theorem of_last {t : Token} (h : ∀ rest, lex (cs ++ rest) = ts ++ lexFrom (some t) rest)
    (hs : ∀ c, stop c → t.extend? c = none) : Spells stop cs (ts ++ [t]) := by
  intro rest hr
  rw [h, lexFrom_some fun c hc => hs c (hr c hc), List.append_assoc]
  rfl

theorem of_token {t : Token} (h : ∀ rest, lex (cs ++ rest) = lexFrom (some t) rest)
    (hs : ∀ c, stop c → t.extend? c = none) : Spells stop cs [t] :=
  show Spells stop cs ([] ++ [t]) from of_last h hs

end Spells

/-- No mark is this one with one more character. -/
def isSealed (text : List Char) : Bool :=
  text ≠ ['-'] && longMarks.all fun m => m.dropLast ≠ text

theorem extend?_sealed {text : List Char} (h : isSealed text) (c : Char) :
    (Token.mark text).extend? c = none := by
  simp only [isSealed, Bool.and_eq_true, decide_eq_true_eq, List.all_eq_true] at h
  have hlong : text ++ [c] ∉ longMarks := fun hm => h.2 _ hm List.dropLast_concat
  simp only [extend?, h.1, false_and, if_false, hlong]

theorem spells_sealed {text : List Char} (h : isSealed text)
    (hlex : ∀ rest, lex (text ++ rest) = lexFrom (some (.mark text)) rest) :
    Spells (fun _ => True) text [.mark text] :=
  .of_token hlex fun c _ => extend?_sealed h c

theorem lexFrom_run {m : List Char → Token} {text : List Char} (pre rest : List Char)
    (h : ∀ c ∈ text, ∀ pre, (m pre).extend? c = some (m (pre ++ [c]))) :
    lexFrom (some (m pre)) (text ++ rest) = lexFrom (some (m (pre ++ text))) rest := by
  induction text generalizing pre with
  | nil => simp
  | cons c text ih =>
    obtain ⟨hc, htext⟩ := List.forall_mem_cons.mp h
    simp only [List.cons_append, lexFrom, hc pre]
    rw [ih _ htext, List.append_assoc, List.singleton_append]

def keywords : List (List Char) :=
  ["auto", "break", "case", "char", "const", "continue", "default", "do", "double", "else", "enum",
    "extern", "float", "for", "goto", "if", "inline", "int", "long", "register", "restrict",
    "return", "short", "signed", "sizeof", "static", "struct", "switch", "typedef", "union",
    "unsigned", "void", "volatile", "while", "_Alignas", "_Alignof", "_Atomic", "_Bool", "_Complex",
    "_Generic", "_Imaginary", "_Noreturn", "_Static_assert", "_Thread_local"].map String.toList

def isName : List Char → Bool
  | [] => false
  | c :: cs => isNameStart c && cs.all isNamePart

def isIdentifier (text : List Char) : Bool := isName text && !keywords.contains text

theorem not_blank_of_nameStart {c : Char} (h : isNameStart c) : c.isWhitespace = false := by
  by_contra hb
  simp only [Bool.not_eq_false, Char.isWhitespace, Bool.or_eq_true, decide_eq_true_eq] at hb
  rcases hb with ((rfl | rfl) | rfl) | rfl <;> revert h <;> decide

def digits : List Char := ['0', '1', '2', '3', '4', '5', '6', '7', '8', '9']

theorem mem_digits {c : Char} (h : c.isDigit) : c ∈ digits := by
  obtain ⟨hlo, hhi⟩ := Char.isDigit_iff_toNat.mp h
  change 48 ≤ c.toNat at hlo
  change c.toNat ≤ 57 at hhi
  rw [← Char.ofNat_toNat c]
  interval_cases c.toNat <;> decide

theorem start?_digit {c : Char} (h : c.isDigit) : start? c = some (.number [c]) := by
  have hall : digits.all fun c => start? c = some (.number [c]) := by decide
  exact of_decide_eq_true (List.all_eq_true.mp hall c (mem_digits h))

/-- Behind a digit a sign is no part of an exponent. -/
theorem runsOn_digits {text : List Char} {c : Char} (ht : text ≠ []) (h : ∀ d ∈ text, d.isDigit) :
    runsOn text c = (isNamePart c || c = '.') := by
  have hall : digits.all fun d => d ∉ ['e', 'E', 'p', 'P'] := by decide
  have hlast : text.getLast?.any (fun e => e ∈ ['e', 'E', 'p', 'P']) = false := by
    have hmem := mem_digits (h _ (List.getLast_mem ht))
    rw [List.getLast?_eq_getLast_of_ne_nil ht]
    exact decide_eq_false (of_decide_eq_true (List.all_eq_true.mp hall _ hmem))
  rw [runsOn, hlast, Bool.and_false, Bool.or_false]

theorem spells_word {text : List Char} (h : isName text) :
    Spells (fun c => isNamePart c = false) text [.word text] := by
  cases text with
  | nil => cases h
  | cons c cs =>
    simp only [isName, Bool.and_eq_true, List.all_eq_true] at h
    refine .of_token (fun rest => ?_) fun d hd => by simp [extend?, hd]
    have hstart : start? c = some (.word [c]) := by
      simp [start?, not_blank_of_nameStart h.1, h.1]
    rw [List.cons_append, lex, lexFrom, hstart]
    exact lexFrom_run (m := .word) [c] rest fun d hd pre => by simp [extend?, h.2 d hd]

theorem runsOn_of_digit {text : List Char} {c : Char} (h : c.isDigit) : runsOn text c := by
  simp [runsOn, isNamePart, Char.isAlphanum, h]

theorem spells_number {text : List Char} (ht : text ≠ []) (h : ∀ c ∈ text, c.isDigit) :
    Spells (fun c => isNamePart c = false ∧ c ≠ '.') text [.number text] := by
  refine .of_token (fun rest => ?_) fun d hd => by simp [extend?, runsOn_digits ht h, hd]
  cases text with
  | nil => exact absurd rfl ht
  | cons c cs =>
    obtain ⟨hc, hcs⟩ := List.forall_mem_cons.mp h
    rw [List.cons_append, lex, lexFrom, start?_digit hc]
    exact lexFrom_run (m := .number) [c] rest fun d hd pre => by
      simp [extend?, runsOn_of_digit (hcs d hd)]

theorem spells_negative {text : List Char} (ht : text ≠ []) (h : ∀ c ∈ text, c.isDigit) :
    Spells (fun c => isNamePart c = false ∧ c ≠ '.') ('-' :: text) [.negative text] := by
  refine .of_token (fun rest => ?_) fun d hd => by simp [extend?, runsOn_digits ht h, hd]
  cases text with
  | nil => exact absurd rfl ht
  | cons c cs =>
    obtain ⟨hc, hcs⟩ := List.forall_mem_cons.mp h
    have hfirst : (Token.mark ['-']).extend? c = some (.negative [c]) := by simp [extend?, hc]
    have hminus : start? '-' = some (.mark ['-']) := by decide
    rw [List.cons_append, List.cons_append, lex, lexFrom, hminus, lexFrom, hfirst]
    exact lexFrom_run (m := .negative) [c] rest fun d hd pre => by
      simp [extend?, runsOn_of_digit (hcs d hd)]

end Token
end Arbor
