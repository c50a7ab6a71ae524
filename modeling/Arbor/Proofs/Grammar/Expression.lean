import Arbor.Proofs.Digits
import Arbor.Proofs.Grammar.Token

/-!
The grammar of expressions, one level for each class of precedence.

The level of a class is its rank, and primaries stand above all classes. Levels of binary
operators are left-associative; an assignment takes a ternary on its left and an assignment on its
right; the middle of a ternary, a subscript and what stands in parentheses can be any expression;
an argument is an assignment. Operators before an operand and casts take an operand of their own
level, as does what stands behind one. A negative literal is a single token of the level of
operators before an operand.
-/
namespace Arbor

/-- Expressions as such, with the types of casts, without the ids of an arena. -/
inductive Expr where
  | symbol (name : String)
  | literal (value : Int)
  | unary (op : Operator) (arg : Expr)
  | binary (left : Expr) (op : Operator) (right : Expr)
  | augAssign (target : Expr) (op : Operator) (value : Expr)
  | ternary (cond thenValue elseValue : Expr)
  | cast (ty : CType) (value : Expr)
  | call (func : Expr) (args : List Expr)
  deriving Repr

def Precedence.primary : Nat := 15

namespace Token

def openParen : Token := .mark ['(']

def closeParen : Token := .mark [')']

def openBracket : Token := .mark ['[']

def closeBracket : Token := .mark [']']

def comma : Token := .mark [',']

def star : Token := .mark ['*']

def question : Token := .mark ['?']

def colon : Token := .mark [':']

def commas (items : List (List Token)) : List Token := [comma].intercalate items

end Token

namespace Operator

/-- The token of an operator; one of them is a word. -/
def token : Operator → Token
  | .sizeOf => .word Operator.sizeOf.spelling.toList
  | op => .mark op.spelling.toList

def assigning (op : Operator) : Token := .mark (op.spelling.toList ++ ['='])

/-- A binary operator that associates to the left, its operands on both sides. -/
def isLevel (op : Operator) : Bool :=
  op.isBinary && op.precedence.isLeftAssociative && op.precedence ≠ .suffix

def isMember (op : Operator) : Bool := op = .dot || op = .arrow

end Operator

def Scalar.tokens (s : Scalar) : List Token := Token.lex s.keyword.toList

namespace Grammar

open Token

/-- The names of types: a scalar, with stars and parameter lists behind it. -/
inductive TypeName : List Token → CType → Prop where
  | scalar (s : Scalar) : TypeName s.tokens (.scalar s)
  | pointer {ts base} : TypeName ts base → TypeName (ts ++ [star]) (.pointer base)
  | function {ts result} {params : List (List Token × CType)} : TypeName ts result →
      (∀ p ∈ params, TypeName p.1 p.2) →
      TypeName (ts ++ [openParen, star, closeParen, openParen] ++
        commas (params.map Prod.fst) ++ [closeParen]) (.function result (params.map Prod.snd))

open Precedence (rank primary)

inductive Derives : Nat → List Token → Expr → Prop where
  | symbol {name : String} : isIdentifier name.toList →
      Derives primary [.word name.toList] (.symbol name)
  | number {digits : List Char} : digits.all Char.isDigit →
      Derives primary [.number digits] (.literal (Nat.ofDigitChars 10 digits 0))
  | parens {ts e} : Derives (rank .comma) ts e →
      Derives primary (openParen :: ts ++ [closeParen]) e
  | after {ts e op} : op.standsAfter → Derives (rank .suffix) ts e →
      Derives (rank .suffix) (ts ++ [op.token]) (.unary op e)
  | member {ts e op} {name : String} : op.isMember → isIdentifier name.toList →
      Derives (rank .suffix) ts e →
      Derives (rank .suffix) (ts ++ [op.token, .word name.toList]) (.binary e op (.symbol name))
  | index {ts us e i} : Derives (rank .suffix) ts e → Derives (rank .comma) us i →
      Derives (rank .suffix) (ts ++ openBracket :: us ++ [closeBracket]) (.binary e .index i)
  | call {ts f} {args : List (List Token × Expr)} : Derives (rank .suffix) ts f →
      (∀ a ∈ args, Derives (rank .assignment) a.1 a.2) →
      Derives (rank .suffix) (ts ++ openParen :: commas (args.map Prod.fst) ++ [closeParen])
        (.call f (args.map Prod.snd))
  | negative {digits : List Char} : digits.all Char.isDigit →
      Derives (rank .unary) [.negative digits] (.literal (-Nat.ofDigitChars 10 digits 0))
  | before {ts e op} : op.standsBefore → Derives (rank .unary) ts e →
      Derives (rank .unary) (op.token :: ts) (.unary op e)
  | cast {ts us ty e} : TypeName ts ty → Derives (rank .unary) us e →
      Derives (rank .unary) (openParen :: ts ++ closeParen :: us) (.cast ty e)
  | level {ts us l r op} : op.isLevel → Derives op.precedence.rank ts l →
      Derives (op.precedence.rank + 1) us r →
      Derives op.precedence.rank (ts ++ op.token :: us) (.binary l op r)
  | ternary {ts us vs c t e} : Derives (rank .logicalOr) ts c → Derives (rank .comma) us t →
      Derives (rank .ternary) vs e →
      Derives (rank .ternary) (ts ++ question :: us ++ colon :: vs) (.ternary c t e)
  | assign {ts us l r} : Derives (rank .ternary) ts l → Derives (rank .assignment) us r →
      Derives (rank .assignment) (ts ++ Operator.assign.token :: us) (.binary l .assign r)
  | augment {ts us l r op} : op.isAugmentable → Derives (rank .ternary) ts l →
      Derives (rank .assignment) us r →
      Derives (rank .assignment) (ts ++ op.assigning :: us) (.augAssign l op r)
  | tighter {k ts e} : Derives (k + 1) ts e → Derives k ts e

/-- The text is an expression, and this is it. -/
def Reads (text : String) (e : Expr) : Prop := Derives (rank .comma) (lex text.toList) e

theorem Derives.looser {j k : Nat} {ts : List Token} {e : Expr} (h : Derives k ts e)
    (hle : j ≤ k) : Derives j ts e := by
  induction k, hle using Nat.le_induction with
  | base => exact h
  | succ k _ ih => exact ih (.tighter h)

theorem derives_digits (n : Nat) : Derives primary [.number (Nat.toDigits 10 n)] (.literal n) := by
  have hd : Derives primary [.number (Nat.toDigits 10 n)] _ :=
    .number (List.all_eq_true.mpr Digits.isDigit_of_mem)
  rwa [Nat.ofDigitChars_ten_toDigits] at hd

end Grammar
end Arbor
