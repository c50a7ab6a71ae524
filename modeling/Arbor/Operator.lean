/-!
The operators of expressions, and their classes of precedence.

`cast` and `conditional` are never stored in a node; they stand for the operators that cast and
ternary expressions imply, so that these have a class too.
-/
namespace Arbor

inductive Operator where
  | postInc
  | postDec
  | dot
  | arrow
  | index
  | preInc
  | preDec
  | address
  | deref
  | sizeOf
  | plus
  | neg
  | not
  | bitNot
  | cast
  | mul
  | div
  | mod
  | add
  | sub
  | shl
  | shr
  | lt
  | le
  | gt
  | ge
  | eq
  | ne
  | bitAnd
  | bitXor
  | bitOr
  | and
  | or
  | conditional
  | assign
  | comma
  deriving DecidableEq, Repr

namespace Operator

def all : List Operator :=
  [.postInc, .postDec, .dot, .arrow, .index, .preInc, .preDec, .address, .deref, .sizeOf, .plus,
    .neg, .not, .bitNot, .cast, .mul, .div, .mod, .add, .sub, .shl, .shr, .lt, .le, .gt, .ge, .eq,
    .ne, .bitAnd, .bitXor, .bitOr, .and, .or, .conditional, .assign, .comma]

def spelling : Operator → String
  | .postInc | .preInc => "++"
  | .postDec | .preDec => "--"
  | .dot => "."
  | .arrow => "->"
  | .index => "[]"
  | .address => "&"
  | .deref => "*"
  | .sizeOf => "sizeof"
  | .plus => "+"
  | .neg => "-"
  | .not => "!"
  | .bitNot => "~"
  | .cast => "()"
  | .mul => "*"
  | .div => "/"
  | .mod => "%"
  | .add => "+"
  | .sub => "-"
  | .shl => "<<"
  | .shr => ">>"
  | .lt => "<"
  | .le => "<="
  | .gt => ">"
  | .ge => ">="
  | .eq => "=="
  | .ne => "!="
  | .bitAnd => "&"
  | .bitXor => "^"
  | .bitOr => "|"
  | .and => "&&"
  | .or => "||"
  | .conditional => "?:"
  | .assign => "="
  | .comma => ","

def name : Operator → String
  | .postInc => "PostInc"
  | .postDec => "PostDec"
  | .dot => "Dot"
  | .arrow => "Arrow"
  | .index => "ArrayRef"
  | .preInc => "PreInc"
  | .preDec => "PreDec"
  | .address => "Ref"
  | .deref => "Deref"
  | .sizeOf => "SizeOf"
  | .plus => "Plus"
  | .neg => "Neg"
  | .not => "Not"
  | .bitNot => "BitNot"
  | .cast => "Cast"
  | .mul => "Mul"
  | .div => "Div"
  | .mod => "Mod"
  | .add => "Add"
  | .sub => "Sub"
  | .shl => "BitShL"
  | .shr => "BitShR"
  | .lt => "Lt"
  | .le => "LtE"
  | .gt => "Gt"
  | .ge => "GtE"
  | .eq => "Eq"
  | .ne => "NotEq"
  | .bitAnd => "BitAnd"
  | .bitXor => "BitXor"
  | .bitOr => "BitOr"
  | .and => "And"
  | .or => "Or"
  | .conditional => "Conditional"
  | .assign => "Assign"
  | .comma => "Comma"

def ofName? (s : String) : Option Operator := all.find? (·.name == s)

def standsBefore : Operator → Bool
  | .preInc | .preDec | .address | .deref | .sizeOf | .plus | .neg | .not | .bitNot => true
  | _ => false

def standsAfter : Operator → Bool
  | .postInc | .postDec => true
  | _ => false

def isUnary (op : Operator) : Bool := op.standsBefore || op.standsAfter

def isBinary : Operator → Bool
  | .mul | .div | .mod | .add | .sub | .shl | .shr | .lt | .le | .gt | .ge | .eq | .ne | .bitAnd
  | .bitXor | .bitOr | .and | .or | .assign | .comma | .dot | .arrow | .index => true
  | _ => false

def isAugmentable : Operator → Bool
  | .add | .sub | .mul | .div | .mod | .bitAnd | .bitOr | .bitXor | .shl | .shr => true
  | _ => false

def isComparison : Operator → Bool
  | .lt | .le | .gt | .ge | .eq | .ne => true
  | _ => false

/-- Yields `int` whatever its operands are. -/
def isBoolean : Operator → Bool
  | .and | .or => true
  | op => op.isComparison

def isShift : Operator → Bool
  | .shl | .shr => true
  | _ => false

end Operator

inductive Associativity where
  | left
  | right
  deriving DecidableEq, Repr

/-- The classes of precedence, from the loosest to the tightest. -/
inductive Precedence where
  | comma
  | assignment
  | ternary
  | logicalOr
  | logicalAnd
  | bitOr
  | bitXor
  | bitAnd
  | equality
  | relational
  | shift
  | additive
  | multiplicative
  | unary
  | suffix
  deriving DecidableEq, Repr

namespace Precedence

def rank : Precedence → Nat
  | .comma => 0
  | .assignment => 1
  | .ternary => 2
  | .logicalOr => 3
  | .logicalAnd => 4
  | .bitOr => 5
  | .bitXor => 6
  | .bitAnd => 7
  | .equality => 8
  | .relational => 9
  | .shift => 10
  | .additive => 11
  | .multiplicative => 12
  | .unary => 13
  | .suffix => 14

instance : LT Precedence := ⟨fun a b => a.rank < b.rank⟩

instance (a b : Precedence) : Decidable (a < b) := inferInstanceAs (Decidable (a.rank < b.rank))

def associativity : Precedence → Associativity
  | .assignment | .ternary | .unary => .right
  | _ => .left

def isLeftAssociative (p : Precedence) : Bool := p.associativity = .left

def name : Precedence → String
  | .comma => "Comma"
  | .assignment => "Assignment"
  | .ternary => "Ternary"
  | .logicalOr => "LogicalOr"
  | .logicalAnd => "LogicalAnd"
  | .bitOr => "BitOr"
  | .bitXor => "BitXor"
  | .bitAnd => "BitAnd"
  | .equality => "Equality"
  | .relational => "Relational"
  | .shift => "Shift"
  | .additive => "Additive"
  | .multiplicative => "Multiplicative"
  | .unary => "Prefix"
  | .suffix => "Postfix"

end Precedence

def Operator.precedence : Operator → Precedence
  | .postInc | .postDec | .dot | .arrow | .index => .suffix
  | .preInc | .preDec | .address | .deref | .sizeOf | .plus | .neg | .not | .bitNot | .cast => .unary
  | .mul | .div | .mod => .multiplicative
  | .add | .sub => .additive
  | .shl | .shr => .shift
  | .lt | .le | .gt | .ge => .relational
  | .eq | .ne => .equality
  | .bitAnd => .bitAnd
  | .bitXor => .bitXor
  | .bitOr => .bitOr
  | .and => .logicalAnd
  | .or => .logicalOr
  | .conditional => .ternary
  | .assign => .assignment
  | .comma => .comma

end Arbor
