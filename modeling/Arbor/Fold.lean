import Arbor.Tree.Edit
/-!
Constant folding.

Operations on two literals are replaced by their value where C gives the same literal, and the
identities of addition, subtraction and multiplication are applied when one side is a literal
zero or one. The tree is changed in place, children first.
-/
namespace Arbor
namespace Fold

def int64? (n : Int) : Option Int64 :=
  if Int64.minValue.toInt ≤ n ∧ n ≤ Int64.maxValue.toInt then some (Int64.ofInt n) else none

def uint64? (n : Int) : Option UInt64 :=
  if 0 ≤ n ∧ n < UInt64.size then some (UInt64.ofNat n.toNat) else none

def arithmetic? (op : Operator) (a b : Int) : Option Int :=
  match op with
  | .add => some (a + b)
  | .sub => some (a - b)
  | .mul => some (a * b)
  | .div => if b = 0 then none else some (a.tdiv b)
  | .mod => if b = 0 then none else some (a.tmod b)
  | _ => none

/-- Signed words have no remainder where their quotient does not fit. -/
def signed? (op : Operator) (a b : Int64) : Option Int64 :=
  if op = .mod ∧ a = Int64.minValue ∧ b = -1 then none
  else (arithmetic? op a.toInt b.toInt).bind int64?

def unsigned? (op : Operator) (a b : UInt64) : Option UInt64 :=
  (arithmetic? op (Int.ofNat a.toNat) (Int.ofNat b.toNat)).bind uint64?

def floating? (op : Operator) (a b : Binary64) : Option Binary64 :=
  match op with
  | .add => some (a.add b)
  | .sub => some (a.sub b)
  | .mul => some (a.mul b)
  | .div => if b.isZero then none else some (a.div b)
  | _ => none

/-- A signed or floating literal; the others are not mixed with floating ones. -/
def isSignedOrFloating : Value → Bool
  | .int _ => true
  | .float _ => true
  | .double _ => true
  | _ => false

/-- The order of two literals where the conversions of C keep both values. -/
def order? : Value → Value → Option Ordering
  | .int a, .int b => some (compare a.toInt b.toInt)
  | .uint a, .uint b => some (compare a.toNat b.toNat)
  | a, b =>
    if (a.isFloating || b.isFloating) && isSignedOrFloating a && isSignedOrFloating b then
      a.toBinary64.compare? b.toBinary64
    else none

def holds (op : Operator) (o : Ordering) : Bool :=
  match op with
  | .lt => o.isLT
  | .le => o.isLE
  | .gt => o.isGT
  | .ge => o.isGE
  | .eq => o.isEq
  | .ne => o.isNe
  | _ => false

/-- The value of an operation on two literals; nothing on overflow, division by zero or mixed
signedness. -/
def evaluate? (l : Value) (op : Operator) (r : Value) : Option Value :=
  if op.isComparison then
    (order? l r).map fun o => .int (if holds op o then 1 else 0)
  else
    match l, r with
    | .int a, .int b => (signed? op a b).map .int
    | .uint a, .uint b => (unsigned? op a b).map .uint
    | .float a, .float b => (floating? op a.widen b.widen).map fun v => .float v.narrow
    | l, r =>
      if (l.isFloating || r.isFloating) && isSignedOrFloating l && isSignedOrFloating r then
        (floating? op l.toBinary64 r.toBinary64).map .double
      else none

def literal? (t : Tree) (id : NodeId) : Option Value :=
  match t.get? id with
  | some (.constant value) => some value
  | _ => none

inductive Outcome where
  | keep
  | literal (value : Value)
  | operand (id : NodeId)
  | negated (id : NodeId)
  deriving DecidableEq, Repr

/-- The identities, when at most one side is a literal. -/
def identity (l r : Option Value) (left : NodeId) (op : Operator) (right : NodeId) : Outcome :=
  let isZero (v : Option Value) : Bool := v.any Value.isZero
  let isOne (v : Option Value) : Bool := v.any Value.isOne
  match op with
  | .add => if isZero l then .operand right else if isZero r then .operand left else .keep
  | .sub => if isZero r then .operand left else if isZero l then .negated right else .keep
  | .mul =>
    if isOne l then .operand right
    else if isOne r then .operand left
    else if isZero l then .operand left
    else if isZero r then .operand right
    else .keep
  | _ => .keep

def outcomeOf (l r : Option Value) (left : NodeId) (op : Operator) (right : NodeId) : Outcome :=
  match l, r with
  | some l, some r =>
    match evaluate? l op r with
    | some value => .literal value
    | none => .keep
  | l, r => identity l r left op right

def outcome (t : Tree) (left : NodeId) (op : Operator) (right : NodeId) : Outcome :=
  outcomeOf (literal? t left) (literal? t right) left op right

def substitute? (left : NodeId) (op : Operator) (right : NodeId) : TreeM (Option NodeId) := fun t =>
  match outcome t left op right with
  | .keep => .ok none t
  | .operand id => .ok (some id) t
  | .literal value =>
    let (t, id) := t.add (.constant value)
    .ok (some id) t
  | .negated id =>
    let (t, id) := t.add (.unary .neg id)
    .ok (some id) t

/-- Puts a substitute in the place of `root`. A root that nobody holds gives way to a copy of
its surviving operand. -/
def settle (root substitute : NodeId) : TreeM NodeId := do
  let t ← get
  if (t.parent? root).isSome then
    TreeM.edit (·.replace root substitute)
    return substitute
  else if t.parent? substitute = some root then
    Tree.cloneSubtree substitute
  else
    return substitute

def foldEach (fold : NodeId → TreeM NodeId) : List NodeId → TreeM Unit
  | [] => pure ()
  | id :: rest => do
    let _ ← fold id
    foldEach fold rest

def foldTo : (depth : Nat) → NodeId → TreeM NodeId
  | 0, id => throw (.endless id)
  | depth + 1, root => do
    let node ← TreeM.node root
    foldEach (foldTo depth) node.children
    match ← TreeM.node root with
    | .binary left op right =>
      match ← substitute? left op right with
      | none => return root
      | some substitute => settle root substitute
    | _ => return root

def fold (root : NodeId) : TreeM NodeId := fun t => foldTo (t.size + 1) root t

end Fold
end Arbor
