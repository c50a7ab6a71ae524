import Arbor.Tree.Basic
/-!
When an expression needs parentheses.

The decision looks at the node, at the node its parent link names, and at the slot the node has
there. A looser class than the parent's needs them; the same class needs them on the side that
the associativity does not favour. Brackets of calls, subscripts and ternaries shield what is
inside, but a comma expression between commas is always enclosed.
-/
namespace Arbor

def Node.holdsBeforeLast (parent : Node) (id : NodeId) : Bool :=
  match parent with
  | .unary _ _ => true
  | .cast _ _ => true
  | .binary left _ _ => left == id
  | .augAssign target _ _ => target == id
  | .ternary _ _ elseValue => elseValue != id
  | _ => false

/-- Whether an operand of class `own` at `id` is enclosed under `parent`, by precedence alone. -/
def Node.enclosesOperand (parent : Node) (id : NodeId) (own : Precedence) : Bool :=
  match parent.precedence? with
  | none => false
  | some outer =>
    own < outer || (own = outer && outer.isLeftAssociative != parent.holdsBeforeLast id)

def Node.encloses (parent : Node) (id : NodeId) (own : Precedence) : Bool :=
  match parent with
  | .call func _ _ => if func = id then own < .suffix else own = .comma
  | .arrayDef _ _ body => own = .comma && body.contains id
  | .binary _ .index right => if right = id then false else parent.enclosesOperand id own
  | .ternary _ thenValue _ => if thenValue = id then false else parent.enclosesOperand id own
  | _ => parent.enclosesOperand id own

def Tree.needsParens (t : Tree) (id : NodeId) (node : Node) : Bool :=
  match node.precedence?, (t.parent? id).bind t.get? with
  | some own, some parent => parent.encloses id own
  | _, _ => false

end Arbor
