import Arbor.Tree.Basic
/-!
The check that a tree is well formed under a root: every id resolves, no node is reached twice,
parent links name the holder, operators suit their nodes, operands are expressions, parameters
are symbols, and projects and files stand where they belong.
-/
namespace Arbor
namespace Tree

def expectExpression (t : Tree) (id : NodeId) : Except TreeError Unit := do
  let node ← t.node id
  if node.isExpression || node.isCustom then .ok ()
  else .error (.wrongKind "expression" node.kindName id)

def checkEach (check : NodeId → Except TreeError Unit) : List NodeId → Except TreeError Unit
  | [] => .ok ()
  | id :: rest => do
    check id
    checkEach check rest

def expectFile (t : Tree) (id : NodeId) : Except TreeError Unit := do
  let node ← t.node id
  if node.isFile then .ok () else .error (.wrongKind "File" node.kindName id)

def expectSymbol (t : Tree) (id : NodeId) : Except TreeError Unit := do
  let node ← t.node id
  if node.isSymbol then .ok () else .error (.wrongKind "SymbolRef" node.kindName id)

def underProject (t : Tree) (id : NodeId) : Bool :=
  ((t.parent? id).bind t.get?).any Node.isProject

def expectNoProject (t : Tree) (id : NodeId) : Except TreeError Unit :=
  match t.get? id with
  | some (.project files) => .error (.misplaced (Node.project files).kindName id)
  | _ => .ok ()

def checkOperands (t : Tree) (id : NodeId) (node : Node) : Except TreeError Unit := do
  let expect (valid : Bool) (op : Operator) : Except TreeError Unit :=
    if valid then .ok () else .error (.invalidOperator op node.kindName id)
  match node with
  | .unary op arg =>
    expect op.isUnary op
    t.expectExpression arg
  | .binary left op right =>
    expect op.isBinary op
    checkEach t.expectExpression [left, right]
  | .augAssign target op value =>
    expect op.isAugmentable op
    checkEach t.expectExpression [target, value]
  | .ternary cond thenValue elseValue => checkEach t.expectExpression [cond, thenValue, elseValue]
  | .cast _ value => t.expectExpression value
  | .call func args _ => checkEach t.expectExpression (func :: args)
  | .function _ _ params _ _ _ => checkEach t.expectSymbol params
  | _ => .ok ()

def checkNode (t : Tree) (root id : NodeId) (node : Node) : Except TreeError Unit := do
  match node with
  | .project files =>
    if id = root then checkEach t.expectFile files else .error (.misplaced node.kindName id)
  | .file _ _ =>
    if id = root || t.underProject id then .ok () else .error (.misplaced node.kindName id)
  | _ => t.checkOperands id node
  if id = root then .ok () else checkEach t.expectNoProject node.children

def checkChild (t : Tree) (holder child : NodeId) : Except TreeError Unit := do
  let _ ← t.node child
  if t.parent? child = some holder then .ok ()
  else .error (.parentMismatch (t.kind child) child)

/-- Visits the ids of a stack and all below them, each at most once. A visit to more nodes than
the tree has would meet one again, so `count` above the size never runs out. -/
def checkReachable (t : Tree) (root : NodeId) :
    (count : Nat) → (seen stack : List NodeId) → Except TreeError Unit
  | _, _, [] => .ok ()
  | 0, _, id :: _ => .error (.shared (t.kind id) id)
  | count + 1, seen, id :: stack => do
    if seen.contains id then
      .error (.shared (t.kind id) id)
    else
      let node ← t.node id
      t.checkNode root id node
      checkEach (t.checkChild id) node.children
      t.checkReachable root count (id :: seen) (node.children.reverse ++ stack)

def validate (t : Tree) (root : NodeId) : Except TreeError Unit := do
  let _ ← t.node root
  t.checkReachable root (t.size + 1) [] [root]

end Tree
end Arbor
