import Arbor.Tree.Basic
/-!
Walking a tree from a node downwards, children in the order of their slots.

`walk` is the pre-order as an iterator yields it, from a stack of ids still to be visited;
`preorder` is the same by recursion. Ids that do not resolve are skipped. A tree may share nodes
and even lead back to itself, so every walk is bounded: by a number of ids, or by `walkBound`,
which no walk over an acyclic tree reaches.
-/
namespace Arbor
namespace Tree

def nextOf (t : Tree) : List NodeId → Option (NodeId × List NodeId)
  | [] => none
  | id :: rest =>
    match t.get? id with
    | some node => some (id, node.children ++ rest)
    | none => t.nextOf rest

def walkUpTo (t : Tree) : (count : Nat) → List NodeId → List NodeId
  | 0, _ => []
  | count + 1, stack =>
    match t.nextOf stack with
    | none => []
    | some (id, stack) => id :: t.walkUpTo count stack

def breadth (t : Tree) : Nat :=
  t.entries.foldl (fun widest e => max widest e.node.children.length) 0

/-- More ids than a walk over an acyclic tree yields: no path is longer than the tree, and no
node has more children than `breadth`. -/
def walkBound (t : Tree) : Nat := Nat.pow (t.breadth + 1) (t.size + 1)

def walk (t : Tree) (root : NodeId) : List NodeId := t.walkUpTo t.walkBound [root]

/-- The first `limit` ids of a walk of at most `steps` ids that satisfy `p`. The walk goes on only
as long as there is something to find. -/
def findUpTo (t : Tree) (p : NodeId → Bool) : (steps limit : Nat) → List NodeId → List NodeId
  | 0, _, _ => []
  | _ + 1, 0, _ => []
  | steps + 1, limit + 1, stack =>
    match t.nextOf stack with
    | none => []
    | some (id, stack) =>
      if p id then id :: t.findUpTo p steps limit stack
      else t.findUpTo p steps (limit + 1) stack

def findAll (t : Tree) (root : NodeId) (p : Node → Bool) (limit : Nat) : List NodeId :=
  t.findUpTo (fun id => (t.get? id).any p) ((limit + 1) * t.walkBound) limit [root]

def first? (t : Tree) (root : NodeId) (p : NodeId → Bool) : Option NodeId :=
  (t.findUpTo p (2 * t.walkBound) 1 [root]).head?

def find? (t : Tree) (root : NodeId) (p : Node → Bool) : Option NodeId :=
  t.first? root fun id => (t.get? id).any p

/-- The pre-order by recursion, `depth` levels deep. -/
def preorderTo (t : Tree) : (depth : Nat) → NodeId → List NodeId
  | 0, _ => []
  | depth + 1, id =>
    match t.get? id with
    | none => []
    | some node => id :: node.children.flatMap (t.preorderTo depth)

def preorder (t : Tree) (root : NodeId) : List NodeId := t.preorderTo (t.size + 1) root

end Tree
end Arbor
