import Arbor.Node
/-!
Code trees as arenas.

A tree owns its nodes in a row; an id is a position in it. Every entry keeps a link to the node
that holds it. Nodes are never taken out: what is replaced stays in the arena, out of reach.
The links are maintained by the edits and can be computed again with `fixParents`.

`get?` and `parent?` are the views; an operation is described by what it does to them.
-/
namespace Arbor

structure Entry where
  node : Node
  parent : Option NodeId
  deriving DecidableEq, Repr

structure Tree where
  entries : Array Entry
  /-- The number the next fresh symbol gets. -/
  nextUnique : Nat
  deriving DecidableEq, Repr

inductive TreeError where
  | unknownNode (id : NodeId)
  | noParent (kind : String) (id : NodeId)
  | notInList (kind : String) (id : NodeId)
  | noSuchField (kind : String) (id : NodeId) (field : String)
  | slotMismatch (kind : String) (id : NodeId) (field : String)
  | cycle (kind : String) (id child : NodeId)
  | alreadyAttached (kind : String) (id parent : NodeId)
  | wrongKind (expected : String) (kind : String) (id : NodeId)
  | notTypeable (kind : String) (id : NodeId)
  | retyped (name : String) (id : NodeId) (before after : CType)
  | shared (kind : String) (id : NodeId)
  | parentMismatch (kind : String) (id : NodeId)
  | invalidOperator (op : Operator) (kind : String) (id : NodeId)
  | misplaced (kind : String) (id : NodeId)
  /-- The child slots below the node lead back to it. -/
  | endless (id : NodeId)
  deriving DecidableEq, Repr

def showId (id : NodeId) : String := "#" ++ toString id

def TreeError.message : TreeError → String
  | .unknownNode id => "node " ++ showId id ++ " does not exist in this tree"
  | .noParent kind id => kind ++ " " ++ showId id ++ " has no parent"
  | .notInList kind id => kind ++ " " ++ showId id ++ " does not occupy a list slot"
  | .noSuchField kind id field => kind ++ " " ++ showId id ++ " has no child slot `" ++ field ++ "`"
  | .slotMismatch kind id field =>
    "slot `" ++ field ++ "` of " ++ kind ++ " " ++ showId id ++ " cannot hold that value"
  | .cycle kind id child =>
    "assigning " ++ showId child ++ " under " ++ kind ++ " " ++ showId id ++ " would create a cycle"
  | .alreadyAttached kind id parent =>
    kind ++ " " ++ showId id ++ " is already held by " ++ showId parent
  | .wrongKind expected kind id => "expected " ++ expected ++ ", found " ++ kind ++ " " ++ showId id
  | .notTypeable kind id => kind ++ " " ++ showId id ++ " carries no type annotation"
  | .retyped name id before after =>
    "symbol `" ++ name ++ "` (" ++ showId id ++ ") is declared `" ++ before.display ++
      "`; refusing to retype it as `" ++ after.display ++ "`"
  | .shared kind id => kind ++ " " ++ showId id ++ " is reachable more than once"
  | .parentMismatch kind id => kind ++ " " ++ showId id ++ " has a stale parent reference"
  | .invalidOperator op kind id =>
    "operator `" ++ op.spelling ++ "` is not valid on " ++ kind ++ " " ++ showId id
  | .misplaced kind id => kind ++ " " ++ showId id ++ " cannot appear at this position"
  | .endless id => "node " ++ showId id ++ " lies on a cycle of child slots"

namespace Tree

def empty : Tree := ⟨#[], 0⟩

def size (t : Tree) : Nat := t.entries.size

def get? (t : Tree) (id : NodeId) : Option Node := t.entries[id]?.map Entry.node

def parent? (t : Tree) (id : NodeId) : Option NodeId := t.entries[id]?.bind Entry.parent

def node (t : Tree) (id : NodeId) : Except TreeError Node :=
  match t.get? id with
  | some node => .ok node
  | none => .error (.unknownNode id)

def kind (t : Tree) (id : NodeId) : String :=
  match t.get? id with
  | some node => node.kindName
  | none => "<unknown>"

def childrenOf (t : Tree) (id : NodeId) : List NodeId :=
  match t.get? id with
  | some node => node.children
  | none => []

/-- Ids that do not resolve are passed over. -/
def setParent (t : Tree) (id : NodeId) (parent : Option NodeId) : Tree :=
  { t with entries := t.entries.modify id fun e => { e with parent := parent } }

def setNode (t : Tree) (id : NodeId) (node : Node) : Tree :=
  { t with entries := t.entries.modify id fun e => { e with node := node } }

def setParents (t : Tree) (ids : List NodeId) (parent : Option NodeId) : Tree :=
  ids.foldl (fun t id => t.setParent id parent) t

/-- Adds a node and makes it the parent of its children. Children that another node still holds
stay there too; the tree is then shared, which the well-formedness check reports. -/
def add (t : Tree) (node : Node) : Tree × NodeId :=
  let id := t.size
  let t := t.setParents node.children (some id)
  ({ t with entries := t.entries.push ⟨node, none⟩ }, id)

def ancestorsUpTo (t : Tree) : Nat → NodeId → List NodeId
  | 0, _ => []
  | count + 1, id =>
    match t.parent? id with
    | none => []
    | some p => p :: t.ancestorsUpTo count p

/-- The chain of parents, cut after as many as the tree has nodes. -/
def ancestors (t : Tree) (id : NodeId) : List NodeId := t.ancestorsUpTo t.size id

def root (t : Tree) (id : NodeId) : NodeId := (t.ancestors id).getLast?.getD id

def enclosing? (t : Tree) (id : NodeId) (p : Node → Bool) : Option NodeId :=
  (t.ancestors id).find? fun a => (t.get? a).any p

def fixParents (t : Tree) : Tree :=
  let cleared : Tree := { t with entries := t.entries.map fun e => { e with parent := none } }
  (List.range t.size).foldl (fun acc id => acc.setParents (t.childrenOf id) (some id)) cleared

def ofNodes (nodes : List Node) (nextUnique : Nat) : Tree :=
  fixParents ⟨(nodes.map fun node => ⟨node, none⟩).toArray, nextUnique⟩

def nodes (t : Tree) : List Node := t.entries.toList.map Entry.node

@[simp] theorem size_setParent (t : Tree) (id : NodeId) (p : Option NodeId) :
    (t.setParent id p).size = t.size := by
  simp [setParent, size]

@[simp] theorem size_setNode (t : Tree) (id : NodeId) (n : Node) : (t.setNode id n).size = t.size := by
  simp [setNode, size]

@[simp] theorem get?_setParent (t : Tree) (id other : NodeId) (p : Option NodeId) :
    (t.setParent id p).get? other = t.get? other := by
  simp only [get?, setParent, Array.getElem?_modify]
  split
  · simp [Option.map_map, Function.comp_def]
  · rfl

@[simp] theorem parent?_setNode (t : Tree) (id other : NodeId) (n : Node) :
    (t.setNode id n).parent? other = t.parent? other := by
  simp only [parent?, setNode, Array.getElem?_modify]
  split
  · cases t.entries[other]? <;> rfl
  · rfl

theorem parent?_setParent (t : Tree) (id other : NodeId) (p : Option NodeId) :
    (t.setParent id p).parent? other =
      if other = id ∧ id < t.size then p else t.parent? other := by
  simp only [parent?, setParent, Array.getElem?_modify, size]
  by_cases h : id = other
  · subst h
    by_cases hs : id < t.entries.size
    · simp [hs]
    · simp [hs]
  · simp [h, Ne.symm h]

theorem get?_setNode (t : Tree) (id other : NodeId) (n : Node) :
    (t.setNode id n).get? other = if other = id ∧ id < t.size then some n else t.get? other := by
  simp only [get?, setNode, Array.getElem?_modify, size]
  by_cases h : id = other
  · subst h
    by_cases hs : id < t.entries.size
    · simp [hs]
    · simp [hs]
  · simp [h, Ne.symm h]

end Tree
end Arbor
