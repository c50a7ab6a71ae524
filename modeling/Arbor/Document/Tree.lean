import Arbor.Document.Node
import Arbor.Json.Writer
import Arbor.Tree.Basic
/-!
Trees in documents: the nodes in order and the count of generated names. Parent links are not
stored; they are rebuilt from the child slots.
-/
namespace Arbor
namespace Tree

def recordOf? : Json → Option Record
  | .array [nodes] => some [("nodes", nodes)]
  | j => Record.ofJson? ["nodes", "next_unique"] j

/-- The count is zero if it is missing, but it is never null. -/
def nextUniqueOf? (r : Record) : Option Nat :=
  match r.get? "next_unique" with
  | none => some 0
  | some j => j.natBelow? UInt32.size

/-- Reads a tree. Its own object and the array of nodes are nested around every node. -/
def ofJson? (form : FloatForm) (j : Json) : Option Tree := do
  let r ← recordOf? j
  let nodes ← r.required? "nodes" (Json.list? (Node.ofJson? form (Document.depthLimit - 2)))
  let nextUnique ← nextUniqueOf? r
  return .ofNodes nodes nextUnique

def toJson (form : FloatForm) (t : Tree) : Json :=
  .object [("nodes", .ofList (Node.toJson form) t.nodes), ("next_unique", .ofNat t.nextUnique)]

def serialize (t : Tree) : String := (t.toJson .numeral).write

def parse? (text : String) : Option Tree := do
  ofJson? .numeral (← Json.parse? text)

end Tree
end Arbor
