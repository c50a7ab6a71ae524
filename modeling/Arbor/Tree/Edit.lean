import Arbor.Table
import Arbor.Tree.Basic
/-!
Edits of a tree.

An edit that succeeds gives the new tree and keeps the parent links right; an edit that fails
gives the reason and no tree. `checkAttachable` guards every slot: a node may be put under a
holder when that closes no cycle and the node is held by nobody, or only from within what the
edit displaces.
-/
namespace Arbor

/-- A pass over a tree. What it did before an error stays done. -/
abbrev TreeM := EStateM TreeError Tree

namespace Tree

def slotNamed? (field : String) : List (String × Slot) → Nat → Option (Nat × Slot)
  | [], _ => none
  | (name, slot) :: rest, place =>
    if name = field then some (place, slot) else slotNamed? field rest (place + 1)

def slotOf (t : Tree) (id : NodeId) (field : String) : Except TreeError (Nat × Slot) := do
  let node ← t.node id
  match slotNamed? field node.slots 0 with
  | some found => .ok found
  | none => .error (.noSuchField (t.kind id) id field)

def fillSlot (t : Tree) (id : NodeId) (place : Nat) (slot : Slot) : Tree :=
  match t.get? id with
  | some node => t.setNode id (node.setSlot place slot)
  | none => t

/-- Whether a node held by `holder` is set free when the nodes `displaced` are. -/
def releasedBy (t : Tree) (child holder : NodeId) (displaced : List NodeId) : Bool :=
  displaced.contains child ||
    displaced.any fun d => holder == d || (t.ancestors holder).contains d

def checkAttachable (t : Tree) (holder child : NodeId) (displaced : List NodeId) :
    Except TreeError Unit := do
  let _ ← t.node child
  if child == holder || (t.ancestors holder).contains child then
    .error (.cycle (t.kind holder) holder child)
  else
    match t.parent? child with
    | none => .ok ()
    | some current =>
      if t.releasedBy child current displaced then .ok ()
      else .error (.alreadyAttached (t.kind child) child current)

/-- Assigns a slot that holds one node. Nothing clears an optional slot. Gives the displaced
child, which nobody holds any more. -/
def setField (t : Tree) (parent : NodeId) (field : String) (child : Option NodeId) :
    Except TreeError (Tree × Option NodeId) := do
  let (place, slot) ← t.slotOf parent field
  let mismatch := TreeError.slotMismatch (t.kind parent) parent field
  let (old, filled) ←
    match slot, child with
    | .required id, some child => .ok (some id, Slot.required child)
    | .required _, none => .error mismatch
    | .optional id, child => .ok (id, Slot.optional child)
    | .list _, _ => .error mismatch
  match child with
  | some child => t.checkAttachable parent child old.toList
  | none => .ok ()
  let t := t.fillSlot parent place filled
  let t := t.setParents old.toList none
  let t := t.setParents child.toList (some parent)
  return (t, old)

/-- The children of a new list are checked one by one, against those before them and the tree. -/
def checkList (t : Tree) (parent : NodeId) (old : List NodeId) :
    (before after : List NodeId) → Except TreeError Unit
  | _, [] => .ok ()
  | before, child :: rest => do
    if before.contains child then
      .error (.shared (t.kind child) child)
    else
      t.checkAttachable parent child old
      t.checkList parent old (child :: before) rest

def setList (t : Tree) (parent : NodeId) (field : String) (children : List NodeId) :
    Except TreeError (Tree × List NodeId) := do
  let (place, slot) ← t.slotOf parent field
  let old ←
    match slot with
    | .list ids => .ok ids
    | _ => .error (.slotMismatch (t.kind parent) parent field)
  t.checkList parent old [] children
  let t := t.fillSlot parent place (.list children)
  let t := t.setParents old none
  let t := t.setParents children (some parent)
  return (t, old)

structure Location where
  parent : NodeId
  place : Nat
  slot : Slot
  position : Option Nat
  deriving DecidableEq, Repr

def locateIn (id parent : NodeId) : List (String × Slot) → Nat → Option Location
  | [], _ => none
  | (_, slot) :: rest, place =>
    match slot with
    | .required child =>
      if child = id then some ⟨parent, place, slot, none⟩ else locateIn id parent rest (place + 1)
    | .optional child =>
      if child = some id then some ⟨parent, place, slot, none⟩
      else locateIn id parent rest (place + 1)
    | .list ids =>
      match ids.findIdx? (· == id) with
      | some position => some ⟨parent, place, slot, some position⟩
      | none => locateIn id parent rest (place + 1)

def locate (t : Tree) (id : NodeId) : Except TreeError Location := do
  let _ ← t.node id
  match t.parent? id with
  | none => .error (.noParent (t.kind id) id)
  | some parent =>
    let holder ← t.node parent
    match locateIn id parent holder.slots 0 with
    | some location => .ok location
    | none => .error (.parentMismatch (t.kind id) id)

def Location.exchanged (l : Location) (new : NodeId) : Slot :=
  match l.slot, l.position with
  | .required _, _ => .required new
  | .optional _, _ => .optional (some new)
  | .list ids, some position => .list (ids.set position new)
  | .list ids, none => .list ids

/-- Puts `new` where `id` is. Nobody holds `id` any more; `new` may come from below it. -/
def replace (t : Tree) (id new : NodeId) : Except TreeError Tree := do
  let l ← t.locate id
  if new = id then
    return t
  t.checkAttachable l.parent new [id]
  let t := t.fillSlot l.parent l.place (l.exchanged new)
  return (t.setParent id none).setParent new (some l.parent)

/-- Puts `new` into the list that holds `id`, `offset` places after it. -/
def insertSibling (t : Tree) (id new : NodeId) (offset : Nat) : Except TreeError Tree := do
  let l ← t.locate id
  match l.slot, l.position with
  | .list ids, some position =>
    t.checkAttachable l.parent new []
    let t := t.fillSlot l.parent l.place (.list (ids.insertIdx (position + offset) new))
    return t.setParent new (some l.parent)
  | _, _ => .error (.notInList (t.kind id) id)

def insertBefore (t : Tree) (id new : NodeId) : Except TreeError Tree := t.insertSibling id new 0

def insertAfter (t : Tree) (id new : NodeId) : Except TreeError Tree := t.insertSibling id new 1

/-- Annotates a symbol, a call or a cast. A symbol with another type is never retyped. -/
def setType (t : Tree) (id : NodeId) (ty : CType) : Except TreeError Tree := do
  match ← t.node id with
  | .symbol name none isConst => return t.setNode id (.symbol name (some ty) isConst)
  | .symbol name (some existing) _ =>
    if existing = ty then return t else .error (.retyped name id existing ty)
  | .call func args _ => return t.setNode id (.call func args (some ty))
  | .cast _ value => return t.setNode id (.cast ty value)
  | other => .error (.notTypeable other.kindName id)

def uniqueSymbol (t : Tree) (stem : String) (ty : Option CType) : Tree × NodeId :=
  let name := stem ++ "_" ++ toString t.nextUnique
  { t with nextUnique := t.nextUnique + 1 }.add (.symbol name ty false)

/-- Adds a copy of a symbol: with its type, so that it declares, or as a plain use. -/
def copySymbol (t : Tree) (id : NodeId) (declare : Bool) : Except TreeError (Tree × NodeId) := do
  match ← t.node id with
  | .symbol name ty isConst =>
    return t.add (.symbol name (if declare then ty else none) (declare && isConst))
  | other => .error (.wrongKind "SymbolRef" other.kindName id)

end Tree

namespace TreeM

def edit (f : Tree → Except TreeError Tree) : TreeM Unit := fun t =>
  match f t with
  | .ok t => .ok () t
  | .error e => .error e t

def node (id : NodeId) : TreeM Node := fun t =>
  match t.node id with
  | .ok node => .ok node t
  | .error e => .error e t

def add (node : Node) : TreeM NodeId := fun t =>
  let (t, id) := t.add node
  .ok id t

end TreeM

namespace Tree

/-- Copies each child once; the table says which copy stands for which child. -/
def copyEach (copy : NodeId → TreeM NodeId) :
    List NodeId → Table NodeId NodeId → TreeM (Table NodeId NodeId)
  | [], copies => pure copies
  | child :: rest, copies =>
    if copies.contains child then
      copyEach copy rest copies
    else do
      let c ← copy child
      copyEach copy rest (copies.set child c)

/-- Copies what is below a node, `depth` levels deep, children before their parent. -/
def copyTo : (depth : Nat) → NodeId → TreeM NodeId
  | 0, id => throw (.endless id)
  | depth + 1, id => do
    let node ← TreeM.node id
    let copies ← copyEach (copyTo depth) node.children []
    TreeM.add (node.mapChildren fun c => (copies.get? c).getD c)

def cloneSubtree (id : NodeId) : TreeM NodeId := fun t => copyTo (t.size + 1) id t

end Tree
end Arbor
