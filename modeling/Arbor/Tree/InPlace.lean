import Arbor.Tree.Edit
/-!
Edits of the tree that a pass holds.

They decide what the edits of `Tree` decide, but the tree is changed entry by entry: a slot is
looked up by its name once to be read and once more to be written, then the links are set one
after another. An edit that fails leaves the tree as it is at that moment.
-/
namespace Arbor
namespace TreeM

def look {α : Type} (f : Tree → Except TreeError α) : TreeM α := fun t =>
  match f t with
  | .ok a => .ok a t
  | .error e => .error e t

/-- Gives up, for a reason that is told with the tree. -/
def refuse {α : Type} (reason : Tree → TreeError) : TreeM α := fun t => .error (reason t) t

def setNode (id : NodeId) (node : Node) : TreeM Unit := fun t => .ok () (t.setNode id node)

def setParent (id : NodeId) (parent : Option NodeId) : TreeM Unit := fun t =>
  .ok () (t.setParent id parent)

def setParents (parent : Option NodeId) : List NodeId → TreeM Unit
  | [] => pure ()
  | id :: rest => do
    setParent id parent
    setParents parent rest

def changeSlot (id : NodeId) (field : String) (change : Slot → Slot) : TreeM Unit := do
  let (place, slot) ← look (·.slotOf id field)
  fun t => .ok () (t.fillSlot id place (change slot))

def mismatch {α : Type} (id : NodeId) (field : String) : TreeM α :=
  refuse fun t => .slotMismatch (t.kind id) id field

def setField (parent : NodeId) (field : String) (child : Option NodeId) :
    TreeM (Option NodeId) := do
  let (_, slot) ← look (·.slotOf parent field)
  let (old, isRequired) ←
    match slot with
    | .required id => pure (some id, true)
    | .optional id => pure (id, false)
    | .list _ => mismatch parent field
  if isRequired && child.isNone then
    mismatch parent field
  else
    match child with
    | some child => look (·.checkAttachable parent child old.toList)
    | none => pure ()
    changeSlot parent field fun slot =>
      match slot, child with
      | .required _, some child => .required child
      | .optional _, child => .optional child
      | slot, _ => slot
    setParents none old.toList
    setParents (some parent) child.toList
    return old

def setList (parent : NodeId) (field : String) (children : List NodeId) :
    TreeM (List NodeId) := do
  let (_, slot) ← look (·.slotOf parent field)
  let old ←
    match slot with
    | .list ids => pure ids
    | _ => mismatch parent field
  look (·.checkList parent old [] children)
  changeSlot parent field fun slot =>
    match slot with
    | .list _ => .list children
    | slot => slot
  setParents none old
  setParents (some parent) children
  return old

def fieldAt (id : NodeId) (place : Nat) : TreeM String := do
  let node ← look (·.node id)
  return ((node.slots.map Prod.fst)[place]?).getD ""

def replace (id new : NodeId) : TreeM Unit := do
  let l ← look (·.locate id)
  let field ← fieldAt l.parent l.place
  if new = id then
    return
  look (·.checkAttachable l.parent new [id])
  changeSlot l.parent field fun slot => { l with slot := slot }.exchanged new
  setParent id none
  setParent new (some l.parent)

def insertSibling (id new : NodeId) (offset : Nat) : TreeM Unit := do
  let l ← look (·.locate id)
  let field ← fieldAt l.parent l.place
  match l.position with
  | none => refuse fun t => .notInList (t.kind id) id
  | some position =>
    look (·.checkAttachable l.parent new [])
    changeSlot l.parent field fun slot =>
      match slot with
      | .list ids => .list (ids.insertIdx (position + offset) new)
      | slot => slot
    setParent new (some l.parent)

def insertBefore (id new : NodeId) : TreeM Unit := insertSibling id new 0

def insertAfter (id new : NodeId) : TreeM Unit := insertSibling id new 1

def setType (id : NodeId) (ty : CType) : TreeM Unit := do
  match ← look (·.node id) with
  | .symbol name none isConst => setNode id (.symbol name (some ty) isConst)
  | .symbol name (some existing) isConst =>
    if existing = ty then
      setNode id (.symbol name (some ty) isConst)
    else
      refuse fun _ => .retyped name id existing ty
  | .call func args _ => setNode id (.call func args (some ty))
  | .cast _ value => setNode id (.cast ty value)
  | other => refuse fun _ => .notTypeable other.kindName id

def copySymbol (id : NodeId) (declare : Bool) : TreeM NodeId := do
  match ← look (·.node id) with
  | .symbol name ty isConst =>
    add (.symbol name (if declare then ty else none) (declare && isConst))
  | other => refuse fun _ => .wrongKind "SymbolRef" other.kindName id

end TreeM
end Arbor
