import Arbor.Tree.Builder
import Arbor.Tree.Edit
import Arbor.Tree.Walk
import Arbor.Typing.Infer
/-!
Filling in declarations.

Only function signatures need to carry types. This pass visits a tree in order and gives every
local the type of its first assignment, at the symbol that the assignment stores to, so that it
renders as a declaration. The first binding of a name stands; later assignments never retype it.
-/
namespace Arbor

structure Filling where
  tree : Tree
  scopes : Scopes
  deriving DecidableEq, Repr

/-- What was annotated or bound before an error stays so. -/
abbrev FillM := EStateM InferError Filling

namespace FillM

def node (id : NodeId) : FillM Node := fun s =>
  match s.tree.node id with
  | .ok node => .ok node s
  | .error e => .error (.tree e) s

def bind (name : String) (ty : CType) : FillM Unit := fun s =>
  .ok () { s with scopes := (s.scopes.bind name ty).1 }

def lookup? (name : String) : FillM (Option CType) := fun s => .ok (s.scopes.lookup? name) s

def annotate (id : NodeId) (ty : CType) : FillM Unit := fun s =>
  match s.tree.setType id ty with
  | .ok tree => .ok () { s with tree := tree }
  | .error e => .error (.tree e) s

/-- Runs in a scope of its own, which is left whatever happens. -/
def inScope (m : FillM Unit) : FillM Unit := fun s =>
  match m { s with scopes := s.scopes.push } with
  | .ok () s => .ok () { s with scopes := s.scopes.pop }
  | .error e s => .error e { s with scopes := s.scopes.pop }

def typeOf (registry : TypeRegistry) (id : NodeId) : FillM (Option CType) := fun s =>
  match Typer.typeOf ⟨s.tree, registry, s.scopes⟩ id with
  | .ok ty => .ok ty s
  | .error e => .error e s

end FillM

namespace Filling

def polymorphic : List String := ["fmax", "fmin"]

def untemporary? (name : String) : Option String :=
  if Builder.tempStem.toList.isPrefixOf name.toList then
    some (String.ofList (name.toList.drop Builder.tempStem.toList.length))
  else none

/-- Whether a node is the callee of the call that its parent link names. -/
def isCallee (t : Tree) (id : NodeId) : Bool :=
  match (t.parent? id).bind t.get? with
  | some (.call func _ _) => func == id
  | _ => false

/-- An untyped symbol that is read, is no temporary, and is bound nowhere. -/
def isUnboundRead (s : Filling) (id : NodeId) : Bool :=
  match s.tree.get? id with
  | some (.symbol name none _) =>
    !isCallee s.tree id && (untemporary? name).isNone && !s.scopes.isBound name
  | _ => false

/-- Why an assignment gives its target no type: the first unbound name that is read, else the
assignment itself. -/
def explain (s : Filling) (name : String) (left right : NodeId) : InferError :=
  let unbound := s.tree.first? right s.isUnboundRead
  match unbound.bind fun id => (s.tree.get? id).bind Node.symbolName? with
  | some unbound => .unboundSymbol unbound
  | none => .uninferable name left

/-- The type a call takes from its callee, or from its first argument. -/
def callType (registry : TypeRegistry) (func : NodeId) (args : List NodeId) :
    FillM (Option CType) := do
  match (← FillM.node func).symbolName? with
  | none => return none
  | some name =>
    match ← FillM.lookup? name, args with
    | some ty, _ => return some ty
    | none, first :: _ =>
      if polymorphic.contains name then FillM.typeOf registry first else return none
    | none, [] => return none

/-- The type of a new local. A temporary has the type of the name it stands for, if that is
bound. -/
def localType (registry : TypeRegistry) (name : String) (right : NodeId) :
    FillM (Option CType) := fun s =>
  match (untemporary? name).bind s.scopes.lookup? with
  | some ty => .ok (some ty) s
  | none => FillM.typeOf registry right s

/-- Declares the target of an assignment if it is an untyped name that nothing binds. -/
def declareTarget (registry : TypeRegistry) (left right : NodeId) : FillM Unit := do
  match ← FillM.node left with
  | .symbol name none _ =>
    match ← FillM.lookup? name with
    | some _ => return
    | none =>
      match ← localType registry name right with
      | some ty =>
        FillM.annotate left ty
        FillM.bind name ty
      | none =>
        let s ← get
        throw (s.explain name left right)
  | _ => return

def visitEach (visit : NodeId → FillM Unit) : List NodeId → FillM Unit
  | [] => pure ()
  | id :: rest => do
    visit id
    visitEach visit rest

/-- What a visit to a node does, given how its children are visited. The name of a function is
bound before its own scope is entered, so that it can call itself; callees are not visited. -/
def visitNode (registry : TypeRegistry) (visit : NodeId → FillM Unit) (id : NodeId) (node : Node) :
    FillM Unit := do
  match node with
  | .function returnType name params defn _ _ =>
    FillM.bind name returnType
    FillM.inScope (visitEach visit (params ++ defn.toList))
  | .symbol name (some ty) _ => FillM.bind name ty
  | .call func args none =>
    visitEach visit args
    match ← callType registry func args with
    | some ty => FillM.annotate id ty
    | none => return
  | .call _ args (some _) => visitEach visit args
  | .binary left .assign right =>
    visit left
    visit right
    declareTarget registry left right
  | _ => visitEach visit node.children

def visitTo (registry : TypeRegistry) : (depth : Nat) → NodeId → FillM Unit
  | 0, id => throw (.tree (.endless id))
  | depth + 1, id => do
    let node ← FillM.node id
    visitNode registry (visitTo registry depth) id node

/-- Fills the declarations under `root`. Names bound at the top stay bound for later roots. -/
def fill (registry : TypeRegistry) (root : NodeId) : FillM Unit := fun s =>
  visitTo registry (s.tree.size + 1) root s

def start (t : Tree) : Filling := ⟨t, .empty⟩

end Filling
end Arbor
