import Arbor.CType.Conversion
import Arbor.Registry
import Arbor.Tree.Basic
import Arbor.Typing.Scope
/-!
The static type of an expression, from literals, annotations and the bindings in scope. No type
means that it takes more context to know: an unbound name, an unknown callee, a member access.
-/
namespace Arbor

inductive InferError where
  | unboundSymbol (name : String)
  | uninferable (name : String) (id : NodeId)
  | registry (error : RegistryError)
  | tree (error : TreeError)
  deriving DecidableEq, Repr

def InferError.message : InferError → String
  | .unboundSymbol name => "symbol `" ++ name ++ "` is read before any assignment gives it a type"
  | .uninferable name id =>
    "cannot infer a type for `" ++ name ++ "` (" ++ showId id ++ ") from its first assignment"
  | .registry error => error.message
  | .tree error => error.message

structure Typer where
  tree : Tree
  registry : TypeRegistry
  scopes : Scopes

namespace Typer

abbrev Result := Except InferError (Option CType)

def node (y : Typer) (id : NodeId) : Except InferError Node :=
  match y.tree.node id with
  | .ok node => .ok node
  | .error e => .error (.tree e)

def recognize (y : Typer) (value : Value) : Result :=
  match y.registry.recognize (.constant value) with
  | .ok ty => .ok (some ty)
  | .error e => .error (.registry e)

/-- What a callee gives when it is a bound name. -/
def calleeType? (y : Typer) (func : NodeId) : Option CType :=
  ((y.tree.get? func).bind Node.symbolName?).bind y.scopes.lookup?

def unaryType? (op : Operator) (arg : Option CType) : Option CType :=
  match op with
  | .not => some (.scalar .int)
  | .sizeOf => some (.scalar .ulong)
  | .address => arg.map .pointer
  | .deref => arg.bind CType.pointee?
  | _ => arg

/-- The type of an operation on two known types. -/
def operationType? (op : Operator) (l r : CType) : Option CType :=
  match op with
  | .index => l.pointee?
  | .shl | .shr => some l.promote
  | .add =>
    if l.isPointer && r.isInteger then some l
    else if r.isPointer && l.isInteger then some r
    else l.common? r
  | .sub =>
    if l.isPointer && r.isInteger then some l
    else if l.isPointer && r.isPointer then some (.scalar .long)
    else l.common? r
  | _ => l.common? r

def armsType? : Option CType → Option CType → Option CType
  | some t, some e => (t.common? e).or (some t)
  | t, e => t.or e

def binaryType (typeOf : NodeId → Result) (left : NodeId) (op : Operator) (right : NodeId) :
    Result := do
  if op.isBoolean then
    return some (.scalar .int)
  match op with
  | .assign => typeOf left
  | .comma => typeOf right
  | .dot | .arrow => return none
  | _ =>
    let l ← typeOf left
    let r ← typeOf right
    match l, r with
    | some l, some r => return operationType? op l r
    | _, _ => return none

def nodeType (y : Typer) (typeOf : NodeId → Result) (node : Node) : Result := do
  match node with
  | .constant value => y.recognize value
  | .string _ => return some (.pointer (.scalar .char))
  | .symbol name ty _ => return ty.or (y.scopes.lookup? name)
  | .cast ty _ => return some ty
  | .call func _ ty => return ty.or (y.calleeType? func)
  | .unary op arg => return unaryType? op (← typeOf arg)
  | .binary left op right => binaryType typeOf left op right
  | .augAssign target _ _ => typeOf target
  | .ternary _ thenValue elseValue =>
    let t ← typeOf thenValue
    let e ← typeOf elseValue
    return armsType? t e
  | _ => return none

def typeTo (y : Typer) : (depth : Nat) → NodeId → Result
  | 0, id => .error (.tree (.endless id))
  | depth + 1, id => do
    let node ← y.node id
    y.nodeType (y.typeTo depth) node

def typeOf (y : Typer) (id : NodeId) : Result := y.typeTo (y.tree.size + 1) id

end Typer
end Arbor
