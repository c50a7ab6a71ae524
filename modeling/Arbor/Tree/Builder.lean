import Arbor.Tree.Basic
/-!
Building trees from the leaves up. Each builder adds one node, with the leaves or blocks it
needs, and gives its id.
-/
namespace Arbor

abbrev Builder := StateM Tree

namespace Builder

def tempStem : String := "____temp__"

def add (node : Node) : Builder NodeId := fun t =>
  let (t, id) := t.add node
  (id, t)

def symbol (name : String) : Builder NodeId := add (.symbol name none false)

def typedSymbol (name : String) (ty : CType) : Builder NodeId := add (.symbol name (some ty) false)

def constant (value : Value) : Builder NodeId := add (.constant value)

def string (value : String) : Builder NodeId := add (.string value)

def unary (op : Operator) (arg : NodeId) : Builder NodeId := add (.unary op arg)

def binary (left : NodeId) (op : Operator) (right : NodeId) : Builder NodeId :=
  add (.binary left op right)

def assign (left right : NodeId) : Builder NodeId := binary left .assign right

def augAssign (target : NodeId) (op : Operator) (value : NodeId) : Builder NodeId :=
  add (.augAssign target op value)

def ternary (cond thenValue elseValue : NodeId) : Builder NodeId :=
  add (.ternary cond thenValue elseValue)

def cast (ty : CType) (value : NodeId) : Builder NodeId := add (.cast ty value)

def call (name : String) (args : List NodeId) : Builder NodeId := do
  let func ← symbol name
  add (.call func args none)

def block (body : List NodeId) : Builder NodeId := add (.block body)

def ret (value : Option NodeId) : Builder NodeId := add (.ret value)

def ifThen (cond : NodeId) (thenBody : List NodeId) (elseBody : Option (List NodeId)) :
    Builder NodeId := do
  let thenBlock ← block thenBody
  match elseBody with
  | none => add (.branch cond thenBlock none)
  | some body =>
    let elseBlock ← block body
    add (.branch cond thenBlock (some elseBlock))

def whileLoop (cond : NodeId) (body : List NodeId) : Builder NodeId := do
  let body ← block body
  add (.whileLoop cond body)

def forLoop (init test incr : Option NodeId) (body : List NodeId) : Builder NodeId := do
  let body ← block body
  add (.forLoop init test incr body)

def typedSymbols : List (String × CType) → Builder (List NodeId)
  | [] => pure []
  | (name, ty) :: rest => do
    let id ← typedSymbol name ty
    let ids ← typedSymbols rest
    return id :: ids

def function (returnType : CType) (name : String) (params : List (String × CType))
    (body : List NodeId) : Builder NodeId := do
  let params ← typedSymbols params
  let defn ← block body
  add (.function returnType name params (some defn) false false)

def file (name : String) (body : List NodeId) : Builder NodeId := add (.file name body)

def project (files : List NodeId) : Builder NodeId := add (.project files)

def rotations : List (String × NodeId) → Builder (List NodeId × List NodeId)
  | [] => pure ([], [])
  | (target, value) :: rest => do
    let temp ← symbol (tempStem ++ target)
    let store ← assign temp value
    let dest ← symbol target
    let temp ← symbol (tempStem ++ target)
    let load ← assign dest temp
    let (stores, loads) ← rotations rest
    return (store :: stores, load :: loads)

/-- The statements of `a, b = x, y`: every value goes to a temporary before any target is
assigned. -/
def multiAssign (pairs : List (String × NodeId)) : Builder (List NodeId) := do
  let (stores, loads) ← rotations pairs
  return stores ++ loads

end Builder
end Arbor
