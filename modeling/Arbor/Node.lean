import Arbor.Attributes
import Arbor.CType.Basic
import Arbor.Operator
import Arbor.Value
/-!
The nodes of a code tree.

A node refers to its children by their ids. Its child slots are listed by `slots` in the order
of declaration and put back by `withSlots`; all passes that do not care about the kind of a
node go through these two.
-/
namespace Arbor

abbrev NodeId := Nat

inductive Node where
  | project (files : List NodeId)
  | file (name : String) (body : List NodeId)
  | ret (value : Option NodeId)
  | branch (cond thenBody : NodeId) (elseBody : Option NodeId)
  | whileLoop (cond body : NodeId)
  | doWhile (body cond : NodeId)
  | forLoop (init test incr : Option NodeId) (body : NodeId)
  | block (body : List NodeId)
  | breakLoop
  | continueLoop
  | pass
  | function (returnType : CType) (name : String) (params : List NodeId) (defn : Option NodeId)
      (isStatic isInline : Bool)
  | unary (op : Operator) (arg : NodeId)
  | binary (left : NodeId) (op : Operator) (right : NodeId)
  | augAssign (target : NodeId) (op : Operator) (value : NodeId)
  | ternary (cond thenValue elseValue : NodeId)
  | cast (ty : CType) (value : NodeId)
  | call (func : NodeId) (args : List NodeId) (ty : Option CType)
  | arrayDef (target size : NodeId) (body : List NodeId)
  | constant (value : Value)
  | string (value : String)
  | symbol (name : String) (ty : Option CType) (isConst : Bool)
  | inclusion (target : String) (system : Bool)
  | comment (text : String)
  | custom (kind : String) (attrs : Attributes) (children : List NodeId)
  deriving DecidableEq, Repr

inductive Slot where
  | required (id : NodeId)
  | optional (id : Option NodeId)
  | list (ids : List NodeId)
  deriving DecidableEq, Repr

namespace Slot

def ids : Slot → List NodeId
  | .required id => [id]
  | .optional id => id.toList
  | .list ids => ids

def map (f : NodeId → NodeId) : Slot → Slot
  | .required id => .required (f id)
  | .optional id => .optional (id.map f)
  | .list ids => .list (ids.map f)

end Slot

namespace Node

/-- The name of the kind; an extension node is of the kind it names. -/
def kindName : Node → String
  | .project _ => "Project"
  | .file _ _ => "File"
  | .ret _ => "Return"
  | .branch _ _ _ => "If"
  | .whileLoop _ _ => "While"
  | .doWhile _ _ => "DoWhile"
  | .forLoop _ _ _ _ => "For"
  | .block _ => "Block"
  | .breakLoop => "Break"
  | .continueLoop => "Continue"
  | .pass => "Pass"
  | .function _ _ _ _ _ _ => "FunctionDecl"
  | .unary _ _ => "UnaryOp"
  | .binary _ _ _ => "BinaryOp"
  | .augAssign _ _ _ => "AugAssign"
  | .ternary _ _ _ => "TernaryOp"
  | .cast _ _ => "Cast"
  | .call _ _ _ => "FunctionCall"
  | .arrayDef _ _ _ => "ArrayDef"
  | .constant _ => "Constant"
  | .string _ => "String"
  | .symbol _ _ _ => "SymbolRef"
  | .inclusion _ _ => "Include"
  | .comment _ => "Comment"
  | .custom kind _ _ => kind

/-- The child slots with their names, empty ones too. -/
def slots : Node → List (String × Slot)
  | .project files => [("files", .list files)]
  | .file _ body => [("body", .list body)]
  | .ret value => [("value", .optional value)]
  | .branch cond thenBody elseBody =>
    [("cond", .required cond), ("then", .required thenBody), ("elze", .optional elseBody)]
  | .whileLoop cond body => [("cond", .required cond), ("body", .required body)]
  | .doWhile body cond => [("body", .required body), ("cond", .required cond)]
  | .forLoop init test incr body =>
    [("init", .optional init), ("test", .optional test), ("incr", .optional incr),
      ("body", .required body)]
  | .block body => [("body", .list body)]
  | .breakLoop => []
  | .continueLoop => []
  | .pass => []
  | .function _ _ params defn _ _ => [("params", .list params), ("defn", .optional defn)]
  | .unary _ arg => [("arg", .required arg)]
  | .binary left _ right => [("left", .required left), ("right", .required right)]
  | .augAssign target _ value => [("target", .required target), ("value", .required value)]
  | .ternary cond thenValue elseValue =>
    [("cond", .required cond), ("then", .required thenValue), ("elze", .required elseValue)]
  | .cast _ value => [("value", .required value)]
  | .call func args _ => [("func", .required func), ("args", .list args)]
  | .arrayDef target size body =>
    [("target", .required target), ("size", .required size), ("body", .list body)]
  | .constant _ => []
  | .string _ => []
  | .symbol _ _ _ => []
  | .inclusion _ _ => []
  | .comment _ => []
  | .custom _ _ children => [("children", .list children)]

/-- The same node with other contents in its slots, given in order. Contents of another shape
than the slots change nothing. -/
def withSlots : Node → List Slot → Node
  | .project _, [.list files] => .project files
  | .file name _, [.list body] => .file name body
  | .ret _, [.optional value] => .ret value
  | .branch _ _ _, [.required cond, .required thenBody, .optional elseBody] =>
    .branch cond thenBody elseBody
  | .whileLoop _ _, [.required cond, .required body] => .whileLoop cond body
  | .doWhile _ _, [.required body, .required cond] => .doWhile body cond
  | .forLoop _ _ _ _, [.optional init, .optional test, .optional incr, .required body] =>
    .forLoop init test incr body
  | .block _, [.list body] => .block body
  | .function returnType name _ _ isStatic isInline, [.list params, .optional defn] =>
    .function returnType name params defn isStatic isInline
  | .unary op _, [.required arg] => .unary op arg
  | .binary _ op _, [.required left, .required right] => .binary left op right
  | .augAssign _ op _, [.required target, .required value] => .augAssign target op value
  | .ternary _ _ _, [.required cond, .required thenValue, .required elseValue] =>
    .ternary cond thenValue elseValue
  | .cast ty _, [.required value] => .cast ty value
  | .call _ _ ty, [.required func, .list args] => .call func args ty
  | .arrayDef _ _ _, [.required target, .required size, .list body] => .arrayDef target size body
  | .custom kind attrs _, [.list children] => .custom kind attrs children
  | node, _ => node

@[simp] theorem withSlots_slots (n : Node) : n.withSlots (n.slots.map Prod.snd) = n := by
  cases n <;> rfl

def children (n : Node) : List NodeId := n.slots.flatMap (·.2.ids)

def mapChildren (f : NodeId → NodeId) (n : Node) : Node :=
  n.withSlots (n.slots.map fun (_, slot) => slot.map f)

def setSlot (n : Node) (place : Nat) (slot : Slot) : Node :=
  n.withSlots ((n.slots.map Prod.snd).set place slot)

def isExpression : Node → Bool
  | .unary _ _ | .binary _ _ _ | .augAssign _ _ _ | .ternary _ _ _ | .cast _ _ | .call _ _ _
  | .arrayDef _ _ _ | .constant _ | .string _ | .symbol _ _ _ => true
  | _ => false

def isCustom : Node → Bool
  | .custom _ _ _ => true
  | _ => false

def isProject : Node → Bool
  | .project _ => true
  | _ => false

def isFile : Node → Bool
  | .file _ _ => true
  | _ => false

def isSymbol : Node → Bool
  | .symbol _ _ _ => true
  | _ => false

def isBranch : Node → Bool
  | .branch _ _ _ => true
  | _ => false

def annotation? : Node → Option CType
  | .symbol _ ty _ => ty
  | .call _ _ ty => ty
  | .cast ty _ => some ty
  | _ => none

def symbolName? : Node → Option String
  | .symbol name _ _ => some name
  | _ => none

/-- The class of an expression; nothing for nodes that neither need nor cause parentheses. A
negative literal starts with a minus sign and binds like a prefix operator. -/
def precedence? : Node → Option Precedence
  | .unary op _ => some op.precedence
  | .binary _ op _ => some op.precedence
  | .augAssign _ _ _ => some .assignment
  | .ternary _ _ _ => some Operator.conditional.precedence
  | .cast _ _ => some Operator.cast.precedence
  | .call _ _ _ => some .suffix
  | .constant value => if value.isNegative then some .unary else none
  | _ => none

end Node
end Arbor
