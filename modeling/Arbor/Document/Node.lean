import Arbor.Document.CType
import Arbor.Document.Value
import Arbor.Node
/-!
Nodes in documents: a variant per kind, with the fields in the order of declaration.
-/
namespace Arbor

def Json.nodeId? (j : Json) : Option NodeId := j.natBelow? UInt32.size

def Operator.ofJson? (j : Json) : Option Operator := do
  match ← j.variant? with
  | (name, .null) => Operator.ofName? name
  | _ => none

namespace Attributes

def ofJson? : Json → Option Attributes
  | .object members => do
    let entries ← members.mapM fun (name, j) => j.text?.map (name, ·)
    return .ofList entries
  | _ => none

def toJson (attrs : Attributes) : Json :=
  .object (attrs.entries.map fun (name, text) => (name, .string text))

end Attributes

namespace Node

def fieldNames? : String → Option (List String)
  | "Project" => some ["files"]
  | "File" => some ["name", "body"]
  | "Return" => some ["value"]
  | "If" => some ["cond", "then", "elze"]
  | "While" => some ["cond", "body"]
  | "DoWhile" => some ["body", "cond"]
  | "For" => some ["init", "test", "incr", "body"]
  | "Block" => some ["body"]
  | "FunctionDecl" => some ["return_type", "name", "params", "defn", "is_static", "is_inline"]
  | "UnaryOp" => some ["op", "arg"]
  | "BinaryOp" => some ["left", "op", "right"]
  | "AugAssign" => some ["target", "op", "value"]
  | "TernaryOp" => some ["cond", "then", "elze"]
  | "Cast" => some ["ty", "value"]
  | "FunctionCall" => some ["func", "args", "ty"]
  | "ArrayDef" => some ["target", "size", "body"]
  | "Constant" => some ["value"]
  | "String" => some ["value"]
  | "SymbolRef" => some ["name", "ty", "is_const"]
  | "Include" => some ["target", "system"]
  | "Comment" => some ["text"]
  | "Custom" => some ["kind", "attrs", "children"]
  | _ => none

def ofRecord? (form : FloatForm) (depth : Nat) (kind : String) (r : Record) : Option Node := do
  let child (name : String) := r.required? name Json.nodeId?
  let child? (name : String) := r.optional? name Json.nodeId?
  let children (name : String) := r.required? name (Json.list? Json.nodeId?)
  let text (name : String) := r.required? name Json.text?
  let flag (name : String) := r.required? name Json.bool?
  let op := r.required? "op" Operator.ofJson?
  match kind with
  | "Project" => return .project (← children "files")
  | "File" => return .file (← text "name") (← children "body")
  | "Return" => return .ret (← child? "value")
  | "If" => return .branch (← child "cond") (← child "then") (← child? "elze")
  | "While" => return .whileLoop (← child "cond") (← child "body")
  | "DoWhile" => return .doWhile (← child "body") (← child "cond")
  | "For" => return .forLoop (← child? "init") (← child? "test") (← child? "incr") (← child "body")
  | "Block" => return .block (← children "body")
  | "FunctionDecl" =>
    return .function (← r.required? "return_type" (CType.ofJson? depth)) (← text "name")
      (← children "params") (← child? "defn") (← flag "is_static") (← flag "is_inline")
  | "UnaryOp" => return .unary (← op) (← child "arg")
  | "BinaryOp" => return .binary (← child "left") (← op) (← child "right")
  | "AugAssign" => return .augAssign (← child "target") (← op) (← child "value")
  | "TernaryOp" => return .ternary (← child "cond") (← child "then") (← child "elze")
  | "Cast" => return .cast (← r.required? "ty" (CType.ofJson? depth)) (← child "value")
  | "FunctionCall" =>
    return .call (← child "func") (← children "args") (← r.optional? "ty" (CType.ofJson? depth))
  | "ArrayDef" => return .arrayDef (← child "target") (← child "size") (← children "body")
  | "Constant" => return .constant (← r.required? "value" (Value.ofJson? form))
  | "String" => return .string (← text "value")
  | "SymbolRef" =>
    return .symbol (← text "name") (← r.optional? "ty" (CType.ofJson? depth)) (← flag "is_const")
  | "Include" => return .inclusion (← text "target") (← flag "system")
  | "Comment" => return .comment (← text "text")
  | "Custom" =>
    return .custom (← text "kind") (← r.required? "attrs" Attributes.ofJson?) (← children "children")
  | _ => none

/-- Reads a node. Two of the arrays and objects that may be nested are its own. -/
def ofJson? (form : FloatForm) (depth : Nat) (j : Json) : Option Node := do
  match ← j.variant? with
  | ("Break", .null) => return .breakLoop
  | ("Continue", .null) => return .continueLoop
  | ("Pass", .null) => return .pass
  | (kind, contents) =>
    let names ← fieldNames? kind
    let r ← Record.ofJson? names contents
    ofRecord? form (depth - 2) kind r

def idsToJson (ids : List NodeId) : Json := .ofList .ofNat ids

def toJson (form : FloatForm) : Node → Json
  | .project files => .record "Project" [("files", idsToJson files)]
  | .file name body => .record "File" [("name", .string name), ("body", idsToJson body)]
  | .ret value => .record "Return" [("value", .ofOption .ofNat value)]
  | .branch cond thenBody elseBody =>
    .record "If"
      [("cond", .ofNat cond), ("then", .ofNat thenBody), ("elze", .ofOption .ofNat elseBody)]
  | .whileLoop cond body => .record "While" [("cond", .ofNat cond), ("body", .ofNat body)]
  | .doWhile body cond => .record "DoWhile" [("body", .ofNat body), ("cond", .ofNat cond)]
  | .forLoop init test incr body =>
    .record "For"
      [("init", .ofOption .ofNat init), ("test", .ofOption .ofNat test),
        ("incr", .ofOption .ofNat incr), ("body", .ofNat body)]
  | .block body => .record "Block" [("body", idsToJson body)]
  | .breakLoop => .string "Break"
  | .continueLoop => .string "Continue"
  | .pass => .string "Pass"
  | .function returnType name params defn isStatic isInline =>
    .record "FunctionDecl"
      [("return_type", returnType.toJson), ("name", .string name), ("params", idsToJson params),
        ("defn", .ofOption .ofNat defn), ("is_static", .bool isStatic),
        ("is_inline", .bool isInline)]
  | .unary op arg => .record "UnaryOp" [("op", .string op.name), ("arg", .ofNat arg)]
  | .binary left op right =>
    .record "BinaryOp" [("left", .ofNat left), ("op", .string op.name), ("right", .ofNat right)]
  | .augAssign target op value =>
    .record "AugAssign"
      [("target", .ofNat target), ("op", .string op.name), ("value", .ofNat value)]
  | .ternary cond thenValue elseValue =>
    .record "TernaryOp"
      [("cond", .ofNat cond), ("then", .ofNat thenValue), ("elze", .ofNat elseValue)]
  | .cast ty value => .record "Cast" [("ty", ty.toJson), ("value", .ofNat value)]
  | .call func args ty =>
    .record "FunctionCall"
      [("func", .ofNat func), ("args", idsToJson args), ("ty", .ofOption CType.toJson ty)]
  | .arrayDef target size body =>
    .record "ArrayDef"
      [("target", .ofNat target), ("size", .ofNat size), ("body", idsToJson body)]
  | .constant value => .record "Constant" [("value", value.toJson form)]
  | .string value => .record "String" [("value", .string value)]
  | .symbol name ty isConst =>
    .record "SymbolRef"
      [("name", .string name), ("ty", .ofOption CType.toJson ty), ("is_const", .bool isConst)]
  | .inclusion target system =>
    .record "Include" [("target", .string target), ("system", .bool system)]
  | .comment text => .record "Comment" [("text", .string text)]
  | .custom kind attrs children =>
    .record "Custom"
      [("kind", .string kind), ("attrs", attrs.toJson), ("children", idsToJson children)]

end Node
end Arbor
