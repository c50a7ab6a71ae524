import Arbor.Registry
import Arbor.Render.Literal
import Arbor.Render.Parens
import Arbor.Render.Rules
/-!
C text from trees.

Four spaces indent a level. Statements stand on lines of their own and end in a semicolon unless
they end themselves; bodies of loops and branches are always in braces.

Every function below takes `render`, which renders a child at an indent; `renderTo` ties the knot
for trees of bounded depth. A tree without cycles is never deeper than it has nodes.
-/
namespace Arbor

inductive RenderError where
  | noRule (kind : String) (id : NodeId)
  | registry (error : RegistryError)
  | tree (error : TreeError)
  deriving DecidableEq, Repr

def RenderError.message : RenderError → String
  | .noRule kind id =>
    "no render rule registered for node kind `" ++ kind ++ "` (" ++ showId id ++ ")"
  | .registry error => error.message
  | .tree error => error.message

structure Renderer where
  tree : Tree
  registry : TypeRegistry
  rules : RenderRules

def indentation (level : Nat) : String := String.ofList (List.replicate (4 * level) ' ')

/-- Puts `new` in place of the first occurrence of `old`, if there is one. -/
def replaceFirst? (old new : List Char) : List Char → Option (List Char)
  | [] => if old.isEmpty then some new else none
  | c :: cs =>
    if old.isPrefixOf (c :: cs) then some (new ++ (c :: cs).drop old.length)
    else (replaceFirst? old new cs).map (c :: ·)

namespace Renderer

abbrev Result := Except RenderError String

def node (g : Renderer) (id : NodeId) : Except RenderError Node :=
  match g.tree.node id with
  | .ok node => .ok node
  | .error e => .error (.tree e)

def spell (g : Renderer) (ty : CType) : Result :=
  match g.registry.spell ty with
  | .ok text => .ok text
  | .error e => .error (.registry e)

/-- `type name`; in a function type the name goes between the first parentheses with a star. -/
def declaration (g : Renderer) (ty : CType) (name : String) : Result := do
  let spelled ← g.spell ty
  let plain := spelled ++ " " ++ name
  if ty.isFunction then
    match replaceFirst? "(*)".toList ("(*" ++ name ++ ")").toList spelled.toList with
    | some text => .ok (String.ofList text)
    | none => .ok plain
  else
    .ok plain

/-- Whether a statement needs no semicolon. -/
def isSelfTerminating (g : Renderer) : Node → Bool
  | .block _ | .branch _ _ _ | .whileLoop _ _ | .forLoop _ _ _ _ | .inclusion _ _ | .comment _ => true
  | .function _ _ _ defn _ _ => defn.isSome
  | .custom kind _ _ => (g.rules.get? kind).any (·.selfTerminating)
  | _ => false

def renderEach (render : NodeId → Result) : List NodeId → Except RenderError (List String)
  | [] => .ok []
  | id :: rest => do
    let first ← render id
    let others ← renderEach render rest
    return first :: others

def commaList (render : NodeId → Nat → Result) (ids : List NodeId) (indent : Nat) : Result := do
  return ", ".intercalate (← renderEach (render · indent) ids)

def statementLines (g : Renderer) (render : NodeId → Nat → Result) (indent : Nat) :
    List NodeId → Result
  | [] => .ok ""
  | id :: rest => do
    let text ← render id indent
    let node ← g.node id
    let terminator := if g.isSelfTerminating node then "" else ";"
    let others ← g.statementLines render indent rest
    return indentation indent ++ text ++ terminator ++ "\n" ++ others

def braced (g : Renderer) (render : NodeId → Nat → Result) (ids : List NodeId) (indent : Nat) :
    Result :=
  if ids.isEmpty then
    .ok "\x7b\x7d"
  else do
    let lines ← g.statementLines render (indent + 1) ids
    return "\x7b\n" ++ lines ++ indentation indent ++ "\x7d"

def body (g : Renderer) (render : NodeId → Nat → Result) (id : NodeId) (indent : Nat) : Result := do
  match ← g.node id with
  | .block ids => g.braced render ids indent
  | _ => g.braced render [id] indent

def clause (render : NodeId → Nat → Result) (id : Option NodeId) (indent : Nat) : Result :=
  match id with
  | some id => render id indent
  | none => .ok ""

/-- A text that is not empty is set off by a space. -/
def spaced (text : String) : String := if text.isEmpty then text else " " ++ text

def elseBranch (g : Renderer) (render : NodeId → Nat → Result) (elseBody : Option NodeId)
    (indent : Nat) : Result := do
  match elseBody with
  | none => .ok ""
  | some id =>
    let node ← g.node id
    let text ← if node.isBranch then render id indent else g.body render id indent
    return " else " ++ text

def commentLines (text : String) (indent : Nat) : String :=
  ("\n" ++ indentation indent).intercalate
    ((Text.lines text).map fun line => Text.trimEnd ("// " ++ line))

def binaryText (op : Operator) (left right : String) : String :=
  match op with
  | .index => left ++ "[" ++ right ++ "]"
  | .dot | .arrow => left ++ op.spelling ++ right
  | .comma => left ++ ", " ++ right
  | _ => left ++ " " ++ op.spelling ++ " " ++ right

def attributeText (attrs : Attributes) : String :=
  "[" ++ ";".intercalate (attrs.entries.map fun (name, text) => name ++ "=" ++ text) ++ "]"

def byRule (g : Renderer) (render : NodeId → Nat → Result) (rule : RenderRule)
    (attrs : Attributes) (children : List NodeId) (indent : Nat) : Result := do
  match rule.style with
  | .block => return rule.text ++ "\n" ++ indentation indent ++ (← g.braced render children indent)
  | .statements => return rule.text ++ "\n" ++ (← g.statementLines render (indent + 1) children)
  | .call => return rule.text ++ "(" ++ (← commaList render children indent) ++ ")"
  | .attributes => return rule.text ++ attributeText attrs
  | .spelling => g.spell (.pointer (.scalar .long))
  | .text => return rule.text

def bare (g : Renderer) (render : NodeId → Nat → Result) (id : NodeId) (node : Node)
    (indent : Nat) : Result := do
  match node with
  | .project files => return "\n".intercalate (← renderEach (render · indent) files)
  | .file name body =>
    return "// <file: " ++ name ++ ".c>\n" ++ (← g.statementLines render indent body)
  | .ret none => return "return"
  | .ret (some value) => return "return " ++ (← render value indent)
  | .branch cond thenBody elseBody =>
    let cond ← render cond indent
    let thenText ← g.body render thenBody indent
    let elseText ← g.elseBranch render elseBody indent
    return "if (" ++ cond ++ ") " ++ thenText ++ elseText
  | .whileLoop cond body =>
    let cond ← render cond indent
    let body ← g.body render body indent
    return "while (" ++ cond ++ ") " ++ body
  | .doWhile body cond =>
    let body ← g.body render body indent
    let cond ← render cond indent
    return "do " ++ body ++ " while (" ++ cond ++ ")"
  | .forLoop init test incr body =>
    let init ← clause render init indent
    let test ← clause render test indent
    let incr ← clause render incr indent
    let body ← g.body render body indent
    return "for (" ++ init ++ ";" ++ spaced test ++ ";" ++ spaced incr ++ ") " ++ body
  | .block ids => g.braced render ids indent
  | .breakLoop => return "break"
  | .continueLoop => return "continue"
  | .pass => return ""
  | .function returnType name params defn isStatic isInline =>
    let params ← commaList render params indent
    let returnType ← g.spell returnType
    let head := (if isStatic then "static " else "") ++ (if isInline then "inline " else "") ++
      returnType ++ " " ++ name ++ "(" ++ params ++ ")"
    match defn with
    | none => return head
    | some defn => return head ++ " " ++ (← g.body render defn indent)
  | .unary op arg =>
    let arg ← render arg indent
    return if op.standsAfter then arg ++ " " ++ op.spelling else op.spelling ++ " " ++ arg
  | .binary left op right =>
    let left ← render left indent
    let right ← render right indent
    return binaryText op left right
  | .augAssign target op value =>
    let target ← render target indent
    let value ← render value indent
    return target ++ " " ++ op.spelling ++ "= " ++ value
  | .ternary cond thenValue elseValue =>
    let cond ← render cond indent
    let thenValue ← render thenValue indent
    let elseValue ← render elseValue indent
    return cond ++ " ? " ++ thenValue ++ " : " ++ elseValue
  | .cast ty value =>
    let ty ← g.spell ty
    let value ← render value indent
    return "(" ++ ty ++ ") " ++ value
  | .call func args _ =>
    let func ← render func indent
    let args ← commaList render args indent
    return func ++ "(" ++ args ++ ")"
  | .arrayDef target size body =>
    let target ← render target indent
    let size ← render size indent
    let body ← commaList render body indent
    return target ++ "[" ++ size ++ "] = \x7b" ++ body ++ "\x7d"
  | .constant value => return value.literal
  | .string value => return Literal.string value
  | .symbol name none _ => return name
  | .symbol name (some ty) isConst =>
    let text ← g.declaration ty name
    return if isConst then "const " ++ text else text
  | .inclusion target true => return "#include <" ++ target ++ ">"
  | .inclusion target false => return "#include \"" ++ target ++ "\""
  | .comment text => return commentLines text indent
  | .custom kind attrs children =>
    match g.rules.get? kind with
    | none => .error (.noRule kind id)
    | some rule => g.byRule render rule attrs children indent

def renderTo (g : Renderer) : (depth : Nat) → NodeId → Nat → Result
  | 0, id, _ => .error (.tree (.endless id))
  | depth + 1, id, indent => do
    let node ← g.node id
    let text ← g.bare (g.renderTo depth) id node indent
    return if g.tree.needsParens id node then "(" ++ text ++ ")" else text

def depthBound (g : Renderer) : Nat := g.tree.size + 1

def renderAt (g : Renderer) (id : NodeId) (indent : Nat) : Result := g.renderTo g.depthBound id indent

/-- Renders a node at the top level; a statement gets no semicolon. -/
def render (g : Renderer) (id : NodeId) : Result := g.renderAt id 0

def statements (g : Renderer) (ids : List NodeId) (indent : Nat) : Result :=
  g.statementLines (g.renderTo g.depthBound) indent ids

def block (g : Renderer) (ids : List NodeId) (indent : Nat) : Result :=
  g.braced (g.renderTo g.depthBound) ids indent

end Renderer

/-- Renders what is below `root`, without rules for extension nodes. -/
def Tree.render (t : Tree) (registry : TypeRegistry) (root : NodeId) : Except RenderError String :=
  Renderer.render ⟨t, registry, .empty⟩ root

end Arbor
