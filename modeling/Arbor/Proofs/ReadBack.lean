import Arbor.Proofs.Grammar.Printed
import Arbor.Proofs.Rendering
import Arbor.Proofs.Validation
import Mathlib.Tactic.FinCases

/-!
Rendered expressions read back.

`expression?` takes the expression under an id out of its arena. The renderer prints it in the
way of `Grammar.Written`, node by node, with the parentheses of the place that the parent link
gives to each node; so the text is in the grammar and stands for that expression alone.
-/
namespace Arbor

open Grammar

/-- The kinds of nodes that expressions are made of, as far as their text shows all of them. -/
def Node.isReadable : Node → Bool
  | .unary _ _ | .binary _ _ _ | .augAssign _ _ _ | .ternary _ _ _ | .cast _ _ | .call _ _ _ => true
  | .symbol name none false => Token.isIdentifier name.toList
  | .constant (.int v) => v ≠ Int64.minValue
  | _ => false

namespace Node

theorem isReadable_symbol {name : String} {ty : Option CType} {isConst : Bool}
    (h : (Node.symbol name ty isConst).isReadable) :
    ty = none ∧ isConst = false ∧ Token.isIdentifier name.toList := by
  cases ty with
  | some ty => cases h
  | none =>
    cases isConst with
    | true => cases h
    | false => exact ⟨rfl, rfl, h⟩

theorem isReadable_constant {value : Value} (h : (Node.constant value).isReadable) :
    ∃ v, value = .int v ∧ v ≠ Int64.minValue := by
  cases value with
  | int v => exact ⟨v, rfl, of_decide_eq_true h⟩
  | _ => cases h

open Arbor.Expr (Place)

variable {l r c t e f : NodeId} {op : Operator} {ty : CType} {args : List NodeId}

theorem encloses_unary :
    (Node.unary op l).encloses l = (Place.operand op.precedence true).encloses := rfl

theorem encloses_cast : (Node.cast ty l).encloses l = (Place.operand .unary true).encloses := rfl

theorem enclosesOperand_eq (parent : Node) {outer : Precedence} {side : Bool}
    (hp : parent.precedence? = some outer) (hs : parent.holdsBeforeLast c = side) :
    parent.enclosesOperand c = (Place.operand outer side).encloses := by
  funext own
  unfold enclosesOperand
  rw [hp, hs]
  rfl

theorem encloses_binary (h : op ≠ .index ∨ r ≠ c) :
    (Node.binary l op r).encloses c = (Node.binary l op r).enclosesOperand c := by
  funext own
  rcases h with hop | hr
  · cases op <;> first | rfl | exact absurd rfl hop
  · cases op <;> first | rfl | exact if_neg hr

theorem encloses_left (h : l ≠ r) :
    (Node.binary l op r).encloses l = (Place.operand op.precedence true).encloses := by
  rw [encloses_binary (.inr h.symm)]
  exact enclosesOperand_eq _ rfl (beq_self_eq_true l)

theorem encloses_right (h : l ≠ r) (hop : op ≠ .index) :
    (Node.binary l op r).encloses r = (Place.operand op.precedence false).encloses := by
  rw [encloses_binary (.inl hop)]
  exact enclosesOperand_eq _ rfl (beq_false_of_ne h)

theorem encloses_subscript : (Node.binary l .index r).encloses r = Place.shielded.encloses :=
  funext fun _ => if_pos rfl

theorem encloses_target :
    (Node.augAssign l op r).encloses l = (Place.operand .assignment true).encloses :=
  enclosesOperand_eq (.augAssign l op r) rfl (beq_self_eq_true l)

theorem encloses_value (h : l ≠ r) :
    (Node.augAssign l op r).encloses r = (Place.operand .assignment false).encloses :=
  enclosesOperand_eq (.augAssign l op r) rfl (beq_false_of_ne h)

theorem encloses_ternary (h : t ≠ l) :
    (Node.ternary c t e).encloses l = (Node.ternary c t e).enclosesOperand l :=
  funext fun _ => if_neg h

theorem encloses_cond (ht : c ≠ t) (he : c ≠ e) :
    (Node.ternary c t e).encloses c = (Place.operand .ternary true).encloses := by
  rw [encloses_ternary ht.symm]
  exact enclosesOperand_eq _ rfl (bne_iff_ne.mpr he.symm)

theorem encloses_then : (Node.ternary c t e).encloses t = Place.shielded.encloses :=
  funext fun _ => if_pos rfl

theorem encloses_else (he : t ≠ e) :
    (Node.ternary c t e).encloses e = (Place.operand .ternary false).encloses := by
  rw [encloses_ternary he]
  exact enclosesOperand_eq _ rfl (bne_self_eq_false e)

theorem encloses_callee {ty : Option CType} :
    (Node.call f args ty).encloses f = Place.callee.encloses :=
  funext fun _ => if_pos rfl

theorem encloses_argument {ty : Option CType} (h : f ≠ l) :
    (Node.call f args ty).encloses l = Place.argument.encloses :=
  funext fun _ => if_neg h

end Node

namespace Tree

/-- The expression under an id, of at most `depth` levels. -/
def expressionTo (t : Tree) : (depth : Nat) → NodeId → Option Expr
  | 0, _ => none
  | depth + 1, id =>
    match t.get? id with
    | some (.symbol name none false) => some (.symbol name)
    | some (.constant (.int v)) => some (.literal v.toInt)
    | some (.unary op arg) => do return .unary op (← t.expressionTo depth arg)
    | some (.binary left op right) => do
      return .binary (← t.expressionTo depth left) op (← t.expressionTo depth right)
    | some (.augAssign target op value) => do
      return .augAssign (← t.expressionTo depth target) op (← t.expressionTo depth value)
    | some (.ternary cond thenValue elseValue) => do
      return .ternary (← t.expressionTo depth cond) (← t.expressionTo depth thenValue)
        (← t.expressionTo depth elseValue)
    | some (.cast ty value) => do return .cast ty (← t.expressionTo depth value)
    | some (.call func args _) => do
      return .call (← t.expressionTo depth func) (← args.mapM (t.expressionTo depth))
    | _ => none

/-- The expression under an id; the types that calls are annotated with are left out. -/
def expression? (t : Tree) (id : NodeId) : Option Expr := t.expressionTo (t.size + 1) id

/-- An accepted tree of nothing but readable nodes. A member is a name, and no literal stands
right before a point, which would become part of it. -/
structure Readable (t : Tree) (root : NodeId) : Prop where
  valid : t.validate root = .ok ()
  parentless : t.parent? root = none
  node : ∀ id node, t.Reach root id → t.get? id = some node → node.isReadable
  member : ∀ id left op right, t.Reach root id → t.get? id = some (.binary left op right) →
    op.isMember → ∃ name, t.get? right = some (.symbol name none false)
  point : ∀ id left right v, t.Reach root id → t.get? id = some (.binary left .dot right) →
    t.get? left ≠ some (.constant v)

/-- Ids of readable nodes, with all that stands below them; the tree around them does not matter. -/
structure Legible (t : Tree) (P : NodeId → Prop) : Prop where
  node : ∀ id node, P id → t.get? id = some node → node.isReadable
  operator : ∀ id node, P id → t.get? id = some node → node.OperatorSuits
  distinct : ∀ id node, P id → t.get? id = some node → node.children.Nodup
  child : ∀ id node, P id → t.get? id = some node →
    ∀ c ∈ node.children, P c ∧ t.parent? c = some id
  member : ∀ id left op right, P id → t.get? id = some (.binary left op right) →
    op.isMember → ∃ name, t.get? right = some (.symbol name none false)
  point : ∀ id left right v, P id → t.get? id = some (.binary left .dot right) →
    t.get? left ≠ some (.constant v)

theorem Readable.legible {t : Tree} {root : NodeId} (h : t.Readable root) :
    t.Legible (t.Reach root) := by
  have hwell := wellFormed_of_validate h.valid
  refine ⟨h.node, hwell.operator, fun id node hi hn => ?_, fun id node hi hn c hc => ?_, h.member,
    h.point⟩
  · exact childrenOf_eq hn ▸ hwell.region.children_nodup hi
  · exact hwell.region.node_of_reach hi hn hc

end Tree

/-- What the renderer makes of a node: the text of its expression, and parentheses around it if
its place asks for them. -/
structure Renderer.Shows (g : Renderer) (depth indent : Nat) (id : NodeId) (node : Node) (e : Expr)
    (text : String) : Prop where
  expression : g.tree.expressionTo depth id = some e
  written : Written e text
  class_eq : e.precedence? = node.precedence?
  literal : ∀ v, e = .literal v → ∃ c, node = .constant c
  rendered : g.renderTo depth id indent =
    .ok (if g.tree.needsParens id node then "(" ++ text ++ ")" else text)

namespace Renderer

variable {g : Renderer} {depth indent : Nat} {id : NodeId} {node : Node} {e : Expr} {text : String}

theorem Shows.of_bare (hn : g.tree.get? id = some node)
    (he : g.tree.expressionTo (depth + 1) id = some e) (hw : Written e text)
    (hc : e.precedence? = node.precedence?) (hl : ∀ v, e = .literal v → ∃ c, node = .constant c)
    (hbare : g.bare (g.renderTo depth) id node indent = .ok text) :
    g.Shows (depth + 1) indent id node e text := by
  refine ⟨he, hw, hc, hl, bind_eq_ok.mpr ⟨node, ?_, bind_eq_ok.mpr ⟨text, hbare, rfl⟩⟩⟩
  simp only [Renderer.node, Tree.node_eq_ok.mpr hn]

theorem Shows.placed {c : NodeId} {child : Node} (h : g.Shows depth indent c child e text)
    (hp : g.tree.parent? c = some id) (hn : g.tree.get? id = some node) {place : Expr.Place}
    (hplace : node.encloses c = place.encloses) :
    g.renderTo depth c indent = .ok (place.wrap e.precedence? text) := by
  rw [h.rendered, h.class_eq]
  congr 1
  have hparens : g.tree.needsParens c child = child.precedence?.any place.encloses := by
    simp only [Tree.needsParens, hp, Option.bind_some, hn]
    cases child.precedence? with
    | none => rfl
    | some own => exact congrFun hplace own
  rw [hparens, Expr.Place.wrap]

/-- What stands at a place under a node: its expression, and a text of the level of the place. -/
structure ShowsAt (g : Renderer) (depth indent : Nat) (place : Expr.Place) (c : NodeId) (e : Expr)
    (text : String) : Prop where
  expression : g.tree.expressionTo depth c = some e
  rendered : g.renderTo depth c indent = .ok text
  placed : Placed (· ∈ closers) place.level text e

section

attribute [local simp] Tree.expressionTo

variable {l r c t f : NodeId} {op : Operator} {e₁ e₂ e₃ : Expr} {s₁ s₂ s₃ : String}

theorem shows_unary (hn : g.tree.get? id = some (.unary op l)) (hop : op.isUnary)
    (h : g.ShowsAt depth indent (.operand op.precedence true) l e₁ s₁) :
    ∃ e text, g.Shows (depth + 1) indent id (.unary op l) e text := by
  have he : g.tree.expressionTo (depth + 1) id = some (.unary op e₁) := by
    simp [hn, h.expression]
  have hplaced := h.placed
  cases hafter : op.standsAfter with
  | true =>
    rw [precedence_of_standsAfter hafter] at hplaced
    refine ⟨_, _, .of_bare hn he (written_after hafter hplaced) rfl nofun ?_⟩
    exact bind_eq_ok.mpr ⟨s₁, h.rendered, by rw [hafter]; rfl⟩
  | false =>
    have hbefore : op.standsBefore := by simpa [Operator.isUnary, hafter] using hop
    rw [precedence_of_standsBefore hbefore] at hplaced
    have hunary := hplaced.mono (fun _ hc => hc) (Nat.le_succ (Precedence.rank .unary))
    refine ⟨_, _, .of_bare hn he (written_before hbefore hunary) rfl nofun ?_⟩
    exact bind_eq_ok.mpr ⟨s₁, h.rendered, by rw [hafter]; rfl⟩

theorem shows_cast {ty : CType} (hb : g.registry = .builtin)
    (hn : g.tree.get? id = some (.cast ty l))
    (h : g.ShowsAt depth indent (.operand .unary true) l e₁ s₁) :
    ∃ e text, g.Shows (depth + 1) indent id (.cast ty l) e text := by
  have he : g.tree.expressionTo (depth + 1) id = some (.cast ty e₁) := by
    simp [hn, h.expression]
  obtain ⟨ts, hspell, hty⟩ := spells_display ty
  have hunary := h.placed.mono (fun _ hc => hc) (Nat.le_succ (Precedence.rank .unary))
  have hw := written_cast hty hspell hunary
  have hspelled : g.spell ty = .ok ty.display := by
    rw [Renderer.spell, hb, TypeRegistry.spell_builtin]
  refine ⟨_, _, .of_bare hn he hw rfl nofun ?_⟩
  exact bind_eq_ok.mpr ⟨_, hspelled, bind_eq_ok.mpr ⟨s₁, h.rendered, rfl⟩⟩

theorem shows_augAssign (hn : g.tree.get? id = some (.augAssign l op r)) (hop : op.isAugmentable)
    (hl : g.ShowsAt depth indent (.operand .assignment true) l e₁ s₁)
    (hr : g.ShowsAt depth indent (.operand .assignment false) r e₂ s₂) :
    ∃ e text, g.Shows (depth + 1) indent id (.augAssign l op r) e text := by
  have he : g.tree.expressionTo (depth + 1) id = some (.augAssign e₁ op e₂) := by
    simp [hn, hl.expression, hr.expression]
  refine ⟨_, _, .of_bare hn he (written_augAssign hop hl.placed hr.placed) rfl nofun ?_⟩
  refine bind_eq_ok.mpr ⟨s₁, hl.rendered, bind_eq_ok.mpr ⟨s₂, hr.rendered, ?_⟩⟩
  simp [String.append_assoc, pure, Except.pure]

theorem binaryText_infixed (h : op.isLevel ∨ op = .assign) (hcomma : op ≠ .comma) :
    binaryText op s₁ s₂ = s₁ ++ (" " ++ op.spelling ++ " ") ++ s₂ := by
  cases op <;> first
    | exact absurd h (by decide)
    | exact absurd rfl hcomma
    | simp [binaryText, String.append_assoc]

theorem level_operand (hop : op.isLevel) :
    (Expr.Place.operand op.precedence true).level = op.precedence.rank ∧
    (Expr.Place.operand op.precedence false).level = op.precedence.rank + 1 := by
  revert hop
  cases op <;> decide

theorem written_binary (hop : op.isLevel)
    (hl : Placed (· ∈ closers) (Expr.Place.operand op.precedence true).level s₁ e₁)
    (hr : Placed (· ∈ closers) (Expr.Place.operand op.precedence false).level s₂ e₂) :
    Written (.binary e₁ op e₂) (binaryText op s₁ s₂) := by
  rw [(level_operand hop).1] at hl
  rw [(level_operand hop).2] at hr
  by_cases hcomma : op = .comma
  · subst hcomma
    exact written_comma hl hr
  · rw [binaryText_infixed (.inl hop) hcomma]
    exact written_level hop hl hr

theorem shows_level (hn : g.tree.get? id = some (.binary l op r)) (hop : op.isLevel)
    (hl : g.ShowsAt depth indent (.operand op.precedence true) l e₁ s₁)
    (hr : g.ShowsAt depth indent (.operand op.precedence false) r e₂ s₂) :
    ∃ e text, g.Shows (depth + 1) indent id (.binary l op r) e text := by
  have he : g.tree.expressionTo (depth + 1) id = some (.binary e₁ op e₂) := by
    simp [hn, hl.expression, hr.expression]
  refine ⟨_, _, .of_bare hn he (written_binary hop hl.placed hr.placed) rfl nofun ?_⟩
  exact bind_eq_ok.mpr ⟨s₁, hl.rendered, bind_eq_ok.mpr ⟨s₂, hr.rendered, rfl⟩⟩

theorem shows_assign (hn : g.tree.get? id = some (.binary l .assign r))
    (hl : g.ShowsAt depth indent (.operand .assignment true) l e₁ s₁)
    (hr : g.ShowsAt depth indent (.operand .assignment false) r e₂ s₂) :
    ∃ e text, g.Shows (depth + 1) indent id (.binary l .assign r) e text := by
  have he : g.tree.expressionTo (depth + 1) id = some (.binary e₁ .assign e₂) := by
    simp [hn, hl.expression, hr.expression]
  have hw := written_assign hl.placed hr.placed
  rw [← binaryText_infixed (.inr rfl) (by decide)] at hw
  refine ⟨_, _, .of_bare hn he hw rfl nofun ?_⟩
  exact bind_eq_ok.mpr ⟨s₁, hl.rendered, bind_eq_ok.mpr ⟨s₂, hr.rendered, rfl⟩⟩

theorem shows_index (hn : g.tree.get? id = some (.binary l .index r))
    (hl : g.ShowsAt depth indent (.operand .suffix true) l e₁ s₁)
    (hr : g.ShowsAt depth indent .shielded r e₂ s₂) :
    ∃ e text, g.Shows (depth + 1) indent id (.binary l .index r) e text := by
  have he : g.tree.expressionTo (depth + 1) id = some (.binary e₁ .index e₂) := by
    simp [hn, hl.expression, hr.expression]
  refine ⟨_, _, .of_bare hn he (written_index hl.placed hr.placed) rfl nofun ?_⟩
  exact bind_eq_ok.mpr ⟨s₁, hl.rendered, bind_eq_ok.mpr ⟨s₂, hr.rendered, rfl⟩⟩

theorem shows_ternary (hn : g.tree.get? id = some (.ternary c t f))
    (hc : g.ShowsAt depth indent (.operand .ternary true) c e₁ s₁)
    (ht : g.ShowsAt depth indent .shielded t e₂ s₂)
    (hf : g.ShowsAt depth indent (.operand .ternary false) f e₃ s₃) :
    ∃ e text, g.Shows (depth + 1) indent id (.ternary c t f) e text := by
  have he : g.tree.expressionTo (depth + 1) id = some (.ternary e₁ e₂ e₃) := by
    simp [hn, hc.expression, ht.expression, hf.expression]
  refine ⟨_, _, .of_bare hn he (written_ternary hc.placed ht.placed hf.placed) rfl nofun ?_⟩
  exact bind_eq_ok.mpr ⟨s₁, hc.rendered, bind_eq_ok.mpr ⟨s₂, ht.rendered,
    bind_eq_ok.mpr ⟨s₃, hf.rendered, rfl⟩⟩⟩

theorem shows_arguments {args : List NodeId}
    (h : ∀ a ∈ args, ∃ e text, g.ShowsAt depth indent .argument a e text) :
    ∃ es texts, args.mapM (g.tree.expressionTo depth) = some es ∧
      renderEach (g.renderTo depth · indent) args = .ok texts ∧
      List.Forall₂ (Placed (· ∈ closers) (Precedence.rank .assignment)) texts es := by
  induction args with
  | nil => exact ⟨[], [], rfl, rfl, .nil⟩
  | cons a args ih =>
    obtain ⟨⟨e, text, ha⟩, hrest⟩ := List.forall_mem_cons.mp h
    obtain ⟨es, texts, hes, htexts, hall⟩ := ih hrest
    refine ⟨e :: es, text :: texts, ?_, ?_, .cons ha.placed hall⟩
    · simp [ha.expression, hes]
    · exact bind_eq_ok.mpr ⟨text, ha.rendered, bind_eq_ok.mpr ⟨texts, htexts, rfl⟩⟩

theorem shows_call {args : List NodeId} {ty : Option CType}
    (hn : g.tree.get? id = some (.call f args ty)) (hf : g.ShowsAt depth indent .callee f e₁ s₁)
    (ha : ∀ a ∈ args, ∃ e text, g.ShowsAt depth indent .argument a e text) :
    ∃ e text, g.Shows (depth + 1) indent id (.call f args ty) e text := by
  obtain ⟨es, texts, hes, htexts, hall⟩ := shows_arguments ha
  have he : g.tree.expressionTo (depth + 1) id = some (.call e₁ es) := by
    simp [hn, hf.expression, hes]
  refine ⟨_, _, .of_bare hn he (written_call hf.placed hall) rfl nofun ?_⟩
  exact bind_eq_ok.mpr ⟨s₁, hf.rendered,
    bind_eq_ok.mpr ⟨_, bind_eq_ok.mpr ⟨texts, htexts, rfl⟩, rfl⟩⟩

theorem shows_symbol {name : String} (hn : g.tree.get? id = some (.symbol name none false))
    (hname : Token.isIdentifier name.toList) :
    g.Shows (depth + 1) indent id (.symbol name none false) (.symbol name) name := by
  have he : g.tree.expressionTo (depth + 1) id = some (.symbol name) := by
    simp [hn]
  exact .of_bare hn he (written_symbol hname) rfl nofun rfl

theorem shows_constant {v : Int64} (hn : g.tree.get? id = some (.constant (.int v)))
    (hv : v ≠ Int64.minValue) :
    ∃ e text, g.Shows (depth + 1) indent id (.constant (.int v)) e text := by
  have he : g.tree.expressionTo (depth + 1) id = some (.literal v.toInt) := by
    simp [hn]
  refine ⟨_, _, .of_bare hn he (written_literal v.toInt) ?_ (fun _ _ => ⟨_, rfl⟩) ?_⟩
  · have hsign : v.toInt < 0 ↔ v < 0 := by rw [Int64.lt_iff_toInt_lt]; rfl
    simp [Expr.precedence?, Node.precedence?, Value.isNegative, hsign]
  · simp [bare, Value.literal, Literal.int, hv, pure, Except.pure]

theorem Shows.symbol_at {name : String}
    (h : g.Shows depth indent r (.symbol name none false) e text) :
    g.renderTo depth r indent = .ok text := by
  rw [h.rendered]
  rfl

theorem shows_member {name : String} {stop : Char → Prop}
    (hn : g.tree.get? id = some (.binary l op r)) (hop : op.isMember)
    (hl : g.tree.expressionTo depth l = some e₁) (hs : g.renderTo depth l indent = .ok s₁)
    (hp : Placed stop (Precedence.rank .suffix) s₁ e₁) {c : Char}
    (hc : op.spelling.toList.head? = some c) (hstop : stop c)
    (hname : Token.isIdentifier name.toList)
    (hr : g.Shows depth indent r (.symbol name none false) (.symbol name) name) :
    ∃ e text, g.Shows (depth + 1) indent id (.binary l op r) e text := by
  have he : g.tree.expressionTo (depth + 1) id = some (.binary e₁ op (.symbol name)) := by
    simp [hn, hl, hr.expression]
  have htext : binaryText op s₁ name = s₁ ++ op.spelling ++ name := by
    revert hop
    cases op <;> first | exact fun _ => rfl | nofun
  have hw := written_member hop hname hp hc hstop
  rw [← htext] at hw
  refine ⟨_, _, .of_bare hn he hw rfl nofun ?_⟩
  exact bind_eq_ok.mpr ⟨s₁, hs, bind_eq_ok.mpr ⟨name, hr.symbol_at, rfl⟩⟩

end

theorem isBinary_cases {op : Operator} (h : op.isBinary) :
    op.isLevel ∨ op = .assign ∨ op = .index ∨ op.isMember := by
  revert h
  cases op <;> decide

structure ShowsBelow (g : Renderer) (depth indent : Nat) (id : NodeId) (node : Node) : Prop where
  found : g.tree.get? id = some node
  distinct : node.children.Nodup
  linked : ∀ c ∈ node.children, g.tree.parent? c = some id
  shown : ∀ c ∈ node.children, ∃ child e text, g.tree.get? c = some child ∧
    g.Shows depth indent c child e text

namespace ShowsBelow

variable {l r : NodeId} {op : Operator}

theorem place (h : g.ShowsBelow depth indent id node) {c : NodeId} (hc : c ∈ node.children)
    (p : Expr.Place) (hp : node.encloses c = p.encloses) :
    ∃ e text, g.ShowsAt depth indent p c e text := by
  obtain ⟨_, e, text, _, hs⟩ := h.shown c hc
  exact ⟨e, _, hs.expression, hs.placed (h.linked c hc) h.found hp, hs.written.placed p⟩

theorem left_ne_right (h : g.ShowsBelow depth indent id (.binary l op r)) : l ≠ r := by
  simpa [Node.children, Node.slots, Slot.ids] using h.distinct

/-- A literal would take a point behind it in; everything else ends before it. -/
theorem member {name : String} (h : g.ShowsBelow depth indent id (.binary l op r))
    (hop : op.isMember) (hsymbol : g.tree.get? r = some (.symbol name none false))
    (hname : Token.isIdentifier name.toList)
    (hpoint : op = .dot → ∀ v, g.tree.get? l ≠ some (.constant v)) :
    ∃ e text, g.Shows (depth + 1) indent id (.binary l op r) e text := by
  have hl : l ∈ (Node.binary l op r).children := by simp [Node.children, Node.slots, Slot.ids]
  have hr : r ∈ (Node.binary l op r).children := by simp [Node.children, Node.slots, Slot.ids]
  have hplace : (Node.binary l op r).encloses l =
      (Expr.Place.operand op.precedence true).encloses := Node.encloses_left h.left_ne_right
  have hright : g.Shows depth indent r (.symbol name none false) (.symbol name) name := by
    obtain ⟨_, _, _, _, hs⟩ := h.shown r hr
    cases depth with
    | zero => cases hs.expression
    | succ depth => exact shows_symbol hsymbol hname
  have hcases : op = .dot ∨ op = .arrow := by simpa [Operator.isMember] using hop
  rcases hcases with rfl | rfl
  · obtain ⟨child, e, text, hchild, hs⟩ := h.shown l hl
    have hlit : ∀ v, e ≠ .literal v := by
      intro v hv
      obtain ⟨c, rfl⟩ := hs.literal v hv
      exact hpoint rfl c hchild
    exact shows_member h.found hop hs.expression (hs.placed (h.linked l hl) h.found hplace)
      (hs.written.before_point hlit) rfl (.inr rfl) hname hright
  · obtain ⟨e, s, hat⟩ := h.place hl _ hplace
    exact shows_member h.found hop hat.expression hat.rendered hat.placed rfl (by decide) hname
      hright

theorem binary (h : g.ShowsBelow depth indent id (.binary l op r)) (hop : op.isBinary)
    (hmember : op.isMember → ∃ name, g.tree.get? r = some (.symbol name none false) ∧
      Token.isIdentifier name.toList)
    (hpoint : op = .dot → ∀ v, g.tree.get? l ≠ some (.constant v)) :
    ∃ e text, g.Shows (depth + 1) indent id (.binary l op r) e text := by
  have hr : r ∈ (Node.binary l op r).children := by simp [Node.children, Node.slots, Slot.ids]
  obtain ⟨e₁, s₁, hleft⟩ := h.place (by simp [Node.children, Node.slots, Slot.ids]) _
    (Node.encloses_left h.left_ne_right)
  rcases isBinary_cases hop with hop | rfl | rfl | hop
  · have hindex : op ≠ .index := by rintro rfl; cases hop
    obtain ⟨e₂, s₂, hright⟩ := h.place hr _ (Node.encloses_right h.left_ne_right hindex)
    exact shows_level h.found hop hleft hright
  · obtain ⟨e₂, s₂, hright⟩ := h.place hr _ (Node.encloses_right h.left_ne_right (by decide))
    exact shows_assign h.found hleft hright
  · obtain ⟨e₂, s₂, hright⟩ := h.place hr _ Node.encloses_subscript
    exact shows_index h.found hleft hright
  · obtain ⟨name, hsymbol, hname⟩ := hmember hop
    exact h.member hop hsymbol hname hpoint

end ShowsBelow

theorem shows_of_legible {P : NodeId → Prop} (hb : g.registry = .builtin) (h : g.tree.Legible P)
    (hi : P id) (hn : g.tree.get? id = some node) (hw : g.tree.Within depth id) :
    ∃ e text, g.Shows depth indent id node e text := by
  -- by induction on the levels below, one case for each kind of node
  induction depth generalizing id node with
  | zero => exact hw.elim
  | succ depth ih =>
    obtain ⟨node', hn', hdeep⟩ := hw
    obtain rfl := Option.some.inj (hn.symm.trans hn')
    have hread := h.node id node hi hn
    have hsuits := h.operator id node hi hn
    have below : g.ShowsBelow depth indent id node := by
      refine ⟨hn, h.distinct id node hi hn, fun c hc => (h.child id node hi hn c hc).2,
        fun c hc => ?_⟩
      obtain ⟨child, hchild⟩ := (hdeep c hc).resolves
      obtain ⟨e, text, hs⟩ := ih (h.child id node hi hn c hc).1 hchild (hdeep c hc)
      exact ⟨child, e, text, hchild, hs⟩
    -- siblings are distinct, so that an id tells its place
    have hnodup := below.distinct
    have place := fun c (hc : c ∈ node.children) => below.place hc
    cases node <;> simp only [Node.children, Node.slots, Slot.ids, List.flatMap_cons,
      List.flatMap_nil, List.append_nil, List.singleton_append, List.nodup_cons, List.mem_cons,
      List.not_mem_nil, or_false] at hnodup place
    case unary op arg =>
      obtain ⟨e, s, harg⟩ := place arg rfl _ Node.encloses_unary
      exact shows_unary hn hsuits harg
    case binary left op right =>
      refine below.binary hsuits (fun hop => ?_) ?_
      · obtain ⟨name, hsymbol⟩ := h.member id left op right hi hn hop
        have hright := h.child id _ hi hn right (by simp [Node.children, Node.slots, Slot.ids])
        exact ⟨name, hsymbol, h.node right _ hright.1 hsymbol⟩
      · rintro rfl v
        exact h.point id left right v hi hn
    case augAssign target op value =>
      obtain ⟨e₁, s₁, ht⟩ := place target (.inl rfl) _ Node.encloses_target
      obtain ⟨e₂, s₂, hv⟩ := place value (.inr rfl) _ (Node.encloses_value hnodup.1)
      exact shows_augAssign hn hsuits ht hv
    case ternary cond thenValue elseValue =>
      obtain ⟨hc, ht, -⟩ := hnodup
      rw [not_or] at hc
      obtain ⟨e₁, s₁, hcond⟩ := place cond (.inl rfl) _ (Node.encloses_cond hc.1 hc.2)
      obtain ⟨e₂, s₂, hthen⟩ := place thenValue (.inr (.inl rfl)) _ Node.encloses_then
      obtain ⟨e₃, s₃, helse⟩ := place elseValue (.inr (.inr rfl)) _ (Node.encloses_else ht)
      exact shows_ternary hn hcond hthen helse
    case cast ty value =>
      obtain ⟨e, s, hv⟩ := place value rfl _ Node.encloses_cast
      exact shows_cast hb hn hv
    case call func args ty =>
      obtain ⟨e, s, hf⟩ := place func (.inl rfl) _ Node.encloses_callee
      refine shows_call hn hf fun a ha => ?_
      exact place a (.inr ha) _ (Node.encloses_argument fun he => hnodup.1 (he ▸ ha))
    case symbol name ty isConst =>
      obtain ⟨rfl, rfl, hname⟩ := Node.isReadable_symbol hread
      exact ⟨_, _, shows_symbol hn hname⟩
    case constant value =>
      obtain ⟨v, rfl, hv⟩ := Node.isReadable_constant hread
      exact shows_constant hn hv
    all_goals cases hread

theorem shows_of_reach {root : NodeId} (hb : g.registry = .builtin) (h : g.tree.Readable root)
    (hi : g.tree.Reach root id) (hn : g.tree.get? id = some node) (hw : g.tree.Within depth id) :
    ∃ e text, g.Shows depth indent id node e text :=
  shows_of_legible hb h.legible hi hn hw

end Renderer

namespace Tree

/-- The text of an expression is in the grammar, and the expression is the only one it reads as. -/
theorem rendered_expression_reads_back {t : Tree} {root : NodeId} (h : t.Readable root)
    (rules : RenderRules) :
    ∃ text e, Renderer.render ⟨t, .builtin, rules⟩ root = .ok text ∧ t.expression? root = some e ∧
      readExpr text = some e ∧ ∀ e', Reads text e' ↔ e' = e := by
  have hregion := (wellFormed_of_validate h.valid).region
  obtain ⟨node, hn⟩ := hregion.resolves root .refl
  have hshows : ∃ e text, Renderer.Shows ⟨t, .builtin, rules⟩ (t.size + 1) 0 root node e text :=
    Renderer.shows_of_reach rfl h .refl hn (hregion.within .refl).succ
  obtain ⟨e, text, hs⟩ := hshows
  have hbare : t.needsParens root node = false := by
    simp [needsParens, h.parentless]
  have hrender : Renderer.render ⟨t, .builtin, rules⟩ root = .ok text :=
    hs.rendered.trans (by simp [hbare])
  have hreads : Reads text e := by
    obtain ⟨ts, hspell, hd⟩ := hs.written
    rw [Reads, hspell.lex_eq]
    exact hd.looser (Nat.zero_le _)
  refine ⟨text, e, hrender, hs.expression, hreads.readExpr_eq, fun e' => ⟨?_, ?_⟩⟩
  · exact fun h' => h'.unique hreads
  · rintro rfl
    exact hreads

/-- `a = b ? x --->y : (unsigned int*) f((p, -3), - 5)[i, j] * (c + d).z` -/
def tangled : Tree :=
  ⟨#[⟨.binary 1 .assign 2, none⟩, ⟨.symbol "a" none false, some 0⟩, ⟨.ternary 3 4 8, some 0⟩,
    ⟨.symbol "b" none false, some 2⟩, ⟨.binary 5 .arrow 7, some 2⟩, ⟨.unary .postDec 6, some 4⟩,
    ⟨.symbol "x" none false, some 5⟩, ⟨.symbol "y" none false, some 4⟩, ⟨.binary 9 .mul 20, some 2⟩,
    ⟨.cast (.pointer (.scalar .uint)) 10, some 8⟩, ⟨.binary 11 .index 17, some 9⟩,
    ⟨.call 12 [13, 16] (some (.scalar .int)), some 10⟩, ⟨.symbol "f" none false, some 11⟩,
    ⟨.binary 14 .comma 15, some 11⟩, ⟨.symbol "p" none false, some 13⟩,
    ⟨.constant (.int (-3)), some 13⟩, ⟨.unary .neg 21, some 11⟩, ⟨.binary 18 .comma 19, some 10⟩,
    ⟨.symbol "i" none false, some 17⟩, ⟨.symbol "j" none false, some 17⟩,
    ⟨.binary 22 .dot 23, some 8⟩, ⟨.constant (.int 5), some 16⟩, ⟨.binary 24 .add 25, some 20⟩,
    ⟨.symbol "z" none false, some 20⟩, ⟨.symbol "c" none false, some 22⟩,
    ⟨.symbol "d" none false, some 22⟩], 0⟩

theorem tangled_readable : tangled.Readable 0 := by
  refine ⟨by decide +kernel, rfl, ?_, ?_, ?_⟩
  · intro id node _ hn
    have hall : ∀ e ∈ tangled.entries.toList, e.node.isReadable := by decide
    obtain ⟨e, he, rfl⟩ := entry_of_get? hn
    exact hall e he
  · intro id left op right _ hn hop
    obtain ⟨e, he, hnode⟩ := entry_of_get? hn
    fin_cases he <;> cases hnode <;> cases hop
    · exact ⟨"y", rfl⟩
    · exact ⟨"z", rfl⟩
  · intro id left right v _ hn hv
    obtain ⟨e, he, hnode⟩ := entry_of_get? hn
    fin_cases he <;> cases hnode
    cases hv

theorem tangled_reads_back :
    tangled.Readable 0 ∧ ∃ text e,
      text = "a = b ? x --->y : (unsigned int*) f((p, -3), - 5)[i, j] * (c + d).z" ∧
      Renderer.render ⟨tangled, .builtin, .empty⟩ 0 = .ok text ∧ tangled.expression? 0 = some e ∧
      readExpr text = some e ∧ ∀ e', Reads text e' ↔ e' = e := by
  obtain ⟨text, e, hrender, he, hread, hunique⟩ :=
    rendered_expression_reads_back tangled_readable .empty
  have htext : Renderer.render ⟨tangled, .builtin, .empty⟩ 0 =
      .ok "a = b ? x --->y : (unsigned int*) f((p, -3), - 5)[i, j] * (c + d).z" := by rfl
  have hsame := Except.ok.inj (hrender.symm.trans htext)
  exact ⟨tangled_readable, text, e, hsame, hrender, he, hread, hunique⟩

end Tree
end Arbor
