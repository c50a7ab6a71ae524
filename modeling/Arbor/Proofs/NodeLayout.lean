import Arbor.Proofs.Grammar.MissingParens
import Arbor.Proofs.ReadBack

/-!
How a node lays out its children.

`Node.Forms` says that a node is of the kind of an expression, with children for its parts. The
children then stand in the places of the parts (`Forms.children`), and the text of the node is
that of its children with the fixed text of the expression (`Forms.bare_eq`).
-/
namespace Arbor

open Grammar Token
open Expr (Place Part)

/-- The node is of the kind of the expression, and its children are related to the parts. -/
inductive Node.Forms (E : NodeId → Expr → Prop) : Node → Expr → Prop where
  | symbol (name) : Forms E (.symbol name none false) (.symbol name)
  | constant (v : Int64) : Forms E (.constant (.int v)) (.literal v.toInt)
  | unary {op arg e} : E arg e → Forms E (.unary op arg) (.unary op e)
  | binary {left op right l r} : E left l → E right r →
      Forms E (.binary left op right) (.binary l op r)
  | augAssign {target op value l r} : E target l → E value r →
      Forms E (.augAssign target op value) (.augAssign l op r)
  | ternary {cond thenValue elseValue c t e} : E cond c → E thenValue t → E elseValue e →
      Forms E (.ternary cond thenValue elseValue) (.ternary c t e)
  | cast {ty value e} : E value e → Forms E (.cast ty value) (.cast ty e)
  | call {func args ty f es} : E func f → List.Forall₂ E args es →
      Forms E (.call func args ty) (.call f es)

/-- The expression under an id is made of those under the children. -/
theorem Tree.forms_of_expressionTo {t : Tree} {depth : Nat} {id : NodeId} {node : Node} {e : Expr}
    (hn : t.get? id = some node) (he : t.expressionTo (depth + 1) id = some e) :
    node.Forms (fun c e => t.expressionTo depth c = some e) e := by
  simp only [expressionTo, hn] at he
  split at he
  · next heq =>
    cases heq
    cases he
    exact .symbol _
  · next heq =>
    cases heq
    cases he
    exact .constant _
  · next heq =>
    cases heq
    obtain ⟨e₁, h₁, he⟩ := Option.bind_eq_some_iff.mp he
    cases he
    exact .unary h₁
  · next heq =>
    cases heq
    obtain ⟨e₁, h₁, he⟩ := Option.bind_eq_some_iff.mp he
    obtain ⟨e₂, h₂, he⟩ := Option.bind_eq_some_iff.mp he
    cases he
    exact .binary h₁ h₂
  · next heq =>
    cases heq
    obtain ⟨e₁, h₁, he⟩ := Option.bind_eq_some_iff.mp he
    obtain ⟨e₂, h₂, he⟩ := Option.bind_eq_some_iff.mp he
    cases he
    exact .augAssign h₁ h₂
  · next heq =>
    cases heq
    obtain ⟨e₁, h₁, he⟩ := Option.bind_eq_some_iff.mp he
    obtain ⟨e₂, h₂, he⟩ := Option.bind_eq_some_iff.mp he
    obtain ⟨e₃, h₃, he⟩ := Option.bind_eq_some_iff.mp he
    cases he
    exact .ternary h₁ h₂ h₃
  · next heq =>
    cases heq
    obtain ⟨e₁, h₁, he⟩ := Option.bind_eq_some_iff.mp he
    cases he
    exact .cast h₁
  · next heq =>
    cases heq
    obtain ⟨e₁, h₁, he⟩ := Option.bind_eq_some_iff.mp he
    obtain ⟨es, hes, he⟩ := Option.bind_eq_some_iff.mp he
    cases he
    exact .call h₁ (mapM_eq_some_iff.mp hes)
  · cases he

namespace Node.Forms

variable {E : NodeId → Expr → Prop} {node : Node} {e : Expr}

theorem suits (h : Forms E node e) (hs : node.OperatorSuits) : e.suits := by
  cases h <;> first | exact hs | rfl

theorem children_arguments {func : NodeId} {args : List NodeId} {es : List Expr}
    (ty : Option CType) (all : List NodeId) (h : List.Forall₂ E args es) (hfunc : func ∉ args) :
    List.Forall₂ (fun c p => E c p.expr ∧
      (Node.call func all ty).encloses c = p.place.encloses) args (Expr.arguments es) := by
  induction h with
  | nil => exact .nil
  | @cons a e args es ha hargs ih =>
    rw [List.mem_cons, not_or] at hfunc
    have hplace : (Node.call func all ty).encloses a = Place.argument.encloses :=
      Node.encloses_argument hfunc.1
    cases hargs with
    | nil => exact .cons ⟨ha, hplace⟩ .nil
    | cons hb hbs => exact .cons ⟨ha, hplace⟩ (ih hfunc.2)

theorem children (h : Forms E node e) (hn : node.children.Nodup) :
    List.Forall₂ (fun c p => E c p.expr ∧ node.encloses c = p.place.encloses) node.children
      e.parts := by
  cases h with
  | symbol | constant => exact .nil
  | unary ha =>
    rw [Expr.parts]
    split <;> exact .cons ⟨ha, Node.encloses_unary⟩ .nil
  | @binary left op right l r hl hr =>
    have hne : left ≠ right := by simpa [Node.children, Node.slots, Slot.ids] using hn
    rw [Expr.parts]
    split
    · next hindex =>
      subst hindex
      exact .cons ⟨hl, Node.encloses_left hne⟩ (.cons ⟨hr, Node.encloses_subscript⟩ .nil)
    · next hindex =>
      exact .cons ⟨hl, Node.encloses_left hne⟩ (.cons ⟨hr, Node.encloses_right hne hindex⟩ .nil)
  | @augAssign target op value l r hl hr =>
    have hne : target ≠ value := by simpa [Node.children, Node.slots, Slot.ids] using hn
    exact .cons ⟨hl, Node.encloses_target⟩ (.cons ⟨hr, Node.encloses_value hne⟩ .nil)
  | @ternary cond thenValue elseValue c t e hc ht he =>
    have hne : (cond ≠ thenValue ∧ cond ≠ elseValue) ∧ thenValue ≠ elseValue := by
      simpa [Node.children, Node.slots, Slot.ids] using hn
    exact .cons ⟨hc, Node.encloses_cond hne.1.1 hne.1.2⟩ (.cons ⟨ht, Node.encloses_then⟩
      (.cons ⟨he, Node.encloses_else hne.2⟩ .nil))
  | cast hv => exact .cons ⟨hv, Node.encloses_cast⟩ .nil
  | @call func args ty f es hf hargs =>
    have hchildren : (Node.call func args ty).children = func :: args := by
      simp [Node.children, Node.slots, Slot.ids]
    rw [hchildren] at hn ⊢
    have hrest := children_arguments ty args hargs (List.nodup_cons.mp hn).1
    cases es with
    | nil => exact .cons ⟨hf, Node.encloses_callee⟩ hrest
    | cons => exact .cons ⟨hf, Node.encloses_callee⟩ hrest

theorem binaryText_between {op : Operator} {s t : String} (hindex : op ≠ .index) :
    Renderer.binaryText op s t = s ++ op.between ++ t := by
  cases op <;> first
    | exact absurd rfl hindex
    | rfl
    | simp [Renderer.binaryText, Operator.between, String.append_assoc]

theorem weave_arguments {es : List Expr} {texts : List (List Char)}
    (hlen : es.length = texts.length) (hne : es ≠ []) :
    weave Part.chars (Expr.arguments es) texts =
      (", ".intercalate (texts.map String.ofList)).toList ++ [')'] := by
  induction es generalizing texts with
  | nil => exact absurd rfl hne
  | cons e es ih =>
    obtain ⟨cs, texts, rfl⟩ := List.exists_cons_of_length_eq_add_one hlen.symm
    cases es with
    | nil =>
      obtain rfl := List.length_eq_zero_iff.mp (Nat.succ.inj hlen).symm
      simp [weave, Expr.arguments, Part.chars]
    | cons e' es =>
      rw [Expr.arguments, weave, ih (Nat.succ.inj hlen) (List.cons_ne_nil _ _)]
      obtain ⟨ds, texts, rfl⟩ := List.exists_cons_of_length_eq_add_one (Nat.succ.inj hlen).symm
      simp [Part.chars, String.toList_intercalate, List.intercalate]

section

variable {g : Renderer} {render : NodeId → Nat → Renderer.Result} {id : NodeId} {indent : Nat}

theorem renderEach_eq {ids : List NodeId} {texts : List (List Char)}
    (h : List.Forall₂ (fun c cs => render c indent = .ok (String.ofList cs)) ids texts) :
    Renderer.renderEach (render · indent) ids = .ok (texts.map String.ofList) := by
  induction h with
  | nil => rfl
  | cons hc _ ih => exact bind_eq_ok.mpr ⟨_, hc, bind_eq_ok.mpr ⟨_, ih, rfl⟩⟩

theorem bare_eq {texts : List (List Char)} (hb : g.registry = .builtin) (h : Forms E node e)
    (hp : e.parts ≠ []) (htexts : List.Forall₂
      (fun c cs => render c indent = .ok (String.ofList cs)) node.children texts) :
    g.bare render id node indent =
      .ok (String.ofList (e.lead.toList ++ weave Part.chars e.parts texts)) := by
  cases h with
  | symbol | constant => exact absurd rfl hp
  | @unary op arg e ha =>
    obtain ⟨cs, _, harg, hnil, rfl⟩ := List.forall₂_cons_left_iff.mp htexts
    cases hnil
    refine bind_eq_ok.mpr ⟨_, harg, congrArg Except.ok (String.toList_injective ?_)⟩
    cases hafter : op.standsAfter <;> simp [Expr.parts, Expr.lead, hafter, weave, Part.chars]
  | @binary left op right l r hl hr =>
    obtain ⟨cs, _, hleft, hrest, rfl⟩ := List.forall₂_cons_left_iff.mp htexts
    obtain ⟨ds, _, hright, hnil, rfl⟩ := List.forall₂_cons_left_iff.mp hrest
    cases hnil
    refine bind_eq_ok.mpr ⟨_, hleft, bind_eq_ok.mpr ⟨_, hright,
      congrArg Except.ok (String.toList_injective ?_)⟩⟩
    by_cases hindex : op = .index
    · subst hindex
      simp [Renderer.binaryText, Expr.parts, Expr.lead, weave, Part.chars]
    · simp [binaryText_between hindex, Expr.parts, hindex, Expr.lead, weave, Part.chars]
  | @augAssign target op value l r hl hr =>
    obtain ⟨cs, _, hleft, hrest, rfl⟩ := List.forall₂_cons_left_iff.mp htexts
    obtain ⟨ds, _, hright, hnil, rfl⟩ := List.forall₂_cons_left_iff.mp hrest
    cases hnil
    refine bind_eq_ok.mpr ⟨_, hleft, bind_eq_ok.mpr ⟨_, hright,
      congrArg Except.ok (String.toList_injective ?_)⟩⟩
    simp [Expr.parts, Expr.lead, weave, Part.chars]
  | @ternary cond thenValue elseValue c t e hc ht he =>
    obtain ⟨cs, _, hcond, hrest, rfl⟩ := List.forall₂_cons_left_iff.mp htexts
    obtain ⟨ds, _, hthen, hlast, rfl⟩ := List.forall₂_cons_left_iff.mp hrest
    obtain ⟨us, _, helse, hnil, rfl⟩ := List.forall₂_cons_left_iff.mp hlast
    cases hnil
    refine bind_eq_ok.mpr ⟨_, hcond, bind_eq_ok.mpr ⟨_, hthen, bind_eq_ok.mpr ⟨_, helse,
      congrArg Except.ok (String.toList_injective ?_)⟩⟩⟩
    simp [Expr.parts, Expr.lead, weave, Part.chars]
  | @cast ty value e hv =>
    obtain ⟨cs, _, hvalue, hnil, rfl⟩ := List.forall₂_cons_left_iff.mp htexts
    cases hnil
    have hspelled : g.spell ty = .ok ty.display := by
      rw [Renderer.spell, hb, TypeRegistry.spell_builtin]
    refine bind_eq_ok.mpr ⟨_, hspelled, bind_eq_ok.mpr ⟨_, hvalue,
      congrArg Except.ok (String.toList_injective ?_)⟩⟩
    simp [Expr.parts, Expr.lead, weave, Part.chars]
  | @call func args ty f es hf hargs =>
    have hchildren : (Node.call func args ty).children = func :: args := by
      simp [Node.children, Node.slots, Slot.ids]
    rw [hchildren] at htexts
    obtain ⟨cs, texts, hfunc, hrest, rfl⟩ := List.forall₂_cons_left_iff.mp htexts
    have hlist := renderEach_eq hrest
    refine bind_eq_ok.mpr ⟨_, hfunc, bind_eq_ok.mpr ⟨_, bind_eq_ok.mpr ⟨_, hlist, rfl⟩,
      congrArg Except.ok (String.toList_injective ?_)⟩⟩
    have hlen := hargs.length_eq.symm.trans hrest.length_eq
    cases es with
    | nil =>
      obtain rfl := List.length_eq_zero_iff.mp hlen.symm
      simp [Expr.parts, Expr.lead, weave, Part.chars]
    | cons e es =>
      have hwoven := weave_arguments hlen (List.cons_ne_nil _ _)
      simp [Expr.parts, Expr.lead, weave, Part.chars, hwoven]

end

end Node.Forms

end Arbor
