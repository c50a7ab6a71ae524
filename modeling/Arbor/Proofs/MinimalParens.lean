import Arbor.Proofs.NodeLayout
import Arbor.Proofs.Reload

/-!
No pair of parentheses can be left out.

Without its parent link a node is printed without parentheses of its own, and nothing else in the
text changes. So the text around a node, with and without its pair, is compared by rendering the
tree with and without the link. Along the way from the root to the node, the text without the pair
stays `Faulty`: the node is looser than the grammar has it at its place. The only pairs that this
does not hold of are those around the operand of an operator that stands before it, if the operand
has the same class.
-/
namespace Arbor

open Grammar Token
open Precedence (rank)
open Expr (Place Part)

theorem Tree.needsParens_setParent {t : Tree} {x id : NodeId} {p : Option NodeId} {node : Node}
    (h : id ≠ x) : (t.setParent x p).needsParens id node = t.needsParens id node := by
  simp only [needsParens, parent?_setParent, h, false_and, if_false, get?_setParent]

theorem Tree.needsParens_unlinked {t : Tree} {x : NodeId} {node : Node}
    (h : t.get? x = some node) : (t.setParent x none).needsParens x node = false := by
  have hparent : (t.setParent x none).parent? x = none := by
    rw [parent?_setParent, if_pos ⟨rfl, lt_size_of_get? h⟩]
  simp [needsParens, hparent]

theorem Tree.WellLinked.no_sibling {t : Tree} {root id c x : NodeId} {cs cs' : List NodeId}
    (h : t.WellLinked root) (hi : t.Reach root id) (hsplit : t.childrenOf id = cs ++ c :: cs')
    (hx : t.Reach c x) : ∀ s, s ∈ cs ∨ s ∈ cs' → ¬ t.Reach s x := by
  have hapart := h.children_apart hi
  rw [hsplit, List.pairwise_append, List.pairwise_cons] at hapart
  obtain ⟨-, ⟨hafter, -⟩, hbefore⟩ := hapart
  rintro s (hs | hs) hsx
  · exact hbefore s hs c List.mem_cons_self x hsx hx
  · exact hafter s hs x hx hsx

namespace Renderer

def unlink (g : Renderer) (x : NodeId) : Renderer := { g with tree := g.tree.setParent x none }

/-- Rendering depends on nodes and parentheses only, and not on how many levels are allowed for. -/
theorem renderTo_alike {g g' : Renderer} {c : NodeId} {levels depth depth' indent : Nat}
    (hregistry : g'.registry = g.registry) (hrules : g'.rules = g.rules)
    (hget : g'.tree.get? = g.tree.get?) (hparens : ∀ y node, g.tree.Reach c y →
      g'.tree.needsParens y node = g.tree.needsParens y node)
    (hw : g.tree.Within levels c) (hdepth : levels ≤ depth) (hdepth' : levels ≤ depth') :
    g'.renderTo depth' c indent = g.renderTo depth c indent := by
  have hregion : ∀ y, g.tree.Reach c y → ∃ node, Corresponds id g g' y node := by
    intro y hy
    obtain ⟨node, hn⟩ := (hw.reach hy).resolves
    refine ⟨node, hn, ?_, fun _ => rfl, ?_⟩
    · rw [Node.mapChildren_id, hget]
      exact hn
    · rw [Node.mapChildren_id]
      exact hparens y node hy
  exact renderTo_renumbered hregistry hrules hregion hdepth hdepth' indent .refl hw

theorem renderTo_levels {g : Renderer} {c : NodeId} {m n indent : Nat} (hm : g.tree.Within m c)
    (hn : g.tree.Within n c) : g.renderTo m c indent = g.renderTo n c indent := by
  rcases Nat.le_total m n with hle | hle
  · exact renderTo_alike rfl rfl rfl (fun _ _ _ => rfl) hm hle (Nat.le_refl _)
  · exact renderTo_alike rfl rfl rfl (fun _ _ _ => rfl) hn (Nat.le_refl _) hle

theorem renderTo_unlink {g : Renderer} {x c : NodeId} {depth indent : Nat}
    (hw : g.tree.Within depth c) (hx : ¬ g.tree.Reach c x) :
    (g.unlink x).renderTo depth c indent = g.renderTo depth c indent := by
  refine renderTo_alike rfl rfl (funext fun y => Tree.get?_setParent ..) (fun y node hy => ?_) hw
    (Nat.le_refl _) (Nat.le_refl _)
  refine Tree.needsParens_setParent ?_
  rintro rfl
  exact hx hy

variable {g : Renderer} {root x id : NodeId} {node : Node} {depth : Nat} {e : Expr}

theorem renderTo_enclosed {text : String} {indent : Nat} (hn : g.tree.get? id = some node)
    (h : g.bare (g.renderTo depth) id node indent = .ok text) :
    g.renderTo (depth + 1) id indent =
      .ok (if g.tree.needsParens id node then "(" ++ text ++ ")" else text) := by
  refine bind_eq_ok.mpr ⟨node, ?_, bind_eq_ok.mpr ⟨text, h, rfl⟩⟩
  simp only [Renderer.node, Tree.node_eq_ok.mpr hn]

theorem showsBelow (hb : g.registry = .builtin) (h : g.tree.Readable root)
    (hi : g.tree.Reach root id) (hn : g.tree.get? id = some node)
    (hw : ∀ c ∈ node.children, g.tree.Within depth c) : g.ShowsBelow depth 0 id node := by
  have hlegible := h.legible
  refine ⟨hn, hlegible.distinct id node hi hn, fun c hc => (hlegible.child id node hi hn c hc).2,
    fun c hc => ?_⟩
  obtain ⟨child, hchild⟩ := (hw c hc).resolves
  obtain ⟨e, text, hs⟩ : ∃ e text, g.Shows depth 0 c child e text :=
    shows_of_reach hb h (hlegible.child id node hi hn c hc).1 hchild (hw c hc)
  exact ⟨child, e, text, hchild, hs⟩

def Common (g : Renderer) (x : NodeId) (depth : Nat) (c : NodeId) (cs : List Char) : Prop :=
  g.renderTo depth c 0 = .ok (String.ofList cs) ∧
    (g.unlink x).renderTo depth c 0 = .ok (String.ofList cs)

theorem exists_common (below : g.ShowsBelow depth 0 id node)
    (hw : ∀ c ∈ node.children, g.tree.Within depth c) {cs : List NodeId} {ps : List Part}
    (h : List.Forall₂ (fun c p => g.tree.expressionTo depth c = some p.expr ∧
      node.encloses c = p.place.encloses) cs ps)
    (hcs : ∀ c ∈ cs, c ∈ node.children ∧ ¬ g.tree.Reach c x) :
    ∃ texts, List.Forall₂ (g.Common x depth) cs texts ∧ List.Forall₂ Sounds ps texts := by
  induction h with
  | nil => exact ⟨[], .nil, .nil⟩
  | @cons c p cs ps hp _ ih =>
    obtain ⟨⟨hmem, hx⟩, hrest⟩ := List.forall_mem_cons.mp hcs
    obtain ⟨texts, hcommon, hsounds⟩ := ih hrest
    obtain ⟨e, text, hat⟩ := below.place hmem p.place hp.2
    obtain rfl : e = p.expr := Option.some.inj (hat.expression.symm.trans hp.1)
    obtain ⟨ts, hspell, hd⟩ := hat.placed
    have hrendered : g.renderTo depth c 0 = .ok (String.ofList text.toList) := by
      rw [String.ofList_toList]
      exact hat.rendered
    refine ⟨text.toList :: texts, .cons ⟨hrendered, ?_⟩ hcommon,
      .cons ⟨ts, hspell, hd.prints⟩ hsounds⟩
    rw [renderTo_unlink (hw c hmem) hx]
    exact hrendered

/-- The text of the node itself, without the pair, which is too loose for any tighter level. -/
theorem exists_inside (hb : g.registry = .builtin) (h : g.tree.Readable root)
    (hi : g.tree.Reach root x) (hn : g.tree.get? x = some node)
    (hw : ∀ c ∈ node.children, g.tree.Within depth c)
    (he : g.tree.expressionTo (depth + 1) x = some e) (hclass : e.precedence? ≠ none) :
    ∃ inside, g.bare (g.renderTo depth) x node 0 = .ok (String.ofList inside) ∧
      (g.unlink x).bare ((g.unlink x).renderTo depth) x node 0 = .ok (String.ofList inside) ∧
      ∀ k, e.level < k → Faulty k inside e := by
  have hforms := Tree.forms_of_expressionTo hn he
  have hwell := Tree.wellFormed_of_validate h.valid
  by_cases hp : e.parts = []
  · rcases Expr.leaf_of_parts hp with ⟨name, rfl⟩ | ⟨v, rfl⟩
    · exact absurd rfl hclass
    · cases hforms with
      | constant v =>
        obtain ⟨_, hint, hv⟩ := Node.isReadable_constant (h.node x _ hi hn)
        cases hint
        obtain ⟨t, hspell, ht⟩ := spells_literal v.toInt
        refine ⟨(toString v.toInt).toList, ?_, ?_, fun k hlevel => .leaf rfl hspell ht hlevel⟩ <;>
          simp [bare, Value.literal, Literal.int, hv, pure, Except.pure]
  · have below := showsBelow hb h hi hn hw
    have hside : ∀ c ∈ node.children, c ∈ node.children ∧ ¬ g.tree.Reach c x := by
      intro c hc
      refine ⟨hc, fun hback => hwell.region.acyclic hi (.head' ?_ hback)⟩
      rw [Tree.Child, Tree.childrenOf_eq hn]
      exact hc
    obtain ⟨texts, hcommon, hsounds⟩ := exists_common below hw (hforms.children below.distinct)
      hside
    refine ⟨_, hforms.bare_eq hb hp (hcommon.imp fun _ _ => And.left),
      hforms.bare_eq hb hp (hcommon.imp fun _ _ => And.right), fun k hlevel => ?_⟩
    exact .bare (hforms.suits (hwell.operator x node hi hn)) hp hsounds hlevel

/-- A text with a pair of parentheses in it, and the text without the pair, which is not one of
the expression. -/
structure Strips (g : Renderer) (x : NodeId) (depth : Nat) (id : NodeId) (e : Expr)
    (before inside after : List Char) : Prop where
  expression : g.tree.expressionTo depth id = some e
  rendered : g.renderTo depth id 0 = .ok (String.ofList (before ++ ('(' :: inside ++ ')' :: after)))
  stripped : (g.unlink x).renderTo depth id 0 = .ok (String.ofList (before ++ (inside ++ after)))
  faulty : ∀ k, (id = x → e.level < k) → Faulty k (before ++ (inside ++ after)) e

theorem strips_self (hb : g.registry = .builtin) (h : g.tree.Readable root)
    (hi : g.tree.Reach root x) (hn : g.tree.get? x = some node)
    (hw : g.tree.Within (depth + 1) x) (hp : g.tree.needsParens x node) :
    ∃ e inside, g.Strips x (depth + 1) x e [] inside [] := by
  obtain ⟨e, text, hs⟩ : ∃ e text, g.Shows (depth + 1) 0 x node e text :=
    shows_of_reach hb h hi hn hw
  have hclass : e.precedence? ≠ none := by
    intro hnone
    rw [hs.class_eq] at hnone
    simp [Tree.needsParens, hnone] at hp
  obtain ⟨node', hn', hdeep⟩ := hw
  obtain rfl := Option.some.inj (hn.symm.trans hn')
  obtain ⟨inside, hbare, hbare', hfaulty⟩ := exists_inside hb h hi hn hdeep hs.expression hclass
  refine ⟨e, inside, hs.expression, ?_, ?_, fun k hlevel => ?_⟩
  · rw [renderTo_enclosed hn hbare, if_pos hp]
    exact congrArg Except.ok (String.toList_injective (by simp))
  · have hn' : (g.unlink x).tree.get? x = some node := (Tree.get?_setParent ..).trans hn
    rw [renderTo_enclosed hn' hbare', unlink, Tree.needsParens_unlinked hn]
    simp
  · simpa using hfaulty k (hlevel rfl)

theorem Strips.of_bare {pre post before inside after : List Char} (hn : g.tree.get? id = some node)
    (hne : id ≠ x) (he : g.tree.expressionTo (depth + 1) id = some e)
    (hbare : g.bare (g.renderTo depth) id node 0 =
      .ok (String.ofList (pre ++ (before ++ ('(' :: inside ++ ')' :: after) ++ post))))
    (hbare' : (g.unlink x).bare ((g.unlink x).renderTo depth) id node 0 =
      .ok (String.ofList (pre ++ (before ++ (inside ++ after) ++ post))))
    (hfaulty : ∀ k, Faulty k (pre ++ (before ++ (inside ++ after) ++ post)) e) :
    ∃ before' after', g.Strips x (depth + 1) id e before' inside after' := by
  have hn' : (g.unlink x).tree.get? id = some node := (Tree.get?_setParent ..).trans hn
  have hsame : (g.unlink x).tree.needsParens id node = g.tree.needsParens id node :=
    Tree.needsParens_setParent hne
  have hrender := renderTo_enclosed hn hbare
  have hrender' := renderTo_enclosed hn' hbare'
  rw [hsame] at hrender'
  cases hparens : g.tree.needsParens id node with
  | false =>
    rw [hparens] at hrender hrender'
    refine ⟨pre ++ before, after ++ post, he, ?_, ?_, fun k _ => ?_⟩
    · exact hrender.trans (congrArg Except.ok (String.toList_injective (by simp)))
    · exact hrender'.trans (congrArg Except.ok (String.toList_injective (by simp)))
    · simpa using hfaulty k
  | true =>
    rw [hparens] at hrender hrender'
    refine ⟨'(' :: (pre ++ before), after ++ (post ++ [')']), he, ?_, ?_, fun k _ => ?_⟩
    · exact hrender.trans (congrArg Except.ok (String.toList_injective (by simp)))
    · exact hrender'.trans (congrArg Except.ok (String.toList_injective (by simp)))
    · simpa using (hfaulty (rank .comma)).parens

theorem exists_around {c : NodeId} (hb : g.registry = .builtin) (h : g.tree.Readable root)
    (hi : g.tree.Reach root id) (hn : g.tree.get? id = some node)
    (hw : ∀ s ∈ node.children, g.tree.Within depth s) (hc : c ∈ node.children)
    (hx : g.tree.Reach c x) (he : g.tree.expressionTo (depth + 1) id = some e) :
    ∃ ps p ps' texts texts', e.parts = ps ++ p :: ps' ∧
      (g.tree.expressionTo depth c = some p.expr ∧ node.encloses c = p.place.encloses) ∧
      List.Forall₂ Sounds ps texts ∧ List.Forall₂ Sounds ps' texts' ∧
      (∀ cs, g.renderTo depth c 0 = .ok (String.ofList cs) →
        g.bare (g.renderTo depth) id node 0 = .ok (String.ofList (e.lead.toList ++
          weave Part.chars e.parts (texts ++ cs :: texts')))) ∧
      ∀ cs, (g.unlink x).renderTo depth c 0 = .ok (String.ofList cs) →
        (g.unlink x).bare ((g.unlink x).renderTo depth) id node 0 = .ok (String.ofList
          (e.lead.toList ++ weave Part.chars e.parts (texts ++ cs :: texts'))) := by
  have hregion := (Tree.wellFormed_of_validate h.valid).region
  have hforms := Tree.forms_of_expressionTo hn he
  have below := showsBelow hb h hi hn hw
  have hchildren := hforms.children below.distinct
  obtain ⟨front, back, hsplit⟩ := List.append_of_mem hc
  rw [hsplit] at hchildren
  obtain ⟨ps, p, ps', hparts, hps, hp, hps'⟩ := forall₂_split hchildren
  have hside : ∀ s, s ∈ front ∨ s ∈ back → s ∈ node.children ∧ ¬ g.tree.Reach s x := by
    intro s hs
    refine ⟨?_, hregion.no_sibling hi ((Tree.childrenOf_eq hn).trans hsplit) hx s hs⟩
    rw [hsplit]
    exact hs.elim (List.mem_append_left _) fun hs => List.mem_append_right _ (.tail _ hs)
  obtain ⟨texts, hcommon, hsounds⟩ := exists_common below hw hps fun s hs => hside s (.inl hs)
  obtain ⟨texts', hcommon', hsounds'⟩ := exists_common below hw hps' fun s hs => hside s (.inr hs)
  have hne : e.parts ≠ [] := by simp [hparts]
  refine ⟨ps, p, ps', texts, texts', hparts, hp, hsounds, hsounds', fun cs hcs => ?_,
    fun cs hcs => ?_⟩
  · exact hforms.bare_eq hb hne (hsplit ▸ List.rel_append (hcommon.imp fun _ _ => And.left)
      (.cons hcs (hcommon'.imp fun _ _ => And.left)))
  · exact hforms.bare_eq hb hne (hsplit ▸ List.rel_append (hcommon.imp fun _ _ => And.right)
      (.cons hcs (hcommon'.imp fun _ _ => And.right)))

theorem Strips.parent {c : NodeId} {e' : Expr} {before inside after : List Char}
    (hs : g.Strips x depth c e' before inside after) (hb : g.registry = .builtin)
    (h : g.tree.Readable root) (hi : g.tree.Reach root id) (hn : g.tree.get? id = some node)
    (hw : ∀ s ∈ node.children, g.tree.Within depth s) (hc : c ∈ node.children)
    (hx : g.tree.Reach c x) (he : g.tree.expressionTo (depth + 1) id = some e)
    (hloose : c = x → ∀ p ∈ e.parts, p.expr = e' → node.encloses c = p.place.encloses →
      e'.level < p.place.asks) :
    ∃ before' after', g.Strips x (depth + 1) id e before' inside after' := by
  have hwell := Tree.wellFormed_of_validate h.valid
  have hsuits := (Tree.forms_of_expressionTo hn he).suits (hwell.operator id node hi hn)
  have hne : id ≠ x := by
    rintro rfl
    refine hwell.region.acyclic hi (.head' ?_ hx)
    rw [Tree.Child, Tree.childrenOf_eq hn]
    exact hc
  obtain ⟨ps, p, ps', texts, texts', hparts, ⟨hexpr, hplace⟩, hsounds, hsounds', hbare, hbare'⟩ :=
    exists_around hb h hi hn hw hc hx he
  obtain rfl : e' = p.expr := Option.some.inj (hs.expression.symm.trans hexpr)
  have hfaulty : ∀ k, Faulty k (e.lead.toList ++
      weave Part.chars e.parts (texts ++ (before ++ (inside ++ after)) :: texts')) e := by
    intro k
    refine .inside hsuits hparts hsounds hsounds' (hs.faulty _ fun hcx => ?_)
    exact hloose hcx p (by simp [hparts]) rfl hplace
  have hlen : texts.length < e.parts.length := by
    rw [hparts, ← hsounds.length_eq]
    simp
  obtain ⟨pre, post, hwoven⟩ := weave_around Part.chars texts' hlen
  have hrendered := hbare _ hs.rendered
  have hstripped := hbare' _ hs.stripped
  simp only [hwoven, ← List.append_assoc e.lead.toList] at hrendered hstripped hfaulty
  exact of_bare hn hne he hrendered hstripped hfaulty

theorem level_lt_asks {own : Node} {p : Part} (hn : g.tree.get? id = some node)
    (hlink : g.tree.parent? x = some id) (hp : g.tree.needsParens x own)
    (hother : own.precedence? = some .unary → node.precedence? ≠ some .unary)
    (hclass : e.precedence? = node.precedence?) (hown : p.expr.precedence? = own.precedence?)
    (hmem : p ∈ e.parts) (hplace : node.encloses x = p.place.encloses) :
    p.expr.level < p.place.asks := by
  cases hprec : own.precedence? with
  | none => simp [Tree.needsParens, hprec] at hp
  | some cls =>
    have hencloses : p.place.encloses cls := by
      simpa [Tree.needsParens, hprec, hlink, hn, hplace] using hp
    have hlevel : p.expr.level = cls.rank := by
      rw [Expr.level, hown, hprec]
      rfl
    rw [hlevel]
    refine Expr.Place.lt_asks hencloses fun hunary side hside => ?_
    subst hunary
    exact hother hprec (hclass.symm.trans (Expr.precedence_of_operand hmem hside))

/-- By induction on the levels, down the way from the root to the node. -/
theorem exists_strips {own : Node} (hb : g.registry = .builtin) (h : g.tree.Readable root)
    (hx : g.tree.get? x = some own) (hp : g.tree.needsParens x own)
    (hother : ∀ p parent, g.tree.parent? x = some p → g.tree.get? p = some parent →
      own.precedence? = some .unary → parent.precedence? ≠ some .unary)
    (hi : g.tree.Reach root id) (hw : g.tree.Within depth id) (hreach : g.tree.Reach id x) :
    ∃ e before inside after, g.Strips x depth id e before inside after ∧
      ∃ levels, g.tree.Within levels x ∧
        g.renderTo levels x 0 = .ok (String.ofList ('(' :: inside ++ [')'])) := by
  induction depth generalizing id with
  | zero => exact hw.elim
  | succ depth ih =>
    rcases Relation.ReflTransGen.cases_head hreach with rfl | ⟨c, hchild, hcx⟩
    · obtain ⟨e, inside, hs⟩ := strips_self hb h hi hx hw hp
      exact ⟨e, [], inside, [], hs, depth + 1, hw, hs.rendered⟩
    · have hlevels := hw
      obtain ⟨node, hn, hdeep⟩ := hlevels
      rw [Tree.Child, Tree.childrenOf_eq hn] at hchild
      have hregion := (Tree.wellFormed_of_validate h.valid).region
      obtain ⟨hci, hlink⟩ := hregion.node_of_reach hi hn hchild
      obtain ⟨e', before, inside, after, hs, hinside⟩ := ih hci (hdeep c hchild) hcx
      obtain ⟨e, text, hshows⟩ : ∃ e text, g.Shows (depth + 1) 0 id node e text :=
        shows_of_reach hb h hi hn hw
      obtain ⟨before', after', hs'⟩ := hs.parent hb h hi hn hdeep hchild hcx hshows.expression (by
        rintro rfl p hmem rfl hplace
        obtain ⟨e'', text', hown⟩ : ∃ e text, g.Shows depth 0 c own e text :=
          shows_of_reach hb h hci hx (hdeep c hchild)
        obtain rfl := Option.some.inj (hown.expression.symm.trans hs.expression)
        exact level_lt_asks hn hlink hp (hother id node hlink hn) hshows.class_eq hown.class_eq
          hmem hplace)
      exact ⟨e, before', inside, after', hs', hinside⟩

end Renderer

namespace Tree

/-- Without the pair around a node, the text of a tree does not stand for its expression. Only
under a cast or an operator that stands before it, a node of that class has a pair to spare. -/
theorem rendered_parentheses_needed {t : Tree} {root x : NodeId} {node : Node}
    (h : t.Readable root) (rules : RenderRules) (hx : t.Reach root x) (hn : t.get? x = some node)
    (hp : t.needsParens x node)
    (hother : ∀ p parent, t.parent? x = some p → t.get? p = some parent →
      node.precedence? = some .unary → parent.precedence? ≠ some .unary) :
    ∃ before inside after e,
      Renderer.render ⟨t, .builtin, rules⟩ root = .ok (before ++ "(" ++ inside ++ ")" ++ after) ∧
      Renderer.render ⟨t.setParent x none, .builtin, rules⟩ x = .ok inside ∧
      Renderer.render ⟨t.setParent x none, .builtin, rules⟩ root =
        .ok (before ++ inside ++ after) ∧
      t.expression? root = some e ∧ ¬ Reads (before ++ inside ++ after) e := by
  have hregion := (wellFormed_of_validate h.valid).region
  have hne : root ≠ x := by
    rintro rfl
    simp [needsParens, h.parentless] at hp
  obtain ⟨e, before, inside, after, hs, levels, hlevels, hinside⟩ :=
    Renderer.exists_strips (g := ⟨t, .builtin, rules⟩) rfl h hn hp hother .refl
      (hregion.within .refl).succ hx
  obtain ⟨e', inside', hself⟩ := Renderer.strips_self (g := ⟨t, .builtin, rules⟩) rfl h hx hn
    (hregion.within hx).succ hp
  have hsame : inside' = inside := by
    have htexts := hself.rendered.symm.trans
      ((Renderer.renderTo_levels (hregion.within hx).succ hlevels).trans hinside)
    have hchars := String.ofList_injective (Except.ok.inj htexts)
    exact List.append_cancel_right (List.cons.inj hchars).2
  subst hsame
  have hunlinked : ∀ y, Renderer.render ⟨t.setParent x none, .builtin, rules⟩ y =
      (Renderer.unlink ⟨t, .builtin, rules⟩ x).renderTo (t.size + 1) y 0 := by
    intro y
    rw [Renderer.render, Renderer.renderAt, Renderer.depthBound, size_setParent]
    rfl
  have htext : (String.ofList before ++ String.ofList inside' ++ String.ofList after) =
      String.ofList (before ++ (inside' ++ after)) := String.toList_injective (by simp)
  refine ⟨String.ofList before, String.ofList inside', String.ofList after, e, ?_, ?_, ?_,
    hs.expression, ?_⟩
  · exact hs.rendered.trans (congrArg Except.ok (String.toList_injective (by simp)))
  · rw [hunlinked, hself.stripped]
    simp
  · rw [hunlinked, hs.stripped, htext]
  · rw [htext]
    refine Faulty.not_reads ?_
    rw [String.toList_ofList]
    exact hs.faulty _ fun he => absurd he hne

theorem tangled_parentheses_needed :
    tangled.Readable 0 ∧ ∃ e, tangled.expression? 0 = some e ∧
      Renderer.render ⟨tangled, .builtin, .empty⟩ 0 =
        .ok "a = b ? x --->y : (unsigned int*) f((p, -3), - 5)[i, j] * (c + d).z" ∧
      ¬ Reads "a = b ? x --->y : (unsigned int*) f((p, -3), - 5)[i, j] * c + d.z" e := by
  have hfollow : tangled.follow? 0 [1, 2, 1, 0] = some 22 := rfl
  obtain ⟨before, inside, after, e, -, -, hstripped, he, hreads⟩ :=
    rendered_parentheses_needed tangled_readable .empty (reach_of_follow? hfollow)
      (show tangled.get? 22 = some (.binary 24 .add 25) from rfl) rfl nofun
  have htext : Renderer.render ⟨tangled.setParent 22 none, .builtin, .empty⟩ 0 =
      .ok "a = b ? x --->y : (unsigned int*) f((p, -3), - 5)[i, j] * c + d.z" := by rfl
  have hsame := Except.ok.inj (hstripped.symm.trans htext)
  refine ⟨tangled_readable, e, he, by rfl, ?_⟩
  rw [← hsame]
  exact hreads

end Tree
end Arbor
