import Arbor.Proofs.Rendering

/-!
Rendering does not see the ids of a region.

Two renderers are compared along a renumbering `f` of the ids under a root: what stands at `f id`
is what stands at `id`, with its children renumbered. Then both render alike, as long as they agree
on the parentheses, which depend on the links. An extension node without a rule is reported with
its id, so such nodes keep theirs.
-/
namespace Arbor.Renderer

/-- Ids closed under children, at which the two renderers find and render the same. -/
structure Renumbers (f : NodeId → NodeId) (P : NodeId → Prop) (g g' : Renderer)
    (render render' : NodeId → Nat → Result) : Prop where
  registry : g'.registry = g.registry
  rules : g'.rules = g.rules
  resolves : ∀ id, P id → ∃ node, g.tree.get? id = some node ∧
    g'.tree.get? (f id) = some (node.mapChildren f) ∧ ∀ c ∈ node.children, P c
  renders : ∀ id indent, P id → render' (f id) indent = render id indent

namespace Renumbers

variable {f : NodeId → NodeId} {P : NodeId → Prop} {g g' : Renderer}
  {render render' : NodeId → Nat → Result}

theorem node (h : Renumbers f P g g' render render') {id : NodeId} (hp : P id) :
    ∃ node, g.node id = .ok node ∧ g'.node (f id) = .ok (node.mapChildren f) ∧
      ∀ c ∈ node.children, P c := by
  obtain ⟨node, hn, hn', hc⟩ := h.resolves id hp
  refine ⟨node, ?_, ?_, hc⟩
  · simp [Renderer.node, Tree.node_eq_ok.mpr hn]
  · simp [Renderer.node, Tree.node_eq_ok.mpr hn']

theorem spell (h : Renumbers f P g g' render render') (ty : CType) : g'.spell ty = g.spell ty := by
  simp only [Renderer.spell, h.registry]

theorem isSelfTerminating (h : Renumbers f P g g' render render') (node : Node) :
    g'.isSelfTerminating (node.mapChildren f) = g.isSelfTerminating node := by
  cases node with
  | custom kind attrs children =>
    change (g'.rules.get? kind).any _ = (g.rules.get? kind).any _
    rw [h.rules]
  | function returnType name params defn isStatic isInline => cases defn <;> rfl
  | _ => rfl

theorem renderEach (h : Renumbers f P g g' render render') {ids : List NodeId} (indent : Nat)
    (hp : ∀ id ∈ ids, P id) :
    Renderer.renderEach (render' · indent) (ids.map f) =
      Renderer.renderEach (render · indent) ids := by
  induction ids with
  | nil => rfl
  | cons id rest ih =>
    obtain ⟨hid, hrest⟩ := List.forall_mem_cons.mp hp
    rw [List.map_cons, Renderer.renderEach, Renderer.renderEach, h.renders id indent hid, ih hrest]

theorem commaList (h : Renumbers f P g g' render render') {ids : List NodeId} (indent : Nat)
    (hp : ∀ id ∈ ids, P id) :
    Renderer.commaList render' (ids.map f) indent = Renderer.commaList render ids indent := by
  rw [Renderer.commaList, Renderer.commaList, h.renderEach indent hp]

theorem statementLines (h : Renumbers f P g g' render render') {ids : List NodeId} (indent : Nat)
    (hp : ∀ id ∈ ids, P id) :
    g'.statementLines render' indent (ids.map f) = g.statementLines render indent ids := by
  induction ids with
  | nil => rfl
  | cons id rest ih =>
    obtain ⟨hid, hrest⟩ := List.forall_mem_cons.mp hp
    obtain ⟨node, hn, hn', -⟩ := h.node hid
    have hends := h.isSelfTerminating node
    rw [List.map_cons, Renderer.statementLines, Renderer.statementLines, h.renders id indent hid,
      hn, hn', ih hrest]
    simp only [bind, Except.bind, hends]

theorem braced (h : Renumbers f P g g' render render') {ids : List NodeId} (indent : Nat)
    (hp : ∀ id ∈ ids, P id) :
    g'.braced render' (ids.map f) indent = g.braced render ids indent := by
  rw [Renderer.braced, Renderer.braced, h.statementLines (indent + 1) hp, List.isEmpty_map]

theorem body (h : Renumbers f P g g' render render') {id : NodeId} (indent : Nat) (hp : P id) :
    g'.body render' (f id) indent = g.body render id indent := by
  obtain ⟨node, hn, hn', hc⟩ := h.node hp
  have hone : ∀ c ∈ [id], P c := by simpa using hp
  have hsingle : g'.braced render' [f id] indent = g.braced render [id] indent :=
    h.braced indent hone
  rw [Renderer.body, Renderer.body, hn, hn']
  cases node with
  | block ids =>
    exact h.braced indent fun c hm => hc c (by simpa [Node.children, Node.slots, Slot.ids])
  | _ => exact hsingle

theorem clause (h : Renumbers f P g g' render render') {id : Option NodeId} (indent : Nat)
    (hp : ∀ c ∈ id, P c) :
    Renderer.clause render' (id.map f) indent = Renderer.clause render id indent := by
  cases id with
  | none => rfl
  | some c => exact h.renders c indent (hp c rfl)

theorem isBranch_mapChildren (node : Node) : (node.mapChildren f).isBranch = node.isBranch := by
  cases node <;> rfl

theorem elseBranch (h : Renumbers f P g g' render render') {elseBody : Option NodeId}
    (indent : Nat) (hp : ∀ c ∈ elseBody, P c) :
    g'.elseBranch render' (elseBody.map f) indent = g.elseBranch render elseBody indent := by
  cases elseBody with
  | none => rfl
  | some c =>
    obtain ⟨node, hn, hn', -⟩ := h.node (hp c rfl)
    rw [Option.map_some, Renderer.elseBranch, Renderer.elseBranch]
    simp only [hn, hn', h.renders c indent (hp c rfl), h.body indent (hp c rfl), bind, Except.bind,
      isBranch_mapChildren]

theorem byRule (h : Renumbers f P g g' render render') (rule : RenderRule) (attrs : Attributes)
    {children : List NodeId} (indent : Nat) (hp : ∀ c ∈ children, P c) :
    g'.byRule render' rule attrs (children.map f) indent =
      g.byRule render rule attrs children indent := by
  simp only [Renderer.byRule, h.braced indent hp, h.statementLines (indent + 1) hp,
    h.commaList indent hp, h.spell]

theorem bare (h : Renumbers f P g g' render render') {id : NodeId} {node : Node} (indent : Nat)
    (hk : node.isCustom → f id = id) (hp : ∀ c ∈ node.children, P c) :
    g'.bare render' (f id) (node.mapChildren f) indent = g.bare render id node indent := by
  have each : ∀ c ∈ node.children, render' (f c) indent = render c indent := fun c hc =>
    h.renders c indent (hp c hc)
  cases node <;> simp only [Node.children, Node.slots, Slot.ids, List.flatMap_cons,
    List.flatMap_nil, List.append_nil, List.mem_append, List.mem_cons,
    List.not_mem_nil, or_false, Option.mem_toList, forall_eq_or_imp, forall_eq] at hp each <;>
    simp only [Node.mapChildren, Node.slots, List.map_cons, List.map_nil, Slot.map,
      Node.withSlots, Renderer.bare]
  case project files => rw [h.renderEach indent hp]
  case file name body => rw [h.statementLines indent hp]
  case ret value =>
    cases value with
    | none => rfl
    | some v => simp only [Option.map_some, each v rfl]
  case branch cond thenBody elseBody =>
    obtain ⟨-, hthen, helse⟩ := hp
    rw [each.1, h.body indent hthen, h.elseBranch indent helse]
  case whileLoop cond body => rw [each.1, h.body indent hp.2]
  case doWhile body cond => rw [h.body indent hp.1, each.2]
  case forLoop init test incr body =>
    have hinit := h.clause indent fun c hc => hp c (.inl hc)
    have htest := h.clause indent fun c hc => hp c (.inr (.inl hc))
    have hincr := h.clause indent fun c hc => hp c (.inr (.inr (.inl hc)))
    rw [hinit, htest, hincr, h.body indent (hp body (.inr (.inr (.inr rfl))))]
  case block ids => exact h.braced indent hp
  case function returnType name params defn isStatic isInline =>
    rw [h.commaList indent fun c hc => hp c (.inl hc), h.spell]
    cases defn with
    | none => rfl
    | some d => simp only [Option.map_some, h.body indent (hp d (.inr rfl))]
  case unary op arg => rw [each]
  case binary left op right => rw [each.1, each.2]
  case augAssign target op value => rw [each.1, each.2]
  case ternary cond thenValue elseValue => rw [each.1, each.2.1, each.2.2]
  case cast ty value => rw [h.spell, each]
  case call func args ty => rw [each.1, h.commaList indent hp.2]
  case arrayDef target size body => rw [each.1, each.2.1, h.commaList indent hp.2.2]
  case symbol name ty isConst =>
    cases ty with
    | none => rfl
    | some ty => simp only [Renderer.declaration, h.spell]
  case inclusion target system => cases system <;> rfl
  case custom kind attrs children =>
    simp only [h.rules, h.byRule _ attrs indent hp, hk rfl]

end Renumbers

variable {f : NodeId → NodeId} {g g' : Renderer} {root : NodeId}

/-- Both find the same at an id and its number, up to the numbers of the children. -/
structure Corresponds (f : NodeId → NodeId) (g g' : Renderer) (id : NodeId) (node : Node) :
    Prop where
  here : g.tree.get? id = some node
  there : g'.tree.get? (f id) = some (node.mapChildren f)
  custom : node.isCustom → f id = id
  parens : g'.tree.needsParens (f id) (node.mapChildren f) = g.tree.needsParens id node

theorem renderTo_renumbered (hregistry : g'.registry = g.registry) (hrules : g'.rules = g.rules)
    (hregion : ∀ id, g.tree.Reach root id → ∃ node, Corresponds f g g' id node)
    {levels depth depth' : Nat} (hdepth : levels ≤ depth) (hdepth' : levels ≤ depth')
    {id : NodeId} (indent : Nat) (hr : g.tree.Reach root id) (hw : g.tree.Within levels id) :
    g'.renderTo depth' (f id) indent = g.renderTo depth id indent := by
  induction levels generalizing depth depth' id indent with
  | zero => exact hw.elim
  | succ levels ih =>
    obtain ⟨depth, rfl⟩ := Nat.exists_eq_add_of_le' hdepth
    obtain ⟨depth', rfl⟩ := Nat.exists_eq_add_of_le' hdepth'
    have renumbers : Renumbers f (fun id => g.tree.Reach root id ∧ g.tree.Within levels id) g g'
        (g.renderTo (depth + levels)) (g'.renderTo (depth' + levels)) := by
      refine ⟨hregistry, hrules, ?_, ?_⟩
      · rintro id ⟨hr, hw⟩
        obtain ⟨node, hnode⟩ := hregion id hr
        refine ⟨node, hnode.here, hnode.there, fun c hc => ⟨hr.child hnode.here hc, ?_⟩⟩
        exact hw.reach (.single (by rw [Tree.Child, Tree.childrenOf_eq hnode.here]; exact hc))
      · rintro id indent ⟨hr, hw⟩
        exact ih (Nat.le_add_left ..) (Nat.le_add_left ..) indent hr hw
    obtain ⟨node, hn, hchildren⟩ := hw
    obtain ⟨node', hnode⟩ := hregion id hr
    obtain rfl : node = node' := Option.some.inj (hn.symm.trans hnode.here)
    have hbare := renumbers.bare indent hnode.custom fun c hc => ⟨hr.child hn hc, hchildren c hc⟩
    have hhere : g.node id = .ok node := by
      simp [Renderer.node, Tree.node_eq_ok.mpr hnode.here]
    have hthere : g'.node (f id) = .ok (node.mapChildren f) := by
      simp [Renderer.node, Tree.node_eq_ok.mpr hnode.there]
    rw [← Nat.add_assoc, ← Nat.add_assoc]
    simp only [renderTo, hhere, hthere]
    simp only [bind, Except.bind, hbare, hnode.parens]

end Arbor.Renderer
