import Arbor.Proofs.Region
import Arbor.Proofs.Spelling
import Arbor.Render.Source

/-!
Rendering ends on a region that resolves and has finitely many levels: it fails only where a type
has no spelling or an extension node has no rule. Every type has a spelling in the built-in
registry, the one that shows it, so that a region without extension nodes always gives a text.
-/
namespace Arbor

namespace Renderer

variable {A : RenderError → Prop}

theorem failsOnly_renderEach {render : NodeId → Result} {ids : List NodeId}
    (h : ∀ id ∈ ids, FailsOnly A (render id)) : FailsOnly A (renderEach render ids) := by
  induction ids with
  | nil => exact failsOnly_ok []
  | cons id rest ih =>
    obtain ⟨hid, hrest⟩ := List.forall_mem_cons.mp h
    exact failsOnly_bind hid fun _ => failsOnly_bind (ih hrest) fun _ => failsOnly_ok _

theorem failsOnly_commaList {render : NodeId → Nat → Result} {ids : List NodeId} {indent : Nat}
    (h : ∀ id ∈ ids, FailsOnly A (render id indent)) :
    FailsOnly A (commaList render ids indent) :=
  failsOnly_bind (failsOnly_renderEach h) fun _ => failsOnly_ok _

variable {g : Renderer} {P : NodeId → Prop} {render : NodeId → Nat → Result}

/-- Ids that render or fail with an error of the kind `A`, closed under children. -/
structure Renders (A : RenderError → Prop) (g : Renderer) (render : NodeId → Nat → Result)
    (P : NodeId → Prop) : Prop where
  spells : ∀ ty, FailsOnly A (g.spell ty)
  resolves : ∀ id, P id → ∃ node, g.tree.get? id = some node ∧ ∀ c ∈ node.children, P c
  renders : ∀ id indent, P id → FailsOnly A (render id indent)

namespace Renders

theorem node (h : Renders A g render P) {id : NodeId} (hp : P id) :
    ∃ node, g.node id = .ok node ∧ ∀ c ∈ node.children, P c := by
  obtain ⟨node, hn, hc⟩ := h.resolves id hp
  refine ⟨node, ?_, hc⟩
  simp [Renderer.node, Tree.node_eq_ok.mpr hn]

theorem declaration (h : Renders A g render P) (ty : CType) (name : String) :
    FailsOnly A (g.declaration ty name) := by
  refine failsOnly_bind (h.spells ty) fun spelled => ?_
  simp only
  split
  · split <;> exact failsOnly_ok _
  · exact failsOnly_ok _

theorem statementLines (h : Renders A g render P) {ids : List NodeId} {indent : Nat}
    (hp : ∀ id ∈ ids, P id) : FailsOnly A (g.statementLines render indent ids) := by
  induction ids with
  | nil => exact failsOnly_ok ""
  | cons id rest ih =>
    obtain ⟨hid, hrest⟩ := List.forall_mem_cons.mp hp
    obtain ⟨node, hn, -⟩ := h.node hid
    refine failsOnly_bind (h.renders id indent hid) fun _ => ?_
    rw [hn]
    exact failsOnly_bind (failsOnly_ok node) fun _ =>
      failsOnly_bind (ih hrest) fun _ => failsOnly_ok _

theorem braced (h : Renders A g render P) {ids : List NodeId} {indent : Nat}
    (hp : ∀ id ∈ ids, P id) : FailsOnly A (g.braced render ids indent) := by
  unfold Renderer.braced
  split
  · exact failsOnly_ok _
  · exact failsOnly_bind (h.statementLines hp) fun _ => failsOnly_ok _

theorem body (h : Renders A g render P) {id : NodeId} {indent : Nat} (hp : P id) :
    FailsOnly A (g.body render id indent) := by
  obtain ⟨node, hn, hc⟩ := h.node hp
  have hsingle : ∀ c ∈ [id], P c := by simpa using hp
  simp only [Renderer.body, hn]
  cases node with
  | block ids => exact h.braced fun c hm => hc c (by simpa [Node.children, Node.slots, Slot.ids])
  | _ => exact h.braced hsingle

theorem clause (h : Renders A g render P) {id : Option NodeId} {indent : Nat}
    (hp : ∀ c ∈ id, P c) : FailsOnly A (Renderer.clause render id indent) := by
  cases id with
  | none => exact failsOnly_ok ""
  | some c => exact h.renders c indent (hp c rfl)

theorem elseBranch (h : Renders A g render P) {elseBody : Option NodeId} {indent : Nat}
    (hp : ∀ c ∈ elseBody, P c) : FailsOnly A (g.elseBranch render elseBody indent) := by
  cases elseBody with
  | none => exact failsOnly_ok ""
  | some c =>
    obtain ⟨node, hn, -⟩ := h.node (hp c rfl)
    simp only [Renderer.elseBranch, hn]
    refine failsOnly_bind (failsOnly_ok node) fun n => ?_
    split
    · exact failsOnly_bind (h.renders c indent (hp c rfl)) fun _ => failsOnly_ok _
    · exact failsOnly_bind (h.body (hp c rfl)) fun _ => failsOnly_ok _

theorem byRule (h : Renders A g render P) {rule : RenderRule} {attrs : Attributes}
    {children : List NodeId} {indent : Nat} (hp : ∀ c ∈ children, P c) :
    FailsOnly A (g.byRule render rule attrs children indent) := by
  unfold Renderer.byRule
  split
  · exact failsOnly_bind (h.braced hp) fun _ => failsOnly_ok _
  · exact failsOnly_bind (h.statementLines hp) fun _ => failsOnly_ok _
  · exact failsOnly_bind (failsOnly_commaList fun c hc => h.renders c indent (hp c hc))
      fun _ => failsOnly_ok _
  · exact failsOnly_ok _
  · exact h.spells _
  · exact failsOnly_ok _

theorem bare (h : Renders A g render P) {id : NodeId} {node : Node} {indent : Nat}
    (hk : ∀ kind attrs children, node = .custom kind attrs children → A (.noRule kind id))
    (hp : ∀ c ∈ node.children, P c) : FailsOnly A (g.bare render id node indent) := by
  have each : ∀ c ∈ node.children, FailsOnly A (render c indent) := fun c hc =>
    h.renders c indent (hp c hc)
  cases node <;> simp only [Node.children, Node.slots, Slot.ids, List.flatMap_cons,
    List.flatMap_nil, List.append_nil, List.mem_append, List.mem_cons,
    List.not_mem_nil, or_false, Option.mem_toList, forall_eq_or_imp, forall_eq] at hp each
  case project files =>
    exact failsOnly_bind (failsOnly_renderEach each) fun _ => failsOnly_ok _
  case file name body =>
    exact failsOnly_bind (h.statementLines hp) fun _ => failsOnly_ok _
  case ret value =>
    cases value with
    | none => exact failsOnly_ok _
    | some v => exact failsOnly_bind (each v rfl) fun _ => failsOnly_ok _
  case branch cond thenBody elseBody =>
    obtain ⟨hc, ht, he⟩ := hp
    exact failsOnly_bind (h.renders cond indent hc) fun _ => failsOnly_bind (h.body ht) fun _ =>
      failsOnly_bind (h.elseBranch he) fun _ => failsOnly_ok _
  case whileLoop cond body =>
    exact failsOnly_bind (h.renders cond indent hp.1) fun _ =>
      failsOnly_bind (h.body hp.2) fun _ => failsOnly_ok _
  case doWhile body cond =>
    exact failsOnly_bind (h.body hp.1) fun _ =>
      failsOnly_bind (h.renders cond indent hp.2) fun _ => failsOnly_ok _
  case forLoop init test incr body =>
    refine failsOnly_bind (h.clause fun c hc => hp c (Or.inl hc)) fun _ => ?_
    refine failsOnly_bind (h.clause fun c hc => hp c (Or.inr (Or.inl hc))) fun _ => ?_
    refine failsOnly_bind (h.clause fun c hc => hp c (Or.inr (Or.inr (Or.inl hc)))) fun _ => ?_
    exact failsOnly_bind (h.body (hp body (Or.inr (Or.inr (Or.inr rfl))))) fun _ => failsOnly_ok _
  case block ids => exact h.braced hp
  case function returnType name params defn isStatic isInline =>
    refine failsOnly_bind (failsOnly_commaList fun c hc => each c (Or.inl hc)) fun _ => ?_
    refine failsOnly_bind (h.spells returnType) fun _ => ?_
    cases defn with
    | none => exact failsOnly_ok _
    | some d => exact failsOnly_bind (h.body (hp d (Or.inr rfl))) fun _ => failsOnly_ok _
  case unary op arg => exact failsOnly_bind each fun _ => failsOnly_ok _
  case binary left op right =>
    exact failsOnly_bind each.1 fun _ => failsOnly_bind each.2 fun _ => failsOnly_ok _
  case augAssign target op value =>
    exact failsOnly_bind each.1 fun _ => failsOnly_bind each.2 fun _ => failsOnly_ok _
  case ternary cond thenValue elseValue =>
    exact failsOnly_bind each.1 fun _ => failsOnly_bind each.2.1 fun _ =>
      failsOnly_bind each.2.2 fun _ => failsOnly_ok _
  case cast ty value =>
    exact failsOnly_bind (h.spells ty) fun _ => failsOnly_bind each fun _ => failsOnly_ok _
  case call func args ty =>
    exact failsOnly_bind each.1 fun _ =>
      failsOnly_bind (failsOnly_commaList each.2) fun _ => failsOnly_ok _
  case arrayDef target size body =>
    exact failsOnly_bind each.1 fun _ => failsOnly_bind each.2.1 fun _ =>
      failsOnly_bind (failsOnly_commaList each.2.2) fun _ => failsOnly_ok _
  case symbol name ty isConst =>
    cases ty with
    | none => exact failsOnly_ok _
    | some ty => exact failsOnly_bind (h.declaration ty name) fun _ => failsOnly_ok _
  case inclusion target system => cases system <;> exact failsOnly_ok _
  case custom kind attrs children =>
    simp only [Renderer.bare]
    split
    · exact failsOnly_error (hk kind attrs children rfl)
    · exact h.byRule hp
  all_goals exact failsOnly_ok _

end Renders

/-- By induction on the levels: a child, and the statements of a block that is a child, lie one
level deeper at least. -/
theorem renderTo_failsOnly {root : NodeId} (hs : ∀ ty, FailsOnly A (g.spell ty))
    (hk : ∀ id kind attrs children, g.tree.Reach root id →
      g.tree.get? id = some (.custom kind attrs children) → A (.noRule kind id))
    {depth : Nat} {id : NodeId} (indent : Nat) (hr : g.tree.Reach root id)
    (hw : g.tree.Within depth id) : FailsOnly A (g.renderTo depth id indent) := by
  induction depth generalizing id indent with
  | zero => exact hw.elim
  | succ depth ih =>
    have renders : Renders A g (g.renderTo depth)
        fun id => g.tree.Reach root id ∧ g.tree.Within depth id := by
      refine ⟨hs, ?_, fun id indent hp => ih indent hp.1 hp.2⟩
      rintro id ⟨hr, hw⟩
      cases depth with
      | zero => exact hw.elim
      | succ depth =>
        obtain ⟨node, hn, hc⟩ := hw
        exact ⟨node, hn, fun c hm => ⟨hr.child hn hm, (hc c hm).succ⟩⟩
    obtain ⟨node, hn, hc⟩ := hw
    have hnode : g.node id = .ok node := by simp [Renderer.node, Tree.node_eq_ok.mpr hn]
    have hbare : FailsOnly A (g.bare (g.renderTo depth) id node indent) := by
      refine renders.bare ?_ fun c hm => ⟨hr.child hn hm, hc c hm⟩
      rintro kind attrs children rfl
      exact hk id kind attrs children hr hn
    simp only [renderTo, hnode]
    change FailsOnly A (g.bare (g.renderTo depth) id node indent >>= _)
    exact failsOnly_bind hbare fun _ => failsOnly_ok _

theorem renderAt_succeeds {root : NodeId} (hb : g.registry = .builtin)
    (hl : g.tree.WellLinked root)
    (hk : ∀ id node, g.tree.Reach root id → g.tree.get? id = some node → ¬ node.isCustom)
    (indent : Nat) : ∃ text, g.renderAt root indent = .ok text := by
  have hs : ∀ ty, FailsOnly (fun _ => False) (g.spell ty) := by
    intro ty
    unfold Renderer.spell
    rw [hb, TypeRegistry.spell_builtin]
    exact failsOnly_ok _
  refine ok_of_failsOnly_false (renderTo_failsOnly hs ?_ indent .refl
    ((hl.within .refl).mono (Nat.le_succ _)))
  intro id kind attrs children hr hn
  exact hk id _ hr hn rfl

end Renderer
end Arbor
