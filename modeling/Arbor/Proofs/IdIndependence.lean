import Arbor.Proofs.Renumbering
import Arbor.Proofs.Term
import Arbor.Proofs.Validation

/-!
The text of a region depends on its abstract tree alone.

Parentheses are decided by looking an id up among the slots of its holder. In a well-linked region
the holder is the one that the slots lead through, and its children have distinct ids, so that the
slot in which an id is found is the same in every numbering. What else is in the arena is never
looked at.
-/
namespace Arbor
namespace Node

variable {f : NodeId → NodeId}

theorem precedence?_mapChildren (f : NodeId → NodeId) (n : Node) :
    (n.mapChildren f).precedence? = n.precedence? := by
  cases n <;> rfl

section Injective

variable {n : Node} {c : NodeId} (hinj : ∀ a ∈ n.children, f a = f c ↔ a = c)

include hinj

theorem holdsBeforeLast_mapChildren :
    (n.mapChildren f).holdsBeforeLast (f c) = n.holdsBeforeLast c := by
  cases n <;> simp only [children, slots, Slot.ids, List.flatMap_cons, List.flatMap_nil,
    List.append_nil, List.mem_append, List.mem_cons, List.not_mem_nil, or_false,
    forall_eq_or_imp, forall_eq] at hinj
  case binary left op right =>
    simp only [mapChildren, slots, List.map, Slot.map, withSlots, holdsBeforeLast, beq_eq_decide,
      hinj.1]
  case augAssign target op value =>
    simp only [mapChildren, slots, List.map, Slot.map, withSlots, holdsBeforeLast, beq_eq_decide,
      hinj.1]
  case ternary cond thenValue elseValue =>
    simp only [mapChildren, slots, List.map, Slot.map, withSlots, holdsBeforeLast, bne,
      beq_eq_decide, hinj.2.2]
  all_goals rfl

theorem enclosesOperand_mapChildren (own : Precedence) :
    (n.mapChildren f).enclosesOperand (f c) own = n.enclosesOperand c own := by
  unfold enclosesOperand
  rw [precedence?_mapChildren, holdsBeforeLast_mapChildren hinj]

theorem encloses_mapChildren (own : Precedence) :
    (n.mapChildren f).encloses (f c) own = n.encloses c own := by
  have hoperand := enclosesOperand_mapChildren hinj own
  cases n
  case binary left op right =>
    have hright := hinj right (by simp [children, slots, Slot.ids])
    cases op
    case index =>
      change (if f right = f c then false else _) = if right = c then false else _
      simp only [hright]
      exact ite_congr rfl (fun _ => rfl) fun _ => hoperand
    all_goals exact hoperand
  case ternary cond thenValue elseValue =>
    have hthen := hinj thenValue (by simp [children, slots, Slot.ids])
    change (if f thenValue = f c then false else _) = if thenValue = c then false else _
    simp only [hthen]
    exact ite_congr rfl (fun _ => rfl) fun _ => hoperand
  case call func args ty =>
    have hfunc := hinj func (by simp [children, slots, Slot.ids])
    change (if f func = f c then _ else _) = if func = c then _ else _
    simp only [hfunc]
  case arrayDef target size body =>
    have hbody : f c ∈ body.map f ↔ c ∈ body := by
      constructor
      · intro hm
        obtain ⟨a, ha, he⟩ := List.mem_map.mp hm
        exact (hinj a (by simp [children, slots, Slot.ids, ha])).mp he ▸ ha
      · exact List.mem_map_of_mem
    change (decide (own = .comma) && (body.map f).contains (f c)) =
      (decide (own = .comma) && body.contains c)
    simp only [List.contains_eq_mem, hbody]
  all_goals exact hoperand

end Injective

end Node

namespace Tree

/-- The region under a root in other numbers: at the number of an id stands what stands at the id,
with its children renumbered. -/
structure Renumbered (f : NodeId → NodeId) (t : Tree) (root : NodeId) (t' : Tree)
    (root' : NodeId) : Prop where
  start : f root = root'
  node : ∀ id node, t.Reach root id → t.get? id = some node →
    t'.get? (f id) = some (node.mapChildren f)

namespace Renumbered

variable {f : NodeId → NodeId} {t t' : Tree} {root root' : NodeId}

theorem child (h : Renumbered f t root t' root') {p c : NodeId} {node : Node}
    (hp : t.Reach root p) (hn : t.get? p = some node) (hc : c ∈ node.children) :
    t'.Child (f p) (f c) := by
  rw [Child, childrenOf_eq (h.node p node hp hn), Node.children_mapChildren]
  exact List.mem_map_of_mem hc

theorem reach (h : Renumbered f t root t' root') (hl : t.WellLinked root) {id : NodeId}
    (hi : t.Reach root id) : t'.Reach root' (f id) := by
  induction hi with
  | refl => exact h.start ▸ .refl
  | tail hp hc ih =>
    obtain ⟨node, hn⟩ := hl.resolves _ hp
    rw [Child, childrenOf_eq hn] at hc
    exact ih.tail (h.child hp hn hc)

theorem injective (h : Renumbered f t root t' root') (hl : t.WellLinked root)
    (hl' : t'.WellLinked root') {p c : NodeId} {node : Node} (hp : t.Reach root p)
    (hn : t.get? p = some node) (hc : c ∈ node.children) :
    ∀ a ∈ node.children, f a = f c ↔ a = c := by
  have hnodup := hl'.children_nodup (h.reach hl hp)
  rw [childrenOf_eq (h.node p node hp hn), Node.children_mapChildren] at hnodup
  intro a ha
  exact ⟨List.inj_on_of_nodup_map hnodup ha hc, congrArg f⟩

theorem needsParens_eq (h : Renumbered f t root t' root') (hl : t.WellLinked root)
    (hl' : t'.WellLinked root') (hroot : t.parent? root = none) (hroot' : t'.parent? root' = none)
    {id : NodeId} {node : Node} (hi : t.Reach root id) :
    t'.needsParens (f id) (node.mapChildren f) = t.needsParens id node := by
  unfold needsParens
  rw [Node.precedence?_mapChildren]
  rcases Relation.ReflTransGen.cases_tail hi with rfl | ⟨p, hp, hc⟩
  · rw [h.start, hroot, hroot', Option.bind_none, Option.bind_none]
    cases node.precedence? <;> rfl
  · obtain ⟨holder, hholder⟩ := hl.resolves p hp
    have hm : id ∈ holder.children := by
      rw [← childrenOf_eq hholder]
      exact hc
    have hlink := hl.linked p id hp hc
    have hlink' := hl'.linked (f p) (f id) (h.reach hl hp) (h.child hp hholder hm)
    rw [hlink, hlink', Option.bind_some, Option.bind_some, hholder, h.node p holder hp hholder]
    cases node.precedence? with
    | none => rfl
    | some own => exact Node.encloses_mapChildren (h.injective hl hl' hp hholder hm) own

theorem within (h : Renumbered f t root t' root') (hl : t.WellLinked root) {depth : Nat}
    {id : NodeId} (hi : t.Reach root id) (hw : t'.Within depth (f id)) : t.Within depth id := by
  induction depth generalizing id with
  | zero => exact hw.elim
  | succ depth ih =>
    obtain ⟨node, hn⟩ := hl.resolves id hi
    obtain ⟨node', hn', hchildren⟩ := hw
    obtain rfl := Option.some.inj ((h.node id node hi hn).symm.trans hn')
    refine ⟨node, hn, fun c hc => ih (hi.child hn hc) (hchildren (f c) ?_)⟩
    rw [Node.children_mapChildren]
    exact List.mem_map_of_mem hc

end Renumbered

variable {f : NodeId → NodeId} {t t' : Tree} {root root' : NodeId}

/-- Two trees that are equal up to the numbers of their nodes are written alike: as the same text,
or not at all, because of the same type without a spelling. -/
theorem rendering_depends_on_abstract_tree (hl : t.WellLinked root) (hl' : t'.WellLinked root')
    (hroot : t.parent? root = none) (hroot' : t'.parent? root' = none)
    (hplain : ∀ id node, t.Reach root id → t.get? id = some node → ¬ node.isCustom)
    (h : Renumbered f t root t' root') (registry : TypeRegistry) (rules : RenderRules) :
    (∃ text, Renderer.render ⟨t, registry, rules⟩ root = .ok text ∧
      Renderer.render ⟨t', registry, rules⟩ root' = .ok text) ∨
    ∃ error, Renderer.render ⟨t, registry, rules⟩ root = .error (.registry error) ∧
      Renderer.render ⟨t', registry, rules⟩ root' = .error (.registry error) := by
  let g : Renderer := ⟨t, registry, rules⟩
  let g' : Renderer := ⟨t', registry, rules⟩
  have hregion : ∀ id, g.tree.Reach root id → ∃ node, Renderer.Corresponds f g g' id node := by
    intro id hi
    obtain ⟨node, hn⟩ := hl.resolves id hi
    exact ⟨node, hn, h.node id node hi hn, fun hk => absurd hk (hplain id node hi hn),
      h.needsParens_eq hl hl' hroot hroot' hi⟩
  -- the region is no deeper than either arena is large, whatever else is in them
  have hdeep : g.tree.Within (min t.size t'.size) root := by
    rcases Nat.le_total t.size t'.size with hle | hle
    · rw [Nat.min_eq_left hle]
      exact hl.within .refl
    · rw [Nat.min_eq_right hle]
      exact h.within hl .refl (h.start ▸ hl'.within .refl)
  have hregistry : g'.registry = g.registry := rfl
  have hsame : g'.render root' = g.render root := by
    rw [← h.start]
    exact Renderer.renderTo_renumbered hregistry rfl hregion
      (Nat.le_succ_of_le (Nat.min_le_left ..)) (Nat.le_succ_of_le (Nat.min_le_right ..)) 0 .refl
      hdeep
  have hfails : FailsOnly (fun e => ∃ error, e = .registry error) (g.render root) := by
    refine Renderer.renderTo_failsOnly (fun ty => ?_) ?_ 0 .refl (hl.within .refl).succ
    · unfold Renderer.spell
      split
      · exact failsOnly_ok _
      · exact failsOnly_error ⟨_, rfl⟩
    · intro id kind attrs children hi hn
      exact absurd rfl (hplain id _ hi hn)
  change (∃ text, g.render root = .ok text ∧ g'.render root' = .ok text) ∨
    ∃ error, g.render root = .error (.registry error) ∧ g'.render root' = .error (.registry error)
  rw [hsame]
  cases hr : g.render root with
  | ok text => exact .inl ⟨text, rfl, rfl⟩
  | error e =>
    obtain ⟨error, rfl⟩ := hfails e hr
    exact .inr ⟨error, rfl, rfl⟩

/-- `long y = (f((a, b)) + -1) * x`, each node numbered before its children. -/
def ordered : Tree :=
  ⟨#[⟨.binary 1 .assign 2, none⟩, ⟨.symbol "y" (some (.scalar .long)) false, some 0⟩,
    ⟨.binary 3 .mul 10, some 0⟩, ⟨.binary 4 .add 9, some 2⟩, ⟨.call 5 [6] none, some 3⟩,
    ⟨.symbol "f" none false, some 4⟩, ⟨.binary 7 .comma 8, some 4⟩,
    ⟨.symbol "a" none false, some 6⟩, ⟨.symbol "b" none false, some 6⟩,
    ⟨.constant (.int (-1)), some 3⟩, ⟨.symbol "x" none false, some 2⟩], 0⟩

/-- The same with each node numbered after its children, between a node that holds nothing that
exists and one that shares a symbol. -/
def scattered : Tree :=
  ⟨#[⟨.block [40, 41], none⟩, ⟨.symbol "x" none false, some 9⟩, ⟨.constant (.int (-1)), some 8⟩,
    ⟨.symbol "b" none false, some 5⟩, ⟨.symbol "a" none false, some 5⟩,
    ⟨.binary 4 .comma 3, some 7⟩, ⟨.symbol "f" none false, some 7⟩, ⟨.call 6 [5] none, some 8⟩,
    ⟨.binary 7 .add 2, some 9⟩, ⟨.binary 8 .mul 1, some 11⟩,
    ⟨.symbol "y" (some (.scalar .long)) false, some 11⟩, ⟨.binary 10 .assign 9, none⟩,
    ⟨.ret (some 3), none⟩], 7⟩

theorem ordered_and_scattered_alike :
    ordered.validate 0 = .ok () ∧ scattered.validate 11 = .ok () ∧
    ∃ text, Renderer.render ⟨ordered, .builtin, .empty⟩ 0 = .ok text ∧
      Renderer.render ⟨scattered, .builtin, .empty⟩ 11 = .ok text := by
  have hv : ordered.validate 0 = .ok () := by decide +kernel
  have hv' : scattered.validate 11 = .ok () := by decide +kernel
  have hl := (wellFormed_of_validate hv).region
  have hplain : ∀ id node, ordered.Reach 0 id → ordered.get? id = some node → ¬ node.isCustom := by
    intro id node _ hn
    have hall : ∀ e ∈ ordered.entries.toList, ¬ e.node.isCustom := by decide
    obtain ⟨e, he, rfl⟩ := entry_of_get? hn
    exact hall e he
  have hsame : Renumbered (fun id => 11 - id) ordered 0 scattered 11 := by
    refine ⟨rfl, fun id node hi hn => ?_⟩
    have hall : ∀ i : Fin 11, (ordered.get? i).map (Node.mapChildren fun id => 11 - id) =
        scattered.get? (11 - i) := by decide
    have hnode := hall ⟨id, hl.lt_size hi⟩
    rw [hn] at hnode
    exact hnode.symm
  have halike := rendering_depends_on_abstract_tree hl (wellFormed_of_validate hv').region rfl rfl
    hplain hsame .builtin .empty
  refine ⟨hv, hv', halike.resolve_right ?_⟩
  rintro ⟨error, herror, -⟩
  cases herror

end Tree
end Arbor
