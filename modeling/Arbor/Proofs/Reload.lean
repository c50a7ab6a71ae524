import Arbor.Fold
import Arbor.Proofs.Document
import Arbor.Proofs.Renumbering
import Arbor.Proofs.Validation

/-!
What saving a tree and loading it again leaves of a region.

Nodes come back as they were; the links are computed again, from all slots of the arena. A node that
was displaced keeps its slots, so its children may be linked back to it. The region under a root is
still well-formed exactly when its holders are the last ones of the nodes they hold, and it renders
to the same text if the root is not linked either.
-/
namespace Arbor

theorem Node.mapChildren_id (n : Node) : n.mapChildren id = n := by
  have hslots : (n.slots.map fun slot => slot.2.map id) = n.slots.map Prod.snd := by
    refine List.map_congr_left ?_
    rintro ⟨name, slot⟩ -
    cases slot <;> simp [Slot.map]
  change n.withSlots (n.slots.map fun slot => slot.2.map id) = n
  rw [hslots, withSlots_slots]

namespace Tree

variable {t t' : Tree} {root : NodeId}

/-- Nobody after the holder of a node in the region has the node in a slot. -/
def HeldLast (t : Tree) (root : NodeId) : Prop :=
  ∀ p c q, t.Reach root p → t.Child p c → t.Child q c → q ≤ p

theorem WellFormed.of_links (h : t.WellFormed root) (hget : ∀ id, t'.get? id = t.get? id)
    (hlinks : ∀ p c, t.Reach root p → t.Child p c → t'.parent? c = some p) :
    t'.WellFormed root := by
  have hchildren : t'.childrenOf = t.childrenOf := by
    funext id
    simp only [childrenOf, hget]
  have hchild : t'.Child = t.Child := by
    funext p c
    simp only [Child, hchildren]
  have hreach : t'.Reach = t.Reach := by
    funext p c
    simp only [Reach, hchild]
  have hregion : t'.WellLinked root := by
    refine wellLinked_of_links ?_ ?_ ?_ ?_ <;> simp only [hreach, hchild, hchildren, hget]
    · exact h.region.resolves
    · exact hlinks
    · exact fun p hp => h.region.children_nodup hp
    · exact fun p hp => h.region.root_not_child hp
  refine ⟨hregion, ?_, ?_, ?_, ?_, ?_, ?_⟩ <;> simp only [Is, hreach, hchild, hget]
  · exact h.operator
  · exact h.operand
  · exact h.parameter
  · exact h.file
  · exact h.project_place
  · exact h.file_place

theorem HeldLast.linked (h : t.HeldLast root) (hl : t.WellLinked root) {p c : NodeId}
    (hp : t.Reach root p) (hc : t.Child p c) : t.fixParents.parent? c = some p :=
  parent?_fixParents.2 ⟨hl.lt_size (hp.tail hc), hc, fun q hq => h p c q hp hc hq⟩

theorem WellFormed.validate_fixParents (h : t.WellFormed root) :
    t.fixParents.validate root = .ok () ↔ t.HeldLast root := by
  constructor
  · intro hv p c q hp hc hq
    have hlinked := (wellFormed_of_validate hv).region.linked p c
    rw [reach_fixParents, child_fixParents] at hlinked
    exact (parent?_fixParents.1 (hlinked hp hc)).2.2 q hq
  · intro hlast
    have hlinks : ∀ p c, t.Reach root p → t.Child p c → t.fixParents.parent? c = some p :=
      fun p c hp hc => hlast.linked h.region hp hc
    exact (h.of_links (get?_fixParents t) hlinks).validate_ok

/-- The root is linked to nobody, or nothing about it is decided by its link. -/
def StandsAlone (t : Tree) (root : NodeId) : Prop :=
  (∀ q, ¬ t.Child q root) ∨ ∀ node, t.get? root = some node → node.precedence? = none

theorem needsParens_fixParents (hl : t.WellLinked root) (hroot : t.parent? root = none)
    (hlast : t.HeldLast root) (halone : t.StandsAlone root) {id : NodeId} {node : Node}
    (hr : t.Reach root id) (hn : t.get? id = some node) :
    t.fixParents.needsParens id node = t.needsParens id node := by
  rcases Relation.ReflTransGen.cases_tail hr with rfl | ⟨p, hp, hc⟩
  · rcases halone with hfree | hplain
    · rw [needsParens, needsParens, hroot, (parent?_fixParents_eq_none (hl.lt_size .refl)).2 hfree]
      rfl
    · rw [needsParens, needsParens, hplain node hn]
  · have hget : t.fixParents.get? = t.get? := funext (get?_fixParents t)
    rw [needsParens, needsParens, hlast.linked hl hp hc, hl.linked p id hp hc, hget]

theorem render_fixParents (hl : t.WellLinked root) (hroot : t.parent? root = none)
    (hlast : t.HeldLast root) (halone : t.StandsAlone root) (registry : TypeRegistry)
    (rules : RenderRules) :
    Renderer.render ⟨t.fixParents, registry, rules⟩ root =
      Renderer.render ⟨t, registry, rules⟩ root := by
  have hsize : t.size ≤ t.size + 1 := Nat.le_succ _
  have hsize' : t.size ≤ t.fixParents.size + 1 := by rw [size_fixParents]; exact hsize
  have hregion : ∀ c, t.Reach root c → ∃ node, Renderer.Corresponds id
      ⟨t, registry, rules⟩ ⟨t.fixParents, registry, rules⟩ c node := by
    intro c hr
    obtain ⟨node, hn⟩ := hl.resolves c hr
    refine ⟨node, hn, ?_, fun _ => rfl, ?_⟩
    · rw [Node.mapChildren_id]
      exact (get?_fixParents t c).trans hn
    · rw [Node.mapChildren_id]
      exact needsParens_fixParents hl hroot hlast halone hr hn
  exact @Renderer.renderTo_renumbered id ⟨t, registry, rules⟩ ⟨t.fixParents, registry, rules⟩ root
    rfl rfl hregion _ _ _ hsize hsize' root 0 .refl (hl.within .refl)

/-- A tree whose text tells all of it is read back, and what was valid under a root is valid still
if and only if the holders in the region are the last ones. Then the text is the same too, unless
the root is an operation that some slot out of reach still names. -/
theorem reload_valid_iff_heldLast (hs : t.Storable) (hv : t.validate root = .ok ())
    (hroot : t.parent? root = none) :
    ∃ t', parse? t.serialize = some t' ∧
      (t'.validate root = .ok () ↔ t.HeldLast root) ∧
      (t'.parent? root = none ↔ ∀ q, ¬ t.Child q root) ∧
      (t.HeldLast root → t.StandsAlone root → ∀ registry rules,
        Renderer.render ⟨t', registry, rules⟩ root =
          Renderer.render ⟨t, registry, rules⟩ root) := by
  have hw := wellFormed_of_validate hv
  refine ⟨t.fixParents, hs.parse?_serialize, hw.validate_fixParents, ?_, ?_⟩
  · exact parent?_fixParents_eq_none (hw.region.lt_size .refl)
  · exact fun hlast halone => render_fixParents hw.region hroot hlast halone

/-- `return x` after folding `return x + 0`, every node numbered after its children. -/
def foldedUpward : Tree :=
  ⟨#[⟨.symbol "x" none false, some 3⟩, ⟨.constant (.int 0), some 2⟩, ⟨.binary 0 .add 1, none⟩,
    ⟨.ret (some 0), none⟩], 0⟩

theorem reload_valid_iff_heldLast_foldedUpward :
    Fold.fold 3 (ofNodes [.symbol "x" none false, .constant (.int 0), .binary 0 .add 1,
      .ret (some 2)] 0) = .ok 3 foldedUpward ∧
    foldedUpward.Storable ∧ foldedUpward.validate 3 = .ok () ∧ foldedUpward.parent? 3 = none ∧
    ∃ t', parse? foldedUpward.serialize = some t' ∧ t'.validate 3 = .ok () ∧
      ∀ registry rules, Renderer.render ⟨t', registry, rules⟩ 3 =
        Renderer.render ⟨foldedUpward, registry, rules⟩ 3 := by
  have hs : foldedUpward.Storable :=
    ⟨by decide, by decide, by simp [nodes, foldedUpward, Node.Exact, Value.Exact], by decide⟩
  have hv : foldedUpward.validate 3 = .ok () := by decide
  have hroot : foldedUpward.parent? 3 = none := by decide
  have hlast : foldedUpward.HeldLast 3 :=
    (wellFormed_of_validate hv).validate_fixParents.1 (by decide +kernel)
  obtain ⟨t', hread, hvalid, -, hrender⟩ := reload_valid_iff_heldLast hs hv hroot
  refine ⟨by with_unfolding_all rfl, hs, hv, hroot, t', hread, hvalid.2 hlast, hrender hlast (.inr ?_)⟩
  rintro node ⟨⟩
  rfl

def foldedDownward : Tree :=
  ⟨#[⟨.ret (some 2), none⟩, ⟨.binary 2 .add 3, none⟩, ⟨.symbol "x" none false, some 0⟩,
    ⟨.constant (.int 0), some 1⟩], 0⟩

/-- The sum that was folded away comes after the statement and claims the symbol back. -/
theorem reload_after_fold_invalid :
    Fold.fold 0 (ofNodes [.ret (some 1), .binary 2 .add 3, .symbol "x" none false,
      .constant (.int 0)] 0) = .ok 0 foldedDownward ∧
    foldedDownward.validate 0 = .ok () ∧ foldedDownward.parent? 0 = none ∧
    ∃ t', parse? foldedDownward.serialize = some t' ∧
      t'.validate 0 = .error (.parentMismatch "SymbolRef" 2) := by
  have hs : foldedDownward.Storable :=
    ⟨by decide, by decide, by simp [nodes, foldedDownward, Node.Exact, Value.Exact], by decide⟩
  exact ⟨by with_unfolding_all rfl, by decide, by decide, _, hs.parse?_serialize, by decide +kernel⟩

end Tree
end Arbor
