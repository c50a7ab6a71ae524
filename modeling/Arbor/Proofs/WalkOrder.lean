import Arbor.Proofs.Search
import Arbor.Proofs.SlotEdits

/-!
A walk is the pre-order, and it goes down where the links go up.

The walk keeps a stack of ids that are still to be visited, and a node that is taken off puts its
children there in its place. So the stack is always a row of regions that come next, and what the
walk yields from it is their pre-orders one after the other. This needs no more than the end of
every way down: nodes may be shared and ids may dangle. Where the region is well linked as well, the
nodes that a walk comes upon are those whose ancestors lead back to its start.
-/
namespace Arbor
namespace Tree

variable {t : Tree} {root id a c p : NodeId}

/-- Nothing that the root leads to leads back to itself. -/
def AcyclicBelow (t : Tree) (root : NodeId) : Prop :=
  ∀ x, t.Reach root x → ¬ Relation.TransGen t.Child x x

theorem acyclicBelow_iff : t.AcyclicBelow root ↔ t.LevelsEnd t.size root := by
  constructor
  · exact fun h => levelsEnd_of_acyclic h .refl
  · exact fun h x hx => (h.reach hx).no_return

instance decidableLevelsEnd (t : Tree) : (depth : Nat) → (id : NodeId) →
    Decidable (t.LevelsEnd depth id)
  | 0, id => inferInstanceAs (Decidable (t.get? id = none))
  | depth + 1, id =>
    have := decidableLevelsEnd t depth
    inferInstanceAs (Decidable (∀ c ∈ t.childrenOf id, t.LevelsEnd depth c))

instance (t : Tree) (root : NodeId) : Decidable (t.AcyclicBelow root) :=
  decidable_of_iff (t.LevelsEnd t.size root) acyclicBelow_iff.symm

namespace AcyclicBelow

theorem walks (h : t.AcyclicBelow root) (hi : t.Reach root id) : t.Walks [id] (t.preorder id) :=
  (levelsEnd_of_acyclic h hi).succ.walks

theorem walk_eq (h : t.AcyclicBelow root) (hi : t.Reach root id) : t.walk id = t.preorder id :=
  (levelsEnd_of_acyclic h hi).succ.walk_eq (Nat.le_refl _)

theorem preorderTo_eq (h : t.AcyclicBelow root) (hi : t.Reach root id) :
    t.preorderTo t.size id = t.preorder id :=
  (levelsEnd_of_acyclic h hi).walks.unique (h.walks hi)

theorem preorder_node (h : t.AcyclicBelow root) (hi : t.Reach root id) {node : Node}
    (hn : t.get? id = some node) : t.preorder id = id :: node.children.flatMap t.preorder := by
  rw [preorder]
  simp only [preorderTo, hn]
  congr 1
  apply List.flatMap_congr
  intro c hc
  exact h.preorderTo_eq (hi.child hn hc)

end AcyclicBelow

theorem preorder_unresolved (hn : t.get? id = none) : t.preorder id = [] := by
  simp only [preorder, preorderTo, hn]

namespace WellLinked

theorem holder_of_up (h : t.WellLinked root) (hroot : t.parent? root = none)
    (hc : t.Reach root c) (hp : t.Up c p) : t.Reach root p ∧ t.Child p c := by
  rw [Up] at hp
  rcases Relation.ReflTransGen.cases_tail hc with rfl | ⟨q, hq, hchild⟩
  · cases hroot.symm.trans hp
  · obtain rfl : q = p := Option.some.inj ((h.linked q c hq hchild).symm.trans hp)
    exact ⟨hq, hchild⟩

theorem reach_of_up (h : t.WellLinked root) (hroot : t.parent? root = none)
    (hc : t.Reach root c) (hup : Relation.TransGen t.Up c a) : t.Reach root a ∧ t.Reach a c := by
  induction hup with
  | single hp =>
    obtain ⟨ha, hchild⟩ := h.holder_of_up hroot hc hp
    exact ⟨ha, .single hchild⟩
  | tail _ hp ih =>
    obtain ⟨hb, hbc⟩ := ih
    obtain ⟨ha, hchild⟩ := h.holder_of_up hroot hb hp
    exact ⟨ha, .head hchild hbc⟩

theorem mem_walk (h : t.WellLinked root) (ha : t.Reach root a) : c ∈ t.walk a ↔ t.Reach a c := by
  rw [(h.within ha).walk_eq, mem_preorderTo (h.within ha)]

theorem mem_walk_iff_ancestor (h : t.WellLinked root) (hroot : t.parent? root = none)
    (ha : t.Reach root a) (hc : t.Reach root c) : c ∈ t.walk a ↔ a = c ∨ a ∈ t.ancestors c := by
  rw [h.mem_walk ha]
  constructor
  · intro hreach
    by_cases hne : a = c
    · exact Or.inl hne
    · exact Or.inr ((h.below ha).mem_ancestors hreach (Ne.symm hne))
  · rintro (rfl | hmem)
    · exact .refl
    · have hup := (List.pairwise_cons.mp (t.ancestors_pairwise c)).1 a hmem
      exact (h.reach_of_up hroot hc hup).2

theorem root_eq (h : t.WellLinked root) (hroot : t.parent? root = none) (hc : t.Reach root c) :
    t.root c = root := by
  have top : ∀ x, ¬ Relation.TransGen t.Up root x := by
    intro x hx
    obtain ⟨p, hp, -⟩ := Relation.TransGen.head'_iff.mp hx
    cases hroot.symm.trans hp
  by_cases hne : c = root
  · subst hne
    have hnone : t.ancestors c = [] := by
      rw [List.eq_nil_iff_forall_not_mem]
      intro x hx
      exact top x ((List.pairwise_cons.mp (t.ancestors_pairwise c)).1 x hx)
    simp [Tree.root, hnone]
  · rcases below_root (h.mem_ancestors hc hne) with heq | hup
    · exact heq.symm
    · exact absurd hup (top _)

end WellLinked

/-- From a root below which no child slots lead back, a walk ends, and yields the pre-order by
recursion: an id that does not resolve is skipped, and one that does is followed by the pre-orders
of its children, in the order of its slots. Under a root that nobody holds and whose region is well
linked, a walk from one node comes upon another if and only if the first is the second or one of its
ancestors, and every node has the root for its own. -/
theorem walk_follows_slots_and_links (t : Tree) (root : NodeId) :
    (t.AcyclicBelow root →
      t.Walks [root] (t.preorder root) ∧ t.walk root = t.preorder root ∧
      ∀ id, t.Reach root id →
        (t.get? id = none → t.preorder id = []) ∧
        ∀ node, t.get? id = some node →
          t.preorder id = id :: (node.slots.flatMap fun slot => slot.2.ids).flatMap t.preorder) ∧
    (t.WellLinked root → t.parent? root = none →
      ∀ a c, t.Reach root a → t.Reach root c →
        (c ∈ t.walk a ↔ a = c ∨ a ∈ t.ancestors c) ∧ t.root c = root) := by
  constructor
  · intro h
    refine ⟨h.walks .refl, h.walk_eq .refl, fun id hi => ⟨preorder_unresolved, ?_⟩⟩
    exact fun node hn => h.preorder_node hi hn
  · intro h hroot a c ha hc
    exact ⟨h.mem_walk_iff_ancestor hroot ha hc, h.root_eq hroot hc⟩

/-- A block that holds another one twice and a symbol of this one once more; an id dangles. -/
def sharing : Tree := .ofNodes [.symbol "a" none false, .block [0, 7], .block [1, 0, 1]] 0

def returning : Tree :=
  .ofNodes [.symbol "a" none false, .constant (.int 1), .binary 0 .add 1, .ret (some 2),
    .block [3]] 0

theorem sharing_walked_returning_linked :
    sharing.AcyclicBelow 2 ∧ sharing.Walks [2] [2, 1, 0, 0, 1, 0] ∧
    sharing.walk 2 = [2, 1, 0, 0, 1, 0] ∧
    returning.WellLinked 4 ∧ 1 ∈ returning.walk 3 ∧ 3 ∈ returning.ancestors 1 ∧
    1 ∉ returning.walk 0 ∧ 0 ∉ returning.ancestors 1 ∧ returning.root 1 = 4 := by
  have hacyclic : sharing.AcyclicBelow 2 := by decide +kernel
  have hpreorder : sharing.preorder 2 = [2, 1, 0, 0, 1, 0] := by decide +kernel
  obtain ⟨hwalks, hwalk, -⟩ := (walk_follows_slots_and_links sharing 2).1 hacyclic
  rw [hpreorder] at hwalks hwalk
  have hlinked : returning.WellLinked 4 :=
    (wellFormed_of_validate (by decide +kernel)).region
  have hreach : ∀ x ∈ [4, 3, 2, 0, 1], returning.Reach 4 x := by
    intro x hx
    have hmem : x ∈ returning.walk 4 := by
      rwa [show returning.walk 4 = [4, 3, 2, 0, 1] by decide +kernel]
    exact (hlinked.mem_walk .refl).mp hmem
  have hlinks := (walk_follows_slots_and_links returning 4).2 hlinked (by decide +kernel)
  have hbelow := hlinks 3 1 (hreach 3 (by decide)) (hreach 1 (by decide))
  have hbeside := hlinks 0 1 (hreach 0 (by decide)) (hreach 1 (by decide))
  have hup : 3 ∈ returning.ancestors 1 := by decide +kernel
  have hnot : 0 ∉ returning.ancestors 1 := by decide +kernel
  refine ⟨hacyclic, hwalks, hwalk, hlinked, hbelow.1.mpr (Or.inr hup), hup, ?_, hnot, hbelow.2⟩
  rw [hbeside.1]
  exact not_or.mpr ⟨by decide, hnot⟩

end Tree
end Arbor
