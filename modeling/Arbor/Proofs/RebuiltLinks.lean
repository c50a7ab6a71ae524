import Arbor.Proofs.Slots

/-!
Links that are computed again from the child slots.

All slots of the arena count, in order of ids, also those of nodes that are out of reach. So the
link of a node is the last of its holders, and a node that nobody holds has none.
-/
namespace Arbor.Tree

/-- The links after the slots of the first `count` nodes were looked at. -/
def linkedUpTo (t : Tree) (count : Nat) : Tree :=
  (List.range count).foldl (fun acc id => acc.setParents (t.childrenOf id) (some id))
    { t with entries := t.entries.map fun e => { e with parent := none } }

theorem fixParents_eq (t : Tree) : t.fixParents = t.linkedUpTo t.size := rfl

theorem linkedUpTo_succ (t : Tree) (count : Nat) :
    t.linkedUpTo (count + 1) =
      (t.linkedUpTo count).setParents (t.childrenOf count) (some count) := by
  simp [linkedUpTo, List.range_succ]

theorem get?_linkedUpTo (t : Tree) (count : Nat) (id : NodeId) :
    (t.linkedUpTo count).get? id = t.get? id := by
  induction count with
  | zero => simp [linkedUpTo, get?, Function.comp_def]
  | succ count ih => rw [linkedUpTo_succ, get?_setParents, ih]

theorem size_linkedUpTo (t : Tree) (count : Nat) : (t.linkedUpTo count).size = t.size := by
  induction count with
  | zero => simp [linkedUpTo, size]
  | succ count ih => rw [linkedUpTo_succ, size_setParents, ih]

theorem nextUnique_setParents (t : Tree) (ids : List NodeId) (p : Option NodeId) :
    (t.setParents ids p).nextUnique = t.nextUnique := by
  induction ids generalizing t with
  | nil => rfl
  | cons id ids ih => exact ih (t.setParent id p)

theorem nextUnique_linkedUpTo (t : Tree) (count : Nat) :
    (t.linkedUpTo count).nextUnique = t.nextUnique := by
  induction count with
  | zero => rfl
  | succ count ih => rw [linkedUpTo_succ, nextUnique_setParents, ih]

theorem parent?_linkedUpTo {t : Tree} {count : Nat} {c p : NodeId} :
    (t.linkedUpTo count).parent? c = some p ↔
      c < t.size ∧ (p < count ∧ t.Child p c) ∧ ∀ q < count, t.Child q c → q ≤ p := by
  induction count with
  | zero =>
    have hnone : (t.linkedUpTo 0).parent? c = none := by simp [linkedUpTo, parent?]
    simp [hnone]
  | succ count ih =>
    rw [linkedUpTo_succ, parent?_setParents, size_linkedUpTo]
    by_cases hc : c ∈ t.childrenOf count ∧ c < t.size
    · -- the node at `count` is the last holder so far
      rw [if_pos hc, Option.some.injEq]
      constructor
      · rintro rfl
        exact ⟨hc.2, ⟨Nat.lt_succ_self _, hc.1⟩, fun q hq _ => Nat.le_of_lt_succ hq⟩
      · rintro ⟨-, ⟨hp, -⟩, hlast⟩
        exact Nat.le_antisymm (hlast count (Nat.lt_succ_self _) hc.1) (Nat.le_of_lt_succ hp)
    · rw [if_neg hc, ih]
      constructor
      · rintro ⟨hsize, ⟨hp, hchild⟩, hlast⟩
        refine ⟨hsize, ⟨Nat.lt_succ_of_lt hp, hchild⟩, ?_⟩
        intro q hq hqc
        have hne : q ≠ count := fun h => hc ⟨h ▸ hqc, hsize⟩
        exact hlast q (Nat.lt_of_le_of_ne (Nat.le_of_lt_succ hq) hne) hqc
      · rintro ⟨hsize, ⟨hp, hchild⟩, hlast⟩
        have hne : p ≠ count := fun h => hc ⟨h ▸ hchild, hsize⟩
        have hlt : p < count := Nat.lt_of_le_of_ne (Nat.le_of_lt_succ hp) hne
        exact ⟨hsize, ⟨hlt, hchild⟩, fun q hq => hlast q (Nat.lt_succ_of_lt hq)⟩

theorem parent?_linkedUpTo_eq_none {t : Tree} {count : Nat} {c : NodeId} (hc : c < t.size) :
    (t.linkedUpTo count).parent? c = none ↔ ∀ q < count, ¬ t.Child q c := by
  induction count with
  | zero => simp [linkedUpTo, parent?]
  | succ count ih =>
    rw [linkedUpTo_succ, parent?_setParents, size_linkedUpTo, Nat.forall_lt_succ_right, ← ih]
    by_cases hchild : c ∈ t.childrenOf count
    · simp [hchild, hc, Child]
    · simp [hchild, Child]

theorem Child.lt_size {t : Tree} {p c : NodeId} (h : t.Child p c) : p < t.size := by
  cases hn : t.get? p with
  | none =>
    rw [Child, childrenOf, hn] at h
    exact absurd h List.not_mem_nil
  | some node => exact lt_size_of_get? hn

@[simp] theorem get?_fixParents (t : Tree) (id : NodeId) : t.fixParents.get? id = t.get? id :=
  get?_linkedUpTo t t.size id

@[simp] theorem size_fixParents (t : Tree) : t.fixParents.size = t.size :=
  size_linkedUpTo t t.size

@[simp] theorem nextUnique_fixParents (t : Tree) : t.fixParents.nextUnique = t.nextUnique :=
  nextUnique_linkedUpTo t t.size

/-- The link of a node is its last holder. -/
theorem parent?_fixParents {t : Tree} {c p : NodeId} :
    t.fixParents.parent? c = some p ↔
      c < t.size ∧ t.Child p c ∧ ∀ q, t.Child q c → q ≤ p := by
  rw [fixParents_eq, parent?_linkedUpTo]
  constructor
  · rintro ⟨hsize, ⟨-, hchild⟩, hlast⟩
    exact ⟨hsize, hchild, fun q hq => hlast q hq.lt_size hq⟩
  · rintro ⟨hsize, hchild, hlast⟩
    exact ⟨hsize, ⟨hchild.lt_size, hchild⟩, fun q _ => hlast q⟩

theorem parent?_fixParents_eq_none {t : Tree} {c : NodeId} (hc : c < t.size) :
    t.fixParents.parent? c = none ↔ ∀ q, ¬ t.Child q c := by
  rw [fixParents_eq, parent?_linkedUpTo_eq_none hc]
  exact ⟨fun h q hq => h q hq.lt_size hq, fun h q _ => h q⟩

theorem childrenOf_fixParents (t : Tree) : t.fixParents.childrenOf = t.childrenOf := by
  funext id
  simp [childrenOf]

theorem child_fixParents (t : Tree) : t.fixParents.Child = t.Child := by
  funext p c
  rw [Child, childrenOf_fixParents, Child]

theorem reach_fixParents (t : Tree) : t.fixParents.Reach = t.Reach := by
  rw [Reach, child_fixParents, Reach]

theorem getElem?_nodes (t : Tree) (i : Nat) : t.nodes[i]? = t.get? i := by
  simp [nodes, get?]

theorem nodes_eq_of_get? {t t' : Tree} (h : ∀ id, t'.get? id = t.get? id) : t'.nodes = t.nodes := by
  refine List.ext_getElem? fun i => ?_
  rw [getElem?_nodes, getElem?_nodes, h]

theorem cleared_eq (t : Tree) :
    (⟨(t.nodes.map fun node => ⟨node, none⟩).toArray, t.nextUnique⟩ : Tree) =
      { t with entries := t.entries.map fun e => { e with parent := none } } := by
  have hentries : (t.nodes.map fun node => (⟨node, none⟩ : Entry)).toArray =
      t.entries.map fun e => { e with parent := none } := by
    rw [nodes, List.map_map, ← Array.toList_inj, Array.toList_map]
    rfl
  rw [hentries]

theorem ofNodes_nodes (t : Tree) : ofNodes t.nodes t.nextUnique = t.fixParents := by
  rw [ofNodes, cleared_eq]
  have hchildren :
      childrenOf { t with entries := t.entries.map fun e => { e with parent := none } } =
        t.childrenOf := by
    funext id
    simp [childrenOf, get?, Function.comp_def]
  simp only [fixParents, hchildren, size, Array.size_map, Array.map_map, Function.comp_def]

end Arbor.Tree
