import Arbor.Proofs.FoldedRegion
import Arbor.Proofs.IdIndependence

/-!
A copy of a region is the region in other numbers.

One term may stand at two places, in one arena or in two. In pre-order the two footprints are then
equally long, and ids at equal positions hold the same node up to the numbers of its children. A
copy stands on new ids and is as large as what the arena has grown by, so that nothing else is
added.
-/
namespace Arbor

theorem exists_renumbering {ids ids' : List NodeId} (hn : ids.Nodup)
    (hl : ids'.length = ids.length) : ∃ f : NodeId → NodeId, ids' = ids.map f := by
  induction ids generalizing ids' with
  | nil => exact ⟨id, List.eq_nil_of_length_eq_zero hl⟩
  | cons y ids ih =>
    obtain ⟨hfresh, hn⟩ := List.nodup_cons.mp hn
    cases ids' with
    | nil => cases hl
    | cons y' ids' =>
      obtain ⟨f, rfl⟩ := ih hn (Nat.succ.inj hl)
      refine ⟨Function.update f y y', ?_⟩
      rw [List.map_cons, Function.update_self]
      congr 1
      apply List.map_congr_left
      intro z hz
      rw [Function.update_of_ne]
      rintro rfl
      exact hfresh hz

namespace Tree

section SideBySide

variable {R R' : NodeId → Term → List NodeId → Prop} {cs cs' : List NodeId} {es : List Term}
  {below below' : List NodeId}

theorem Abreast.length_eq (h : Abreast R cs es below) (h' : Abreast R' cs' es below')
    (hlen : ∀ c c' e ids ids', R c e ids → R' c' e ids' → ids'.length = ids.length) :
    below'.length = below.length := by
  induction h generalizing cs' below' with
  | nil =>
    cases h'
    rfl
  | cons hr _ ih =>
    cases h' with
    | cons hr' hrest' =>
      rw [List.length_append, List.length_append, hlen _ _ _ _ _ hr hr', ih hrest']

/-- A renumbering of the whole row renumbers each of its terms, as they are equally long. -/
theorem Abreast.renumbered {f : NodeId → NodeId} {Q : NodeId → Prop} (h : Abreast R cs es below)
    (h' : Abreast R' cs' es below') (hf : below' = below.map f)
    (hlen : ∀ c c' e ids ids', R c e ids → R' c' e ids' → ids'.length = ids.length)
    (hterm : ∀ c c' e ids ids', R c e ids → R' c' e ids' → ids' = ids.map f →
      c' = f c ∧ ∀ y ∈ ids, Q y) :
    cs' = cs.map f ∧ ∀ y ∈ below, Q y := by
  induction h generalizing cs' below' with
  | nil =>
    cases h'
    exact ⟨rfl, nofun⟩
  | cons hr _ ih =>
    cases h' with
    | cons hr' hrest' =>
      rw [List.map_append] at hf
      have hsame := hlen _ _ _ _ _ hr hr'
      obtain ⟨hfirst, hothers⟩ := List.append_inj hf (by rw [hsame, List.length_map])
      obtain ⟨rfl, hq⟩ := hterm _ _ _ _ _ hr hr' hfirst
      obtain ⟨rfl, hqs⟩ := ih hrest' hothers
      exact ⟨rfl, List.forall_mem_append.mpr ⟨hq, hqs⟩⟩

end SideBySide

namespace Stands

variable {t t' : Tree} {depth depth' : Nat} {id id' : NodeId} {holder holder' : Option NodeId}
  {e : Term} {ids ids' : List NodeId}

theorem length_eq (h : t.Stands depth id holder e ids) (h' : t'.Stands depth' id' holder' e ids') :
    ids'.length = ids.length := by
  induction depth generalizing depth' id id' holder holder' e ids ids' with
  | zero => exact h.elim
  | succ depth ih =>
    obtain ⟨node, es, below, -, -, hb, rfl, rfl⟩ := h
    obtain ⟨_, node', es', below', -, -, hb', he, rfl⟩ := h'.top
    obtain ⟨-, rfl⟩ := Term.mk.inj he
    have hrow := hb.length_eq hb' fun _ _ _ _ _ hs hs' => ih hs hs'
    rw [List.length_cons, List.length_cons, hrow]

theorem node_of_map {f : NodeId → NodeId} (h : t.Stands depth id holder e ids)
    (h' : t'.Stands depth' id' holder' e ids') (hf : ids' = ids.map f) :
    id' = f id ∧ ∀ y ∈ ids, ∃ node, t.get? y = some node ∧
      t'.get? (f y) = some (node.mapChildren f) := by
  induction depth generalizing depth' id id' holder holder' e ids ids' with
  | zero => exact h.elim
  | succ depth ih =>
    obtain ⟨node, es, below, hn, -, hb, rfl, rfl⟩ := h
    obtain ⟨_, node', es', below', hn', -, hb', he, rfl⟩ := h'.top
    obtain ⟨hform, rfl⟩ := Term.mk.inj he
    rw [List.map_cons] at hf
    obtain ⟨rfl, hbelow⟩ := List.cons.inj hf
    obtain ⟨hchildren, hrest⟩ := hb.renumbered hb' hbelow
      (fun _ _ _ _ _ hs hs' => hs.length_eq hs') fun _ _ _ _ _ hs hs' => ih hs hs'
    have hnode : node' = node.mapChildren f := by
      apply Node.eq_of_form
      · rw [Node.form_mapChildren, hform]
      · rw [Node.children_mapChildren, hchildren]
    refine ⟨rfl, List.forall_mem_cons.mpr ⟨⟨node, hn, ?_⟩, hrest⟩⟩
    rw [hn', hnode]

theorem renumbered (h : t.Stands depth id holder e ids)
    (h' : t'.Stands depth' id' holder' e ids') (hn : ids.Nodup) :
    ∃ f, ids' = ids.map f ∧ Renumbered f t id t' id' := by
  obtain ⟨f, hf⟩ := exists_renumbering hn (h.length_eq h')
  obtain ⟨hstart, hnodes⟩ := h.node_of_map h' hf
  refine ⟨f, hf, hstart.symm, ?_⟩
  intro y node hy hnode
  obtain ⟨node', hnode', hcopy⟩ := hnodes y (h.mem_iff.mpr hy)
  obtain rfl := Option.some.inj (hnode.symm.trans hnode')
  exact hcopy

end Stands

/-- Copying a well-linked region goes through, whoever holds its root. All nodes and links stay;
the arena grows by as many nodes as the region has, each of which the walk lists once; what the
copy leads to is new, is well linked and held by nobody. The walk of the copy is the walk of the
region renumbered, and so are the nodes on it. -/
theorem clone_is_independent_copy {t : Tree} {id : NodeId} (h : t.WellLinked id) :
    ∃ copy t', cloneSubtree id t = .ok copy t' ∧
      (∀ y < t.size, t'.get? y = t.get? y ∧ t'.parent? y = t.parent? y) ∧
      (t.walk id).Nodup ∧ (∀ y, y ∈ t.walk id ↔ t.Reach id y) ∧
      t'.size = t.size + (t.walk id).length ∧
      (∀ y, t'.Reach copy y → t.size ≤ y) ∧ t'.WellLinked copy ∧ t'.parent? copy = none ∧
      ∃ image, t'.walk copy = (t.walk id).map image ∧ Renumbered image t id t' copy := by
  have hwithin := h.within .refl
  obtain ⟨e, hs⟩ := h.stands .refl hwithin
  have hnodup := h.preorderTo_nodup .refl hwithin
  rw [← hwithin.walk_eq] at hs hnodup
  obtain ⟨copy, t', ids', hrun, hcopy, hnodup', hnew, hsize, hspares⟩ :=
    cloneSubtree_copies hs hnodup
  obtain ⟨image, himage, hrenumbered⟩ := hs.renumbered hcopy hnodup
  refine ⟨copy, t', hrun, fun y hy => ⟨?_, ?_⟩, hnodup, fun y => hs.mem_iff, ?_, ?_, ?_,
    hcopy.parent, image, ?_, hrenumbered⟩
  · exact hspares.node y hy (by simp) (by simp)
  · exact hspares.parent y hy (by simp)
  · rw [hsize, hs.length_eq hcopy]
  · exact fun y hy => hnew y (hcopy.mem_iff.mpr hy)
  · exact hcopy.wellLinked hnodup'
  · rw [hcopy.walk_eq, himage]

/-- `return f(a, a + 1);` between a node that shares the first `a` and one that holds nothing that
exists. -/
def sharedFromOutside : Tree :=
  ⟨#[⟨.block [4], none⟩, ⟨.ret (some 2), none⟩, ⟨.call 3 [4, 5] none, some 1⟩,
    ⟨.symbol "f" none false, some 2⟩, ⟨.symbol "a" none false, some 2⟩,
    ⟨.binary 6 .add 7, some 2⟩, ⟨.symbol "a" none false, some 5⟩, ⟨.constant (.int 1), some 5⟩,
    ⟨.block [40], none⟩], 3⟩

theorem sharedFromOutside_copied :
    sharedFromOutside.validate 2 = .ok () ∧ sharedFromOutside.parent? 2 = some 1 ∧
    ∃ copy t', cloneSubtree 2 sharedFromOutside = .ok copy t' ∧
      (∀ y < 9, t'.get? y = sharedFromOutside.get? y ∧
        t'.parent? y = sharedFromOutside.parent? y) ∧
      t'.size = 15 ∧ (∀ y, t'.Reach copy y → 9 ≤ y) ∧ t'.WellLinked copy ∧
      t'.parent? copy = none ∧
      ∃ image, t'.walk copy = [2, 3, 4, 5, 6, 7].map image ∧
        Renumbered image sharedFromOutside 2 t' copy := by
  have hv : sharedFromOutside.validate 2 = .ok () := by decide +kernel
  have hw : sharedFromOutside.walk 2 = [2, 3, 4, 5, 6, 7] := by decide +kernel
  obtain ⟨copy, t', hrun, hkept, -, -, hsize, hnew, hlinked, hfree, image, hwalk, hnodes⟩ :=
    clone_is_independent_copy (wellFormed_of_validate hv).region
  rw [hw] at hsize hwalk
  exact ⟨hv, rfl, copy, t', hrun, hkept, hsize, hnew, hlinked, hfree, image, hwalk, hnodes⟩

end Tree
end Arbor
