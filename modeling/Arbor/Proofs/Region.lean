import Arbor.Proofs.Sequences
import Arbor.Tree.Basic
import Mathlib.Data.List.Induction
import Mathlib.Data.List.Nodup
import Mathlib.Data.List.Perm.Subperm
import Mathlib.Data.Nat.Init
import Mathlib.Logic.Relation

/-!
The region of a tree under a root: what is reached from it through child slots.

A path is a list of positions, each counted among all children of a node in slot order. A region
is well linked when its ids resolve, each is reached along one path only, and every child names
its holder as parent. Such a region is as deep as the tree is large at most, whatever else the
arena contains.
-/
namespace Arbor

namespace Tree

def Child (t : Tree) (p c : NodeId) : Prop := c ∈ t.childrenOf p

instance (t : Tree) (p c : NodeId) : Decidable (t.Child p c) :=
  inferInstanceAs (Decidable (c ∈ t.childrenOf p))

def Reach (t : Tree) : NodeId → NodeId → Prop := Relation.ReflTransGen t.Child

def follow? (t : Tree) : NodeId → List Nat → Option NodeId
  | id, [] => some id
  | id, i :: path => (t.childrenOf id)[i]?.bind fun c => t.follow? c path

structure WellLinked (t : Tree) (root : NodeId) : Prop where
  resolves : ∀ id, t.Reach root id → ∃ node, t.get? id = some node
  once : ∀ id, t.Reach root id → ∃! path, t.follow? root path = some id
  linked : ∀ p c, t.Reach root p → t.Child p c → t.parent? c = some p

theorem childrenOf_eq {t : Tree} {id : NodeId} {node : Node} (h : t.get? id = some node) :
    t.childrenOf id = node.children := by
  simp [childrenOf, h]

theorem node_eq_ok {t : Tree} {id : NodeId} {node : Node} :
    t.node id = .ok node ↔ t.get? id = some node := by
  unfold Tree.node
  cases t.get? id <;> simp

theorem entry_of_get? {t : Tree} {id : NodeId} {node : Node} (h : t.get? id = some node) :
    ∃ e ∈ t.entries.toList, e.node = node := by
  obtain ⟨e, he, rfl⟩ := Option.map_eq_some_iff.mp h
  exact ⟨e, Array.mem_toList_iff.mpr (Array.mem_of_getElem? he), rfl⟩

theorem lt_size_of_get? {t : Tree} {id : NodeId} {node : Node} (h : t.get? id = some node) :
    id < t.size := by
  simp only [get?, Option.map_eq_some_iff] at h
  obtain ⟨e, he, _⟩ := h
  exact (Array.getElem?_eq_some_iff.mp he).1

theorem get?_of_lt_size {t : Tree} {id : NodeId} (h : id < t.size) :
    ∃ node, t.get? id = some node := by
  simp only [size] at h
  simp [get?, h]

theorem get?_of_child {t : Tree} {p c : NodeId} (h : t.Child p c) :
    ∃ node, t.get? p = some node := by
  cases hn : t.get? p with
  | none => simp [Child, childrenOf, hn] at h
  | some node => exact ⟨node, rfl⟩

theorem follow?_append (t : Tree) (id : NodeId) (p q : List Nat) :
    t.follow? id (p ++ q) = (t.follow? id p).bind fun c => t.follow? c q := by
  induction p generalizing id with
  | nil => rfl
  | cons i p ih =>
    simp only [List.cons_append, follow?, Option.bind_assoc]
    congr 1
    funext c
    exact ih c

theorem follow?_snoc {t : Tree} {id p c : NodeId} {path : List Nat} {i : Nat}
    (h : t.follow? id path = some p) (hc : (t.childrenOf p)[i]? = some c) :
    t.follow? id (path ++ [i]) = some c := by
  simp [follow?_append, h, follow?, hc]

theorem follow?_snoc_inv {t : Tree} {id c : NodeId} {path : List Nat} {i : Nat}
    (h : t.follow? id (path ++ [i]) = some c) :
    ∃ p, t.follow? id path = some p ∧ (t.childrenOf p)[i]? = some c := by
  rw [follow?_append] at h
  obtain ⟨p, hp, hc⟩ := Option.bind_eq_some_iff.mp h
  refine ⟨p, hp, ?_⟩
  obtain ⟨d, hd, he⟩ := Option.bind_eq_some_iff.mp hc
  cases he
  exact hd

theorem reach_of_follow? {t : Tree} {root id : NodeId} {path : List Nat}
    (h : t.follow? root path = some id) : t.Reach root id := by
  induction path generalizing root with
  | nil => cases h; exact .refl
  | cons i path ih =>
    obtain ⟨c, hc, hp⟩ := Option.bind_eq_some_iff.mp h
    exact .head (List.mem_of_getElem? hc) (ih hp)

theorem reach_iff_follow? {t : Tree} {root id : NodeId} :
    t.Reach root id ↔ ∃ path, t.follow? root path = some id := by
  constructor
  · intro h
    induction h with
    | refl => exact ⟨[], rfl⟩
    | tail _ hc ih =>
      obtain ⟨path, hp⟩ := ih
      obtain ⟨i, hi⟩ := List.getElem?_of_mem hc
      exact ⟨path ++ [i], follow?_snoc hp hi⟩
  · rintro ⟨path, hp⟩
    exact reach_of_follow? hp

theorem Reach.child {t : Tree} {root id c : NodeId} {node : Node} (hr : t.Reach root id)
    (hn : t.get? id = some node) (hc : c ∈ node.children) : t.Reach root c := by
  refine Relation.ReflTransGen.tail hr ?_
  rw [Child, childrenOf_eq hn]
  exact hc

namespace WellLinked

variable {t : Tree} {root : NodeId}

theorem path_unique (h : t.WellLinked root) {id : NodeId} {p q : List Nat}
    (hp : t.follow? root p = some id) (hq : t.follow? root q = some id) : p = q :=
  (h.once id (reach_of_follow? hp)).unique hp hq

theorem children_nodup (h : t.WellLinked root) {p : NodeId} (hp : t.Reach root p) :
    (t.childrenOf p).Nodup := by
  obtain ⟨path, hpath⟩ := reach_iff_follow?.mp hp
  rw [List.nodup_iff_injective_getElem]
  intro i j hij
  have hi := List.getElem?_eq_getElem i.isLt
  have hj := (List.getElem?_eq_getElem j.isLt).trans (congrArg some hij.symm)
  have := h.path_unique (follow?_snoc hpath hi) (follow?_snoc hpath hj)
  exact Fin.ext (by simpa using this)

theorem root_not_child (h : t.WellLinked root) {p : NodeId} (hp : t.Reach root p) :
    ¬ t.Child p root := by
  intro hc
  obtain ⟨path, hpath⟩ := reach_iff_follow?.mp hp
  obtain ⟨i, hi⟩ := List.getElem?_of_mem hc
  have := h.path_unique (follow?_snoc hpath hi) (show t.follow? root [] = some root from rfl)
  simp at this

theorem lt_size (h : t.WellLinked root) {id : NodeId} (hi : t.Reach root id) : id < t.size := by
  obtain ⟨node, hn⟩ := h.resolves id hi
  exact lt_size_of_get? hn

theorem node_of_reach (h : t.WellLinked root) {p c : NodeId} {node : Node}
    (hp : t.Reach root p) (hn : t.get? p = some node) (hc : c ∈ node.children) :
    t.Reach root c ∧ t.parent? c = some p := by
  refine ⟨hp.child hn hc, h.linked p c hp ?_⟩
  rw [Child, childrenOf_eq hn]
  exact hc

end WellLinked

theorem WellLinked.below {t : Tree} {root id : NodeId} (h : t.WellLinked root)
    (hi : t.Reach root id) : t.WellLinked id := by
  obtain ⟨path, hpath⟩ := reach_iff_follow?.mp hi
  refine ⟨fun x hx => h.resolves x (hi.trans hx), fun x hx => ?_,
    fun p c hp => h.linked p c (hi.trans hp)⟩
  obtain ⟨down, hdown⟩ := reach_iff_follow?.mp hx
  have whole : ∀ q, t.follow? id q = some x → t.follow? root (path ++ q) = some x := by
    intro q hq
    simp [follow?_append, hpath, hq]
  exact ⟨down, hdown, fun q hq =>
    List.append_cancel_left (h.path_unique (whole q hq) (whole down hdown))⟩

theorem WellLinked.reach_parent {t : Tree} {root x y p : NodeId} (h : t.WellLinked root)
    (hx : t.Reach root x) (hxy : t.Reach x y) (hp : t.parent? y = some p) :
    x = y ∨ t.Reach x p := by
  rcases Relation.ReflTransGen.cases_tail hxy with he | ⟨q, hq, hc⟩
  · exact Or.inl he.symm
  · have hlink := h.linked q y (hx.trans hq) hc
    obtain rfl : q = p := Option.some.inj (hlink.symm.trans hp)
    exact Or.inr hq

def Apart (t : Tree) (a b : NodeId) : Prop := ∀ x, t.Reach a x → ¬ t.Reach b x

/-- A node is reached along one path, so that it is below one of the children only. -/
theorem WellLinked.children_apart {t : Tree} {root p : NodeId} (h : t.WellLinked root)
    (hp : t.Reach root p) : (t.childrenOf p).Pairwise t.Apart := by
  refine List.pairwise_iff_getElem.mpr fun i j hi hj hij x hx hx' => ?_
  obtain ⟨path, hpath⟩ := reach_iff_follow?.mp hp
  obtain ⟨down, hdown⟩ := reach_iff_follow?.mp hx
  obtain ⟨down', hdown'⟩ := reach_iff_follow?.mp hx'
  have first : t.follow? root (path ++ i :: down) = some x := by
    simp [follow?_append, hpath, follow?, hi, hdown]
  have second : t.follow? root (path ++ j :: down') = some x := by
    simp [follow?_append, hpath, follow?, hj, hdown']
  have hsame := List.append_cancel_left (h.path_unique first second)
  have := (List.cons.inj hsame).1
  omega

/-- One path for each id follows from parent links alone, once no list of children repeats
an id and nothing leads back to the root. -/
theorem wellLinked_of_links {t : Tree} {root : NodeId}
    (hr : ∀ id, t.Reach root id → ∃ node, t.get? id = some node)
    (hl : ∀ p c, t.Reach root p → t.Child p c → t.parent? c = some p)
    (hn : ∀ p, t.Reach root p → (t.childrenOf p).Nodup)
    (ht : ∀ p, t.Reach root p → ¬ t.Child p root) : t.WellLinked root := by
  refine ⟨hr, ?_, hl⟩
  have unique : ∀ (p q : List Nat) id, t.follow? root p = some id →
      t.follow? root q = some id → p = q := by
    -- on the last step: its holder is the parent link, its position the only one in the holder
    intro p
    induction p using List.reverseRecOn with
    | nil =>
      intro q id hp hq
      cases hp
      induction q using List.reverseRecOn with
      | nil => rfl
      | append_singleton q j _ =>
        obtain ⟨b, hb, hj⟩ := follow?_snoc_inv hq
        exact absurd (List.mem_of_getElem? hj) (ht b (reach_of_follow? hb))
    | append_singleton p i ih =>
      intro q id hp hq
      obtain ⟨a, ha, hi⟩ := follow?_snoc_inv hp
      induction q using List.reverseRecOn with
      | nil =>
        cases hq
        exact absurd (List.mem_of_getElem? hi) (ht a (reach_of_follow? ha))
      | append_singleton q j _ =>
        obtain ⟨b, hb, hj⟩ := follow?_snoc_inv hq
        have hpa := hl a id (reach_of_follow? ha) (List.mem_of_getElem? hi)
        have hpb := hl b id (reach_of_follow? hb) (List.mem_of_getElem? hj)
        obtain rfl : a = b := Option.some.inj (hpa.symm.trans hpb)
        have hij := (List.getElem?_inj (List.getElem?_eq_some_iff.mp hi).1
          (hn a (reach_of_follow? ha))).mp (hi.trans hj.symm)
        rw [ih q a ha hb, hij]
  intro id hid
  obtain ⟨path, hp⟩ := reach_iff_follow?.mp hid
  exact ⟨path, hp, fun q hq => unique q path id hq hp⟩

theorem length_le_size {t : Tree} {ids : List NodeId} (hn : ids.Nodup)
    (hs : ∀ id ∈ ids, id < t.size) : ids.length ≤ t.size := by
  have hsub : ids ⊆ List.range t.size := fun id hi => List.mem_range.mpr (hs id hi)
  simpa using (List.subperm_of_subset hn hsub).length_le

/-- Everything below the id resolves and lies on fewer than `depth` levels. -/
def Within (t : Tree) : (depth : Nat) → NodeId → Prop
  | 0, _ => False
  | depth + 1, id => ∃ node, t.get? id = some node ∧ ∀ c ∈ node.children, t.Within depth c

theorem Within.resolves {t : Tree} {depth : Nat} {id : NodeId} (h : t.Within depth id) :
    ∃ node, t.get? id = some node := by
  cases depth with
  | zero => exact h.elim
  | succ depth => exact ⟨h.choose, h.choose_spec.1⟩

theorem Within.succ {t : Tree} {depth : Nat} {id : NodeId} (h : t.Within depth id) :
    t.Within (depth + 1) id := by
  induction depth generalizing id with
  | zero => exact h.elim
  | succ depth ih =>
    obtain ⟨node, hn, hc⟩ := h
    exact ⟨node, hn, fun c hm => ih (hc c hm)⟩

theorem Within.mono {t : Tree} {n m : Nat} {id : NodeId} (h : t.Within n id) (hle : n ≤ m) :
    t.Within m id := by
  induction m, hle using Nat.le_induction with
  | base => exact h
  | succ m _ ih => exact ih.succ

/-- What resolves below the id lies on fewer than `depth` levels; other ids are passed over. -/
def LevelsEnd (t : Tree) : (depth : Nat) → NodeId → Prop
  | 0, id => t.get? id = none
  | depth + 1, id => ∀ c ∈ t.childrenOf id, t.LevelsEnd depth c

theorem Within.levelsEnd {t : Tree} {depth : Nat} {id : NodeId} (h : t.Within depth id) :
    t.LevelsEnd depth id := by
  induction depth generalizing id with
  | zero => exact h.elim
  | succ depth ih =>
    obtain ⟨node, hn, hc⟩ := h
    intro c hm
    rw [childrenOf_eq hn] at hm
    exact ih (hc c hm)

theorem LevelsEnd.within {t : Tree} {depth : Nat} {id : NodeId} (h : t.LevelsEnd depth id)
    (hr : ∀ x, t.Reach id x → ∃ node, t.get? x = some node) : t.Within depth id := by
  induction depth generalizing id with
  | zero =>
    obtain ⟨node, hn⟩ := hr id .refl
    cases hn.symm.trans h
  | succ depth ih =>
    obtain ⟨node, hn⟩ := hr id .refl
    refine ⟨node, hn, fun c hm => ?_⟩
    have hchild : t.Child id c := by
      rw [Child, childrenOf_eq hn]
      exact hm
    exact ih (h c hchild) fun x hx => hr x (.head hchild hx)

theorem LevelsEnd.succ {t : Tree} {depth : Nat} {id : NodeId} (h : t.LevelsEnd depth id) :
    t.LevelsEnd (depth + 1) id := by
  induction depth generalizing id with
  | zero =>
    intro c hc
    obtain ⟨node, hn⟩ := get?_of_child hc
    cases hn.symm.trans h
  | succ depth ih => exact fun c hc => ih (h c hc)

theorem LevelsEnd.reach {t : Tree} {depth : Nat} {id x : NodeId} (h : t.LevelsEnd depth id)
    (hx : t.Reach id x) : t.LevelsEnd depth x := by
  induction hx with
  | refl => exact h
  | tail _ hc ih =>
    cases depth with
    | zero =>
      obtain ⟨node, hn⟩ := get?_of_child hc
      cases hn.symm.trans ih
    | succ depth => exact (ih _ hc).succ

theorem LevelsEnd.no_return {t : Tree} {depth : Nat} {id : NodeId} (h : t.LevelsEnd depth id) :
    ¬ Relation.TransGen t.Child id id := by
  induction depth generalizing id with
  | zero =>
    intro hcycle
    obtain ⟨c, hc, -⟩ := Relation.TransGen.head'_iff.mp hcycle
    obtain ⟨node, hn⟩ := get?_of_child hc
    cases hn.symm.trans h
  | succ depth ih =>
    intro hcycle
    obtain ⟨c, hic, hci⟩ := Relation.TransGen.head'_iff.mp hcycle
    exact ih (h c hic) (Relation.TransGen.tail' hci hic)

/-- With no cycle below the root, ids on a way down are distinct, so that the tree is as deep as it
is large at most. -/
theorem levelsEnd_of_acyclic {t : Tree} {root : NodeId}
    (ha : ∀ x, t.Reach root x → ¬ Relation.TransGen t.Child x x) {id : NodeId}
    (hi : t.Reach root id) : t.LevelsEnd t.size id := by
  -- `above` are the ids passed on the way, which use up the levels that are left
  have descend : ∀ n (above : List NodeId) id, t.Reach root id → above.Nodup →
      (∀ a ∈ above, a < t.size ∧ Relation.TransGen t.Child a id) →
      t.size ≤ n + above.length → t.LevelsEnd n id := by
    intro n
    induction n with
    | zero =>
      intro above id hi hn hab hle
      have hfresh : id ∉ above := fun hm => ha id hi (hab id hm).2
      by_contra hsome
      obtain ⟨node, hnode⟩ := Option.ne_none_iff_exists'.mp hsome
      have hlen := length_le_size (t := t) (List.nodup_cons.mpr ⟨hfresh, hn⟩)
        (List.forall_mem_cons.mpr ⟨lt_size_of_get? hnode, fun a hm => (hab a hm).1⟩)
      simp only [List.length_cons] at hlen
      omega
    | succ n ih =>
      intro above id hi hn hab hle c hc
      have hfresh : id ∉ above := fun hm => ha id hi (hab id hm).2
      obtain ⟨node, hnode⟩ := get?_of_child hc
      refine ih (id :: above) c (hi.tail hc) (List.nodup_cons.mpr ⟨hfresh, hn⟩) ?_ ?_
      · exact List.forall_mem_cons.mpr ⟨⟨lt_size_of_get? hnode, .single hc⟩,
          fun a hm => ⟨(hab a hm).1, (hab a hm).2.tail hc⟩⟩
      · simp only [List.length_cons]
        omega
  exact descend t.size [] id hi List.nodup_nil (by simp) (by simp)

theorem within_of_acyclic {t : Tree} {root : NodeId} (hs : ∀ x, t.Reach root x → x < t.size)
    (ha : ∀ x, t.Reach root x → ¬ Relation.TransGen t.Child x x) {id : NodeId}
    (hi : t.Reach root id) : t.Within t.size id :=
  (levelsEnd_of_acyclic ha hi).within fun x hx => get?_of_lt_size (hs x (hi.trans hx))

theorem WellLinked.acyclic {t : Tree} {root id : NodeId} (h : t.WellLinked root)
    (hi : t.Reach root id) : ¬ Relation.TransGen t.Child id id := by
  intro hc
  obtain ⟨c, hic, hci⟩ := Relation.TransGen.head'_iff.mp hc
  obtain ⟨path, hp⟩ := reach_iff_follow?.mp hi
  obtain ⟨i, hi⟩ := List.getElem?_of_mem hic
  obtain ⟨back, hb⟩ := reach_iff_follow?.mp hci
  have hlonger : t.follow? root (path ++ i :: back) = some id := by
    simp [follow?_append, hp, follow?, hi, hb]
  simpa using h.path_unique hlonger hp

theorem WellLinked.within {t : Tree} {root id : NodeId} (h : t.WellLinked root)
    (hi : t.Reach root id) : t.Within t.size id :=
  within_of_acyclic (fun _ hx => h.lt_size hx) (fun _ hx => h.acyclic hx) hi

theorem Within.no_return {t : Tree} {depth : Nat} {id : NodeId} (h : t.Within depth id) :
    ¬ Relation.TransGen t.Child id id := h.levelsEnd.no_return

theorem Within.reach {t : Tree} {depth : Nat} {id x : NodeId} (h : t.Within depth id)
    (hx : t.Reach id x) : t.Within depth x := by
  induction hx with
  | refl => exact h
  | tail _ hc ih =>
    cases depth with
    | zero => exact ih.elim
    | succ depth =>
      obtain ⟨node, hn, hw⟩ := ih
      rw [Child, childrenOf_eq hn] at hc
      exact (hw _ hc).succ

/-- However many levels were allowed for, there are no more than nodes. -/
theorem Within.within_size {t : Tree} {depth : Nat} {id : NodeId} (h : t.Within depth id) :
    t.Within t.size id := by
  refine within_of_acyclic (fun x hx => ?_) (fun x hx => (h.reach hx).no_return) .refl
  obtain ⟨node, hn⟩ := (h.reach hx).resolves
  exact lt_size_of_get? hn

end Tree
end Arbor
