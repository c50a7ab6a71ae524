import Arbor.Proofs.ParentLinks
import Arbor.Proofs.Search
import Arbor.Proofs.Validation

/-!
Edits of one slot, seen from a root above it.

The nodes that come in may be new, may be taken out of what goes, or may be held where no root
leads; all that is known of them is that the guard has let them in. The guard follows parent links
only. Where every link names a holder, a chain of links is a way down in reverse, and so the guard
keeps out whatever the root would still reach on another path. It looks at one node at a time:
two nodes of a new list may both come in although the one holds the other.
-/
namespace Arbor
namespace Tree

/-- Every link names a node that holds the child. -/
def LinksHeld (t : Tree) : Prop := ∀ c p, t.parent? c = some p → t.Child p c

variable {t t' : Tree} {root holder : NodeId} {front freed taken back : List NodeId}

theorem linksHeld_run (edits : List Edit) : (Edit.run edits).LinksHeld := by
  intro c p hp
  exact ((execution_preserves_links (execution_run edits) empty_linksSound).held c p hp).2

theorem LinksHeld.reach (h : t.LinksHeld) {x a : NodeId} (hu : Relation.ReflTransGen t.Up x a) :
    t.Reach a x := by
  induction hu with
  | refl => exact .refl
  | tail _ hup ih => exact .head (h _ _ hup) ih

/-- A node that may come in is held by nobody, or lies in what goes. -/
theorem LinksHeld.attachable_cases (h : t.LinksHeld) {c : NodeId}
    (ha : t.checkAttachable holder c freed = .ok ()) :
    t.parent? c = none ∨ ∃ d ∈ freed, t.Reach d c := by
  obtain ⟨-, -, -, hrelease⟩ := checkAttachable_eq_ok.mp ha
  cases hp : t.parent? c with
  | none => exact Or.inl rfl
  | some p =>
    right
    have hheld : t.Child p c := h c p hp
    have hrel := hrelease p hp
    simp only [releasedBy, Bool.or_eq_true, List.contains_iff_mem, List.any_eq_true,
      beq_iff_eq] at hrel
    rcases hrel with hc | ⟨d, hd, rfl | hup⟩
    · exact ⟨c, hc, .refl⟩
    · exact ⟨p, hd, .single hheld⟩
    · refine ⟨d, hd, Relation.ReflTransGen.tail ?_ hheld⟩
      apply h.reach
      exact ((List.pairwise_cons.mp (t.ancestors_pairwise p)).1 d hup).to_reflTransGen

theorem Within.path_length {depth : Nat} {id x : NodeId} {path : List Nat}
    (h : t.Within depth id) (hp : t.follow? id path = some x) : path.length < depth := by
  induction path generalizing depth id with
  | nil =>
    cases depth with
    | zero => exact h.elim
    | succ depth => simp
  | cons i path ih =>
    cases depth with
    | zero => exact h.elim
    | succ depth =>
      obtain ⟨node, hn, hc⟩ := h
      obtain ⟨c, hi, hp⟩ := Option.bind_eq_some_iff.mp hp
      rw [childrenOf_eq hn] at hi
      have := ih (hc c (List.mem_of_getElem? hi)) hp
      simp only [List.length_cons]
      omega

theorem WellLinked.mem_ancestorsUpTo {c x : NodeId} {path : List Nat} {count : Nat}
    (h : t.WellLinked c) (hp : t.follow? c path = some x) (hne : x ≠ c)
    (hle : path.length ≤ count) : c ∈ t.ancestorsUpTo count x := by
  induction path using List.reverseRecOn generalizing count x with
  | nil =>
    cases hp
    exact absurd rfl hne
  | append_singleton path i ih =>
    obtain ⟨p, hpath, hi⟩ := follow?_snoc_inv hp
    have hlink := h.linked p x (reach_of_follow? hpath) (List.mem_of_getElem? hi)
    rw [List.length_append, List.length_singleton] at hle
    cases count with
    | zero => omega
    | succ count =>
      simp only [ancestorsUpTo, hlink, List.mem_cons]
      by_cases hpc : p = c
      · exact Or.inl hpc.symm
      · exact Or.inr (ih hpath hpc (by omega))

theorem WellLinked.mem_ancestors {c x : NodeId} (h : t.WellLinked c) (hx : t.Reach c x)
    (hne : x ≠ c) : c ∈ t.ancestors x := by
  obtain ⟨path, hp⟩ := reach_iff_follow?.mp hx
  have hlong := (h.within .refl).path_length hp
  exact h.mem_ancestorsUpTo hp hne (by omega)

theorem WellLinked.eq_of_child_below {p c c' : NodeId} (h : t.WellLinked root)
    (hp : t.Reach root p) (hc : t.Child p c) (hc' : t.Child p c') (hr : t.Reach c c') : c = c' := by
  rcases h.reach_parent (hp.tail hc) hr (h.linked p c' hp hc') with he | hback
  · exact he
  · exact absurd (Relation.TransGen.head' hc hback) (h.acyclic hp)

theorem WellLinked.not_reach_holder {c : NodeId} (h : t.WellLinked c)
    (ha : t.checkAttachable holder c freed = .ok ()) : ¬ t.Reach c holder := by
  obtain ⟨-, hne, hnot, -⟩ := checkAttachable_eq_ok.mp ha
  intro hr
  exact hnot (h.mem_ancestors hr (Ne.symm hne))

/-- The children of one node may differ, and nothing else. -/
structure SameBut (holder : NodeId) (t t' : Tree) : Prop where
  size_eq : t'.size = t.size
  children : ∀ q, q ≠ holder → t'.childrenOf q = t.childrenOf q

namespace SameBut

theorem refl (holder : NodeId) (t : Tree) : SameBut holder t t := ⟨rfl, fun _ _ => rfl⟩

variable {z x : NodeId} {depth : Nat} (h : SameBut holder t t')

include h

theorem reach_iff (hz : ¬ t.Reach z holder) : t'.Reach z x ↔ t.Reach z x := by
  constructor
  · intro hr
    induction hr with
    | refl => exact .refl
    | tail _ hc ih =>
      refine ih.tail ?_
      rw [Child, h.children _ fun he => hz (he ▸ ih)] at hc
      exact hc
  · intro hr
    induction hr with
    | refl => exact .refl
    | tail hp hc ih =>
      refine ih.tail ?_
      rw [Child, h.children _ fun he => hz (he ▸ hp)]
      exact hc

theorem reach_holder (hx : t.Reach x holder) : t'.Reach x holder := by
  induction hx using Relation.ReflTransGen.head_induction_on with
  | refl => exact .refl
  | @head x y hc _ ih =>
    by_cases he : x = holder
    · rw [he]
      exact .refl
    · refine .head ?_ ih
      rw [Child, h.children _ he]
      exact hc

theorem walk_eq (hz : ¬ t.Reach z holder) (hw : t.Within depth z) :
    t'.Within depth z ∧ t'.walk z = t.walk z := by
  induction depth generalizing z with
  | zero => exact hw.elim
  | succ depth ih =>
    have hsame : t'.childrenOf z = t.childrenOf z := by
      apply h.children
      rintro rfl
      exact hz .refl
    have hchildren : ∀ c ∈ t.childrenOf z, t'.Within depth c ∧ t'.walk c = t.walk c := by
      obtain ⟨node, hn, hc⟩ := hw
      intro c hm
      apply ih
      · intro hr
        exact hz (.head hm hr)
      · rw [childrenOf_eq hn] at hm
        exact hc c hm
    have hw' : t'.Within (depth + 1) z := by
      obtain ⟨node, hn, -⟩ := hw
      have hlt : z < t'.size := h.size_eq ▸ lt_size_of_get? hn
      obtain ⟨node', hn'⟩ := get?_of_lt_size hlt
      refine ⟨node', hn', fun c hc => ?_⟩
      rw [← childrenOf_eq hn', hsame] at hc
      exact (hchildren c hc).1
    refine ⟨hw', ?_⟩
    rw [hw'.walk_cons, hw.walk_cons, hsame]
    congr 1
    exact List.flatMap_congr fun c hc => (hchildren c hc).2

/-- The walk of the holder is one stretch of the walk from above it, and what is before and after
that stretch stays. -/
theorem walk_around (hl : t.WellLinked root) (hx : t.Reach root x) (hr : t.Reach x holder)
    (hw : t'.Within depth x) : ∃ before after, t.walk x = before ++ t.walk holder ++ after ∧
      t'.walk x = before ++ t'.walk holder ++ after := by
  induction hr using Relation.ReflTransGen.head_induction_on generalizing depth with
  | refl => exact ⟨[], [], by simp, by simp⟩
  | @head x y hc hr ih =>
    have hne : x ≠ holder := by
      rintro rfl
      exact hl.acyclic hx (Relation.TransGen.head' hc hr)
    obtain ⟨start, rest, hsplit⟩ := List.append_of_mem hc
    have hsame : t'.childrenOf x = start ++ y :: rest := by
      rw [h.children x hne, hsplit]
    have hy : t'.Child x y := by
      rw [Child, hsame]
      simp
    obtain ⟨before, after, hbefore, hafter⟩ := ih (hx.tail hc) (hw.reach (.single hy))
    -- the way to the holder goes through `y`, so the other children keep their walks
    have hother : ∀ c, c ∈ start ∨ c ∈ rest → t'.walk c = t.walk c := by
      intro c hm
      have hmem : t.Child x c := by
        rw [Child, hsplit]
        grind
      have hpair := hl.children_apart hx
      rw [hsplit] at hpair
      have hapart : ¬ t.Reach c holder := by
        obtain ⟨-, htail, hcross⟩ := List.pairwise_append.mp hpair
        intro hch
        rcases hm with hm | hm
        · exact hcross c hm y (by simp) holder hch hr
        · exact (List.pairwise_cons.mp htail).1 c hm holder hr hch
      exact (h.walk_eq hapart (hl.within (hx.tail hmem))).2
    have hstart : start.flatMap t'.walk = start.flatMap t.walk :=
      List.flatMap_congr fun c hm => hother c (Or.inl hm)
    have hrest : rest.flatMap t'.walk = rest.flatMap t.walk :=
      List.flatMap_congr fun c hm => hother c (Or.inr hm)
    refine ⟨x :: start.flatMap t.walk ++ before, after ++ rest.flatMap t.walk, ?_, ?_⟩
    · rw [(hl.within hx).walk_cons, hsplit, List.flatMap_append, List.flatMap_cons, hbefore]
      simp
    · rw [hw.walk_cons, hsame, List.flatMap_append, List.flatMap_cons, hafter, hstart, hrest]
      simp

end SameBut

theorem Splices.sameBut (h : t.Splices holder front freed taken back t') : SameBut holder t t' :=
  ⟨h.size_eq, fun _ hq => h.childrenOf_other hq⟩

/-- An edit under a root: the region of the root is well linked before it, and so is the region of
each node that comes in. -/
structure Grafts (t : Tree) (root holder : NodeId) (front freed taken back : List NodeId)
    (t' : Tree) : Prop extends t.Splices holder front freed taken back t' where
  held : t.LinksHeld
  region : t.WellLinked root
  inside : t.Reach root holder
  incoming : ∀ c ∈ taken, t.WellLinked c
  distinct : taken.Nodup

/-- What the root reaches and the nodes that go do not. -/
def Remains (t : Tree) (root : NodeId) (freed : List NodeId) (x : NodeId) : Prop :=
  t.Reach root x ∧ ∀ d ∈ freed, ¬ t.Reach d x

/-- One stretch of the walk from the root is exchanged for another. -/
def Rewalks (t t' : Tree) (root : NodeId) (old new : List NodeId) : Prop :=
  ∃ before after, t.walk root = before ++ old ++ after ∧ t'.walk root = before ++ new ++ after

theorem Rewalks.narrow {old new old' new' : List NodeId} (h : t.Rewalks t' root old new)
    (start rest : List NodeId) (ho : old = start ++ old' ++ rest) (hn : new = start ++ new' ++ rest) :
    t.Rewalks t' root old' new' := by
  obtain ⟨before, after, hbefore, hafter⟩ := h
  refine ⟨before ++ start, rest ++ after, ?_, ?_⟩
  · rw [hbefore, ho]
    simp
  · rw [hafter, hn]
    simp

namespace Grafts

variable {d c x p : NodeId} (h : t.Grafts root holder front freed taken back t')

include h

theorem freed_child (hd : d ∈ freed) : t.Child holder d := by
  rw [Child, h.before]
  simp [hd]

theorem freed_not_reach_holder (hd : d ∈ freed) : ¬ t.Reach d holder := by
  intro hr
  exact h.region.acyclic h.inside (Relation.TransGen.head' (h.freed_child hd) hr)

theorem holder_of_freed (hd : d ∈ freed) (hp : t.parent? d = some p) : p = holder := by
  have hlink := h.region.linked holder d h.inside (h.freed_child hd)
  exact Option.some.inj (hp.symm.trans hlink)

theorem freed_reach_parent (hd : d ∈ freed) (hr : t.Reach d x) (hp : t.parent? x = some p) :
    d = x ∨ t.Reach d p :=
  h.region.reach_parent (h.inside.tail (h.freed_child hd)) hr hp

theorem taken_not_reach_holder (hc : c ∈ taken) : ¬ t.Reach c holder :=
  (h.incoming c hc).not_reach_holder (h.attachable c hc)

theorem taken_not_reach_root (hc : c ∈ taken) : ¬ t.Reach c root := by
  intro hr
  exact h.taken_not_reach_holder hc (hr.trans h.inside)

theorem freed_of_taken (hc : c ∈ taken) (hchild : t.Child holder c) : c ∈ freed := by
  have hlink := h.region.linked holder c h.inside hchild
  rcases h.held.attachable_cases (h.attachable c hc) with hnone | ⟨d, hd, hr⟩
  · cases hnone.symm.trans hlink
  · rcases h.freed_reach_parent hd hr hlink with rfl | hr
    · exact hd
    · exact absurd hr (h.freed_not_reach_holder hd)

theorem children_nodup : (front ++ freed ++ back).Nodup := by
  rw [← h.before]
  exact h.region.children_nodup h.inside

theorem children_nodup_after : (front ++ taken ++ back).Nodup := by
  have hnodup := h.children_nodup
  have hdistinct := h.distinct
  have hother : ∀ c ∈ taken, c ∉ front ∧ c ∉ back := by
    intro c hc
    have hgoes : c ∈ front ∨ c ∈ back → c ∈ freed := by
      intro hm
      apply h.freed_of_taken hc
      rw [Child, h.before]
      grind
    grind
  grind

theorem child_holder_cases (hc : t'.Child holder x) :
    x ∈ taken ∨ (t.Child holder x ∧ x ∉ freed) := by
  have hnodup := h.children_nodup
  rw [Child, h.after] at hc
  rw [Child, h.before]
  grind

theorem remains_root : t.Remains root freed root := by
  refine ⟨.refl, fun d hd hr => ?_⟩
  have hdown := h.inside.tail (h.freed_child hd)
  rcases Relation.ReflTransGen.cases_tail hr with rfl | ⟨p, hp, hc⟩
  · exact h.region.root_not_child h.inside (h.freed_child hd)
  · exact h.region.root_not_child (hdown.trans hp) hc

theorem remains_child (hp : t.Remains root freed p) (hc : t.Child p x) (hx : x ∉ freed) :
    t.Remains root freed x := by
  have hlink := h.region.linked p x hp.1 hc
  refine ⟨hp.1.tail hc, fun d hd hr => ?_⟩
  rcases h.freed_reach_parent hd hr hlink with rfl | hr
  · exact hx hd
  · exact hp.2 d hd hr

theorem reach_cases (hr : t'.Reach root x) :
    t.Remains root freed x ∨ ∃ c ∈ taken, t.Reach c x := by
  induction hr with
  | refl => exact Or.inl h.remains_root
  | @tail p x _ hc ih =>
    by_cases hp : p = holder
    · subst hp
      rcases h.child_holder_cases hc with hx | ⟨hc, hx⟩
      · exact Or.inr ⟨x, hx, .refl⟩
      · exact Or.inl (h.remains_child ⟨h.inside, fun d => h.freed_not_reach_holder⟩ hc hx)
    · rw [Child, h.childrenOf_other hp] at hc
      rcases ih with hrem | ⟨c, hm, hr⟩
      · refine Or.inl (h.remains_child hrem hc fun hx => ?_)
        exact hp (h.holder_of_freed hx (h.region.linked p x hrem.1 hc))
      · exact Or.inr ⟨c, hm, hr.tail hc⟩

theorem in_old_region (hr : t'.Reach root x) : ∃ top, t.WellLinked top ∧ t.Reach top x := by
  rcases h.reach_cases hr with hrem | ⟨c, hm, hcx⟩
  · exact ⟨root, h.region, hrem.1⟩
  · exact ⟨c, h.incoming c hm, hcx⟩

section Separate

variable (hs : ∀ c ∈ taken, ∀ c' ∈ taken, t.Reach c c' → c = c')

include hs

/-- A child away from the holder is not one that came in: the guard has seen it released, and
nothing that goes leads to it; nor is it below another one. -/
theorem not_taken_elsewhere (hr : t'.Reach root p) (hne : p ≠ holder) (hc : t.Child p x)
    (hlink : t.parent? x = some p) : x ∉ taken := by
  intro hx
  rcases h.reach_cases hr with hrem | ⟨c, hm, hcp⟩
  · rcases h.held.attachable_cases (h.attachable x hx) with hnone | ⟨d, hd, hdx⟩
    · cases hnone.symm.trans hlink
    · rcases h.freed_reach_parent hd hdx hlink with rfl | hdp
      · exact hne (h.holder_of_freed hd hlink)
      · exact hrem.2 d hd hdp
  · obtain rfl := hs c hm x hx (hcp.tail hc)
    exact (h.incoming c hm).acyclic .refl (Relation.TransGen.tail' hcp hc)

theorem linked_after (hr : t'.Reach root p) (hc : t'.Child p x) : t'.parent? x = some p := by
  rw [h.parent?_eq]
  by_cases hp : p = holder
  · subst hp
    by_cases hm : x ∈ taken
    · rw [if_pos hm]
    · obtain ⟨hc, hx⟩ := (h.child_holder_cases hc).resolve_left hm
      rw [if_neg hm, if_neg fun hf => hx hf.1]
      exact h.region.linked p x h.inside hc
  · rw [Child, h.childrenOf_other hp] at hc
    obtain ⟨top, hl, htop⟩ := h.in_old_region hr
    have hlink := hl.linked p x htop hc
    have hkept : x ∉ freed := by
      intro hx
      exact hp (h.holder_of_freed hx hlink)
    rw [if_neg (h.not_taken_elsewhere hs hr hp hc hlink), if_neg fun hf => hkept hf.1]
    exact hlink

theorem wellLinked : t'.WellLinked root := by
  apply wellLinked_of_links
  · intro x hr
    apply get?_of_lt_size
    obtain ⟨top, hl, htop⟩ := h.in_old_region hr
    rw [h.size_eq]
    exact hl.lt_size htop
  · intro p c hr hc
    exact h.linked_after hs hr hc
  · intro p hr
    by_cases hp : p = holder
    · rw [hp, h.after]
      exact h.children_nodup_after
    · obtain ⟨top, hl, htop⟩ := h.in_old_region hr
      rw [h.childrenOf_other hp]
      exact hl.children_nodup htop
  · intro p hr hc
    rcases h.child_cases hc with hold | ⟨-, hm⟩
    · rcases h.reach_cases hr with hrem | ⟨c, hm, hcp⟩
      · exact h.region.root_not_child hrem.1 hold
      · exact h.taken_not_reach_root hm (hcp.tail hold)
    · exact h.taken_not_reach_root hm .refl

end Separate

theorem wellLinked_of_alone (ho : taken.length ≤ 1) : t'.WellLinked root := by
  apply h.wellLinked
  intro c hc c' hc' _
  rcases taken with _ | ⟨a, _ | ⟨b, rest⟩⟩
  · cases hc
  · rw [List.mem_singleton.mp hc, List.mem_singleton.mp hc']
  · simp at ho

theorem separate (hw : t'.WellLinked root) :
    ∀ c ∈ taken, ∀ c' ∈ taken, t.Reach c c' → c = c' := by
  intro c hc c' hc' hr
  have hholder := h.sameBut.reach_holder h.inside
  apply hw.eq_of_child_below hholder (h.child_taken hc) (h.child_taken hc')
  exact (h.sameBut.reach_iff (h.taken_not_reach_holder hc)).mpr hr

/-- The nodes that came in, each with its own walk, stand in the walk from the root where those that
went stood with theirs. -/
theorem rewalks (hw : t'.WellLinked root) :
    t.Rewalks t' root (holder :: (front ++ freed ++ back).flatMap t.walk)
      (holder :: (front ++ taken ++ back).flatMap t.walk) := by
  obtain ⟨before, after, hbefore, hafter⟩ :=
    h.sameBut.walk_around h.region .refl h.inside (hw.within .refl)
  have hwalk : ∀ c ∈ front ++ taken ++ back, t'.walk c = t.walk c := by
    intro c hm
    by_cases hc : c ∈ taken
    · exact (h.sameBut.walk_eq (h.taken_not_reach_holder hc) ((h.incoming c hc).within .refl)).2
    · have hchild : t.Child holder c := by
        rw [Child, h.before]
        grind
      refine (h.sameBut.walk_eq (fun hr => ?_) (h.region.within (h.inside.tail hchild))).2
      exact h.region.acyclic h.inside (Relation.TransGen.head' hchild hr)
  refine ⟨before, after, ?_, ?_⟩
  · rw [hbefore, (h.region.within h.inside).walk_cons, h.before]
  · rw [hafter, (hw.within (h.sameBut.reach_holder h.inside)).walk_cons, h.after,
      List.flatMap_congr hwalk]

end Grafts

section Edits

variable {id new parent : NodeId} {field : String}

theorem setField_grafts {child old : Option NodeId} (hh : t.LinksHeld) (hl : t.WellLinked root)
    (hp : t.Reach root parent) (hc : ∀ c ∈ child, t.WellLinked c)
    (h : t.setField parent field child = .ok (t', old)) :
    ∃ front back, t.Grafts root parent front old.toList child.toList back t' := by
  obtain ⟨front, back, hsplice⟩ := setField_splices h
  refine ⟨front, back, hsplice, hh, hl, hp, ?_, ?_⟩
  · intro c hm
    exact hc c (Option.mem_toList.mp hm)
  · cases child <;> simp

theorem setList_grafts {children old : List NodeId} (hh : t.LinksHeld) (hl : t.WellLinked root)
    (hp : t.Reach root parent) (hc : ∀ c ∈ children, t.WellLinked c)
    (h : t.setList parent field children = .ok (t', old)) :
    ∃ front back, t.Grafts root parent front old children back t' := by
  obtain ⟨hnodup, front, back, hsplice⟩ := setList_splices h
  exact ⟨front, back, hsplice, hh, hl, hp, hc, hnodup⟩

theorem WellLinked.reach_holder (hl : t.WellLinked root) (hid : t.Reach root id) (hne : id ≠ root)
    (hp : t.parent? id = some holder) : t.Reach root holder :=
  (hl.reach_parent .refl hid hp).resolve_left (Ne.symm hne)

theorem Splices.grafts_one (h : t.Splices holder front freed [new] back t') (hh : t.LinksHeld)
    (hl : t.WellLinked root) (hp : t.Reach root holder) (hn : t.WellLinked new) :
    t.Grafts root holder front freed [new] back t' := by
  refine ⟨h, hh, hl, hp, ?_, List.nodup_singleton new⟩
  intro c hm
  rwa [List.mem_singleton.mp hm]

theorem replace_in_region (hh : t.LinksHeld) (hl : t.WellLinked root) (hid : t.Reach root id)
    (hne : id ≠ root) (hn : t.WellLinked new) (h : t.replace id new = .ok t') :
    t'.WellLinked root ∧ t.Rewalks t' root (t.walk id) (t.walk new) := by
  rcases replace_splices h with ⟨rfl, rfl⟩ | ⟨holder, front, back, hp, hsplice⟩
  · obtain ⟨before, after, hwalk, -⟩ :=
      (SameBut.refl new t').walk_around hl .refl hid (hl.within .refl)
    exact ⟨hl, before, after, hwalk, hwalk⟩
  · have hgraft := hsplice.grafts_one hh hl (hl.reach_holder hid hne hp) hn
    have hw := hgraft.wellLinked_of_alone (Nat.le_refl 1)
    refine ⟨hw, (hgraft.rewalks hw).narrow (holder :: front.flatMap t.walk) (back.flatMap t.walk)
      ?_ ?_⟩
    · simp
    · simp

theorem insertSibling_in_region {offset : Nat} (ho : offset ≤ 1) (hh : t.LinksHeld)
    (hl : t.WellLinked root) (hid : t.Reach root id) (hne : id ≠ root) (hn : t.WellLinked new)
    (h : t.insertSibling id new offset = .ok t') :
    t'.WellLinked root ∧ t.Rewalks t' root (t.walk id)
      (([id].take offset ++ new :: [id].drop offset).flatMap t.walk) := by
  obtain ⟨holder, front, back, hp, hsplice⟩ := insertSibling_splices ho h
  have hgraft := hsplice.grafts_one hh hl (hl.reach_holder hid hne hp) hn
  have hw := hgraft.wellLinked_of_alone (Nat.le_refl 1)
  have hsibling : t.walk id = ([id].take offset ++ [id].drop offset).flatMap t.walk := by
    rw [List.take_append_drop]
    simp
  refine ⟨hw, (hgraft.rewalks hw).narrow (holder :: front.flatMap t.walk) (back.flatMap t.walk)
    ?_ ?_⟩
  · rw [hsibling]
    simp only [List.flatMap_append, List.append_nil, List.cons_append, List.append_assoc]
  · simp

end Edits

/-- Edits of a single slot keep the region of a root well linked, wherever the incoming node is
from. In the walk of the root the walk of the incoming node takes the place of the displaced node's
walk, or comes right before or right after the walk of the sibling. -/
theorem single_slot_edits_keep_region (hh : t.LinksHeld) (hl : t.WellLinked root) :
    (∀ parent field child old t', t.Reach root parent → (∀ c ∈ child, t.WellLinked c) →
      t.setField parent field child = .ok (t', old) →
      t'.WellLinked root ∧ ∃ front back,
        t.childrenOf parent = front ++ old.toList ++ back ∧
        t'.childrenOf parent = front ++ child.toList ++ back ∧
        t.Rewalks t' root (parent :: (front ++ old.toList ++ back).flatMap t.walk)
          (parent :: (front ++ child.toList ++ back).flatMap t.walk)) ∧
    (∀ id new t', t.Reach root id → id ≠ root → t.WellLinked new →
      t.replace id new = .ok t' →
      t'.WellLinked root ∧ t.Rewalks t' root (t.walk id) (t.walk new)) ∧
    (∀ id new t', t.Reach root id → id ≠ root → t.WellLinked new →
      t.insertBefore id new = .ok t' →
      t'.WellLinked root ∧ t.Rewalks t' root (t.walk id) (t.walk new ++ t.walk id)) ∧
    (∀ id new t', t.Reach root id → id ≠ root → t.WellLinked new →
      t.insertAfter id new = .ok t' →
      t'.WellLinked root ∧ t.Rewalks t' root (t.walk id) (t.walk id ++ t.walk new)) := by
  refine ⟨?_, ?_, ?_, ?_⟩
  · intro parent field child old t' hp hc h
    obtain ⟨front, back, hgraft⟩ := setField_grafts hh hl hp hc h
    have hw := hgraft.wellLinked_of_alone (by cases child <;> simp)
    exact ⟨hw, front, back, hgraft.before, hgraft.after, hgraft.rewalks hw⟩
  · intro id new t' hid hne hn h
    exact replace_in_region hh hl hid hne hn h
  · intro id new t' hid hne hn h
    simpa using insertSibling_in_region (Nat.zero_le 1) hh hl hid hne hn h
  · intro id new t' hid hne hn h
    simpa using insertSibling_in_region (Nat.le_refl 1) hh hl hid hne hn h

def nested : List Edit :=
  [.add (.symbol "a" none false), .add (.ret (some 0)), .add (.block [1]), .add (.block [2]),
    .add (.symbol "b" none false)]

/-- The inner block gives way to what it holds; the other name takes the place of the returned one,
or goes before or after the return. -/
theorem nested_region_kept :
    (Edit.run nested).LinksHeld ∧ (Edit.run nested).WellLinked 3 ∧
    (Edit.run nested).walk 3 = [3, 2, 1, 0] ∧
    (Edit.run (nested ++ [.setField 1 "value" (some 4)])).WellLinked 3 ∧
    (Edit.run (nested ++ [.setField 1 "value" (some 4)])).walk 3 = [3, 2, 1, 4] ∧
    (Edit.run (nested ++ [.replace 2 1])).WellLinked 3 ∧
    (Edit.run (nested ++ [.replace 2 1])).walk 3 = [3, 1, 0] ∧
    (Edit.run (nested ++ [.insertBefore 1 4])).WellLinked 3 ∧
    (Edit.run (nested ++ [.insertBefore 1 4])).walk 3 = [3, 2, 4, 1, 0] ∧
    (Edit.run (nested ++ [.insertAfter 1 4])).WellLinked 3 ∧
    (Edit.run (nested ++ [.insertAfter 1 4])).walk 3 = [3, 2, 1, 0, 4] := by
  have hh : (Edit.run nested).LinksHeld := linksHeld_run nested
  have hl : ∀ id, (Edit.run nested).validate id = .ok () → (Edit.run nested).WellLinked id :=
    fun id hv => (wellFormed_of_validate hv).region
  have hroot := hl 3 (by decide +kernel)
  have hreach : (Edit.run nested).Reach 3 2 := .single (by decide)
  have hreach' : (Edit.run nested).Reach 3 1 := hreach.tail (by decide)
  obtain ⟨hfield, hreplace, hbefore, hafter⟩ := single_slot_edits_keep_region hh hroot
  have hb : (Edit.run nested).WellLinked 4 := hl 4 (by decide +kernel)
  refine ⟨hh, hroot, by decide +kernel, ?_, by decide +kernel, ?_, by decide +kernel, ?_,
    by decide +kernel, ?_, by decide +kernel⟩
  · exact (hfield 1 "value" (some 4) (some 0) _ hreach' (by simpa using hb) rfl).1
  · exact (hreplace 2 1 _ hreach (by decide) (hl 1 (by decide +kernel)) rfl).1
  · exact (hbefore 1 4 _ hreach' (by decide) hb rfl).1
  · exact (hafter 1 4 _ hreach' (by decide) hb rfl).1

/-- A new list keeps the region of a root well linked if and only if none of its nodes lies below
another one. -/
theorem new_list_keeps_region_iff {parent : NodeId} {field : String} {children old : List NodeId}
    (hh : t.LinksHeld) (hl : t.WellLinked root) (hp : t.Reach root parent)
    (hc : ∀ c ∈ children, t.WellLinked c) (h : t.setList parent field children = .ok (t', old)) :
    t'.WellLinked root ↔ ∀ c ∈ children, ∀ c' ∈ children, t.Reach c c' → c = c' := by
  obtain ⟨front, back, hgraft⟩ := setList_grafts hh hl hp hc h
  exact ⟨hgraft.separate, hgraft.wellLinked⟩

/-- Three blocks, each in the next. -/
def boxes : List Edit := [.add (.block []), .add (.block [0]), .add (.block [1])]

theorem boxes_wellLinked :
    ∀ c ∈ [0, 1, 2], (Edit.run boxes).WellLinked c := by
  intro c hc
  apply WellFormed.region
  apply wellFormed_of_validate
  revert c
  decide +kernel

def namedBoxes : List Edit := boxes ++ [.add (.symbol "a" none false)]

/-- The middle block gives way to the name and the inner block. -/
def unpacked : List Edit := namedBoxes ++ [.setList 2 "body" [3, 0]]

theorem unpacked_region_kept :
    (Edit.run namedBoxes).setList 2 "body" [3, 0] = .ok (Edit.run unpacked, [1]) ∧
    (Edit.run unpacked).WellLinked 2 := by
  have hl : ∀ c ∈ [0, 2, 3], (Edit.run namedBoxes).WellLinked c := by
    intro c hc
    refine (wellFormed_of_validate ?_).region
    revert c
    decide +kernel
  have hleaf : ∀ c ∈ [3, 0], (Edit.run namedBoxes).childrenOf c = [] := by decide +kernel
  have hset : (Edit.run namedBoxes).setList 2 "body" [3, 0] = .ok (Edit.run unpacked, [1]) := rfl
  refine ⟨hset,
    (new_list_keeps_region_iff (linksHeld_run namedBoxes) (hl 2 (by decide)) .refl ?_ hset).mpr ?_⟩
  · exact fun c hc => hl c (by grind)
  · intro c hc c' _ hreach
    obtain rfl | ⟨child, hchild, -⟩ := hreach.cases_head
    · rfl
    · rw [Child, hleaf c hc] at hchild
      cases hchild

def doubled : List Edit := boxes ++ [.setList 2 "body" [1, 0]]

/-- The guard lets the inner block in because it takes the middle one to go. The inner block is then
held twice. -/
theorem kept_block_shares_its_child :
    (Edit.run boxes).LinksHeld ∧ (∀ c ∈ [0, 1, 2], (Edit.run boxes).WellLinked c) ∧
    (Edit.run boxes).setList 2 "body" [1, 0] = .ok (Edit.run doubled, [1]) ∧
    ¬ (Edit.run doubled).WellLinked 2 ∧ (Edit.run doubled).walk 2 = [2, 1, 0, 0] ∧
    (Edit.run doubled).Child 1 0 ∧ (Edit.run doubled).parent? 0 = some 2 := by
  refine ⟨linksHeld_run boxes, boxes_wellLinked, rfl, ?_, by decide +kernel, by decide +kernel,
    by decide +kernel⟩
  intro hw
  have hinner : (Edit.run doubled).follow? 2 [0, 0] = some 0 := by decide +kernel
  have hbeside : (Edit.run doubled).follow? 2 [1] = some 0 := by decide +kernel
  exact absurd (hw.path_unique hinner hbeside) (by decide)

end Tree
end Arbor
