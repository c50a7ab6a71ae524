import Arbor.Proofs.Copying
import Arbor.Proofs.FoldRules
import Arbor.Proofs.Validation

/-!
Folding a tree in place is folding of the term that stands there.

The fold goes down a tree that changes under it: an operand moves up out of an operation that
still names it, a negation takes over the right operand, a root that nobody holds gives way to a
copy. `Settles` is what a fold of one id comes to: the folded term stands at the id that is given
back, on ids of the old footprint and new ones; the holder has that id in the place of the old
one; and nothing else of the arena is another. A step of the loop over the children finds the
remaining children as they were, since the footprints of children have no id in common.
-/
namespace Arbor

/-- One child stands in the place of another, and nothing else of the node is new. -/
structure Node.Exchanges (n : Node) (old new : NodeId) (n' : Node) : Prop where
  form : n'.form = n.form
  children : ∃ front back, n.children = front ++ old :: back ∧ n'.children = front ++ new :: back

theorem Node.Exchanges.refl {n : Node} {id : NodeId} (h : id ∈ n.children) :
    n.Exchanges id id n := by
  obtain ⟨front, back, hsplit⟩ := List.mem_iff_append.mp h
  exact ⟨rfl, front, back, hsplit, hsplit⟩

namespace Tree

/-- The ids above `id`, nearest first, up to one that nobody holds. -/
def Rises (t : Tree) : NodeId → List NodeId → Prop
  | id, [] => t.parent? id = none
  | id, p :: above => t.parent? id = some p ∧ t.Rises p above

theorem Rises.parent {t : Tree} {id : NodeId} {above : List NodeId} (h : t.Rises id above) :
    t.parent? id = above.head? := by
  cases above with
  | nil => exact h
  | cons p above => exact h.1

theorem Rises.ancestorsUpTo_subset {t : Tree} {id : NodeId} {above : List NodeId}
    (h : t.Rises id above) (count : Nat) : ∀ a ∈ t.ancestorsUpTo count id, a ∈ above := by
  induction count generalizing id above with
  | zero => exact fun _ hm => nomatch hm
  | succ count ih =>
    cases above with
    | nil =>
      simp only [ancestorsUpTo, show t.parent? id = none from h]
      exact fun _ hm => nomatch hm
    | cons p above =>
      simp only [ancestorsUpTo, h.1]
      refine List.forall_mem_cons.mpr ⟨List.mem_cons_self, fun a hm => ?_⟩
      exact List.mem_cons_of_mem p (ih h.2 a hm)

theorem Rises.transfer {t t' : Tree} {id : NodeId} {above : List NodeId} (h : t.Rises id above)
    (hid : t'.parent? id = t.parent? id) (ha : ∀ a ∈ above, t'.parent? a = t.parent? a) :
    t'.Rises id above := by
  induction above generalizing id with
  | nil => exact hid.trans h
  | cons p above ih =>
    obtain ⟨hp, ha⟩ := List.forall_mem_cons.mp ha
    exact ⟨hid.trans h.1, ih h.2 hp ha⟩

section Replacing

variable {t : Tree} {id new q : NodeId} {node holder : Node}

theorem exists_locate (hid : t.get? id = some node) (hp : t.parent? id = some q)
    (hq : t.get? q = some holder) (hc : id ∈ holder.children) : ∃ l, t.locate id = .ok l := by
  cases hl : locateIn id q holder.slots 0 with
  | none =>
    obtain ⟨slot, hm, hin⟩ := List.mem_flatMap.mp hc
    exact absurd hin (locateIn_none hl slot hm)
  | some l =>
    refine ⟨l, bind_eq_ok.mpr ⟨node, node_eq_ok.mpr hid, ?_⟩⟩
    rw [hp]
    refine bind_eq_ok.mpr ⟨holder, node_eq_ok.mpr hq, ?_⟩
    rw [hl]

theorem Location.Holds.map_exchanged {l : Location} (h : l.Holds id) (new : NodeId) :
    Slot.map (fun _ => 0) l.slot = Slot.map (fun _ => 0) (l.exchanged new) := by
  obtain ⟨parent, place, slot, position⟩ := l
  cases slot <;> cases position <;> simp only [Location.Holds] at h
  case required.none c => rfl
  case optional.none c =>
    subst h
    rfl
  case list.some ids position => simp [Location.exchanged, Slot.map]

theorem replace_exchanges (hid : t.get? id = some node) (hp : t.parent? id = some q)
    (hq : t.get? q = some holder) (hc : id ∈ holder.children) (hne : new ≠ id)
    (ha : t.checkAttachable q new [id] = .ok ()) :
    ∃ t' holder', t.replace id new = .ok t' ∧ t'.size = t.size ∧ t'.get? q = some holder' ∧
      holder.Exchanges id new holder' ∧ (∀ y, y ≠ q → t'.get? y = t.get? y) ∧
      t'.parent? new = some q ∧ ∀ y, y ≠ new → y ≠ id → t'.parent? y = t.parent? y := by
  obtain ⟨l, hl⟩ := exists_locate hid hp hq hc
  obtain ⟨hp', hhold, _, hq', hplace⟩ := locate_eq_ok hl
  obtain rfl : q = l.parent := Option.some.inj (hp.symm.trans hp')
  obtain rfl := Option.some.inj (hq.symm.trans hq')
  obtain ⟨hshape, start, rest, hold, hnew⟩ := hhold.exchanged new
  obtain ⟨front, back, hbefore, hafter⟩ := Node.children_setSlot hplace hshape
  refine ⟨((t.fillSlot l.parent l.place (l.exchanged new)).setParent id none).setParent new
    (some l.parent), holder.setSlot l.place (l.exchanged new), ?_, ?_, ?_, ⟨?_, ?_⟩, ?_, ?_, ?_⟩
  · refine bind_eq_ok.mpr ⟨l, hl, ?_⟩
    rw [if_neg hne]
    exact bind_eq_ok.mpr ⟨(), ha, rfl⟩
  · simp
  · rw [get?_setParent, get?_setParent, get?_fillSlot hq, if_pos rfl]
  · exact Node.form_setSlot hplace (hhold.map_exchanged new)
  · refine ⟨front ++ start, rest ++ back, ?_, ?_⟩
    · rw [hbefore, hold]
      simp
    · rw [hafter, hnew]
      simp
  · intro y hy
    rw [get?_setParent, get?_setParent, get?_fillSlot hq, if_neg hy]
  · have hlt := (checkAttachable_eq_ok.mp ha).1
    rw [parent?_setParent, if_pos ⟨rfl, by simpa using hlt⟩]
  · intro y hy hy'
    rw [parent?_setParent, if_neg fun h => hy h.1, parent?_setParent, if_neg fun h => hy' h.1,
      parent?_fillSlot]

end Replacing

structure Spot (t : Tree) (id : NodeId) (holder : Option NodeId) (ids : List NodeId) : Prop where
  rises : ∃ above, t.Rises id above ∧ above.head? = holder ∧ ∀ a ∈ above, a < t.size ∧ a ∉ ids
  held : ∀ q, holder = some q → ∃ node, t.get? q = some node ∧ id ∈ node.children

/-- The term `e` has taken the place of what stood at `id` on the ids `ids`. -/
def Settles (t : Tree) (id : NodeId) (holder : Option NodeId) (ids : List NodeId) (depth : Nat)
    (e : Term) (run : EStateM.Result TreeError Tree NodeId) : Prop :=
  ∃ s t' ids', run = .ok s t' ∧ t'.Stands depth s holder e ids' ∧ ids'.Nodup ∧
    (∀ y ∈ ids', y ∈ ids ∨ t.size ≤ y) ∧ t.Spares t' ids holder ∧
    ∀ q node, holder = some q → t.get? q = some node →
      ∃ node', t'.get? q = some node' ∧ node.Exchanges id s node'

namespace Spot

variable {t t' : Tree} {id : NodeId} {holder : Option NodeId} {ids ids' : List NodeId}

theorem parent (h : t.Spot id holder ids) : t.parent? id = holder := by
  obtain ⟨above, hrises, hhead, -⟩ := h.rises
  exact hrises.parent.trans hhead

theorem holder_apart (h : t.Spot id holder ids) : ∀ q, holder = some q → q < t.size ∧ q ∉ ids := by
  intro q hq
  obtain ⟨above, -, hhead, hapart⟩ := h.rises
  exact hapart q (List.mem_of_mem_head? (hhead.trans hq))

theorem transfer (h : t.Spot id holder ids) (hs : t.Spares t' ids none)
    (hid : t'.parent? id = holder) (hsub : ∀ y ∈ ids', y ∈ ids ∨ t.size ≤ y) :
    t'.Spot id holder ids' := by
  obtain ⟨above, hrises, hhead, hapart⟩ := h.rises
  constructor
  · refine ⟨above, hrises.transfer (hid.trans h.parent.symm) ?_, hhead, fun a ha => ?_⟩
    · exact fun a ha => hs.parent a (hapart a ha).1 (hapart a ha).2
    · refine ⟨Nat.lt_of_lt_of_le (hapart a ha).1 hs.grows, fun hm => ?_⟩
      rcases hsub a hm with hm | hle
      · exact (hapart a ha).2 hm
      · exact Nat.not_le_of_lt (hapart a ha).1 hle
  · intro q hq
    obtain ⟨node, hn, hc⟩ := h.held q hq
    obtain ⟨hlt, hout⟩ := h.holder_apart q hq
    exact ⟨node, (hs.node q hlt hout (by simp)).trans hn, hc⟩

end Spot

theorem Stands.literal?_eq {t : Tree} {depth : Nat} {id : NodeId} {holder : Option NodeId}
    {e : Term} {ids : List NodeId} (h : t.Stands depth id holder e ids) :
    Fold.literal? t id = e.literal? := by
  obtain ⟨_, node, es, below, hn, -, hb, rfl, -⟩ := h.top
  unfold Fold.literal?
  rw [hn]
  cases node with
  | constant value =>
    cases hb
    rfl
  | _ => rfl

theorem Stands.name?_eq {t : Tree} {depth : Nat} {id : NodeId} {holder : Option NodeId}
    {e : Term} {ids : List NodeId} (h : t.Stands depth id holder e ids) :
    (t.get? id).bind Node.symbolName? = e.name? := by
  obtain ⟨_, node, es, below, hn, -, -, rfl, -⟩ := h.top
  rw [hn]
  cases node <;> rfl

end Tree

namespace Fold

open Tree

variable {t t' : Tree} {x : NodeId} {holder : Option NodeId} {ids : List NodeId} {depth : Nat}
  {e : Term}

theorem settles_kept {ids' : List NodeId} (hspot : t.Spot x holder ids)
    (hspares : t.Spares t' ids none) (hs : t'.Stands depth x holder e ids') (hn : ids'.Nodup)
    (hsub : ∀ y ∈ ids', y ∈ ids ∨ t.size ≤ y) :
    t.Settles x holder ids depth e (.ok x t') := by
  refine ⟨x, t', ids', rfl, hs, hn, hsub, hspares.weaken (fun _ h => h) (by simp), ?_⟩
  intro q node hq hnode
  obtain ⟨hlt, hout⟩ := hspot.holder_apart q hq
  obtain ⟨_, hnode', hc⟩ := hspot.held q hq
  obtain rfl := Option.some.inj (hnode.symm.trans hnode')
  exact ⟨node, (hspares.node q hlt hout (by simp)).trans hnode, .refl hc⟩

theorem settle_held {s q : NodeId} (hp : t.parent? x = some q) (hr : t.replace x s = .ok t') :
    settle x s t = .ok s t' := by
  refine run_bind_ok.mpr ⟨t, t, rfl, ?_⟩
  rw [if_pos (by rw [hp, Option.isSome_some])]
  refine run_bind_ok.mpr ⟨(), t', ?_, rfl⟩
  rw [TreeM.edit, hr]

theorem settle_free {s : NodeId} (hp : t.parent? x = none) :
    settle x s t = if t.parent? s = some x then cloneSubtree s t else .ok s t := by
  change (if (t.parent? x).isSome then _ else _ : TreeM NodeId) t = _
  rw [hp, if_neg (by simp)]
  split
  · rfl
  · rfl

theorem settle_settles {s : NodeId} {p : Option NodeId} {ids' : List NodeId}
    (hspot : t.Spot x holder ids) (hx : x ∈ ids) (hlt : x < t.size)
    (hspares : t.Spares t' ids none) (hpx : t'.parent? x = holder)
    (hs : t'.Stands depth s p e ids') (hn : ids'.Nodup) (hp : p = none ∨ p = some x)
    (hxn : x ∉ ids') (hsub : ∀ y ∈ ids', y ∈ ids ∨ t.size ≤ y) :
    t.Settles x holder ids depth e (settle x s t') := by
  have hspot' : t'.Spot x holder (x :: ids') :=
    hspot.transfer hspares hpx (List.forall_mem_cons.mpr ⟨Or.inl hx, hsub⟩)
  cases holder with
  | none =>
    rw [settle_free hpx, hs.parent]
    rcases hp with rfl | rfl
    · rw [if_neg (by simp)]
      exact ⟨s, t', ids', rfl, hs, hn, hsub, hspares, by simp⟩
    · rw [if_pos rfl]
      obtain ⟨copy, t'', ids'', hcopy, hstands, hnodup, hnew, -, hspares'⟩ :=
        cloneSubtree_copies hs hn
      refine ⟨copy, t'', ids'', hcopy, hstands, hnodup, fun y hy => ?_, ?_, by simp⟩
      · exact Or.inr (Nat.le_trans hspares.grows (hnew y hy))
      · exact hspares.trans hspares' (by simp)
  | some q =>
    obtain ⟨above, hrises, hhead, hapart⟩ := hspot'.rises
    obtain ⟨node, hnode, hc⟩ := hspot'.held q rfl
    obtain ⟨xnode, hxnode⟩ := get?_of_lt_size (Nat.lt_of_lt_of_le hlt hspares.grows)
    have hne : s ≠ x := by
      rintro rfl
      exact hxn hs.mem
    have hattach : t'.checkAttachable q s [x] = .ok () := by
      cases above with
      | nil => cases hhead
      | cons a above =>
        cases hhead
        refine checkAttachable_eq_ok.mpr ⟨hs.lt_size s hs.mem, ?_, fun hm => ?_, ?_⟩
        · rintro rfl
          exact (hapart s (by simp)).2 (List.mem_cons_of_mem x hs.mem)
        · have hup := hrises.2.ancestorsUpTo_subset _ s hm
          exact (hapart s (List.mem_cons_of_mem _ hup)).2 (List.mem_cons_of_mem x hs.mem)
        · intro current hcurrent
          rw [hs.parent] at hcurrent
          rcases hp with rfl | rfl
          · cases hcurrent
          · cases hcurrent
            simp [releasedBy]
    obtain ⟨t'', node', hrun, hsize, hnode', hexch, hget, hps, hpar⟩ :=
      replace_exchanges hxnode hpx hnode hc hne hattach
    have hq : q ∉ x :: ids' := (hspot'.holder_apart q rfl).2
    have hstands : t''.Stands depth s (some q) e ids' := by
      refine hs.transfer hn (fun y hy => hget y ?_) (fun y hy hys => hpar y hys ?_) hps
      · rintro rfl
        exact hq (List.mem_cons_of_mem x hy)
      · rintro rfl
        exact hxn hy
    have hspares' : t'.Spares t'' (x :: ids') (some q) := by
      refine ⟨Nat.le_of_eq hsize.symm, fun y _ hy => ?_, fun y _ _ hy => hget y ?_⟩
      · obtain ⟨hyx, hy⟩ := not_or.mp (List.mem_cons.not.mp hy)
        refine hpar y (fun he => ?_) hyx
        exact hy (he ▸ hs.mem)
      · exact fun he => hy (congrArg some he)
    refine ⟨s, t'', ids', settle_held hpx hrun, hstands, hn, hsub, ?_, ?_⟩
    · refine (hspares.weaken (fun _ h => h) (by simp)).trans hspares' ?_
      exact List.forall_mem_cons.mpr ⟨Or.inl hx, hsub⟩
    · rintro _ old ⟨rfl⟩ hold
      obtain ⟨hqlt, hqout⟩ := hspot.holder_apart q rfl
      obtain rfl : old = node := by
        rw [← hspares.node q hqlt hqout (by simp), hnode] at hold
        exact (Option.some.inj hold).symm
      exact ⟨node', hnode', hexch⟩

/-- The loop over the children. Those in `done` are through, and each of the others finds the
holder with all before it exchanged and all after it as it was. -/
theorem foldEach_settles
    (hfold : ∀ (t : Tree) c holder e ids, t.Stands depth c holder e ids → ids.Nodup →
      t.Spot c holder ids → t.Settles c holder ids depth e.folded (foldTo depth c t))
    {node : Node} {done cs above below : List NodeId} {es : List Term}
    (hb : Abreast (fun c => t.Stands depth c (some x)) cs es below) (hn : below.Nodup)
    (hx : t.get? x = some node) (hch : node.children = done ++ cs)
    (hdone : ∀ d ∈ done, d < t.size ∧ d ∉ below) (hrises : t.Rises x above)
    (hout : ∀ a ∈ x :: above, a < t.size ∧ a ∉ below) :
    ∃ t' node' ss below', foldEach (foldTo depth) cs t = .ok () t' ∧
      Abreast (fun c => t'.Stands depth c (some x)) ss (es.map Term.folded) below' ∧
      below'.Nodup ∧ (∀ y ∈ below', y ∈ below ∨ t.size ≤ y) ∧ t'.get? x = some node' ∧
      node'.form = node.form ∧ node'.children = done ++ ss ∧ t.Spares t' below (some x) := by
  induction cs generalizing t node done es below with
  | nil =>
    cases hb
    exact ⟨t, node, [], [], rfl, .nil, List.nodup_nil, by simp, hx, rfl, hch, .refl t _ _⟩
  | cons c cs ih =>
    cases hb with
    | @cons _ e ids _ es rest hc hrest =>
      obtain ⟨hi, hr, hapart⟩ := List.nodup_append.mp hn
      have hxout : x ∉ ids ++ rest := (hout x List.mem_cons_self).2
      have hspot : t.Spot c (some x) ids := by
        refine ⟨⟨x :: above, ⟨hc.parent, hrises⟩, rfl, fun a ha => ?_⟩, ?_⟩
        · exact ⟨(hout a ha).1, fun hm => (hout a ha).2 (List.mem_append_left rest hm)⟩
        · rintro q ⟨rfl⟩
          exact ⟨node, hx, by simp [hch]⟩
      obtain ⟨s, t₁, ids₁, hrun, hs, hn₁, hsub₁, hspares, hexch⟩ :=
        hfold t c (some x) e ids hc hi hspot
      obtain ⟨node₁, hx₁, hform, front, back, hbefore, hafter⟩ := hexch x node rfl hx
      obtain ⟨rfl, -, rfl⟩ : front = done ∧ c = c ∧ back = cs := by
        have hfirst : c ∉ done := fun hm => (hdone c hm).2 (List.mem_append_left rest hc.mem)
        have hlast : c ∉ cs := fun hm => hapart c hc.mem c (hrest.subset c hm) rfl
        obtain ⟨hfront, -, hback⟩ :=
          (List.append_cons_inj_of_notMem hfirst hlast).mp (hch.symm.trans hbefore)
        exact ⟨hfront.symm, rfl, hback.symm⟩
      -- what has come up is apart from the children that are still to be folded
      have hclear : ∀ y ∈ ids₁, y ∉ rest ∧ y ≠ x := by
        intro y hy
        rcases hsub₁ y hy with hm | hle
        · refine ⟨fun hm' => hapart y hm y hm' rfl, ?_⟩
          rintro rfl
          exact hxout (List.mem_append_left rest hm)
        · refine ⟨fun hm' => Nat.not_le_of_lt (hrest.lt_size y hm') hle, ?_⟩
          rintro rfl
          exact Nat.not_le_of_lt (hout y List.mem_cons_self).1 hle
      have hrest₁ : Abreast (fun c => t₁.Stands depth c (some x)) back es rest := by
        refine hspares.abreast hrest hr fun y hy => ⟨fun hm => hapart y hm y hy rfl, ?_⟩
        rintro ⟨rfl⟩
        exact hxout (List.mem_append_right ids hy)
      have hlink : ∀ a ∈ x :: above, t₁.parent? a = t.parent? a := fun a ha =>
        hspares.parent a (hout a ha).1 fun hm => (hout a ha).2 (List.mem_append_left rest hm)
      obtain ⟨hlinkx, hlink⟩ := List.forall_mem_cons.mp hlink
      have hdone₁ : ∀ d ∈ front ++ [s], d < t₁.size ∧ d ∉ rest := by
        refine List.forall_mem_append.mpr ⟨fun d hd => ?_, fun d hd => ?_⟩
        · refine ⟨Nat.lt_of_lt_of_le (hdone d hd).1 hspares.grows, fun hm => ?_⟩
          exact (hdone d hd).2 (List.mem_append_right ids hm)
        · obtain rfl := List.mem_singleton.mp hd
          exact ⟨hs.lt_size d hs.mem, (hclear d hs.mem).1⟩
      obtain ⟨t₂, node₂, ss, below₂, hruns, hrow, hn₂, hsub₂, hx₂, hform₂, hch₂, hspares₂⟩ :=
        ih hrest₁ hr hx₁ (by simp [hafter]) hdone₁ (hrises.transfer hlinkx hlink) fun a ha =>
          ⟨Nat.lt_of_lt_of_le (hout a ha).1 hspares.grows,
            fun hm => (hout a ha).2 (List.mem_append_right ids hm)⟩
      have hs₂ : t₂.Stands depth s (some x) e.folded ids₁ :=
        hspares₂.stands hs hn₁ fun y hy =>
          ⟨(hclear y hy).1, fun he => (hclear y hy).2 (Option.some.inj he)⟩
      refine ⟨t₂, node₂, s :: ss, ids₁ ++ below₂, ?_, .cons hs₂ hrow, ?_, ?_, hx₂,
        hform₂.trans hform, by simp [hch₂], ?_⟩
      · exact run_bind_ok.mpr ⟨s, t₁, hrun, hruns⟩
      · refine List.nodup_append.mpr ⟨hn₁, hn₂, ?_⟩
        rintro y hy _ hy' rfl
        rcases hsub₂ y hy' with hm | hle
        · exact (hclear y hy).1 hm
        · exact Nat.not_le_of_lt (hs.lt_size y hy) hle
      · refine List.forall_mem_append.mpr ⟨fun y hy => ?_, fun y hy => ?_⟩
        · exact (hsub₁ y hy).imp_left (List.mem_append_left rest)
        · exact (hsub₂ y hy).imp (List.mem_append_right ids) (Nat.le_trans hspares.grows)
      · refine (hspares.weaken (fun y hy => List.mem_append_left rest hy) ?_).trans hspares₂ ?_
        · exact fun y hy => Or.inr hy
        · exact fun y hy => Or.inl (List.mem_append_right ids hy)

section Operations

variable {node : Node} {left right : NodeId} {op : Operator}

theorem foldTo_other {node' : Node} (hx : t.get? x = some node)
    (hrun : foldEach (foldTo depth) node.children t = .ok () t') (hx' : t'.get? x = some node')
    (hkind : ∀ left op right, node' ≠ .binary left op right) :
    foldTo (depth + 1) x t = .ok x t' := by
  refine run_bind_ok.mpr ⟨node, t, ?_, run_bind_ok.mpr ⟨(), t', hrun, ?_⟩⟩
  · rw [TreeM.node, node_eq_ok.mpr hx]
  · refine run_bind_ok.mpr ⟨node', t', ?_, ?_⟩
    · rw [TreeM.node, node_eq_ok.mpr hx']
    · split
      · exact absurd rfl (hkind _ _ _)
      · rfl

theorem foldTo_binary {t₂ : Tree} {found : Option NodeId} (hx : t.get? x = some node)
    (hrun : foldEach (foldTo depth) node.children t = .ok () t')
    (hx' : t'.get? x = some (.binary left op right))
    (hfound : substitute? left op right t' = .ok found t₂) :
    foldTo (depth + 1) x t = found.elim (.ok x t₂) fun s => settle x s t₂ := by
  have hread : ∀ (t : Tree) n, t.get? x = some n → TreeM.node x t = .ok n t := by
    intro t n hn
    rw [TreeM.node, node_eq_ok.mpr hn]
  simp only [foldTo, bind, EStateM.bind, hread t node hx, hrun, hread t' _ hx', hfound]
  cases found <;> rfl

theorem added_settles {t₁ : Tree} {new : Node} {es : List Term} {below : List NodeId}
    (hspot : t.Spot x holder ids) (hxm : x ∈ ids) (hlt : x < t.size)
    (hspares : t.Spares t₁ ids none) (hpx : t₁.parent? x = holder)
    (hb : Abreast (fun c => t₁.Stands depth c (some x)) new.children es below)
    (hn : below.Nodup) (hxn : x ∉ below) (hsub : ∀ y ∈ below, y ∈ ids ∨ t.size ≤ y) :
    t.Settles x holder ids (depth + 1) (.mk new.form es) (settle x t₁.size (t₁.add new).1) := by
  have hlt₁ : x < t₁.size := Nat.lt_of_lt_of_le hlt hspares.grows
  have hspares' : t.Spares (t₁.add new).1 ids none :=
    hspares.trans (spares_add t₁ new) fun y hy => hsub y (hb.subset y hy)
  have hpx' : (t₁.add new).1.parent? x = holder :=
    ((spares_add t₁ new).parent x hlt₁ fun hm => hxn (hb.subset x hm)).trans hpx
  refine settle_settles hspot hxm hlt hspares' hpx' (stands_add hb hn) ?_ (Or.inl rfl) ?_ ?_
  · exact List.nodup_cons.mpr ⟨fun hm => Nat.lt_irrefl _ (hb.lt_size _ hm), hn⟩
  · rw [List.mem_cons]
    rintro (rfl | hm)
    · exact Nat.lt_irrefl _ hlt₁
    · exact hxn hm
  · exact List.forall_mem_cons.mpr ⟨Or.inr hspares.grows, hsub⟩

theorem operation_settles {t₁ : Tree} {es : List Term} {below : List NodeId}
    (hspot : t.Spot x holder ids) (hxm : x ∈ ids) (hx : t.get? x = some node)
    (hrun : foldEach (foldTo depth) node.children t = .ok () t₁)
    (hx₁ : t₁.get? x = some (.binary left op right))
    (hspares : t.Spares t₁ ids none) (hpx : t₁.parent? x = holder)
    (hb : Abreast (fun c => t₁.Stands depth c (some x)) [left, right] es below)
    (hn : (x :: below).Nodup) (hsub : ∀ y ∈ x :: below, y ∈ ids ∨ t.size ≤ y) :
    ∃ l r, es = [l, r] ∧
      t.Settles x holder ids (depth + 1) (l.combine op r) (foldTo (depth + 1) x t) := by
  have hlt := lt_size_of_get? hx
  have hrow := hb
  obtain ⟨hfresh, hbelow⟩ := List.nodup_cons.mp hn
  have hsubb : ∀ y ∈ below, y ∈ ids ∨ t.size ≤ y := (List.forall_mem_cons.mp hsub).2
  cases hb with
  | @cons _ l idl _ _ rest hl hb =>
    cases hb with
    | @cons _ r idr _ _ _ hr hb =>
      cases hb
      obtain ⟨hnl, hnr, hapart⟩ := List.nodup_append.mp hbelow
      have hne : left ≠ right := hapart left hl.mem right (List.mem_append_left _ hr.mem)
      have hterm : (outcome t₁ left op right).term left l op r = l.combine op r :=
        term_outcome hl.literal?_eq hr.literal?_eq hne
      refine ⟨l, r, rfl, ?_⟩
      rw [← hterm]
      cases hout : outcome t₁ left op right with
      | keep =>
        have hfound : substitute? left op right t₁ = .ok none t₁ := by
          simp only [substitute?, hout]
        have hstands : t₁.Stands (depth + 1) x holder (.binary l op r)
            (x :: (idl ++ (idr ++ []))) :=
          ⟨_, _, _, hx₁, hpx, hrow, rfl, rfl⟩
        rw [foldTo_binary hx hrun hx₁ hfound]
        exact settles_kept hspot hspares hstands hn hsub
      | literal value =>
        have hfound : substitute? left op right t₁ =
            .ok (some t₁.size) (t₁.add (.constant value)).1 := by
          simp only [substitute?, hout]
          rfl
        rw [foldTo_binary hx hrun hx₁ hfound]
        exact added_settles hspot hxm hlt hspares hpx .nil List.nodup_nil (by simp) (by simp)
      | operand id =>
        have hfound : substitute? left op right t₁ = .ok (some id) t₁ := by
          simp only [substitute?, hout]
        rw [foldTo_binary hx hrun hx₁ hfound]
        rcases outcomeOf_operand (Or.inl hout) with rfl | rfl
        · rw [Outcome.term, if_pos rfl]
          exact settle_settles hspot hxm hlt hspares hpx hl.succ hnl (Or.inr rfl)
            (fun hm => hfresh (List.mem_append_left _ hm))
            fun y hy => hsubb y (List.mem_append_left _ hy)
        · rw [Outcome.term, if_neg hne.symm]
          exact settle_settles hspot hxm hlt hspares hpx hr.succ (List.append_nil idr ▸ hnr)
            (Or.inr rfl) (fun hm => hfresh (by simp [hm]))
            fun y hy => hsubb y (by simp [hy])
      | negated id =>
        obtain rfl := outcomeOf_negated hout
        have hfound : substitute? left op id t₁ =
            .ok (some t₁.size) (t₁.add (.unary .neg id)).1 := by
          simp only [substitute?, hout]
          rfl
        rw [foldTo_binary hx hrun hx₁ hfound]
        exact added_settles hspot hxm hlt hspares hpx (.cons hr .nil) hnr
          (fun hm => hfresh (List.mem_append_right idl hm))
          fun y hy => hsubb y (List.mem_append_right idl hy)

end Operations

theorem foldTo_settles (hs : t.Stands depth x holder e ids) (hn : ids.Nodup)
    (hspot : t.Spot x holder ids) :
    t.Settles x holder ids depth e.folded (foldTo depth x t) := by
  induction depth generalizing t x holder e ids with
  | zero => exact hs.elim
  | succ depth ih =>
    obtain ⟨node, es, below, hx, hp, hb, rfl, rfl⟩ := hs
    obtain ⟨hfresh, hbelow⟩ := List.nodup_cons.mp hn
    obtain ⟨above, hrises, -, hapart⟩ := hspot.rises
    have hlt := lt_size_of_get? hx
    have hout : ∀ a ∈ x :: above, a < t.size ∧ a ∉ below := by
      refine List.forall_mem_cons.mpr ⟨⟨hlt, hfresh⟩, fun a ha => ⟨(hapart a ha).1, fun hm => ?_⟩⟩
      exact (hapart a ha).2 (List.mem_cons_of_mem x hm)
    obtain ⟨t₁, node₁, ss, below₁, hrun, hrow, hn₁, hsub₁, hx₁, hform, hch, hspares⟩ :=
      foldEach_settles (fun _ _ _ _ _ hs hn hspot => ih hs hn hspot) hb hbelow hx
        (List.nil_append _).symm (by simp) hrises hout
    have hspares₁ : t.Spares t₁ (x :: below) none := by
      refine hspares.weaken (fun y hy => List.mem_cons_of_mem x hy) ?_
      rintro y ⟨rfl⟩
      exact Or.inl List.mem_cons_self
    have hpx : t₁.parent? x = holder := (hspares.parent x hlt hfresh).trans hp
    have hn' : (x :: below₁).Nodup := by
      refine List.nodup_cons.mpr ⟨fun hm => ?_, hn₁⟩
      rcases hsub₁ x hm with hm | hle
      · exact hfresh hm
      · exact Nat.not_le_of_lt hlt hle
    have hsub : ∀ y ∈ x :: below₁, y ∈ x :: below ∨ t.size ≤ y := by
      refine List.forall_mem_cons.mpr ⟨Or.inl List.mem_cons_self, fun y hy => ?_⟩
      exact (hsub₁ y hy).imp_left (List.mem_cons_of_mem x)
    rw [List.nil_append] at hch
    rw [← hch] at hrow
    rw [Term.folded_mk, ← hform]
    by_cases hkind : ∃ left op right, node₁ = .binary left op right
    · obtain ⟨left, op, right, rfl⟩ := hkind
      obtain ⟨l, r, hes, hsettles⟩ :=
        operation_settles hspot List.mem_cons_self hx hrun hx₁ hspares₁ hpx hrow hn' hsub
      rw [hes]
      exact hsettles
    · have hother : ∀ left op right, node₁ ≠ .binary left op right := fun left op right he =>
        hkind ⟨left, op, right, he⟩
      rw [foldTo_other hx hrun hx₁ hother, Term.rebuild_form hother]
      exact settles_kept hspot hspares₁ ⟨node₁, _, below₁, hx₁, hpx, hrow, rfl, rfl⟩ hn' hsub

theorem spot_of_reach {root : NodeId} (h : t.WellLinked root) (hp : t.parent? root = none)
    (hx : t.Reach root x) : t.Spot x (t.parent? x) (t.walk x) := by
  have hrises : ∃ above, t.Rises x above ∧
      ∀ a ∈ above, t.Reach root a ∧ Relation.TransGen t.Child a x := by
    induction hx with
    | refl => exact ⟨[], hp, by simp⟩
    | @tail p c hr hc ih =>
      obtain ⟨above, hrises, habove⟩ := ih
      refine ⟨p :: above, ⟨h.linked p c hr hc, hrises⟩, ?_⟩
      exact List.forall_mem_cons.mpr ⟨⟨hr, .single hc⟩,
        fun a ha => ⟨(habove a ha).1, (habove a ha).2.tail hc⟩⟩
  obtain ⟨above, hrises, habove⟩ := hrises
  refine ⟨⟨above, hrises, hrises.parent.symm, fun a ha => ?_⟩, fun q hq => ?_⟩
  · obtain ⟨hreach, hdown⟩ := habove a ha
    refine ⟨h.lt_size hreach, fun hm => h.acyclic hreach ?_⟩
    rw [(h.within hx).walk_eq, mem_preorderTo (h.within hx)] at hm
    exact hdown.trans_left hm
  · rcases Relation.ReflTransGen.cases_tail hx with rfl | ⟨p, hr, hc⟩
    · rw [hp] at hq
      cases hq
    · obtain rfl : p = q := Option.some.inj ((h.linked p x hr hc).symm.trans hq)
      obtain ⟨node, hn⟩ := h.resolves p hr
      rw [Child, childrenOf_eq hn] at hc
      exact ⟨node, hn, hc⟩

/-- Folding succeeds at every id of such a region, and gives the folded term. -/
theorem fold_settles {root : NodeId} (h : t.WellLinked root) (hp : t.parent? root = none)
    (hx : t.Reach root x) : ∃ e, t.Stands t.size x (t.parent? x) e (t.walk x) ∧
      t.Settles x (t.parent? x) (t.walk x) (t.size + 1) e.folded (fold x t) := by
  have hw := h.within hx
  obtain ⟨e, he⟩ := h.stands hx hw
  have hn := h.preorderTo_nodup hx hw
  rw [← hw.walk_eq] at he hn
  exact ⟨e, he, foldTo_settles he.succ hn (spot_of_reach h hp hx)⟩

def foldedLiteral? (t : Tree) (id : NodeId) : Option Value :=
  match fold id t with
  | .ok r t' => literal? t' r
  | .error _ _ => none

theorem foldedLiteral?_eq {root : NodeId} (h : t.WellLinked root) (hp : t.parent? root = none)
    (hx : t.Reach root x) (hs : t.Stands depth x holder e ids) :
    foldedLiteral? t x = e.folded.literal? := by
  obtain ⟨e', hs', s, t', ids', hrun, hstands, -⟩ := fold_settles h hp hx
  obtain rfl : e = e' := Option.some.inj (hs.term?_eq.symm.trans hs'.term?_eq)
  rw [foldedLiteral?, hrun]
  exact hstands.literal?_eq

/-- What takes the place of an operation when its operands have been folded. -/
def foldedOutcome (t : Tree) (left : NodeId) (op : Operator) (right : NodeId) : Outcome :=
  outcomeOf (foldedLiteral? t left) (foldedLiteral? t right) left op right

def foldedName? (t : Tree) (id : NodeId) : Option String :=
  match fold id t with
  | .ok r t' => (t'.get? r).bind Node.symbolName?
  | .error _ _ => none

theorem foldedName?_eq {root : NodeId} (h : t.WellLinked root) (hp : t.parent? root = none)
    (hx : t.Reach root x) (hs : t.Stands depth x holder e ids) :
    foldedName? t x = e.folded.name? := by
  obtain ⟨e', hs', s, t', ids', hrun, hstands, -⟩ := fold_settles h hp hx
  obtain rfl : e = e' := Option.some.inj (hs.term?_eq.symm.trans hs'.term?_eq)
  rw [foldedName?, hrun]
  exact hstands.name?_eq

end Fold
end Arbor
