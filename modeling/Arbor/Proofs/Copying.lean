import Arbor.Proofs.Term

/-!
A copy of a subtree is the same term, on ids that are all new.

Copying reads the old nodes while it adds new ones. `Spares` is what lets it go on: the entries of
the tree are still there, so that the terms that are not yet copied stand where they stood.
-/
namespace Arbor
namespace Tree

/-- Outside the ids `touched` every entry is kept, but for the node at the id `edited`. -/
structure Spares (t t' : Tree) (touched : List NodeId) (edited : Option NodeId) : Prop where
  grows : t.size ≤ t'.size
  parent : ∀ y < t.size, y ∉ touched → t'.parent? y = t.parent? y
  node : ∀ y < t.size, y ∉ touched → some y ≠ edited → t'.get? y = t.get? y

namespace Spares

variable {t t' t'' : Tree} {touched touched' : List NodeId} {edited : Option NodeId}

theorem refl (t : Tree) (touched : List NodeId) (edited : Option NodeId) :
    t.Spares t touched edited :=
  ⟨Nat.le_refl _, fun _ _ _ => rfl, fun _ _ _ _ => rfl⟩

theorem trans (h : t.Spares t' touched edited) (h' : t'.Spares t'' touched' edited)
    (ht : ∀ y ∈ touched', y ∈ touched ∨ t.size ≤ y) : t.Spares t'' touched edited := by
  have apart : ∀ y < t.size, y ∉ touched → y ∉ touched' := by
    intro y hlt hy hy'
    rcases ht y hy' with hm | hle
    · exact hy hm
    · omega
  refine ⟨Nat.le_trans h.grows h'.grows, fun y hlt hy => ?_, fun y hlt hy hne => ?_⟩
  · have hlt' := Nat.lt_of_lt_of_le hlt h.grows
    exact (h'.parent y hlt' (apart y hlt hy)).trans (h.parent y hlt hy)
  · have hlt' := Nat.lt_of_lt_of_le hlt h.grows
    exact (h'.node y hlt' (apart y hlt hy) hne).trans (h.node y hlt hy hne)

theorem weaken (h : t.Spares t' touched edited) {edited' : Option NodeId}
    (ht : ∀ y ∈ touched, y ∈ touched')
    (he : ∀ y, edited = some y → y ∈ touched' ∨ edited' = some y) :
    t.Spares t' touched' edited' := by
  refine ⟨h.grows, fun y hlt hy => h.parent y hlt fun hm => hy (ht y hm), ?_⟩
  intro y hlt hy hne
  refine h.node y hlt (fun hm => hy (ht y hm)) fun hsome => ?_
  rcases he y hsome.symm with hm | hsame
  · exact hy hm
  · exact hne hsame.symm

variable {depth : Nat} {holder : Option NodeId}

theorem stands {id : NodeId} {e : Term} {ids : List NodeId} (h : t.Spares t' touched edited)
    (hs : t.Stands depth id holder e ids) (hn : ids.Nodup)
    (hapart : ∀ y ∈ ids, y ∉ touched ∧ some y ≠ edited) : t'.Stands depth id holder e ids := by
  have link : ∀ y ∈ ids, t'.parent? y = t.parent? y := fun y hy =>
    h.parent y (hs.lt_size y hy) (hapart y hy).1
  refine hs.transfer hn (fun y hy => ?_) (fun y hy _ => link y hy) ?_
  · exact h.node y (hs.lt_size y hy) (hapart y hy).1 (hapart y hy).2
  · exact (link id hs.mem).trans hs.parent

theorem abreast {cs : List NodeId} {es : List Term} {below : List NodeId}
    (h : t.Spares t' touched edited) (hb : Abreast (fun c => t.Stands depth c holder) cs es below)
    (hn : below.Nodup) (hapart : ∀ y ∈ below, y ∉ touched ∧ some y ≠ edited) :
    Abreast (fun c => t'.Stands depth c holder) cs es below := by
  refine hb.imp fun c e ids _ hsub hs => ?_
  exact h.stands hs (hn.sublist hsub) fun y hy => hapart y (hsub.subset hy)

end Spares

section Adding

variable {t : Tree}

theorem spares_add (t : Tree) (node : Node) : t.Spares (t.add node).1 node.children none := by
  refine ⟨by simp, fun y _ hy => ?_, fun y hlt _ _ => ?_⟩
  · rw [parent?_add, if_neg fun h => hy h.1]
  · rw [get?_add, if_neg (Nat.ne_of_lt hlt)]

theorem stands_add {depth : Nat} {node : Node} {holder : Option NodeId} {es : List Term}
    {below : List NodeId} (hb : Abreast (fun c => t.Stands depth c holder) node.children es below)
    (hn : below.Nodup) :
    (t.add node).1.Stands (depth + 1) t.size none (.mk node.form es) (t.size :: below) := by
  refine ⟨node, es, below, by rw [get?_add, if_pos rfl], ?_, ?_, rfl, rfl⟩
  · rw [parent?_add, if_neg fun h => Nat.lt_irrefl _ h.2, parent?_of_size_le (Nat.le_refl _)]
  · refine hb.transfer hn (fun y hy => ?_) (fun y _ hy => ?_) fun c hc => ?_
    · rw [get?_add, if_neg (Nat.ne_of_lt (hb.lt_size y hy))]
    · rw [parent?_add, if_neg fun h => hy h.1]
    · rw [parent?_add, if_pos ⟨hc, hb.lt_size c (hb.subset c hc)⟩]

end Adding

/-- The run gives a parentless copy of the term on new ids, which are all that it adds, and all
that was there is kept. -/
def Copies (t : Tree) (depth : Nat) (e : Term) (run : EStateM.Result TreeError Tree NodeId) :
    Prop :=
  ∃ copy t' ids, run = .ok copy t' ∧ t'.Stands depth copy none e ids ∧ ids.Nodup ∧
    (∀ y ∈ ids, t.size ≤ y) ∧ t'.size = t.size + ids.length ∧ t.Spares t' [] none

theorem copyEach_stands {depth : Nat} {t : Tree}
    (hcopy : ∀ (t : Tree) id holder e ids, t.Stands depth id holder e ids → ids.Nodup →
      t.Copies depth e (copyTo depth id t))
    {holder : Option NodeId} {cs : List NodeId} {es : List Term} {below : List NodeId}
    (hb : Abreast (fun c => t.Stands depth c holder) cs es below) (hn : below.Nodup)
    (copies : Table NodeId NodeId) (hfree : ∀ c ∈ cs, copies.get? c = none) :
    ∃ copies' t' below', copyEach (copyTo depth) cs copies t = .ok copies' t' ∧
      (∀ c, c ∉ cs → copies'.get? c = copies.get? c) ∧
      Abreast (fun c => t'.Stands depth c none) (cs.map fun c => (copies'.get? c).getD c) es
        below' ∧
      below'.Nodup ∧ (∀ y ∈ below', t.size ≤ y) ∧ t'.size = t.size + below'.length ∧
      t.Spares t' [] none := by
  induction cs generalizing t es below copies with
  | nil =>
    cases hb
    exact ⟨copies, t, [], rfl, fun _ _ => rfl, .nil, List.nodup_nil, by simp, rfl, .refl t _ _⟩
  | cons c cs ih =>
    have hdistinct := List.nodup_cons.mp (hb.nodup hn)
    obtain ⟨hfreec, hfree⟩ := List.forall_mem_cons.mp hfree
    cases hb with
    | @cons _ e ids _ es rest hc hrest =>
      obtain ⟨hi, hr, -⟩ := List.nodup_append.mp hn
      obtain ⟨copy, t₁, ids₁, hrun, hstands, hnodup, hnew, hsize, hspares⟩ :=
        hcopy t c holder e ids hc hi
      have hrest₁ := hspares.abreast hrest hr (by simp)
      have hfree₁ : ∀ d ∈ cs, (copies.set c copy).get? d = none := by
        intro d hd
        have hne : d ≠ c := fun he => hdistinct.1 (he ▸ hd)
        exact (Table.get?_set_other copies copy hne).trans (hfree d hd)
      obtain ⟨copies', t₂, below', hruns, hother, hrow, hnodup', hnew', hsize', hspares'⟩ :=
        ih hrest₁ hr (copies.set c copy) hfree₁
      have hget : copies'.get? c = some copy := by
        rw [hother c hdistinct.1, Table.get?_set_same]
      refine ⟨copies', t₂, ids₁ ++ below', ?_, ?_, ?_, ?_, ?_, ?_, ?_⟩
      · rw [copyEach, if_neg (by simp [Table.contains, hfreec])]
        exact run_bind_ok.mpr ⟨copy, t₁, hrun, hruns⟩
      · intro d hd
        obtain ⟨hne, hd⟩ := not_or.mp (List.mem_cons.not.mp hd)
        rw [hother d hd, Table.get?_set_other copies copy hne]
      · rw [List.map_cons, hget, Option.getD_some]
        exact .cons (hspares'.stands hstands hnodup (by simp)) hrow
      · refine List.nodup_append.mpr ⟨hnodup, hnodup', ?_⟩
        rintro y hy _ hy' rfl
        exact Nat.not_le_of_lt (hstands.lt_size y hy) (hnew' y hy')
      · refine List.forall_mem_append.mpr ⟨hnew, fun y hy => ?_⟩
        exact Nat.le_trans hspares.grows (hnew' y hy)
      · rw [hsize', hsize, List.length_append, Nat.add_assoc]
      · exact hspares.trans hspares' (by simp)

theorem copyTo_copies {depth : Nat} {t : Tree} {id : NodeId} {holder : Option NodeId} {e : Term}
    {ids : List NodeId} (h : t.Stands depth id holder e ids) (hn : ids.Nodup) :
    t.Copies depth e (copyTo depth id t) := by
  induction depth generalizing t id holder e ids with
  | zero => exact h.elim
  | succ depth ih =>
    obtain ⟨node, es, below, hnode, -, hb, rfl, rfl⟩ := h
    obtain ⟨copies, t₁, below₁, hrun, -, hrow, hnodup, hnew, hsize, hspares⟩ :=
      copyEach_stands (fun _ _ _ _ _ hs hn => ih hs hn) hb (List.nodup_cons.mp hn).2 [] (by simp)
    rw [← Node.children_mapChildren] at hrow
    have hstands := stands_add hrow hnodup
    rw [Node.form_mapChildren] at hstands
    refine ⟨t₁.size, _, t₁.size :: below₁, ?_, hstands, ?_, ?_, ?_, ?_⟩
    · refine run_bind_ok.mpr ⟨node, t, ?_, run_bind_ok.mpr ⟨copies, t₁, hrun, rfl⟩⟩
      rw [TreeM.node, node_eq_ok.mpr hnode]
    · refine List.nodup_cons.mpr ⟨fun hm => ?_, hnodup⟩
      exact Nat.lt_irrefl _ (hrow.lt_size _ hm)
    · exact List.forall_mem_cons.mpr ⟨hspares.grows, hnew⟩
    · rw [size_add, hsize, List.length_cons, Nat.add_assoc]
    · refine hspares.trans (spares_add t₁ _) fun y hy => ?_
      exact Or.inr (hnew y (hrow.subset y hy))

theorem cloneSubtree_copies {depth : Nat} {t : Tree} {id : NodeId} {holder : Option NodeId}
    {e : Term} {ids : List NodeId} (h : t.Stands depth id holder e ids) (hn : ids.Nodup) :
    t.Copies depth e (cloneSubtree id t) := by
  have hfull := h.of_within h.within.within_size.succ
  obtain ⟨copy, t', ids', hrun, hstands, hrest⟩ := copyTo_copies hfull hn
  exact ⟨copy, t', ids', hrun, hstands.as_deep h, hrest⟩

end Tree
end Arbor
