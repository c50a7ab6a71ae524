import Arbor.Fold
import Arbor.Proofs.Slots

/-!
Copying and folding end where the levels below a node are finite.

Both change the tree while they go down it. A copy only adds nodes. A fold puts in the place of an
operation a literal, one of its operands, or an operand with a sign, none of which is deeper than
the operation was. So no id ever gets more levels below it, and the levels counted at the start
last to the end, also where nodes are shared or links are stale.
-/
namespace Arbor
namespace Tree

/-- No id has more levels below it than before. -/
def Shallower (t t' : Tree) : Prop := ∀ n id, t.Within n id → t'.Within n id

theorem Shallower.refl (t : Tree) : t.Shallower t := fun _ _ h => h

theorem Shallower.trans {t t' t'' : Tree} (h : t.Shallower t') (k : t'.Shallower t'') :
    t.Shallower t'' := fun n id hw => k n id (h n id hw)

theorem shallower_add (t : Tree) (node : Node) : t.Shallower (t.add node).1 := by
  intro n
  induction n with
  | zero => exact fun _ h => h
  | succ n ih =>
    rintro id ⟨old, hn, hc⟩
    refine ⟨old, ?_, fun c hm => ih c (hc c hm)⟩
    rw [get?_add, if_neg (Nat.ne_of_lt (lt_size_of_get? hn))]
    exact hn

theorem within_add {t : Tree} {node : Node} {n : Nat} (h : ∀ c ∈ node.children, t.Within n c) :
    (t.add node).1.Within (n + 1) t.size := by
  refine ⟨node, by rw [get?_add, if_pos rfl], fun c hc => ?_⟩
  exact shallower_add t node n c (h c hc)

theorem Relinks.shallower {t t' : Tree} {holder : NodeId} {freed taken : List NodeId}
    (h : t.Relinks holder freed taken t')
    (hd : ∀ c ∈ taken, ∃ old, t.Child holder old ∧ ∀ n, t.Within n old → t.Within n c) :
    t.Shallower t' := by
  intro n
  induction n with
  | zero => exact fun _ h => h
  | succ n ih =>
    rintro id ⟨node, hn, hc⟩
    have hlt : id < t'.size := by
      rw [h.size_eq]
      exact lt_size_of_get? hn
    obtain ⟨node', hn'⟩ := get?_of_lt_size hlt
    refine ⟨node', hn', fun c hm => ih c ?_⟩
    have hchild : t'.Child id c := by
      rw [Child, childrenOf_eq hn']
      exact hm
    have old_child : ∀ x, t.Child id x → t.Within n x := by
      intro x hx
      rw [Child, childrenOf_eq hn] at hx
      exact hc x hx
    rcases h.child_cases hchild with hold | ⟨rfl, htaken⟩
    · exact old_child c hold
    · obtain ⟨old, hold, hle⟩ := hd c htaken
      exact hle n (old_child old hold)

/-- Looking for a place and checking what goes there follow links, which are counted. -/
theorem replace_failsOnly (t : Tree) (id new : NodeId) :
    FailsOnly (fun e => ∀ x, e ≠ TreeError.endless x) (t.replace id new) := by
  have node : ∀ x, FailsOnly (fun e => ∀ x, e ≠ TreeError.endless x) (t.node x) := by
    intro x
    unfold Tree.node
    split
    · exact failsOnly_ok _
    · exact failsOnly_error nofun
  have locate : FailsOnly (fun e => ∀ x, e ≠ TreeError.endless x) (t.locate id) := by
    refine failsOnly_bind (node id) fun _ => ?_
    split
    · exact failsOnly_error nofun
    · refine failsOnly_bind (node _) fun _ => ?_
      split
      · exact failsOnly_ok _
      · exact failsOnly_error nofun
  refine failsOnly_bind locate fun l => ?_
  split
  · exact failsOnly_ok _
  · refine failsOnly_bind (failsOnly_bind (node new) fun _ => ?_) fun _ => failsOnly_ok _
    split
    · exact failsOnly_error nofun
    · split
      · exact failsOnly_ok _
      · split
        · exact failsOnly_ok _
        · exact failsOnly_error nofun

/-- The pass does not run out of levels, and `Q` holds of what it gives. -/
def EndsAt {α : Type} (m : TreeM α) (t : Tree) (Q : α → Tree → Prop) : Prop :=
  match m t with
  | .ok a t' => Q a t'
  | .error e _ => ∀ id, e ≠ .endless id

variable {α β : Type} {t : Tree} {Q : α → Tree → Prop} {R : β → Tree → Prop}

theorem EndsAt.bind {m : TreeM α} {f : α → TreeM β} (hm : EndsAt m t Q)
    (hf : ∀ a t', Q a t' → EndsAt (f a) t' R) : EndsAt (m >>= f) t R := by
  unfold EndsAt at hm ⊢
  simp only [Bind.bind, EStateM.bind]
  cases hr : m t with
  | ok a t' =>
    rw [hr] at hm
    exact hf a t' hm
  | error e t' =>
    rw [hr] at hm
    exact hm

theorem EndsAt.imp {m : TreeM α} {Q' : α → Tree → Prop} (hm : EndsAt m t Q)
    (hq : ∀ a t', Q a t' → Q' a t') : EndsAt m t Q' := by
  unfold EndsAt at hm ⊢
  split at hm
  · exact hq _ _ hm
  · exact hm

theorem endsAt_node (id : NodeId) :
    EndsAt (TreeM.node id) t fun node t' => t' = t ∧ t.get? id = some node := by
  unfold EndsAt TreeM.node Tree.node
  cases hn : t.get? id with
  | none => exact fun _ => nofun
  | some node => exact ⟨rfl, rfl⟩

theorem copyEach_ends {depth : Nat}
    (hcopy : ∀ t c, t.Within depth c → EndsAt (copyTo depth c) t fun _ t' => t.Shallower t')
    {ids : List NodeId} (copies : Table NodeId NodeId) (hw : ∀ c ∈ ids, t.Within depth c) :
    EndsAt (copyEach (copyTo depth) ids copies) t fun _ t' => t.Shallower t' := by
  induction ids generalizing t copies with
  | nil => exact Shallower.refl t
  | cons c rest ih =>
    obtain ⟨hc, hrest⟩ := List.forall_mem_cons.mp hw
    simp only [copyEach]
    split
    · exact ih copies hrest
    · refine (hcopy t c hc).bind fun copy t' ht => ?_
      have hlater := ih (t := t') (copies.set c copy) fun x hx => ht depth x (hrest x hx)
      exact hlater.imp fun _ t'' ht' => ht.trans ht'

theorem copyTo_ends {depth : Nat} {id : NodeId} (hw : t.Within depth id) :
    EndsAt (copyTo depth id) t fun _ t' => t.Shallower t' := by
  induction depth generalizing t id with
  | zero => exact hw.elim
  | succ depth ih =>
    obtain ⟨node, hn, hc⟩ := hw
    refine (endsAt_node id).bind ?_
    rintro n _ ⟨rfl, hn'⟩
    obtain rfl : node = n := Option.some.inj (hn.symm.trans hn')
    refine (copyEach_ends (fun _ _ h => ih h) [] hc).bind fun copies t' ht => ?_
    exact ht.trans (shallower_add t' _)

theorem cloneSubtree_ends {id : NodeId} (hw : t.Within t.size id) :
    EndsAt (cloneSubtree id) t fun _ t' => t.Shallower t' :=
  copyTo_ends hw.succ

end Tree

namespace Fold

open Tree

variable {t : Tree}

theorem outcomeOf_operand {u w : Option Value} {left right id : NodeId} {op : Operator}
    (h : outcomeOf u w left op right = .operand id ∨ outcomeOf u w left op right = .negated id) :
    id = left ∨ id = right := by
  have by_identity : ∀ u w, identity u w left op right = .operand id ∨
      identity u w left op right = .negated id → id = left ∨ id = right := by
    intro u w h
    unfold identity at h
    grind
  unfold outcomeOf at h
  split at h
  · split at h <;> simp at h
  · exact by_identity _ _ h

theorem within_operands {root left right : NodeId} {op : Operator} {n : Nat}
    (hn : t.get? root = some (.binary left op right)) (hw : t.Within (n + 1) root) :
    t.Within n left ∧ t.Within n right := by
  obtain ⟨node, hnode, hc⟩ := hw
  obtain rfl : _ = node := Option.some.inj (hn.symm.trans hnode)
  exact ⟨hc left (by simp [Node.children, Node.slots, Slot.ids]),
    hc right (by simp [Node.children, Node.slots, Slot.ids])⟩

theorem substitute?_ends {root left right : NodeId} {op : Operator}
    (hn : t.get? root = some (.binary left op right)) :
    EndsAt (substitute? left op right) t fun found t' => t.Shallower t' ∧
      ∀ s ∈ found, ∀ n, t'.Within n root → t'.Within n s := by
  have operand : ∀ (t' : Tree) id n, t'.get? root = some (.binary left op right) →
      (id = left ∨ id = right) → t'.Within (n + 1) root → t'.Within n id := by
    intro t' id n hn' hid hw
    obtain ⟨hl, hr⟩ := within_operands hn' hw
    rcases hid with rfl | rfl
    · exact hl
    · exact hr
  unfold EndsAt substitute?
  cases hout : outcome t left op right with
  | keep => exact ⟨.refl t, by simp⟩
  | literal value =>
    refine ⟨shallower_add t _, ?_⟩
    rintro s ⟨rfl⟩ n hw
    cases n with
    | zero => exact hw.elim
    | succ n =>
      have hleaf : (t.add (.constant value)).1.Within 1 t.size :=
        within_add (by simp [Node.children, Node.slots])
      exact hleaf.mono (by omega)
  | operand id =>
    refine ⟨.refl t, ?_⟩
    rintro s ⟨rfl⟩ n hw
    cases n with
    | zero => exact hw.elim
    | succ n => exact (operand t _ n hn (outcomeOf_operand (Or.inl hout)) hw).succ
  | negated id =>
    have hroot : (t.add (.unary .neg id)).1.get? root = some (.binary left op right) := by
      rw [get?_add, if_neg (Nat.ne_of_lt (lt_size_of_get? hn))]
      exact hn
    refine ⟨shallower_add t _, ?_⟩
    rintro s ⟨rfl⟩ n hw
    cases n with
    | zero => exact hw.elim
    | succ n =>
      have hnew := (get?_add t (.unary .neg id) t.size).trans (if_pos rfl)
      refine ⟨.unary .neg id, hnew, fun c hc => ?_⟩
      obtain rfl : c = id := by simpa [Node.children, Node.slots, Slot.ids] using hc
      exact operand _ c n hroot (outcomeOf_operand (Or.inr hout)) hw

theorem settle_ends {root substitute : NodeId} {depth : Nat} (hw : t.Within depth root)
    (hs : ∀ n, t.Within n root → t.Within n substitute) :
    EndsAt (settle root substitute) t fun _ t' => t.Shallower t' := by
  unfold settle
  refine EndsAt.bind (Q := fun a t' => t = a ∧ t = t') ⟨rfl, rfl⟩ ?_
  rintro _ _ ⟨rfl, rfl⟩
  split
  · refine EndsAt.bind (Q := fun _ t' => t.Shallower t') ?_ fun _ _ h => h
    unfold EndsAt TreeM.edit
    simp only
    cases hr : t.replace root substitute with
    | error e => exact replace_failsOnly t root substitute e hr
    | ok t' =>
      rcases replace_relinks hr with rfl | ⟨holder, -, hchild, hr⟩
      · exact .refl _
      · refine hr.shallower fun c hc => ?_
        obtain rfl := List.mem_singleton.mp hc
        exact ⟨root, hchild, hs⟩
  · split
    · exact cloneSubtree_ends (hs depth hw).within_size
    · exact Shallower.refl t

theorem foldEach_ends {depth : Nat}
    (hfold : ∀ t c, t.Within depth c → EndsAt (foldTo depth c) t fun _ t' => t.Shallower t')
    {ids : List NodeId} (hw : ∀ c ∈ ids, t.Within depth c) :
    EndsAt (foldEach (foldTo depth) ids) t fun _ t' => t.Shallower t' := by
  induction ids generalizing t with
  | nil => exact Shallower.refl t
  | cons c rest ih =>
    obtain ⟨hc, hrest⟩ := List.forall_mem_cons.mp hw
    refine (hfold t c hc).bind fun _ t' ht => ?_
    exact (ih fun x hx => ht depth x (hrest x hx)).imp fun _ t'' ht' => ht.trans ht'

theorem foldTo_ends {depth : Nat} {root : NodeId} (hw : t.Within depth root) :
    EndsAt (foldTo depth root) t fun _ t' => t.Shallower t' := by
  induction depth generalizing t root with
  | zero => exact hw.elim
  | succ depth ih =>
    have hroot := hw
    obtain ⟨node, hn, hc⟩ := hw
    refine (endsAt_node root).bind ?_
    rintro n _ ⟨rfl, hn'⟩
    obtain rfl : node = n := Option.some.inj (hn.symm.trans hn')
    refine (foldEach_ends (fun _ _ h => ih h) hc).bind fun _ t' ht => ?_
    -- the operands may have been replaced, so the node is read again
    refine (endsAt_node root).bind ?_
    rintro n t' ⟨rfl, hn'⟩
    split
    · refine (substitute?_ends hn').bind ?_
      rintro found t'' ⟨ht', hfound⟩
      cases found with
      | none => exact ht.trans ht'
      | some s =>
        refine (settle_ends (ht' _ _ (ht _ _ hroot)) (hfound s rfl)).imp fun _ _ h => ?_
        exact (ht.trans ht').trans h
    · exact ht

theorem fold_ends {root : NodeId} (hw : t.Within t.size root) :
    EndsAt (fold root) t fun _ t' => t.Shallower t' :=
  foldTo_ends hw.succ

end Fold
end Arbor
