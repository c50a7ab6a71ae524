import Arbor.Proofs.Folding

/-!
Folding leaves nothing to fold.

A rule can bring up a literal or a negation to be an operand of the operation above, and an
operation of two literals that has no value shuts out the identities as well. Still one pass is
enough: an operation is looked at after its operands, and what takes its place is made of parts
that are in normal form already. In a tree where a normal form stands, a fold adds no node and
writes to none.
-/
namespace Arbor
namespace Term

/-- No operation of the term gives way to anything. -/
inductive Normal : Term → Prop where
  | mk {node : Node} {es : List Term} (below : ∀ e ∈ es, Normal e)
      (kept : rebuild node es = .mk node es) : Normal (.mk node es)

theorem Normal.part {e e' : Term} (h : e.Normal) (hp : e.Part e') : e'.Normal := by
  induction hp with
  | itself => exact h
  | child _ hm ih =>
    cases ih with
    | mk hbelow _ => exact hbelow _ hm

theorem normal_constant (value : Value) : (constant value).Normal := .mk (by simp) rfl

theorem Normal.negated {e : Term} (h : e.Normal) : e.negated.Normal := by
  refine .mk (fun e' he => ?_) rfl
  rw [List.mem_singleton.mp he]
  exact h

theorem Normal.combine {l r : Term} (hl : l.Normal) (op : Operator) (hr : r.Normal) :
    (l.combine op r).Normal := by
  have hc := combines l op r
  generalize he : l.combine op r = e at hc
  cases hc with
  | kept =>
    refine .mk (fun e' hm => ?_) he
    rcases List.mem_pair.mp hm with rfl | rfl
    · exact hl
    · exact hr
  | literals => exact normal_constant _
  | zeroSub => exact hr.negated
  | zeroAdd | oneMul | mulZero => exact hr
  | addZero | subZero | mulOne | zeroMul => exact hl

theorem normal_folded (e : Term) : e.folded.Normal := by
  induction e using Term.induct with
  | h node es ih =>
    by_cases hkind : ∃ left op right l r, node = .binary left op right ∧ es = [l, r]
    · obtain ⟨left, op, right, l, r, rfl, rfl⟩ := hkind
      rw [folded_binary]
      exact (ih l (by simp)).combine op (ih r (by simp))
    · have hother : (mk node es).folded = .mk node (es.map folded) :=
        folded_other fun left op right l r he => hkind ⟨left, op, right, l, r, he⟩
      rw [hother]
      refine .mk (List.forall_mem_map.mpr ih) ?_
      rw [← folded_mk, hother]

end Term

namespace Fold

open Tree

variable {t : Tree} {depth : Nat} {x left right : NodeId} {holder : Option NodeId} {op : Operator}
  {e l r : Term} {ids : List NodeId}

theorem outcome_eq_keep (hl : literal? t left = l.literal?) (hr : literal? t right = r.literal?)
    (hne : left ≠ right) (hkept : l.combine op r = l.binary op r) :
    outcome t left op right = .keep := by
  have hterm : (outcome t left op right).term left l op r = _ := term_outcome hl hr hne
  rw [hkept] at hterm
  cases ho : outcome t left op right with
  | keep => rfl
  | literal value =>
    rw [ho] at hterm
    cases hterm
  | negated id =>
    rw [ho] at hterm
    cases hterm
  | operand id =>
    -- an operand is smaller than the operation
    rw [ho, Outcome.term] at hterm
    have hsize := congrArg sizeOf hterm
    split at hsize <;> simp [Term.binary] at hsize <;> omega

theorem substitute?_of_normal (h : t.Stands depth x holder e ids) (hn : ids.Nodup) (he : e.Normal)
    (hx : t.get? x = some (.binary left op right)) :
    substitute? left op right t = .ok none t := by
  obtain ⟨_, node, es, below, hnode, -, hb, rfl, rfl⟩ := h.top
  cases hx.symm.trans hnode
  have hne : left ≠ right := by
    have hpair : [left, right].Nodup := hb.nodup (List.nodup_cons.mp hn).2
    simpa using hpair
  cases hb with
  | cons hl hb =>
    cases hb with
    | cons hr hb =>
      cases hb
      cases he with
      | mk _ hkept => rw [substitute?, outcome_eq_keep hl.literal?_eq hr.literal?_eq hne hkept]

theorem foldTo_of_normal (h : t.Stands depth x holder e ids) (hn : ids.Nodup) (he : e.Normal) :
    foldTo depth x t = .ok x t := by
  induction depth generalizing x holder e ids with
  | zero => exact h.elim
  | succ depth ih =>
    have hwhole := h
    obtain ⟨node, es, below, hnode, -, hb, rfl, rfl⟩ := h
    have each : ∀ {cs es below}, Abreast (fun c => t.Stands depth c (some x)) cs es below →
        below.Nodup → (∀ e ∈ es, e.Normal) → foldEach (foldTo depth) cs t = .ok () t := by
      intro cs es below hb hn hall
      induction hb with
      | nil => rfl
      | cons hc _ ihs =>
        obtain ⟨hni, hnr, -⟩ := List.nodup_append.mp hn
        obtain ⟨he, hall⟩ := List.forall_mem_cons.mp hall
        exact run_bind_ok.mpr ⟨_, t, ih hc hni he, ihs hnr hall⟩
    have hrun : foldEach (foldTo depth) node.children t = .ok () t := by
      cases he with
      | mk hbelow _ => exact each hb (List.nodup_cons.mp hn).2 hbelow
    by_cases hkind : ∃ left op right, node = .binary left op right
    · obtain ⟨left, op, right, rfl⟩ := hkind
      rw [foldTo_binary hnode hrun hnode (substitute?_of_normal hwhole hn he hnode)]
      rfl
    · exact foldTo_other hnode hrun hnode fun left op right hk => hkind ⟨left, op, right, hk⟩

end Fold

namespace Tree

/-- Folding an accepted root that nobody holds leaves no operation that a rule applies to, and so
folding once more changes nothing in the arena. -/
theorem fold_reaches_normal_form {t : Tree} {root : NodeId} (hv : t.validate root = .ok ())
    (hp : t.parent? root = none) :
    ∃ r t', Fold.fold root t = .ok r t' ∧
      (∀ id left op right, t'.Reach r id → t'.get? id = some (.binary left op right) →
        Fold.substitute? left op right t' = .ok none t') ∧
      Fold.fold r t' = .ok r t' := by
  obtain ⟨e, -, r, t', ids, hrun, hs, hn, -⟩ :=
    Fold.fold_settles (wellFormed_of_validate hv).region hp .refl
  have hnormal := e.normal_folded
  refine ⟨r, t', hrun, fun id left op right hid hnode => ?_, ?_⟩
  · obtain ⟨depth, holder, e', ids', hs', hsub, hpart⟩ := hs.of_reach hid
    exact Fold.substitute?_of_normal hs' (hn.sublist hsub) (hnormal.part hpart) hnode
  · exact Fold.foldTo_of_normal (hs.of_within hs.within.within_size.succ) hn hnormal

/-- `1 / 0 + ((2 - 2) - x)`. -/
def withoutQuotient : Tree :=
  .ofNodes [.binary 1 .add 2, .binary 3 .div 4, .binary 5 .sub 6, .constant (.int 1),
    .constant (.int 0), .binary 7 .sub 8, .symbol "x" none false, .constant (.int 2),
    .constant (.int 2)] 0

/-- The quotient has no value and stays. The difference is a negation now, and what it was is still
in the arena, where no root leads to it. -/
def withoutQuotientFolded : Tree :=
  ⟨#[⟨.binary 1 .add 10, none⟩, ⟨.binary 3 .div 4, some 0⟩, ⟨.binary 9 .sub 6, none⟩,
    ⟨.constant (.int 1), some 1⟩, ⟨.constant (.int 0), some 1⟩, ⟨.binary 7 .sub 8, none⟩,
    ⟨.symbol "x" none false, some 10⟩, ⟨.constant (.int 2), some 5⟩, ⟨.constant (.int 2), some 5⟩,
    ⟨.constant (.int 0), some 2⟩, ⟨.unary .neg 6, some 0⟩], 0⟩

theorem withoutQuotient_normal_form :
    withoutQuotient.validate 0 = .ok () ∧ withoutQuotient.parent? 0 = none ∧
    Fold.fold 0 withoutQuotient = .ok 0 withoutQuotientFolded ∧
    withoutQuotientFolded.Reach 0 1 ∧
    withoutQuotientFolded.get? 1 = some (.binary 3 .div 4) ∧
    Fold.substitute? 3 .div 4 withoutQuotientFolded = .ok none withoutQuotientFolded ∧
    Fold.fold 0 withoutQuotientFolded = .ok 0 withoutQuotientFolded := by
  have hv : withoutQuotient.validate 0 = .ok () := by decide +kernel
  have hp : withoutQuotient.parent? 0 = none := by decide +kernel
  have hrun : Fold.fold 0 withoutQuotient = .ok 0 withoutQuotientFolded := by with_unfolding_all rfl
  have hreach : withoutQuotientFolded.Reach 0 1 := .single (by decide +kernel)
  have hnode : withoutQuotientFolded.get? 1 = some (.binary 3 .div 4) := by decide +kernel
  obtain ⟨r, t', hrun', hkept, hagain⟩ := fold_reaches_normal_form hv hp
  cases hrun.symm.trans hrun'
  exact ⟨hv, hp, hrun, hreach, hnode, hkept 1 3 .div 4 hreach hnode, hagain⟩

end Tree
end Arbor
