import Arbor.Proofs.Folding

/-!
What folding does to calls and assignments.

Folding moves operands up, takes literals away and adds negations, none of which is a call or an
assignment. It loses them in one way: a multiplication with a literal zero gives way to the zero,
and the other operand is gone with all that it would do. So the effects below a root are kept
exactly where no operand of such a multiplication has any.
-/
namespace Arbor

/-- Calls, assignments, increments and decrements. -/
def Node.hasEffect : Node → Bool
  | .call _ _ _ => true
  | .augAssign _ _ _ => true
  | .binary _ op _ => op = .assign
  | .unary op _ => op = .preInc || op = .preDec || op = .postInc || op = .postDec
  | _ => false

theorem Node.hasEffect_form (n : Node) : n.form.hasEffect = n.hasEffect := by
  cases n <;> rfl

namespace Tree

/-- The number of nodes below an id, itself among them, that have an effect. -/
def effects (t : Tree) (id : NodeId) : Nat :=
  (t.walk id).countP fun x => (t.get? x).any Node.hasEffect

/-- At the id no operand with an effect is multiplied with what folds to a literal zero. -/
def LosesNoneAt (t : Tree) (id : NodeId) : Prop :=
  ∀ left right, t.get? id = some (.binary left .mul right) →
    ((Fold.foldedLiteral? t left).any Value.isZero → t.effects right = 0) ∧
    ((Fold.foldedLiteral? t right).any Value.isZero → t.effects left = 0)

end Tree

namespace Term

mutual

def effects : Term → Nat
  | .mk node es => node.hasEffect.toNat + effectsOf es

def effectsOf : List Term → Nat
  | [] => 0
  | e :: es => e.effects + effectsOf es

end

/-- No operand of a multiplication with a literal zero has an effect. -/
def Harmless (l r : Term) : Prop :=
  (l.literal?.any Value.isZero → r.effects = 0) ∧ (r.literal?.any Value.isZero → l.effects = 0)

theorem effects_of_literal {e : Term} {u : Value} (h : e.literal? = some u) : e.effects = 0 := by
  unfold literal? at h
  split at h
  · rfl
  · cases h

theorem effects_operation (left right : NodeId) (op : Operator) (l r : Term) :
    (mk (.binary left op right) [l, r]).effects =
      (op = .assign : Bool).toNat + (l.effects + r.effects) := by
  simp [effects, effectsOf, Node.hasEffect]

theorem effects_combine (l : Term) (op : Operator) (r : Term) :
    (l.combine op r).effects ≤ (binary l op r).effects ∧
      ((l.combine op r).effects = (binary l op r).effects ↔ (op = .mul → Harmless l r)) := by
  have hrule := combines l op r
  generalize l.combine op r = e at hrule
  rw [binary, effects_operation]
  cases hrule with
  | kept hl hr =>
    rw [binary, effects_operation]
    refine ⟨Nat.le_refl _, fun _ hop => ⟨fun hz => ?_, fun hz => ?_⟩, fun _ => rfl⟩
    · obtain ⟨w, hw⟩ := Option.isSome_iff_exists.mp (hl hop hz)
      exact effects_of_literal hw
    · obtain ⟨u, hu⟩ := Option.isSome_iff_exists.mp (hr hop hz)
      exact effects_of_literal hu
  | literals hl hr he =>
    have hop : op ≠ .assign := by
      rintro rfl
      simpa [Operator.isComparison] using Fold.operator_of_evaluate? he
    have hnone : ∀ value, (constant value).effects = 0 := fun _ => effects_of_literal rfl
    simp [hnone, hop, Harmless, effects_of_literal hl, effects_of_literal hr]
  | zeroAdd hl hu hr => simp [effects_of_literal hl]
  | addZero hl hr hw => simp [effects_of_literal hr]
  | subZero hl hr hw => simp [effects_of_literal hr]
  | zeroSub hl hu hr =>
    simp [negated, effects, effectsOf, Node.hasEffect, effects_of_literal hl]
  | oneMul hl hu hr =>
    simp [Harmless, hl, hr, Value.not_isZero_of_isOne hu, effects_of_literal hl]
  | mulOne hl hr hw =>
    simp [Harmless, hl, hr, Value.not_isZero_of_isOne hw, effects_of_literal hr]
  | zeroMul hl hu hr =>
    simp [Harmless, hl, hr, hu, effects_of_literal hl, eq_comm]
  | mulZero hl hr hw =>
    simp [Harmless, hl, hr, hw, effects_of_literal hr, eq_comm]

def LosesNone : Term → Prop
  | .mk (.binary _ .mul _) [l, r] =>
    (l.folded.literal?.any Value.isZero → r.effects = 0) ∧
    (r.folded.literal?.any Value.isZero → l.effects = 0)
  | _ => True

theorem sum_effects_folded {es : List Term} (h : ∀ e ∈ es, e.folded.effects ≤ e.effects) :
    effectsOf (es.map folded) ≤ effectsOf es ∧
      (effectsOf (es.map folded) = effectsOf es ↔ ∀ e ∈ es, e.folded.effects = e.effects) := by
  induction es with
  | nil => simp
  | cons e es ih =>
    obtain ⟨he, hes⟩ := List.forall_mem_cons.mp h
    obtain ⟨hle, hiff⟩ := ih hes
    rw [List.map_cons, effectsOf, effectsOf, List.forall_mem_cons, ← hiff]
    omega

theorem effects_rebuild (node : Node) (es : List Term) :
    (rebuild node es).effects ≤ (mk node es).effects := by
  unfold rebuild
  split
  · next left op right l r =>
    have hrule := (effects_combine l op r).1
    simpa [binary, effects, Node.hasEffect] using hrule
  · exact Nat.le_refl _

theorem effects_folded_le (e : Term) : e.folded.effects ≤ e.effects := by
  induction e using Term.induct with
  | h node es ih =>
    rw [folded_mk]
    have hsum := (sum_effects_folded ih).1
    refine Nat.le_trans (effects_rebuild _ _) ?_
    rw [effects, effects]
    omega

theorem effects_operation_eq_iff (left right : NodeId) (op : Operator) (l r : Term) :
    (mk (.binary left op right) [l, r]).folded.effects =
        (mk (.binary left op right) [l, r]).effects ↔
      (l.folded.effects = l.effects ∧ r.folded.effects = r.effects) ∧
        (op = .mul → Harmless l.folded r.folded) := by
  obtain ⟨hle, hiff⟩ := effects_combine l.folded op r.folded
  have hl := l.effects_folded_le
  have hr := r.effects_folded_le
  rw [binary, effects_operation] at hle hiff
  rw [folded_binary, effects_operation, ← hiff]
  omega

theorem effects_folded_eq_iff (node : Node) (es : List Term) :
    (mk node es).folded.effects = (mk node es).effects ↔
      (∀ e ∈ es, e.folded.effects = e.effects) ∧ (mk node es).LosesNone := by
  by_cases hkind : ∃ left op right l r, node = .binary left op right ∧ es = [l, r]
  · obtain ⟨left, op, right, l, r, rfl, rfl⟩ := hkind
    rw [effects_operation_eq_iff, List.forall_mem_cons, List.forall_mem_singleton]
    refine and_congr_right fun hsame => ?_
    by_cases hop : op = .mul
    · subst hop
      simp [Harmless, LosesNone, hsame.1, hsame.2]
    · simp [LosesNone, hop]
  · have hother : ∀ left op right l r, ¬ (node = .binary left op right ∧ es = [l, r]) :=
      fun left op right l r he => hkind ⟨left, op, right, l, r, he⟩
    have hnone : (mk node es).LosesNone := by
      unfold LosesNone
      split
      · next left right l r he => exact absurd (Term.mk.inj he) (hother left .mul right l r)
      · trivial
    have hsum := (@sum_effects_folded es fun e _ => e.effects_folded_le).2
    rw [folded_other hother, effects, effects, Nat.add_left_cancel_iff, hsum, and_iff_left hnone]

end Term

namespace Tree

variable {t : Tree} {depth : Nat} {id : NodeId} {holder : Option NodeId} {e : Term}
  {ids : List NodeId}

theorem Stands.effects_eq (h : t.Stands depth id holder e ids) : t.effects id = e.effects := by
  rw [effects, h.walk_eq]
  induction depth generalizing id holder e ids with
  | zero => exact h.elim
  | succ depth ih =>
    obtain ⟨node, es, below, hn, -, hb, rfl, rfl⟩ := h
    have each : ∀ {cs es below}, Abreast (fun c => t.Stands depth c (some id)) cs es below →
        below.countP (fun x => (t.get? x).any Node.hasEffect) = Term.effectsOf es := by
      intro cs es below hb
      induction hb with
      | nil => rfl
      | cons hc _ ihs => rw [List.countP_append, ih hc, ihs, Term.effectsOf]
    rw [List.countP_cons, each hb, Term.effects, Node.hasEffect_form, hn, Option.any_some,
      Nat.add_comm]
    cases node.hasEffect <;> rfl

section Regions

variable {root : NodeId}

theorem Stands.losesNone_iff (hl : t.WellLinked root) (hp : t.parent? root = none)
    (hi : t.Reach root id) (h : t.Stands depth id holder e ids) :
    e.LosesNone ↔ t.LosesNoneAt id := by
  obtain ⟨_, node, es, below, hn, -, hb, rfl, -⟩ := h.top
  by_cases hkind : ∃ left right, node = .binary left .mul right
  · obtain ⟨left, right, rfl⟩ := hkind
    have hreach : ∀ c ∈ [left, right], t.Reach root c := fun c hc => hi.child hn hc
    obtain ⟨l, r, idl, idr, rfl, hleft, hright⟩ := hb.pair
    have hlit := Fold.foldedLiteral?_eq hl hp (hreach left (by simp)) hleft
    have hlit' := Fold.foldedLiteral?_eq hl hp (hreach right (by simp)) hright
    constructor
    · intro hnone left' right' hn'
      cases hn.symm.trans hn'
      rw [hlit, hlit', hleft.effects_eq, hright.effects_eq]
      exact hnone
    · intro hnone
      have hhere := hnone left right hn
      rw [hlit, hlit', hleft.effects_eq, hright.effects_eq] at hhere
      exact hhere
  · have hnone : (Term.mk node.form es).LosesNone := by
      unfold Term.LosesNone
      split
      · next he => exact absurd (Node.eq_binary_of_form (Term.mk.inj he).1) hkind
      · trivial
    refine iff_of_true hnone fun left right hn' => ?_
    exact absurd ⟨left, right, Option.some.inj (hn.symm.trans hn')⟩ hkind

theorem Stands.effects_folded_iff (hl : t.WellLinked root) (hp : t.parent? root = none)
    (hi : t.Reach root id) (h : t.Stands depth id holder e ids) :
    e.folded.effects = e.effects ↔ ∀ x, t.Reach id x → t.LosesNoneAt x := by
  induction depth generalizing id holder e ids with
  | zero => exact h.elim
  | succ depth ih =>
    have htop := h.losesNone_iff hl hp hi
    obtain ⟨node, es, below, hn, -, hb, rfl, rfl⟩ := h
    have hbelow : (∀ e ∈ es, e.folded.effects = e.effects) ↔
        ∀ c ∈ node.children, ∀ x, t.Reach c x → t.LosesNoneAt x :=
      hb.forall_iff fun c e ids hc hs => ih (hi.child hn hc) hs
    rw [Term.effects_folded_eq_iff, hbelow, htop]
    constructor
    · rintro ⟨hchildren, hid⟩ x hx
      rcases Relation.ReflTransGen.cases_head hx with rfl | ⟨c, hc, hx⟩
      · exact hid
      · rw [Child, childrenOf_eq hn] at hc
        exact hchildren c hc x hx
    · intro hall
      refine ⟨fun c hc x hx => hall x (.head ?_ hx), hall id .refl⟩
      rw [Child, childrenOf_eq hn]
      exact hc

/-- Folding below an accepted root that nobody holds adds no effect, and it keeps all of them
exactly where no product with a zero has any in its other operand. -/
theorem fold_keeps_effects_iff (hv : t.validate root = .ok ()) (hp : t.parent? root = none) :
    ∃ r t', Fold.fold root t = .ok r t' ∧ t'.effects r ≤ t.effects root ∧
      (t'.effects r = t.effects root ↔ ∀ id, t.Reach root id → t.LosesNoneAt id) := by
  have hl := (wellFormed_of_validate hv).region
  obtain ⟨e, hs, r, t', ids, hrun, hstands, -⟩ := Fold.fold_settles hl hp .refl
  refine ⟨r, t', hrun, ?_, ?_⟩
  · rw [hstands.effects_eq, hs.effects_eq]
    exact e.effects_folded_le
  · rw [hstands.effects_eq, hs.effects_eq]
    exact hs.effects_folded_iff hl hp .refl

end Regions

/-- `f() * 1`. -/
def timesOne : Tree :=
  .ofNodes [.binary 1 .mul 3, .call 2 [] none, .symbol "f" none false, .constant (.int 1)] 0

/-- The call is copied, since nobody holds the product. -/
def timesOneFolded : Tree :=
  ⟨#[⟨.binary 1 .mul 3, none⟩, ⟨.call 2 [] none, some 0⟩, ⟨.symbol "f" none false, some 1⟩,
    ⟨.constant (.int 1), some 0⟩, ⟨.symbol "f" none false, some 5⟩, ⟨.call 4 [] none, none⟩], 0⟩

theorem timesOne_keeps_effects :
    timesOne.validate 0 = .ok () ∧ timesOne.parent? 0 = none ∧
    Fold.fold 0 timesOne = .ok 5 timesOneFolded ∧
    timesOneFolded.effects 5 = 1 ∧ timesOne.effects 0 = 1 ∧
    ∀ id, timesOne.Reach 0 id → timesOne.LosesNoneAt id := by
  have hv : timesOne.validate 0 = .ok () := by decide +kernel
  have hp : timesOne.parent? 0 = none := by decide +kernel
  have hrun : Fold.fold 0 timesOne = .ok 5 timesOneFolded := by with_unfolding_all rfl
  have hafter : timesOneFolded.effects 5 = 1 := by decide +kernel
  have hbefore : timesOne.effects 0 = 1 := by decide +kernel
  obtain ⟨r, t', hrun', -, hiff⟩ := fold_keeps_effects_iff hv hp
  cases hrun.symm.trans hrun'
  exact ⟨hv, hp, hrun, hafter, hbefore, hiff.mp (hafter.trans hbefore.symm)⟩

/-- `return f() * 0;`. -/
def timesZero : Tree :=
  .ofNodes [.ret (some 1), .binary 2 .mul 4, .call 3 [] none, .symbol "f" none false,
    .constant (.int 0)] 0

def timesZeroFolded : Tree :=
  ⟨#[⟨.ret (some 4), none⟩, ⟨.binary 2 .mul 4, none⟩, ⟨.call 3 [] none, some 1⟩,
    ⟨.symbol "f" none false, some 2⟩, ⟨.constant (.int 0), some 0⟩], 0⟩

theorem call_times_zero_is_lost :
    timesZero.validate 0 = .ok () ∧ timesZero.parent? 0 = none ∧
    Fold.fold 0 timesZero = .ok 0 timesZeroFolded ∧
    timesZero.effects 0 = 1 ∧ timesZeroFolded.effects 0 = 0 := by
  refine ⟨by decide +kernel, by decide +kernel, ?_, by decide +kernel, by decide +kernel⟩
  with_unfolding_all rfl

end Tree
end Arbor
