import Arbor.Proofs.Levels
import Arbor.Proofs.Term

/-!
Folding of terms: what folding a tree in place comes to, without the arena.

`folded` rebuilds a term from its folded children; a binary operation on them may give way to a
literal, to one of them, or to the negative of the right one. `Combines` lists the cases, one
rule each, and whatever is proved about folding goes through these rules.
-/
namespace Arbor

/-- No literal is both; the identities for zero and for one exclude each other. -/
theorem Value.not_isZero_of_isOne {v : Value} (h : v.isOne) : v.isZero = false := by
  cases v with
  | float v =>
    simp only [isOne, Binary32.isOne, decide_eq_true_eq] at h
    simp [isZero, Binary32.isZero, h]
  | double v =>
    simp only [isOne, Binary64.isOne, decide_eq_true_eq] at h
    simp [isZero, Binary64.isZero, h]
  | int v | uint v | char v | bool v =>
    simp only [isOne, decide_eq_true_eq] at h
    simp [isZero, h]

theorem Fold.operator_of_evaluate? {u w value : Value} {op : Operator}
    (h : Fold.evaluate? u op w = some value) :
    op.isComparison ∨ op ∈ [.add, .sub, .mul, .div, .mod] := by
  by_contra hno
  have harithmetic : ∀ a b, Fold.arithmetic? op a b = none := by
    cases op <;> simp_all [Fold.arithmetic?]
  have hfloating : ∀ a b, Fold.floating? op a b = none := by
    cases op <;> simp_all [Fold.floating?]
  have hcmp : op.isComparison = false := by simp_all
  cases u <;> cases w <;>
    simp [Fold.evaluate?, hcmp, Fold.signed?, Fold.unsigned?, harithmetic, hfloating] at h

namespace Term

def constant (value : Value) : Term := .mk (.constant value) []

def binary (l : Term) (op : Operator) (r : Term) : Term := .mk (.binary 0 op 0) [l, r]

def negated (e : Term) : Term := .mk (.unary .neg 0) [e]

def literal? : Term → Option Value
  | .mk (.constant value) [] => some value
  | _ => none

def name? : Term → Option String
  | .mk node _ => node.symbolName?

def combine (l : Term) (op : Operator) (r : Term) : Term :=
  match l.literal?, r.literal? with
  | none, none => binary l op r
  | some u, some w =>
    match Fold.evaluate? u op w with
    | some value => constant value
    | none => binary l op r
  | some u, none =>
    if op = .add ∧ u.isZero then r
    else if op = .sub ∧ u.isZero then negated r
    else if op = .mul ∧ u.isOne then r
    else if op = .mul ∧ u.isZero then l
    else binary l op r
  | none, some w =>
    if (op = .add ∨ op = .sub) ∧ w.isZero then l
    else if op = .mul ∧ w.isOne then l
    else if op = .mul ∧ w.isZero then r
    else binary l op r

def rebuild : Node → List Term → Term
  | .binary _ op _, [l, r] => combine l op r
  | node, es => .mk node es

theorem rebuild_form {node : Node} (h : ∀ left op right, node ≠ .binary left op right)
    (es : List Term) : rebuild node.form es = .mk node.form es := by
  cases node with
  | binary left op right => exact absurd rfl (h left op right)
  | _ => rfl

mutual

/-- The term that folding puts in the place of a term. -/
def folded : Term → Term
  | .mk node es => rebuild node (foldedAll es)

def foldedAll : List Term → List Term
  | [] => []
  | e :: es => e.folded :: foldedAll es

end

theorem foldedAll_eq_map (es : List Term) : foldedAll es = es.map folded := by
  induction es with
  | nil => rfl
  | cons e es ih => rw [foldedAll, ih, List.map_cons]

theorem folded_mk (node : Node) (es : List Term) :
    (Term.mk node es).folded = rebuild node (es.map folded) := by
  rw [folded, foldedAll_eq_map]

theorem folded_binary (left right : NodeId) (op : Operator) (l r : Term) :
    (Term.mk (.binary left op right) [l, r]).folded = l.folded.combine op r.folded := by
  rw [folded_mk]
  rfl

theorem folded_other {node : Node} {es : List Term}
    (h : ∀ left op right l r, ¬ (node = .binary left op right ∧ es = [l, r])) :
    (Term.mk node es).folded = .mk node (es.map folded) := by
  rw [folded_mk]
  unfold rebuild
  split
  · next left op right l' r' he =>
    obtain ⟨l, rest, rfl, -, he⟩ := List.map_eq_cons_iff.mp he
    obtain ⟨r, last, rfl, -, he⟩ := List.map_eq_cons_iff.mp he
    obtain rfl := List.map_eq_nil_iff.mp he
    exact absurd ⟨rfl, rfl⟩ (h left op right l r)
  · rfl

/-- The rules of folding. An operation of two literals without a value is kept, and so is one that
no identity is about. -/
inductive Combines : Term → Operator → Term → Term → Prop where
  | kept {l r : Term} {op : Operator}
      (hl : op = .mul → l.literal?.any Value.isZero → r.literal?.isSome)
      (hr : op = .mul → r.literal?.any Value.isZero → l.literal?.isSome) :
      Combines l op r (binary l op r)
  | literals {l r : Term} {op : Operator} {u w value : Value} (hl : l.literal? = some u)
      (hr : r.literal? = some w) (h : Fold.evaluate? u op w = some value) :
      Combines l op r (constant value)
  | zeroAdd {l r : Term} {u : Value} (hl : l.literal? = some u) (hu : u.isZero)
      (hr : r.literal? = none) : Combines l .add r r
  | addZero {l r : Term} {w : Value} (hl : l.literal? = none) (hr : r.literal? = some w)
      (hw : w.isZero) : Combines l .add r l
  | subZero {l r : Term} {w : Value} (hl : l.literal? = none) (hr : r.literal? = some w)
      (hw : w.isZero) : Combines l .sub r l
  | zeroSub {l r : Term} {u : Value} (hl : l.literal? = some u) (hu : u.isZero)
      (hr : r.literal? = none) : Combines l .sub r (negated r)
  | oneMul {l r : Term} {u : Value} (hl : l.literal? = some u) (hu : u.isOne)
      (hr : r.literal? = none) : Combines l .mul r r
  | mulOne {l r : Term} {w : Value} (hl : l.literal? = none) (hr : r.literal? = some w)
      (hw : w.isOne) : Combines l .mul r l
  | zeroMul {l r : Term} {u : Value} (hl : l.literal? = some u) (hu : u.isZero)
      (hr : r.literal? = none) : Combines l .mul r l
  | mulZero {l r : Term} {w : Value} (hl : l.literal? = none) (hr : r.literal? = some w)
      (hw : w.isZero) : Combines l .mul r r

theorem combines (l : Term) (op : Operator) (r : Term) : Combines l op r (combine l op r) := by
  unfold combine
  split
  · next hl hr => exact .kept (by simp [hl]) (by simp [hr])
  · next u w hl hr =>
    split
    · next value h => exact .literals hl hr h
    · exact .kept (by simp [hr]) (by simp [hl])
  · next u hl hr =>
    split_ifs with hadd hsub hone hzero
    · exact hadd.1 ▸ .zeroAdd hl hadd.2 hr
    · exact hsub.1 ▸ .zeroSub hl hsub.2 hr
    · exact hone.1 ▸ .oneMul hl hone.2 hr
    · exact hzero.1 ▸ .zeroMul hl hzero.2 hr
    · refine .kept (fun hop hz => absurd ⟨hop, ?_⟩ hzero) (by simp [hr])
      simpa [hl] using hz
  · next w hl hr =>
    split_ifs with hzero hone hmul
    · rcases hzero.1 with rfl | rfl
      · exact .addZero hl hr hzero.2
      · exact .subZero hl hr hzero.2
    · exact hone.1 ▸ .mulOne hl hr hone.2
    · exact hmul.1 ▸ .mulZero hl hr hmul.2
    · refine .kept (by simp [hl]) fun hop hz => absurd ⟨hop, ?_⟩ hmul
      simpa [hr] using hz

end Term

namespace Fold

open Term

variable {t : Tree} {left right : NodeId} {op : Operator} {l r : Term}

def Outcome.term (left : NodeId) (l : Term) (op : Operator) (r : Term) : Outcome → Term
  | .keep => binary l op r
  | .literal value => constant value
  | .operand id => if id = left then l else r
  | .negated _ => Term.negated r

theorem outcomeOf_negated {u w : Option Value} {id : NodeId}
    (h : outcomeOf u w left op right = .negated id) : id = right := by
  have by_identity : ∀ u w, identity u w left op right = .negated id → id = right := by
    intro u w h
    unfold identity at h
    grind
  unfold outcomeOf at h
  split at h
  · split at h <;> simp at h
  · exact by_identity _ _ h

theorem term_outcomeOf (hne : left ≠ right) :
    (outcomeOf l.literal? r.literal? left op right).term left l op r = combine l op r := by
  have split : ∀ (c : Prop) [Decidable c] (o o' : Outcome),
      (if c then o else o').term left l op r =
        if c then o.term left l op r else o'.term left l op r := by
    intro c _ o o'
    exact apply_ite _ c o o'
  unfold outcomeOf combine
  cases l.literal? with
  | none =>
    cases r.literal? with
    | none => cases op <;> simp [identity, Outcome.term]
    | some w => cases op <;> simp [identity, split] <;> simp [Outcome.term, hne.symm]
  | some u =>
    cases r.literal? with
    | none => cases op <;> simp [identity, split] <;> simp [Outcome.term, hne.symm]
    | some w =>
      simp only
      cases evaluate? u op w <;> rfl

theorem term_outcome (hl : literal? t left = l.literal?) (hr : literal? t right = r.literal?)
    (hne : left ≠ right) : (outcome t left op right).term left l op r = combine l op r := by
  rw [outcome, hl, hr, term_outcomeOf hne]

end Fold
end Arbor
