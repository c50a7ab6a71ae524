import Arbor.Proofs.Folding

/-!
Folding keeps the value of integer expressions.

An expression of signed 64-bit words has a value unless an operation overflows, divides by zero or
has a quotient that is no word; `&&`, `||` and `?:` leave an operand out that is not called for.
What a folded expression gives is what the expression gave, where that gave anything. It may give
more: `x * 0` is zero also where `x` has no value.
-/
namespace Arbor

/-- What names stand for, and what shifts give. -/
structure Meaning where
  read : String → Int64
  shift : Operator → Int64 → Int64 → Option Int64

namespace Meaning

/-- The word for an exact result, if there is one. -/
def word? (n : Int) : Option Int64 :=
  if (Int64.ofInt n).toInt = n then some (Int64.ofInt n) else none

def truth (b : Bool) : Int64 := if b then 1 else 0

def unary? (op : Operator) (a : Int64) : Option Int64 :=
  match op with
  | .plus => some a
  | .neg => word? (-a.toInt)
  | .not => some (truth (a == 0))
  | .bitNot => some (~~~a)
  | _ => none

/-- An operation on two values. The remainder has none where the quotient has none. -/
def operation? (m : Meaning) (op : Operator) (a b : Int64) : Option Int64 :=
  match op with
  | .add => word? (a.toInt + b.toInt)
  | .sub => word? (a.toInt - b.toInt)
  | .mul => word? (a.toInt * b.toInt)
  | .div => if b = 0 then none else word? (a.toInt.tdiv b.toInt)
  | .mod => if b = 0 ∨ (a = Int64.minValue ∧ b = -1) then none else word? (a.toInt.tmod b.toInt)
  | .lt => some (truth (a < b))
  | .le => some (truth (a ≤ b))
  | .gt => some (truth (b < a))
  | .ge => some (truth (b ≤ a))
  | .eq => some (truth (a == b))
  | .ne => some (truth (a != b))
  | .bitAnd => some (a &&& b)
  | .bitOr => some (a ||| b)
  | .bitXor => some (a ^^^ b)
  | .shl | .shr => m.shift op a b
  | _ => none

def binary? (m : Meaning) (op : Operator) (l r : Option Int64) : Option Int64 :=
  match op with
  | .and => l.bind fun a => if a = 0 then some 0 else r.map fun b => truth (b != 0)
  | .or => l.bind fun a => if a = 0 then r.map fun b => truth (b != 0) else some 1
  | op => l.bind fun a => r.bind fun b => m.operation? op a b

end Meaning

namespace Term

/-- The value of an expression over signed words. -/
def value? (m : Meaning) : Term → Option Int64
  | .mk (.constant (.int v)) _ => some v
  | .mk (.symbol name none _) _ => some (m.read name)
  | .mk (.unary op _) [e] => (e.value? m).bind (Meaning.unary? op)
  | .mk (.binary _ op _) [l, r] => m.binary? op (l.value? m) (r.value? m)
  | .mk (.ternary _ _ _) [c, e, e'] =>
    (c.value? m).bind fun v => if v = 0 then e'.value? m else e.value? m
  | _ => none

end Term

namespace Meaning

theorem word?_eq_some {n : Int} {v : Int64} : word? n = some v ↔ v.toInt = n := by
  unfold word?
  constructor
  · intro h
    split at h
    · next hfits =>
      cases h
      exact hfits
    · cases h
  · rintro rfl
    simp

theorem some_eq_of_word? {n : Int} {v w : Int64} (h : word? n = some v) (hn : n = w.toInt) :
    some w = some v :=
  (word?_eq_some.mpr hn.symm).symm.trans h

theorem toInt_of_int64? {n : Int} {v : Int64} (h : Fold.int64? n = some v) : v.toInt = n := by
  unfold Fold.int64? at h
  split at h
  · next hfits =>
    cases h
    obtain ⟨hlow, hhigh⟩ := hfits
    rw [Int64.toInt_minValue] at hlow
    rw [Int64.toInt_maxValue] at hhigh
    exact Int64.toInt_ofInt_of_le hlow (by omega)
  · cases h

theorem operation?_comparison (m : Meaning) {op : Operator} (h : op.isComparison) (a b : Int64) :
    m.operation? op a b = some (truth (Fold.holds op (compare a.toInt b.toInt))) := by
  have hcompare : ∀ x y : Int, compare x y = if x < y then .lt else if x = y then .eq else .gt :=
    fun _ _ => rfl
  cases op <;> simp only [Operator.isComparison, Bool.false_eq_true] at h
  all_goals
    simp only [operation?, Fold.holds, hcompare, Int64.lt_iff_toInt_lt, Int64.le_iff_toInt_le,
      bne, beq_eq_decide, ← Int64.toInt_inj]
    congr 2
    split_ifs <;> simp <;> omega

theorem evaluate?_operation? (m : Meaning) {op : Operator} {a b v : Int64} {value : Value}
    (he : Fold.evaluate? (.int a) op (.int b) = some value)
    (hv : m.operation? op a b = some v) : value = .int v := by
  by_cases hcmp : op.isComparison
  · rw [operation?_comparison m hcmp] at hv
    simp only [Fold.evaluate?, hcmp, if_true, Fold.order?, Option.map_some,
      Option.some.injEq] at he hv
    rw [← he, ← hv]
    rfl
  · simp only [Fold.evaluate?, hcmp, Bool.false_eq_true, if_false, Option.map_eq_some_iff] at he
    obtain ⟨w, hw, rfl⟩ := he
    unfold Fold.signed? at hw
    split at hw
    · cases hw
    · obtain ⟨n, hn, hw⟩ := Option.bind_eq_some_iff.mp hw
      have hword := toInt_of_int64? hw
      have hvalue : v.toInt = n := by
        cases op <;> simp only [Fold.arithmetic?, reduceCtorEq] at hn
        case add | sub | mul =>
          cases hn
          exact word?_eq_some.mp hv
        all_goals
          split at hn
          · cases hn
          · cases hn
            simp only [operation?] at hv
            split at hv
            · cases hv
            · exact word?_eq_some.mp hv
      rw [Int64.toInt_inj.mp (hword.trans hvalue.symm)]

theorem binary?_eq_some {m : Meaning} {op : Operator} {l r : Option Int64} {v : Int64}
    (h : m.binary? op l r = some v) (hand : op ≠ .and) (hor : op ≠ .or) :
    ∃ a b, l = some a ∧ r = some b ∧ m.operation? op a b = some v := by
  unfold binary? at h
  split at h
  · exact absurd rfl hand
  · exact absurd rfl hor
  · obtain ⟨a, ha, h⟩ := Option.bind_eq_some_iff.mp h
    obtain ⟨b, hb, h⟩ := Option.bind_eq_some_iff.mp h
    exact ⟨a, b, ha, hb, h⟩

theorem binary?_mono (m : Meaning) {op : Operator} {l l' r r' : Option Int64} {v : Int64}
    (hl : ∀ a, l = some a → l' = some a) (hr : ∀ b, r = some b → r' = some b)
    (h : m.binary? op l r = some v) : m.binary? op l' r' = some v := by
  have hleft : ∃ a, l = some a := by
    unfold binary? at h
    split at h <;> obtain ⟨a, ha, -⟩ := Option.bind_eq_some_iff.mp h <;> exact ⟨a, ha⟩
  obtain ⟨a, rfl⟩ := hleft
  rw [hl a rfl]
  cases r with
  | some b => rwa [hr b rfl]
  | none =>
    -- a missing right operand has not been called for
    unfold binary? at h ⊢
    split at h
    · by_cases ha : a = 0 <;> simp_all
    · by_cases ha : a = 0 <;> simp_all
    · simp at h

end Meaning

namespace Term

open Meaning

variable {m : Meaning}

theorem value?_of_literal {e : Term} {u : Value} {a : Int64} (hl : e.literal? = some u)
    (ha : e.value? m = some a) : u = .int a := by
  unfold literal? at hl
  split at hl
  · cases hl
    cases u <;> simp only [value?, reduceCtorEq, Option.some.injEq] at ha
    rw [ha]
  · cases hl

theorem eq_zero_of_literal {e : Term} {u : Value} {a : Int64} (hl : e.literal? = some u)
    (hu : u.isZero) (ha : e.value? m = some a) : a = 0 := by
  obtain rfl := value?_of_literal hl ha
  simpa [Value.isZero, Value.toInt64?] using hu

theorem eq_one_of_literal {e : Term} {u : Value} {a : Int64} (hl : e.literal? = some u)
    (hu : u.isOne) (ha : e.value? m = some a) : a = 1 := by
  obtain rfl := value?_of_literal hl ha
  simpa [Value.isOne, Value.toInt64?] using hu

theorem value?_combine {l r : Term} {op : Operator} {v : Int64}
    (h : m.binary? op (l.value? m) (r.value? m) = some v) :
    (l.combine op r).value? m = some v := by
  have hrule := combines l op r
  generalize l.combine op r = e at hrule
  cases hrule with
  | kept => exact h
  | @literals _ _ u w value hl hr he =>
    have heager : op ≠ .and ∧ op ≠ .or := by
      constructor <;> rintro rfl <;>
        simpa [Operator.isComparison] using Fold.operator_of_evaluate? he
    obtain ⟨a, b, ha, hb, hv⟩ := binary?_eq_some h heager.1 heager.2
    obtain rfl := value?_of_literal hl ha
    obtain rfl := value?_of_literal hr hb
    rw [evaluate?_operation? m he hv]
    rfl
  | zeroAdd hl hu hr =>
    obtain ⟨a, b, ha, hb, hv⟩ := binary?_eq_some h nofun nofun
    obtain rfl := eq_zero_of_literal hl hu ha
    exact hb.trans (some_eq_of_word? hv (by simp))
  | addZero hl hr hw =>
    obtain ⟨a, b, ha, hb, hv⟩ := binary?_eq_some h nofun nofun
    obtain rfl := eq_zero_of_literal hr hw hb
    exact ha.trans (some_eq_of_word? hv (by simp))
  | subZero hl hr hw =>
    obtain ⟨a, b, ha, hb, hv⟩ := binary?_eq_some h nofun nofun
    obtain rfl := eq_zero_of_literal hr hw hb
    exact ha.trans (some_eq_of_word? hv (by simp))
  | zeroSub hl hu hr =>
    obtain ⟨a, b, ha, hb, hv⟩ := binary?_eq_some h nofun nofun
    obtain rfl := eq_zero_of_literal hl hu ha
    rw [negated, value?, hb]
    simpa [operation?, unary?] using hv
  | oneMul hl hu hr =>
    obtain ⟨a, b, ha, hb, hv⟩ := binary?_eq_some h nofun nofun
    obtain rfl := eq_one_of_literal hl hu ha
    exact hb.trans (some_eq_of_word? hv (by simp))
  | mulOne hl hr hw =>
    obtain ⟨a, b, ha, hb, hv⟩ := binary?_eq_some h nofun nofun
    obtain rfl := eq_one_of_literal hr hw hb
    exact ha.trans (some_eq_of_word? hv (by simp))
  | zeroMul hl hu hr =>
    obtain ⟨a, b, ha, hb, hv⟩ := binary?_eq_some h nofun nofun
    obtain rfl := eq_zero_of_literal hl hu ha
    exact ha.trans (some_eq_of_word? hv (by simp))
  | mulZero hl hr hw =>
    obtain ⟨a, b, ha, hb, hv⟩ := binary?_eq_some h nofun nofun
    obtain rfl := eq_zero_of_literal hr hw hb
    exact hb.trans (some_eq_of_word? hv (by simp))

theorem value?_folded (e : Term) : ∀ v, e.value? m = some v → e.folded.value? m = some v := by
  induction e using Term.induct with
  | h node es ih =>
    intro v h
    rw [folded_mk]
    rw [value?.eq_def] at h
    split at h
    · next he =>
      cases he
      exact h
    · next he =>
      cases he
      exact h
    · next op arg e he =>
      cases he
      obtain ⟨a, ha, hv⟩ := Option.bind_eq_some_iff.mp h
      simpa [rebuild, value?, ih e (by simp) a ha] using hv
    · next left op right l r he =>
      cases he
      refine value?_combine (binary?_mono m (fun a ha => ?_) (fun b hb => ?_) h)
      · exact ih l (by simp) a ha
      · exact ih r (by simp) b hb
    · next c e e' he =>
      cases he
      obtain ⟨a, ha, hv⟩ := Option.bind_eq_some_iff.mp h
      simp only [rebuild, List.map_cons, List.map_nil, value?, ih c (by simp) a ha,
        Option.bind_some]
      split at hv
      · next hz => rw [if_pos hz, ih e' (by simp) v hv]
      · next hz => rw [if_neg hz, ih e (by simp) v hv]
    · cases h

end Term

namespace Tree

def value? (t : Tree) (m : Meaning) (id : NodeId) : Option Int64 :=
  (t.term? id).bind (Term.value? m)

/-- Folding an accepted expression that nobody holds goes through, and what it gives has the value
that the expression had. -/
theorem fold_keeps_value {t : Tree} {root : NodeId} (m : Meaning) {v : Int64}
    (hv : t.validate root = .ok ()) (hp : t.parent? root = none)
    (he : t.value? m root = some v) :
    ∃ r t', Fold.fold root t = .ok r t' ∧ t'.term? r = (t.term? root).map Term.folded ∧
      t'.value? m r = some v := by
  obtain ⟨e, hs, r, t', ids, hrun, hstands, -⟩ :=
    Fold.fold_settles (wellFormed_of_validate hv).region hp .refl
  rw [value?, hs.term?_eq, Option.bind_some] at he
  refine ⟨r, t', hrun, ?_, ?_⟩
  · rw [hstands.term?_eq, hs.term?_eq, Option.map_some]
  · rw [value?, hstands.term?_eq, Option.bind_some]
    exact e.value?_folded v he

/-- `a ? (a + 0) * (-7 / 2) : 1 / 0`. -/
def lazyQuotient : Tree :=
  .ofNodes [.ternary 1 2 9, .symbol "a" none false, .binary 3 .mul 6, .binary 4 .add 5,
    .symbol "a" none false, .constant (.int 0), .binary 7 .div 8, .constant (.int (-7)),
    .constant (.int 2), .binary 10 .div 11, .constant (.int 1), .constant (.int 0)] 0

/-- The quotient by zero is not called for, and the other one is cut off towards zero. -/
theorem lazyQuotient_keeps_value :
    lazyQuotient.validate 0 = .ok () ∧ lazyQuotient.parent? 0 = none ∧
    lazyQuotient.value? ⟨fun _ => 5, fun _ _ _ => none⟩ 0 = some (-15) ∧
    ∃ r t', Fold.fold 0 lazyQuotient = .ok r t' ∧
      t'.term? r = (lazyQuotient.term? 0).map Term.folded ∧
      t'.value? ⟨fun _ => 5, fun _ _ _ => none⟩ r = some (-15) := by
  have hv : lazyQuotient.validate 0 = .ok () := by decide +kernel
  have hp : lazyQuotient.parent? 0 = none := by decide +kernel
  have he : lazyQuotient.value? ⟨fun _ => 5, fun _ _ _ => none⟩ 0 = some (-15) := by decide +kernel
  exact ⟨hv, hp, he, fold_keeps_value _ hv hp he⟩

end Tree
end Arbor
