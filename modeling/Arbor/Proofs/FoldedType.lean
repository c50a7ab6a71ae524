import Arbor.Proofs.Folding
import Arbor.Typing.Infer

/-!
The static type of an expression before and after folding.

Folding does not know of types: `x + 0` gives way to `x`, also where the zero is what made the sum
a `long`; a comparison of two literals, which is an `int`, gives way to a literal, which is a
`long`. The type that is left is the one that typing finds when every operation that gives way
counts as what takes its place. So an operation may change its type and the whole keep its own, as
`p[i + 0]` does, which only asks for an integer there.
-/
namespace Arbor

def Value.literalType : Value → CType
  | .int _ => .scalar .long
  | .uint _ => .scalar .ulong
  | .float _ => .scalar .float
  | .double _ => .scalar .double
  | .char _ => .scalar .char
  | .bool _ => .scalar .long

/-- Folded, the two give a `double`; C has them as `float`. -/
def Value.mixesSingle : Value → Value → Bool
  | .int _, .float _ => true
  | .float _, .int _ => true
  | _, _ => false

namespace Typer

def outcomeType (y : Typer) (typeOf : NodeId → Result) (left : NodeId) (op : Operator)
    (right : NodeId) : Fold.Outcome → Result
  | .keep => binaryType typeOf left op right
  | .literal value => y.recognize value
  | .operand kept => typeOf kept
  | .negated kept => return unaryType? .neg (← typeOf kept)

/-- As `nodeType`, but an operation counts as what folding puts in its place, and a callee as the
name that it folds to. -/
def foldedNodeType (y : Typer) (typeOf : NodeId → Result) : Node → Result
  | .binary left op right =>
    y.outcomeType typeOf left op right (Fold.foldedOutcome y.tree left op right)
  | .call func _ none => return (Fold.foldedName? y.tree func).bind y.scopes.lookup?
  | node => y.nodeType typeOf node

def retypedTo (y : Typer) : (depth : Nat) → NodeId → Result
  | 0, id => .error (.tree (.endless id))
  | depth + 1, id => do
    let node ← y.node id
    y.foldedNodeType (y.retypedTo depth) node

def retyped (y : Typer) (id : NodeId) : Result := y.retypedTo (y.tree.size + 1) id

/-- What folding puts in the place of an operation has its type, and what it puts in the place of a
callee has its name. -/
def keepsTypeAt (y : Typer) (id : NodeId) : Bool :=
  match y.tree.get? id with
  | some (.binary left op right) =>
    match Fold.foldedOutcome y.tree left op right with
    | .keep => true
    | .literal value => y.recognize value = y.typeOf id
    | .operand kept => y.typeOf kept = y.typeOf id
    | .negated kept => y.typeOf kept = y.typeOf id
  | some (.call func _ none) =>
    Fold.foldedName? y.tree func = (y.tree.get? func).bind Node.symbolName?
  | _ => true

theorem recognize_literal (v : Value) :
    TypeRegistry.builtin.recognize (.constant v) = .ok v.literalType := by
  cases v <;> rfl

end Typer

namespace Term

def binaryType? (op : Operator) (l r : Option CType) : Option CType :=
  if op.isBoolean then some (.scalar .int)
  else
    match op with
    | .assign => l
    | .comma => r
    | .dot | .arrow => none
    | _ => l.bind fun a => r.bind fun b => Typer.operationType? op a b

def type? (s : Scopes) : Term → Option CType
  | .mk (.constant v) _ => some v.literalType
  | .mk (.string _) _ => some (.pointer (.scalar .char))
  | .mk (.symbol name ty _) _ => ty.or (s.lookup? name)
  | .mk (.cast ty _) _ => some ty
  | .mk (.call _ _ ty) (f :: _) => ty.or (f.name?.bind s.lookup?)
  | .mk (.unary op _) [e] => Typer.unaryType? op (e.type? s)
  | .mk (.binary _ op _) [l, r] => binaryType? op (l.type? s) (r.type? s)
  | .mk (.augAssign _ _ _) (target :: _) => target.type? s
  | .mk (.ternary _ _ _) [_, e, e'] => Typer.armsType? (e.type? s) (e'.type? s)
  | _ => none

end Term

namespace Typer

open Tree

variable {y : Typer} {depth : Nat} {id : NodeId} {holder : Option NodeId} {e : Term}
  {ids : List NodeId}

theorem binaryType_eq {typeOf : NodeId → Result} {left right : NodeId} {l r : Option CType}
    (hl : typeOf left = .ok l) (hr : typeOf right = .ok r) (op : Operator) :
    binaryType typeOf left op right = .ok (Term.binaryType? op l r) := by
  unfold binaryType Term.binaryType?
  by_cases hbool : op.isBoolean
  · simp only [hbool, if_true]
    rfl
  · simp only [hbool, Bool.false_eq_true, if_false]
    cases op <;> simp only [hl, hr] <;> cases l <;> cases r <;> rfl

theorem node_eq {node : Node} (h : y.tree.get? id = some node) : y.node id = .ok node := by
  rw [Typer.node, node_eq_ok.mpr h]

theorem nodeType_eq {typeOf : NodeId → Result} {node : Node} {es : List Term}
    (hr : y.registry = .builtin)
    (hes : List.Forall₂ (fun c (e : Term) => typeOf c = .ok (e.type? y.scopes)) node.children es)
    (hname : ∀ func args, node = .call func args none →
      y.calleeType? func = (es.head?.bind Term.name?).bind y.scopes.lookup?) :
    y.nodeType typeOf node = .ok ((Term.mk node.form es).type? y.scopes) := by
  cases node with
  | constant v =>
    simp only [nodeType, recognize, hr, recognize_literal]
    rfl
  | call func args ty =>
    cases hes with
    | cons _ _ =>
      cases ty with
      | some ty => rfl
      | none => exact congrArg Except.ok (hname func args rfl)
  | unary op arg =>
    cases hes with
    | cons harg hes =>
      cases hes
      simp only [nodeType, harg]
      rfl
  | binary left op right =>
    cases hes with
    | cons hleft hes =>
      cases hes with
      | cons hright hes =>
        cases hes
        exact binaryType_eq hleft hright op
  | augAssign target op value =>
    cases hes with
    | cons htarget _ => exact htarget.trans rfl
  | ternary cond thenValue elseValue =>
    cases hes with
    | cons _ hes =>
      cases hes with
      | cons hthen hes =>
        cases hes with
        | cons helse hes =>
          cases hes
          simp only [nodeType, hthen, helse]
          rfl
  | _ => rfl

theorem calleeType?_eq {func : NodeId} {args below : List NodeId} {es : List Term}
    (hb : Abreast (fun c => y.tree.Stands depth c (some id)) (func :: args) es below) :
    y.calleeType? func = (es.head?.bind Term.name?).bind y.scopes.lookup? := by
  cases hb with
  | cons hfunc _ => rw [calleeType?, hfunc.name?_eq, List.head?_cons, Option.bind_some]

theorem typeTo_eq (hr : y.registry = .builtin) (h : y.tree.Stands depth id holder e ids) :
    y.typeTo depth id = .ok (e.type? y.scopes) := by
  induction depth generalizing id holder e ids with
  | zero => exact h.elim
  | succ depth ih =>
    obtain ⟨node, es, below, hn, -, hb, rfl, -⟩ := h
    refine bind_eq_ok.mpr ⟨node, node_eq hn, nodeType_eq hr (hb.forall₂ fun _ _ _ _ => ih) ?_⟩
    rintro func args rfl
    exact calleeType?_eq hb

theorem typeOf_eq (hr : y.registry = .builtin) (h : y.tree.Stands depth id holder e ids) :
    y.typeOf id = .ok (e.type? y.scopes) :=
  typeTo_eq hr (h.of_within h.within.within_size.succ)

section Retyped

variable {root left right : NodeId} {op : Operator} {l r : Term} {idl idr : List NodeId}

theorem foldedOutcome_eq (hl : y.tree.WellLinked root) (hp : y.tree.parent? root = none)
    (hi : y.tree.Reach root id) (hn : y.tree.get? id = some (.binary left op right))
    (hleft : y.tree.Stands depth left (some id) l idl)
    (hright : y.tree.Stands depth right (some id) r idr) :
    Fold.foldedOutcome y.tree left op right =
      Fold.outcomeOf l.folded.literal? r.folded.literal? left op right := by
  have hreach : ∀ c ∈ [left, right], y.tree.Reach root c := fun c hc => hi.child hn hc
  rw [Fold.foldedOutcome, Fold.foldedLiteral?_eq hl hp (hreach left (by simp)) hleft,
    Fold.foldedLiteral?_eq hl hp (hreach right (by simp)) hright]

theorem outcomeType_eq {typeOf : NodeId → Result} (hr : y.registry = .builtin)
    (hne : left ≠ right) (htl : typeOf left = .ok (l.type? y.scopes))
    (htr : typeOf right = .ok (r.type? y.scopes)) :
    y.outcomeType typeOf left op right (Fold.outcomeOf l.literal? r.literal? left op right) =
      .ok ((l.combine op r).type? y.scopes) := by
  rw [← Fold.term_outcomeOf hne]
  cases hout : Fold.outcomeOf l.literal? r.literal? left op right with
  | keep => exact binaryType_eq htl htr op
  | literal value =>
    simp only [outcomeType, recognize, hr, recognize_literal]
    rfl
  | operand kept =>
    rw [outcomeType, Fold.Outcome.term]
    rcases Fold.outcomeOf_operand (Or.inl hout) with rfl | rfl
    · rw [if_pos rfl, htl]
    · rw [if_neg hne.symm, htr]
  | negated kept =>
    obtain rfl := Fold.outcomeOf_negated hout
    rw [outcomeType, htr]
    rfl

theorem retypedTo_eq (hr : y.registry = .builtin) (hl : y.tree.WellLinked root)
    (hp : y.tree.parent? root = none) (hi : y.tree.Reach root id)
    (h : y.tree.Stands depth id holder e ids) :
    y.retypedTo depth id = .ok (e.folded.type? y.scopes) := by
  induction depth generalizing id holder e ids with
  | zero => exact h.elim
  | succ depth ih =>
    obtain ⟨node, es, below, hn, -, hb, rfl, -⟩ := h
    have hes : List.Forall₂ (fun c (e : Term) => y.retypedTo depth c = .ok (e.type? y.scopes))
        node.children (es.map Term.folded) :=
      List.forall₂_map_right_iff.mpr (hb.forall₂ fun c _ _ hc hs => ih (hi.child hn hc) hs)
    refine bind_eq_ok.mpr ⟨node, node_eq hn, ?_⟩
    cases node with
    | binary left op right =>
      obtain ⟨l, r, idl, idr, rfl, hleft, hright⟩ := hb.pair
      obtain ⟨htl, hes⟩ := List.forall₂_cons.mp hes
      obtain ⟨htr, -⟩ := List.forall₂_cons.mp hes
      have hne : left ≠ right := by
        simpa [childrenOf_eq hn, Node.children, Node.slots, Slot.ids] using hl.children_nodup hi
      rw [foldedNodeType, foldedOutcome_eq hl hp hi hn hleft hright]
      exact outcomeType_eq hr hne htl htr
    | call func args ty =>
      cases hb with
      | cons hfunc _ =>
        cases ty with
        | some ty => rfl
        | none =>
          rw [foldedNodeType, Fold.foldedName?_eq hl hp (hi.child hn List.mem_cons_self) hfunc]
          rfl
    | _ =>
      rw [Term.folded_mk, Term.rebuild_form (by simp)]
      exact nodeType_eq hr hes (by simp)

theorem retyped_eq (hr : y.registry = .builtin) (hl : y.tree.WellLinked root)
    (hp : y.tree.parent? root = none) (hi : y.tree.Reach root id)
    (h : y.tree.Stands depth id holder e ids) :
    y.retyped id = .ok (e.folded.type? y.scopes) :=
  retypedTo_eq hr hl hp hi (h.of_within h.within.within_size.succ)

end Retyped

section Kept

variable {root left right : NodeId} {op : Operator} {l r : Term} {idl idr : List NodeId}

theorem outcomeType_of_keeps {typeOf : NodeId → Result} (hr : y.registry = .builtin)
    (hn : y.tree.get? id = some (.binary left op right)) (hk : y.keepsTypeAt id)
    (hid : y.typeOf id = .ok (Term.binaryType? op (l.type? y.scopes) (r.type? y.scopes)))
    (hleft : y.tree.Stands depth left (some id) l idl)
    (hright : y.tree.Stands depth right (some id) r idr)
    (htl : typeOf left = .ok (l.type? y.scopes)) (htr : typeOf right = .ok (r.type? y.scopes)) :
    y.outcomeType typeOf left op right (Fold.foldedOutcome y.tree left op right) =
      .ok (Term.binaryType? op (l.type? y.scopes) (r.type? y.scopes)) := by
  have hsame : ∀ kept, kept = left ∨ kept = right → typeOf kept = y.typeOf kept := by
    rintro kept (rfl | rfl)
    · rw [htl, typeOf_eq hr hleft]
    · rw [htr, typeOf_eq hr hright]
  simp only [keepsTypeAt, hn] at hk
  rw [← hid]
  cases hout : Fold.foldedOutcome y.tree left op right with
  | keep => exact (binaryType_eq htl htr op).trans hid.symm
  | literal value =>
    rw [outcomeType]
    simpa [hout] using hk
  | operand kept =>
    rw [outcomeType, hsame kept (Fold.outcomeOf_operand (Or.inl hout))]
    simpa [hout] using hk
  | negated kept =>
    have hkept : y.typeOf kept = y.typeOf id := by simpa [hout] using hk
    rw [outcomeType, hsame kept (Fold.outcomeOf_operand (Or.inr hout)), hkept, hid]
    rfl

theorem retypedTo_of_keeps (hr : y.registry = .builtin)
    (hk : ∀ x, y.tree.Reach id x → y.keepsTypeAt x) (h : y.tree.Stands depth id holder e ids) :
    y.retypedTo depth id = .ok (e.type? y.scopes) := by
  induction depth generalizing id holder e ids with
  | zero => exact h.elim
  | succ depth ih =>
    have hid := typeOf_eq hr h
    obtain ⟨node, es, below, hn, -, hb, rfl, -⟩ := h
    have hes : List.Forall₂ (fun c (e : Term) => y.retypedTo depth c = .ok (e.type? y.scopes))
        node.children es := by
      refine hb.forall₂ fun c _ _ hc hs => ih (fun x hx => hk x ?_) hs
      exact Relation.ReflTransGen.trans (Reach.child .refl hn hc) hx
    refine bind_eq_ok.mpr ⟨node, node_eq hn, ?_⟩
    cases node with
    | binary left op right =>
      obtain ⟨l, r, idl, idr, rfl, hleft, hright⟩ := hb.pair
      obtain ⟨htl, hes⟩ := List.forall₂_cons.mp hes
      obtain ⟨htr, -⟩ := List.forall₂_cons.mp hes
      exact outcomeType_of_keeps hr hn (hk id .refl) hid hleft hright htl htr
    | call func args ty =>
      cases ty with
      | some ty => exact nodeType_eq hr hes (by simp)
      | none =>
        have hname : Fold.foldedName? y.tree func = (y.tree.get? func).bind Node.symbolName? := by
          simpa [keepsTypeAt, hn] using hk id .refl
        cases hb with
        | cons hfunc _ =>
          rw [foldedNodeType, hname, hfunc.name?_eq]
          rfl
    | _ => exact nodeType_eq hr hes (by simp)

end Kept

theorem evaluate?_keeps_type_iff {u w value : Value} {op : Operator}
    (he : Fold.evaluate? u op w = some value) :
    Term.binaryType? op (some u.literalType) (some w.literalType) = some value.literalType ↔
      op.isComparison = false ∧ u.mixesSingle w = false := by
  rcases Fold.operator_of_evaluate? he with hc | hop
  · have hboolean : op.isBoolean := by
      cases op <;> simp_all [Operator.isComparison, Operator.isBoolean]
    unfold Fold.evaluate? at he
    rw [if_pos hc] at he
    obtain ⟨o, -, rfl⟩ := Option.map_eq_some_iff.mp he
    simp [Term.binaryType?, hboolean, hc, Value.literalType]
  · have hc : op.isComparison = false := by
      simp only [List.mem_cons, List.not_mem_nil, or_false] at hop
      rcases hop with rfl | rfl | rfl | rfl | rfl <;> rfl
    have hcommon : ∀ a b : Scalar, Term.binaryType? op (some (.scalar a)) (some (.scalar b)) =
        (CType.scalar a).common? (.scalar b) := by
      intro a b
      simp only [List.mem_cons, List.not_mem_nil, or_false] at hop
      rcases hop with rfl | rfl | rfl | rfl | rfl <;> rfl
    cases u <;> cases w <;>
      simp [Fold.evaluate?, hc, Value.isFloating, Fold.isSignedOrFloating] at he
    all_goals
      obtain ⟨_, _, rfl⟩ := he
      simp only [Value.literalType, hcommon, hc, Value.mixesSingle]
      decide

/-- The type of an accepted expression that nobody holds is, after folding, the one that typing
finds in it with every operation as what takes its place, and so it is kept if and only if that one
is the type of the expression. It is kept where each operation gives way, if at all, to something of
its own type, and two literals do so unless they are compared or mix an integer with a `float`. -/
theorem fold_types_by_outcome {root : NodeId} (hr : y.registry = .builtin)
    (hv : y.tree.validate root = .ok ()) (hp : y.tree.parent? root = none) :
    ∃ r t' before after, Fold.fold root y.tree = .ok r t' ∧ y.typeOf root = .ok before ∧
      ({ y with tree := t' } : Typer).typeOf r = .ok after ∧ y.retyped root = .ok after ∧
      (after = before ↔ y.retyped root = y.typeOf root) ∧
      ((∀ id, y.tree.Reach root id → y.keepsTypeAt id) → after = before) ∧
      ∀ u op w value, Fold.evaluate? u op w = some value →
        (Term.binaryType? op (some u.literalType) (some w.literalType) = some value.literalType ↔
          op.isComparison = false ∧ u.mixesSingle w = false) := by
  have hl := (wellFormed_of_validate hv).region
  obtain ⟨e, hs, r, t', ids, hrun, hstands, -⟩ := Fold.fold_settles hl hp .refl
  have hbefore := typeOf_eq hr hs
  have hafter := retyped_eq hr hl hp .refl hs
  refine ⟨r, t', e.type? y.scopes, e.folded.type? y.scopes, hrun, hbefore, ?_, hafter, ?_, ?_,
    fun u op w value => evaluate?_keeps_type_iff⟩
  · exact @typeOf_eq { y with tree := t' } _ _ _ _ _ hr hstands
  · rw [hafter, hbefore, Except.ok.injEq]
  · intro hk
    have hkept := retypedTo_of_keeps hr hk (hs.of_within hs.within.within_size.succ)
    exact Except.ok.inj (hafter.symm.trans hkept)

/-- `p[i + 0] * (k * 1)` with `p` a `double *`, `i` and `k` of type `int`. -/
def indexed : Typer where
  tree := .ofNodes [.binary 1 .mul 6, .binary 2 .index 3, .symbol "p" none false,
    .binary 4 .add 5, .symbol "i" none false, .constant (.int 0), .binary 7 .mul 8,
    .symbol "k" none false, .constant (.int 1)] 0
  registry := .builtin
  scopes := ⟨[], [("p", .pointer (.scalar .double)), ("i", .scalar .int), ("k", .scalar .int)]⟩

/-- The index and the factor go from `long` to `int`, and the product stays a `double`. -/
theorem indexed_stays_double :
    indexed.tree.validate 0 = .ok () ∧ indexed.tree.parent? 0 = none ∧
    indexed.typeOf 3 = .ok (some (.scalar .long)) ∧ indexed.retyped 3 = .ok (some (.scalar .int)) ∧
    indexed.typeOf 6 = .ok (some (.scalar .long)) ∧ indexed.retyped 6 = .ok (some (.scalar .int)) ∧
    ∃ r t', Fold.fold 0 indexed.tree = .ok r t' ∧
      indexed.typeOf 0 = .ok (some (.scalar .double)) ∧
      ({ indexed with tree := t' } : Typer).typeOf r = .ok (some (.scalar .double)) := by
  have hv : indexed.tree.validate 0 = .ok () := by decide +kernel
  have hp : indexed.tree.parent? 0 = none := by decide +kernel
  have hbefore : indexed.typeOf 0 = .ok (some (.scalar .double)) := by decide +kernel
  have hretyped : indexed.retyped 0 = .ok (some (.scalar .double)) := by decide +kernel
  obtain ⟨r, t', before, after, hrun, -, hafter, hfolded, -⟩ := fold_types_by_outcome rfl hv hp
  obtain rfl := Except.ok.inj (hretyped.symm.trans hfolded)
  exact ⟨hv, hp, by decide +kernel, by decide +kernel, by decide +kernel, by decide +kernel, r, t',
    hrun, hbefore, hafter⟩

/-- `-(x + 0)` with `x` an `int`. -/
def widened : Typer where
  tree := .ofNodes [.unary .neg 1, .binary 2 .add 3, .symbol "x" none false, .constant (.int 0)] 0
  registry := .builtin
  scopes := ⟨[], [("x", .scalar .int)]⟩

def widenedFolded : Tree :=
  ⟨#[⟨.unary .neg 2, none⟩, ⟨.binary 2 .add 3, none⟩, ⟨.symbol "x" none false, some 0⟩,
    ⟨.constant (.int 0), some 1⟩], 0⟩

/-- The literal makes the sum a `long`, and what is left of it without the literal is an `int`. -/
theorem sum_with_zero_narrows :
    widened.tree.validate 0 = .ok () ∧ widened.tree.parent? 0 = none ∧
    Fold.fold 0 widened.tree = .ok 0 widenedFolded ∧
    widened.typeOf 0 = .ok (some (.scalar .long)) ∧
    ({ widened with tree := widenedFolded } : Typer).typeOf 0 = .ok (some (.scalar .int)) := by
  refine ⟨by decide +kernel, by decide +kernel, ?_, by decide +kernel, by decide +kernel⟩
  with_unfolding_all rfl

end Typer
end Arbor
