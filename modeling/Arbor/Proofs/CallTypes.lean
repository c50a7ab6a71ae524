import Arbor.Proofs.ClosingState
import Arbor.Render.Source

/-!
The type of a call by name.

One table of bindings holds functions, by the type that they return, and variables, by their own
type. A call takes what its name is bound to, whichever of the two it is: where a variable is bound
to a function type, the call has that type and not the type of its result, and a local that is
assigned from it is declared as another function.
-/
namespace Arbor

theorem CType.function_ne_result (result : CType) (params : List CType) :
    CType.function result params ≠ result := by
  intro h
  have hsize := congrArg sizeOf h
  simp at hsize
  omega

namespace Typer

variable {y : Typer} {x func : NodeId} {args : List NodeId} {ty : Option CType}

theorem typeOf_call (hx : y.tree.get? x = some (.call func args ty)) :
    y.typeOf x = .ok (ty.or (y.calleeType? func)) := by
  have hnode : y.node x = .ok (.call func args ty) := by
    rw [Typer.node, Tree.node_eq_ok.mpr hx]
  exact bind_eq_ok.mpr ⟨_, hnode, rfl⟩

theorem calleeType?_bound {name : String} {bound : CType} (hf : y.tree.Names func name)
    (hb : y.scopes.lookup? name = some bound) : y.calleeType? func = some bound := by
  rw [calleeType?, hf]
  exact hb

end Typer

namespace Filling

variable {registry : TypeRegistry} {root x func left right : NodeId} {args : List NodeId}
  {name v : String} {isConst : Bool} {bound ty : CType} {s mid s' : Filling} {done : Bool}

theorem callType_bound (hf : s.tree.Names func name) (hb : s.scopes.lookup? name = some bound) :
    callType registry func args s = .ok (some bound) s := by
  obtain ⟨ty, isConst, hn⟩ := (Tree.SameShape.refl _).names hf
  simp only [callType, bind, EStateM.bind, node_ok hn, Node.symbolName?, FillM.lookup?, hb]
  rfl

theorem closing_call_bound (hx : s.tree.get? x = some (.call func args none))
    (hf : s.tree.Names func name) (hb : s.scopes.lookup? name = some bound) :
    closing registry x (.call func args none) s =
      .ok () { s with tree := s.tree.setNode x (.call func args (some bound)) } := by
  have ht : s.tree.setType x bound = .ok (s.tree.setNode x (.call func args (some bound))) :=
    bind_eq_ok.mpr ⟨_, Tree.node_eq_ok.mpr hx, rfl⟩
  simp only [closing, bind, EStateM.bind, callType_bound hf hb, FillM.annotate, ht]

theorem closing_assignment (hl : s.tree.get? left = some (.symbol v none isConst))
    (hfree : ¬ s.scopes.isBound v) (hbase : (untemporary? v).bind s.scopes.lookup? = none)
    (hty : Typer.typeOf ⟨s.tree, registry, s.scopes⟩ right = .ok (some ty)) :
    closing registry x (.binary left .assign right) s =
      .ok () ⟨s.tree.setNode left (.symbol v (some ty) isConst), (s.scopes.bind v ty).1⟩ := by
  have ht : s.tree.setType left ty = .ok (s.tree.setNode left (.symbol v (some ty) isConst)) :=
    bind_eq_ok.mpr ⟨_, Tree.node_eq_ok.mpr hl, rfl⟩
  have hlocal : localType registry v right s = .ok (some ty) s := by
    simp only [localType, hbase, FillM.typeOf, hty]
  simp only [closing, declareTarget, bind, EStateM.bind, node_ok hl, FillM.lookup?,
    Scopes.lookup?_eq_none.mpr hfree, hlocal, FillM.annotate, ht, FillM.bind]

/-- Typing a call binds nothing, so that its name is bound afterwards to what it was before. -/
theorem Awaited.call_typed {t : Tree} {depth : Nat} (h : Awaited registry t root depth x s true mid)
    (hx : t.get? x = some (.call func args none)) (hf : t.Names func name)
    (hb : mid.scopes.lookup? name = some bound) :
    mid.tree.get? x = some (.call func args (some bound)) := by
  obtain ⟨ha, h⟩ := h
  cases depth with
  | zero => exact (ha.within x (List.mem_singleton_self x)).elim
  | succ depth =>
    have hx' := ha.get?_eq.trans hx
    have hw := ha.within x (List.mem_singleton_self x)
    cases ends_visitTo.mp h with
    | function hn => cases hx'.symm.trans hn
    | @close node s₁ _ _ hn _ he hclose =>
      cases hx'.symm.trans hn
      have hadv := he.advances ha.shape (visits_advance registry ha.shape hw hn)
      have hkept := hadv.get?_visited ha.shape hw hn
      have hf' := (ha.shape.trans hadv.sameShape).keepsName hf
      cases closes_of_ends hclose with
      | types hty ht =>
        cases hty.symm.trans (callType_bound hf' hb)
        rw [Tree.setType_call_eq hkept ht]
        exact Tree.get?_setNode_same _ hkept
      | untyped hty => cases hty.symm.trans (callType_bound hf' hb)
      | nothing hclosed => cases hclosed

section Fills

variable (hv : s.tree.validate root = .ok ())

include hv

theorem call_annotated (hx : s.tree.get? x = some (.call func args none))
    (hf : s.tree.Names func name) (hmid : ClosedIn registry root s x mid)
    (hb : mid.scopes.lookup? name = some bound) (h : Ends (fill registry root) s done s') :
    s'.tree.get? x = some (.call func args (some bound)) := by
  have hroot := (Tree.wellFormed_of_validate hv).region
  have ha : Awaits s.tree root _ s.tree [root] := .start hroot
  obtain ⟨done', s₁, hclose, hkeeps⟩ := hmid.run hroot ha hx h
  have hx' := hmid.get?_eq hroot ha hx
  have hf' := (hmid.shape hroot ha).keepsName hf
  rw [Ends, closing_call_bound hx' hf' hb] at hclose
  obtain ⟨-, rfl⟩ := hclose
  exact hkeeps x _ (Tree.get?_setNode_same _ hx') rfl

theorem assigned_from_call {b : NodeId} (hx : s.tree.get? x = some (.call func args none))
    (hf : s.tree.Names func name) (hbx : s.tree.get? b = some (.binary left .assign x))
    (hl : s.tree.get? left = some (.symbol v none isConst)) (hmid : ClosedIn registry root s b mid)
    (hb : mid.scopes.lookup? name = some bound) (hfree : ¬ mid.scopes.isBound v)
    (hbase : (untemporary? v).bind mid.scopes.lookup? = none)
    (h : Ends (fill registry root) s done s') :
    s'.tree.get? left = some (.symbol v (some bound) isConst) := by
  have hroot := (Tree.wellFormed_of_validate hv).region
  have ha : Awaits s.tree root _ s.tree [root] := .start hroot
  have hl' := hmid.target hroot ha hbx hl
  obtain ⟨node, depth, s₀, hb', -, -, heach⟩ := hmid.own hroot ha
  cases hbx.symm.trans hb'
  have hcall : mid.tree.get? x = some (.call func args (some bound)) := by
    cases heach with
    | cons _ hrest =>
      cases hrest with
      | cons hvisit hnil =>
        cases hnil
        exact hvisit.call_typed hx hf hb
  obtain ⟨done', s₁, hclose, hkeeps⟩ := hmid.run hroot ha hbx h
  have hty : Typer.typeOf ⟨mid.tree, registry, mid.scopes⟩ x = .ok (some bound) := by
    rw [Typer.typeOf_call hcall]
    rfl
  rw [Ends, closing_assignment hl' hfree hbase hty] at hclose
  obtain ⟨-, rfl⟩ := hclose
  exact hkeeps left _ (Tree.get?_setNode_same _ hl') rfl

end Fills

/-- A call without a type, by a name that is bound, has the type that the name is bound to. A fill
annotates it with the binding of the moment in which the call is closed, and declares with it a
local that is assigned from the call. Where that is a function type, it is not the type of the
result. -/
theorem call_takes_type_of_name (name : String) (bound : CType) :
    (∀ (y : Typer) x func args, y.tree.get? x = some (.call func args none) →
      y.tree.Names func name → y.scopes.lookup? name = some bound →
      y.typeOf x = .ok (some bound)) ∧
    (∀ registry root (s : Filling) x func args, s.tree.validate root = .ok () →
      s.tree.get? x = some (.call func args none) → s.tree.Names func name →
      (∀ s', fill registry root s = .ok () s' → s.tree.Seen root x →
        ∃ mid, ClosedIn registry root s x mid ∧
          ∀ mid', ClosedIn registry root s x mid' → mid' = mid) ∧
      (∀ mid, ClosedIn registry root s x mid → mid.scopes.lookup? name = some bound →
        ∀ done s', Ends (fill registry root) s done s' →
          s'.tree.get? x = some (.call func args (some bound))) ∧
      ∀ b left v isConst mid, s.tree.get? b = some (.binary left .assign x) →
        s.tree.get? left = some (.symbol v none isConst) → ClosedIn registry root s b mid →
        mid.scopes.lookup? name = some bound → ¬ mid.scopes.isBound v →
        (untemporary? v).bind mid.scopes.lookup? = none →
        ∀ done s', Ends (fill registry root) s done s' →
          s'.tree.get? left = some (.symbol v (some bound) isConst)) ∧
    ∀ result params, bound = .function result params → bound ≠ result := by
  refine ⟨fun y x func args hx hf hb => ?_, fun registry root s x func args hv hx hf =>
    ⟨fun s' h hseen => ?_, fun mid hmid hb done s' h => ?_,
      fun b left v isConst mid hbx hl hmid hb hfree hbase done s' h => ?_⟩, ?_⟩
  · rw [Typer.typeOf_call hx, Typer.calleeType?_bound hf hb]
    rfl
  · exact closedIn_exists hv h hseen hx rfl
  · exact call_annotated hv hx hf hmid hb h
  · exact assigned_from_call hv hx hf hbx hl hmid hb hfree hbase h
  · rintro result params rfl
    exact CType.function_ne_result result params

/-- `void g(int (*f)(long)) { y = f(1); }` -/
def callback : Tree :=
  ⟨#[⟨.function (.scalar .void) "g" [1] (some 2) false false, none⟩,
    ⟨.symbol "f" (some (.function (.scalar .int) [.scalar .long])) false, some 0⟩,
    ⟨.block [3], some 0⟩, ⟨.binary 4 .assign 5, some 2⟩, ⟨.symbol "y" none false, some 3⟩,
    ⟨.call 6 [7] none, some 3⟩, ⟨.symbol "f" none false, some 5⟩,
    ⟨.constant (.int 1), some 5⟩], 0⟩

theorem callback_takes_type_of_parameter :
    callback.validate 0 = .ok () ∧ callback.Names 6 "f" ∧
    ∃ mid, ClosedIn .builtin 0 (.start callback) 5 mid ∧
      mid.scopes.lookup? "f" = some (.function (.scalar .int) [.scalar .long]) ∧
      ∀ done s', Ends (fill .builtin 0) (.start callback) done s' →
        s'.tree.get? 5 = some (.call 6 [7] (some (.function (.scalar .int) [.scalar .long]))) := by
  have hv : callback.validate 0 = .ok () := by decide +kernel
  have hclosed : ∃ mid, ClosedIn .builtin 0 (.start callback) 5 mid ∧
      mid.scopes.lookup? "f" = some (.function (.scalar .int) [.scalar .long]) :=
    ⟨_, .inside (by rfl) (show _ = [1] ++ 2 :: [] from rfl) (by rfl)
      (.inside (by rfl) (show _ = [] ++ 3 :: [] from rfl) (by rfl)
        (.inside (by rfl) (show _ = [4] ++ 5 :: [] from rfl) (by rfl)
          (.here (by rfl) (by rfl) (by rfl)))), by rfl⟩
  obtain ⟨mid, hmid, hb⟩ := hclosed
  obtain ⟨-, hfill, -⟩ :=
    call_takes_type_of_name "f" (.function (.scalar .int) [.scalar .long])
  obtain ⟨-, hcall, -⟩ := hfill .builtin 0 (.start callback) 5 6 [7] hv rfl rfl
  exact ⟨hv, rfl, mid, hmid, hb, fun done s' h => hcall mid hmid hb done s' h⟩

/-- A call through the parameter is an `int`; it is typed as the parameter, and the local becomes
another function. -/
theorem callback_not_typed_by_result :
    callback.validate 0 = .ok () ∧
    Typer.typeOf ⟨callback, .builtin, ⟨[], [("f", .function (.scalar .int) [.scalar .long])]⟩⟩ 5 =
      .ok (some (.function (.scalar .int) [.scalar .long])) ∧
    ∃ s, fill .builtin 0 (.start callback) = .ok () s ∧
      s.tree.get? 5 = some (.call 6 [7] (some (.function (.scalar .int) [.scalar .long]))) ∧
      s.tree.get? 4 =
        some (.symbol "y" (some (.function (.scalar .int) [.scalar .long])) false) ∧
      Renderer.render ⟨s.tree, .builtin, .empty⟩ 0 =
        .ok "void g(int (*f)(long)) \x7b\n    int (*y)(long) = f(1);\n\x7d" := by
  have hv : callback.validate 0 = .ok () := by decide +kernel
  exact ⟨hv, by rfl, _, by rfl, by rfl, by rfl, by decide +kernel⟩

end Filling
end Arbor
