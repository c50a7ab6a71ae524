import Arbor.Proofs.SingleDeclaration

/-!
Which assignments a fill declares, and where they stand.

A fill that goes through declares the target of an assignment exactly if nothing ahead of it binds
the name. That the assignment is a statement plays no part: one that is an operand, an argument or
a condition is declared all the same, and is then written as a declaration inside an expression.
So a fill declares in statements only where every other assignment has its name bound ahead.
-/
namespace Arbor

/-- The children that C reads as statements. -/
def Node.statements : Node → List NodeId
  | .file _ body | .block body => body
  | .function _ _ _ defn _ _ => defn.toList
  | .forLoop init _ _ body => init.toList ++ [body]
  | node => node.bodies

theorem Node.statements_subset (node : Node) : node.statements ⊆ node.children := by
  intro a ha
  cases node <;> simp_all [statements, bodies, children, slots, Slot.ids]
  case forLoop => tauto

def Tree.IsStatement (t : Tree) (root a : NodeId) : Prop :=
  ∃ p holder, t.Reach root p ∧ t.get? p = some holder ∧ a ∈ holder.statements

theorem Tree.IsStatement.reach {t : Tree} {root a : NodeId} (h : t.IsStatement root a) :
    t.Reach root a := by
  obtain ⟨p, holder, hp, hn, ha⟩ := h
  exact hp.child hn (holder.statements_subset ha)

namespace Filling

variable {registry : TypeRegistry} {t : Tree} {root : NodeId} {s : Filling}

/-- Nothing that comes before the assignment, in a scope open there, binds the name. -/
def Unclaimed (t : Tree) (root : NodeId) (name : String) (b : NodeId) : Prop :=
  ∀ x, t.Ahead root x b → ¬ t.Binds name x

theorem declared_iff (hroot : t.WellLinked root) (h : Ends (fill registry root) (.start t) true s)
    {b u right : NodeId} {name : String} {isConst : Bool} (hseen : t.Seen root b)
    (hb : t.get? b = some (.binary u .assign right))
    (hu : t.get? u = some (.symbol name none isConst)) :
    Declared (.start t) s u name ↔ Unclaimed t root name b := by
  have hvisit : Awaited registry t root (t.size + 1) root (.start t) true s := ⟨.start hroot, h⟩
  constructor
  · exact fun hd x hahead hx => hvisit.not_declared hroot hahead hb hx hd
  · intro hfree
    rcases hvisit.advances.symbol (show (start t).tree.get? u = _ from hu) with hlast | hd
    · -- in a new filler nothing is bound
      rcases hvisit.bound_or_ahead hroot hseen hb hlast with hbound | ⟨x, hx, hahead⟩
      · simp [start, Scopes.isBound, Scopes.lookup?, Scopes.all, Scopes.empty] at hbound
      · exact absurd hx (hfree x hahead)
    · exact hd

/-- A new filler that goes through declares exactly the targets of the assignments whose names are
unclaimed, wherever they stand. So it declares in statements only if every assignment elsewhere has
its name bound ahead of it. -/
theorem declares_in_statements_iff (hv : t.validate root = .ok ())
    (h : fill registry root (.start t) = .ok () s) :
    (∀ d name, Declared (.start t) s d name ↔ ∃ b right isConst, t.Seen root b ∧
      t.get? b = some (.binary d .assign right) ∧
      t.get? d = some (.symbol name none isConst) ∧ Unclaimed t root name b) ∧
    ((∀ d name, Declared (.start t) s d name → ∃ b right,
        t.get? b = some (.binary d .assign right) ∧ t.IsStatement root b) ↔
      ∀ b u right name isConst, t.Seen root b → t.get? b = some (.binary u .assign right) →
        t.get? u = some (.symbol name none isConst) → Unclaimed t root name b →
        t.IsStatement root b) := by
  have hroot := (Tree.wellFormed_of_validate hv).region
  have hends := ends_ok.mpr h
  refine ⟨fun d name => ⟨fun hd => ?_, ?_⟩, ?_, ?_⟩
  · obtain ⟨b, right, hseen, hb, -, -, -⟩ := hd.holder hroot hends
    obtain ⟨isConst, ty, hs, hs'⟩ := hd
    exact ⟨b, right, isConst, hseen, hb, hs,
      (declared_iff hroot hends hseen hb hs).mp ⟨isConst, ty, hs, hs'⟩⟩
  · rintro ⟨b, right, isConst, hseen, hb, hd, hfree⟩
    exact (declared_iff hroot hends hseen hb hd).mpr hfree
  · intro hall b u right name isConst hseen hb hu hfree
    have hd := (declared_iff hroot hends hseen hb hu).mpr hfree
    obtain ⟨b', right', hb', hstatement⟩ := hall u name hd
    rwa [hroot.holder_unique hseen.reach hstatement.reach hb hb']
  · intro hall d name hd
    obtain ⟨b, right, hseen, hb, -, -, -⟩ := hd.holder hroot hends
    obtain ⟨isConst, ty, hs, hs'⟩ := hd
    have hfree := (declared_iff hroot hends hseen hb hs).mp ⟨isConst, ty, hs, hs'⟩
    exact ⟨b, right, hb, hall b d right name isConst hseen hb hs hfree⟩

def chained : Tree :=
  ⟨#[⟨.block [1, 4], none⟩, ⟨.binary 2 .assign 3, some 0⟩, ⟨.symbol "x" none false, some 1⟩,
    ⟨.constant (.int 1), some 1⟩, ⟨.binary 5 .assign 6, some 0⟩, ⟨.symbol "y" none false, some 4⟩,
    ⟨.binary 7 .assign 8, some 4⟩, ⟨.symbol "x" none false, some 6⟩,
    ⟨.constant (.int 2), some 6⟩], 0⟩

theorem chained_declares_in_statements :
    chained.validate 0 = .ok () ∧
    ∃ s, fill .builtin 0 (.start chained) = .ok () s ∧
      Declared (.start chained) s 2 "x" ∧ Declared (.start chained) s 5 "y" ∧
      ¬ Declared (.start chained) s 7 "x" ∧ ¬ Unclaimed chained 0 "x" 6 := by
  have hv : chained.validate 0 = .ok () := by decide +kernel
  have hfill : ∃ s, fill .builtin 0 (.start chained) = .ok () s ∧
      Declared (.start chained) s 2 "x" ∧ Declared (.start chained) s 5 "y" ∧
      s.tree.get? 7 = some (.symbol "x" none false) :=
    ⟨_, by rfl, ⟨_, _, rfl, rfl⟩, ⟨_, _, rfl, rfl⟩, rfl⟩
  obtain ⟨s, hfill, hx, hy, hlast⟩ := hfill
  have hnot : ¬ Declared (.start chained) s 7 "x" := by
    rintro ⟨_, _, -, hs⟩
    cases hlast.symm.trans hs
  have hseen : chained.Seen 0 6 :=
    .tail (.single (b := 4) ⟨_, rfl, by decide⟩) ⟨_, rfl, by decide⟩
  refine ⟨hv, s, hfill, hx, hy, hnot, fun hfree => hnot ?_⟩
  exact ((declares_in_statements_iff hv hfill).1 7 "x").mpr ⟨6, 8, false, hseen, rfl, rfl, hfree⟩

def returned : Tree :=
  ⟨#[⟨.ret (some 1), none⟩, ⟨.binary 2 .assign 3, some 0⟩, ⟨.symbol "y" none false, some 1⟩,
    ⟨.constant (.int 1), some 1⟩], 0⟩

/-- A fill that goes through may declare inside an expression, which is no C. -/
theorem declaration_inside_return :
    returned.validate 0 = .ok () ∧
    ∃ s, fill .builtin 0 (.start returned) = .ok () s ∧ Declared (.start returned) s 2 "y" ∧
      (∀ b right, returned.get? b = some (.binary 2 .assign right) →
        ¬ returned.IsStatement 0 b) ∧
      Renderer.render ⟨s.tree, .builtin, .empty⟩ 0 = .ok "return long y = 1" := by
  have hv : returned.validate 0 = .ok () := by decide +kernel
  have hnone : ∀ e ∈ returned.entries.toList, e.node.statements = [] := by decide
  have hfill : ∃ s, fill .builtin 0 (.start returned) = .ok () s ∧
      Declared (.start returned) s 2 "y" ∧
      Renderer.render ⟨s.tree, .builtin, .empty⟩ 0 = .ok "return long y = 1" :=
    ⟨_, by rfl, ⟨_, _, rfl, rfl⟩, by rfl⟩
  obtain ⟨s, hfill, hd, htext⟩ := hfill
  refine ⟨hv, s, hfill, hd, ?_, htext⟩
  rintro b right - ⟨p, holder, -, hn, hb⟩
  obtain ⟨e, he, rfl⟩ := Tree.entry_of_get? hn
  rw [hnone e he] at hb
  cases hb

end Filling
end Arbor
