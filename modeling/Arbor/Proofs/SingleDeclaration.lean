import Arbor.Proofs.Binding
import Arbor.Proofs.Term

/-!
A name is declared once in a function.

Of two nodes of one function, one is ahead of the other. So the first assignment to a name is the
only one that a fill can declare, and it does not declare it either where a parameter around it or
a declaration before it has the name. This is so also for a fill that is broken off.
-/
namespace Arbor

namespace Tree

/-- The innermost function of the region around a node. -/
structure NearestFunction (t : Tree) (root f x : NodeId) : Prop where
  inside : t.Reach root f
  function : t.Is f Node.isFunction
  around : Relation.TransGen t.Child f x
  nearest : ∀ g, t.Reach root g → t.Is g Node.isFunction → Relation.TransGen t.Child g x →
    t.Reach g f

/-- Both have the same nearest function around them, or none. -/
def SameFunction (t : Tree) (root x y : NodeId) : Prop :=
  ∀ f, t.NearestFunction root f x ↔ t.NearestFunction root f y

variable {t : Tree} {root : NodeId}

theorem SameFunction.symm {x y : NodeId} (h : t.SameFunction root x y) : t.SameFunction root y x :=
  fun f => (h f).symm

theorem SameFunction.trans {x y z : NodeId} (h : t.SameFunction root x y)
    (k : t.SameFunction root y z) : t.SameFunction root x z :=
  fun f => (h f).trans (k f)

section Nearest

variable (hroot : t.WellLinked root) {p x y g : NodeId}
include hroot

theorem WellLinked.around_child (hp : t.Reach root p) (hx : t.Child p x) (hg : t.Reach root g)
    (h : Relation.TransGen t.Child g x) : t.Reach g p := by
  obtain ⟨q, hq, hc⟩ := Relation.TransGen.tail'_iff.mp h
  have hlink := hroot.linked q x (hg.trans hq) hc
  rwa [Option.some.inj (hlink.symm.trans (hroot.linked p x hp hx))] at hq

theorem WellLinked.function_around_child (hp : t.Reach root p) (hx : t.Child p x)
    (hf : ¬ t.Is p Node.isFunction) (hg : t.Reach root g) (hfun : t.Is g Node.isFunction) :
    Relation.TransGen t.Child g x ↔ Relation.TransGen t.Child g p := by
  constructor
  · intro h
    have hreach := hroot.around_child hp hx hg h
    rcases Relation.reflTransGen_iff_eq_or_transGen.mp hreach with rfl | h
    · exact absurd hfun hf
    · exact h
  · exact fun h => h.tail hx

theorem sameFunction_child (hp : t.Reach root p) (hx : t.Child p x)
    (hf : ¬ t.Is p Node.isFunction) : t.SameFunction root x p := by
  have around := fun {g} => hroot.function_around_child (g := g) hp hx hf
  intro f
  constructor
  · exact fun h => ⟨h.inside, h.function, (around h.inside h.function).mp h.around,
      fun g hg hfun hgp => h.nearest g hg hfun ((around hg hfun).mpr hgp)⟩
  · exact fun h => ⟨h.inside, h.function, (around h.inside h.function).mpr h.around,
      fun g hg hfun hgx => h.nearest g hg hfun ((around hg hfun).mp hgx)⟩

theorem exists_nearestFunction (hx : t.Reach root x) (hg : t.Reach root g)
    (hfun : t.Is g Node.isFunction) (h : Relation.TransGen t.Child g x) :
    ∃ f, t.NearestFunction root f x := by
  induction hx with
  | refl => exact absurd (h.trans_right hg) (hroot.acyclic .refl)
  | @tail p x hp hx ih =>
    by_cases hf : t.Is p Node.isFunction
    · exact ⟨p, hp, hf, .single hx, fun g hg _ h => hroot.around_child hp hx hg h⟩
    · obtain ⟨f, hnear⟩ := ih ((hroot.function_around_child hp hx hf hg hfun).mp h)
      exact ⟨f, (sameFunction_child hroot hp hx hf f).mpr hnear⟩

theorem SameFunction.around (h : t.SameFunction root x y) (hx : t.Reach root x)
    (hg : t.Reach root g) (hfun : t.Is g Node.isFunction) (hgx : Relation.TransGen t.Child g x) :
    Relation.TransGen t.Child g y := by
  obtain ⟨f, hnear⟩ := exists_nearestFunction hroot hx hg hfun hgx
  exact ((h f).mp hnear).around.trans_right (hnear.nearest g hg hfun hgx)

theorem SameFunction.locally {c : NodeId} (h : t.SameFunction root x y) (hc : t.Reach root c)
    (hout : ∀ g, t.Reach c g → ¬ Relation.TransGen t.Child g y) (hseen : t.Seen c x) :
    t.Locally c x := by
  induction hseen using Relation.ReflTransGen.head_induction_on with
  | refl => exact .refl
  | @head c c' hstep hrest ih =>
    obtain ⟨node, hn, hm⟩ := hstep
    have hchild := child_of_visited hn hm
    have hreach : t.Reach c' x := Seen.reach hrest
    have hf : node.isFunction = false := by
      by_contra hfun
      rw [Bool.not_eq_false] at hfun
      exact hout c .refl (h.around hroot ((hc.tail hchild).trans hreach) hc ⟨node, hn, hfun⟩
        (.head' hchild hreach))
    exact .head ⟨node, hn, hf, hm⟩ (ih (hc.tail hchild) fun g hg => hout g (.head hchild hg))

theorem SameFunction.ahead_or {id : NodeId} (h : t.SameFunction root x y) (hid : t.Reach root id)
    (hx : t.Seen id x) (hy : t.Seen id y) (hne : x ≠ y) : t.Ahead id x y ∨ t.Ahead id y x := by
  -- from a node itself, what is below it is an operand
  have below : ∀ {x y}, t.SameFunction root x y → t.Reach root y → t.Seen y x → x ≠ y →
      t.Ahead y x y := by
    intro x y h hy hseen hne
    refine .operand (h.locally hroot hy (fun g hg hgy => ?_) hseen) hne
    exact hroot.acyclic hy (hgy.trans_right hg)
  induction hx using Relation.ReflTransGen.head_induction_on with
  | refl => exact Or.inr (below h.symm hid hy hne.symm)
  | @head id c hstep hcx ih =>
    obtain ⟨node, hn, hc⟩ := hstep
    have hchild := child_of_visited hn hc
    rcases hy.cases_down hn with rfl | ⟨c', hc', hcy⟩
    · exact Or.inl (below h hid (.head ⟨node, hn, hc⟩ hcx) hne)
    · by_cases he : c = c'
      · subst he
        exact (ih (hid.tail hchild) hcy).imp (.inside hn hc) (.inside hn hc)
      · -- below one child there is nothing around what is below another
        have hchild' := child_of_visited hn hc'
        have hlx : t.Locally c x := h.locally hroot (hid.tail hchild) (fun g hg hgy => he
          (hroot.child_unique hid hchild hchild' (hg.trans hgy.to_reflTransGen) hcy.reach)) hcx
        have hly : t.Locally c' y := h.symm.locally hroot (hid.tail hchild') (fun g hg hgx => he
          (hroot.child_unique hid hchild hchild' (Seen.reach hcx)
            (hg.trans hgx.to_reflTransGen))) hcy
        obtain ⟨front, back, hsplit⟩ := List.append_of_mem hc
        rw [hsplit] at hc'
        rcases List.mem_append.mp hc' with hm | hm
        · refine Or.inr (.sibling hn ?_ hly hcx)
          rw [hsplit]
          exact .append (List.singleton_sublist.mpr hm) (by simp)
        · refine Or.inl (.sibling hn ?_ hlx hcy)
          rw [hsplit]
          have hback : c' ∈ back := (List.mem_cons.mp hm).resolve_left (Ne.symm he)
          exact (List.Sublist.cons_cons c (List.singleton_sublist.mpr hback)).trans
            (List.sublist_append_right ..)

theorem Seen.between {f : NodeId} (h : t.Seen root x) (hf : t.Reach root f) (hfx : t.Reach f x) :
    t.Seen root f ∧ t.Seen f x := by
  induction h with
  | refl =>
    rcases Relation.reflTransGen_iff_eq_or_transGen.mp hfx with rfl | hfx
    · exact ⟨.refl, .refl⟩
    · exact absurd (hfx.trans_right hf) (hroot.acyclic .refl)
  | @tail p x hp hstep ih =>
    obtain ⟨node, hn, hm⟩ := hstep
    have hreach : t.Reach root p := Seen.reach hp
    have hlink := hroot.linked p x hreach (child_of_visited hn hm)
    rcases hroot.reach_parent hf hfx hlink with rfl | hfp
    · exact ⟨.tail hp ⟨node, hn, hm⟩, .refl⟩
    · obtain ⟨hrf, hfp⟩ := ih hfp
      exact ⟨hrf, .tail hfp ⟨node, hn, hm⟩⟩

end Nearest

theorem Ahead.lift {id c x b : NodeId} (h : t.Ahead c x b) (hc : t.Seen id c) : t.Ahead id x b := by
  induction hc using Relation.ReflTransGen.head_induction_on with
  | refl => exact h
  | head hstep _ ih =>
    obtain ⟨node, hn, hm⟩ := hstep
    exact .inside hn hm ih

/-- Of what is ahead of a leaf, all but a function around it stands before the leaf. -/
theorem Ahead.precedes {depth : Nat} {id x y u : NodeId} (h : t.Ahead id x y)
    (hw : t.Within depth id) (hf : ¬ t.Is x Node.isFunction) (hleaf : ∀ c, ¬ t.Child y c)
    (hu : t.Reach x u) : [u, y].Sublist (t.preorderTo depth id) := by
  induction h generalizing depth with
  | operand hl hne =>
    rcases Relation.ReflTransGen.cases_head hl.reach with rfl | ⟨c, hc, -⟩
    · exact absurd rfl hne
    · exact absurd hc (hleaf c)
  | enclosing hfun => exact absurd hfun hf
  | @sibling id node c c' x y hn hsub hl hseen =>
    cases depth with
    | zero => exact hw.elim
    | succ depth =>
      have within : ∀ k ∈ [c, c'], t.Within depth k := fun k hk =>
        (SameShape.child_within (.refl t) hw hn (node.visited_sublist.subset (hsub.subset hk))).2
      have hfirst := (mem_preorderTo (within c (by simp))).mpr (hl.reach.trans hu)
      have hsecond := (mem_preorderTo (within c' (by simp))).mpr hseen.reach
      have hpair : [u, y].Sublist ([c, c'].flatMap (t.preorderTo depth)) := by
        simpa using List.Sublist.append (List.singleton_sublist.mpr hfirst)
          (List.singleton_sublist.mpr hsecond)
      exact (hpair.trans (hsub.flatMap _)).trans
        (Filling.visited_preorder (s := .start t) (.refl t) hn)
  | @inside id node c x y hn hm _ ih =>
    cases depth with
    | zero => exact hw.elim
    | succ depth =>
      have hwc := (SameShape.child_within (.refl t) hw hn (node.visited_sublist.subset hm)).2
      have hone : (t.preorderTo depth c).Sublist (node.visited.flatMap (t.preorderTo depth)) := by
        simpa using (List.singleton_sublist.mpr hm).flatMap (t.preorderTo depth)
      exact ((ih hwc hf hleaf hu).trans hone).trans
        (Filling.visited_preorder (s := .start t) (.refl t) hn)

theorem WellFormed.parameter_ahead (hform : t.WellFormed root) {f p b u right : NodeId}
    {op : Operator} {returnType : CType} {fname : String} {params : List NodeId}
    {defn : Option NodeId} {isStatic isInline : Bool} (hf : t.Reach root f)
    (hn : t.get? f = some (.function returnType fname params defn isStatic isInline))
    (hp : p ∈ params) (hb : t.get? b = some (.binary u op right)) (hseen : t.Seen f b) :
    t.Ahead f p b := by
  rcases hseen.cases_down hn with rfl | ⟨c, hc, hcb⟩
  · cases hn.symm.trans hb
  · have hvisited : (Node.function returnType fname params defn isStatic isInline).visited =
        params ++ defn.toList := Node.children_function ..
    rw [hvisited] at hc
    rcases List.mem_append.mp hc with hc | hc
    · -- a parameter is a symbol, which has nothing below it
      obtain ⟨node, hnc, hsymbol⟩ := hform.parameter f _ hf hn c hc
      cases node <;> cases hsymbol
      rcases hcb.cases_down hnc with rfl | ⟨_, hm, -⟩
      · cases hnc.symm.trans hb
      · cases hm
    · refine .sibling hn ?_ .refl hcb
      rw [hvisited]
      exact .append (List.singleton_sublist.mpr hp) (List.singleton_sublist.mpr hc)

end Tree

namespace Filling

variable {registry : TypeRegistry} {root : NodeId} {s s' : Filling} {done : Bool}

theorem Declared.holder (hroot : s.tree.WellLinked root) (h : Ends (fill registry root) s done s')
    {d : NodeId} {name : String} (hd : Declared s s' d name) :
    ∃ b right, s.tree.Seen root b ∧ s.tree.get? b = some (.binary d .assign right) ∧
      s.tree.Binds name b ∧ s.tree.Child b d ∧ ¬ s.tree.Is b Node.isFunction := by
  have hvisit : Awaited registry s.tree root (s.tree.size + 1) root s done s' := ⟨.start hroot, h⟩
  obtain ⟨b, right, hseen, hb⟩ := hvisit.declared_seen hroot hd
  obtain ⟨isConst, ty, hs, -⟩ := hd
  refine ⟨b, right, hseen, hb, .assignment hb hs, ?_, ?_⟩
  · rw [Tree.Child, Tree.childrenOf_eq hb]
    simp
  · rintro ⟨node, hn, hf⟩
    cases hb.symm.trans hn
    cases hf

/-- What a fill declares, whether it goes through or is broken off, is declared once in its
function, and it has the name neither of a typed parameter of a function around it nor of a symbol
with a type that comes before it in its function. -/
theorem declared_once_per_function (hv : s.tree.validate root = .ok ())
    (h : Ends (fill registry root) s done s') {d : NodeId} {name : String}
    (hd : Declared s s' d name) :
    (∀ d', Declared s s' d' name → s.tree.SameFunction root d d' → d' = d) ∧
    (∀ f returnType fname params defn isStatic isInline, s.tree.Reach root f →
      s.tree.get? f = some (.function returnType fname params defn isStatic isInline) →
      s.tree.Reach f d → ∀ p ∈ params, ∀ ty isConst,
        s.tree.get? p ≠ some (.symbol name (some ty) isConst)) ∧
    ∀ p, s.tree.Seen root p → [p, d].Sublist (s.tree.preorder root) →
      s.tree.SameFunction root p d → ∀ ty isConst,
        s.tree.get? p ≠ some (.symbol name (some ty) isConst) := by
  have hform := Tree.wellFormed_of_validate hv
  have hroot := hform.region
  have hvisit : Awaited registry s.tree root (s.tree.size + 1) root s done s' := ⟨.start hroot, h⟩
  obtain ⟨b, right, hseen, hb, hbinds, hchild, hf⟩ := hd.holder hroot h
  have hsame := Tree.sameFunction_child hroot hseen.reach hchild hf
  have free : ∀ {x}, s.tree.Ahead root x b → ¬ s.tree.Binds name x := fun hahead hx =>
    hvisit.not_declared hroot hahead hb hx hd
  refine ⟨fun d' hd' hdd' => ?_, ?_, ?_⟩
  · obtain ⟨b', right', hseen', hb', hbinds', hchild', hf'⟩ := hd'.holder hroot h
    have hsame' := Tree.sameFunction_child hroot hseen'.reach hchild' hf'
    by_contra hne
    have hbb : b ≠ b' := by
      rintro rfl
      cases hb.symm.trans hb'
      exact hne rfl
    rcases ((hsame.symm.trans hdd').trans hsame').ahead_or hroot .refl hseen hseen' hbb with
      hahead | hahead
    · exact hvisit.not_declared hroot hahead hb' hbinds hd'
    · exact free hahead hbinds'
  · intro f returnType fname params defn isStatic isInline hf hn hfd p hp ty isConst htyped
    have hfb : s.tree.Reach f b := by
      rcases hroot.reach_parent hf hfd (hroot.linked b d hseen.reach hchild) with rfl | hfb
      · obtain ⟨_, _, hs, -⟩ := hd
        cases hn.symm.trans hs
      · exact hfb
    obtain ⟨hrf, hfb⟩ := hseen.between hroot hf hfb
    exact free ((hform.parameter_ahead hf hn hp hb hfb).lift hrf) (.declaration htyped)
  · intro p hp horder hpd ty isConst htyped
    have hpb : p ≠ b := by
      rintro rfl
      cases htyped.symm.trans hb
    rcases (hpd.trans hsame).ahead_or hroot .refl hp hseen hpb with hahead | hahead
    · exact free hahead (.declaration htyped)
    · -- then the target comes before the declaration as well
      have hleaf : ∀ c, ¬ s.tree.Child p c := by
        intro c hc
        rw [Tree.Child, Tree.childrenOf_eq htyped] at hc
        cases hc
      have hw := (hroot.within .refl).succ
      exact not_sublist_swap (hroot.preorderTo_nodup .refl hw)
        (hahead.precedes hw hf hleaf (.single hchild)) horder

/-- `long f(int p) { x = (y = p); y = x; } long g(int p) { x = p; z = w; }`. The pass is broken off
at the last assignment. -/
def twoFunctions : Tree :=
  ⟨#[⟨.file "u" [1, 11], none⟩, ⟨.function (.scalar .long) "f" [2] (some 3) false false, some 0⟩,
    ⟨.symbol "p" (some (.scalar .int)) false, some 1⟩, ⟨.block [4, 9], some 1⟩,
    ⟨.binary 5 .assign 6, some 3⟩, ⟨.symbol "x" none false, some 4⟩,
    ⟨.binary 7 .assign 8, some 4⟩, ⟨.symbol "y" none false, some 6⟩,
    ⟨.symbol "p" none false, some 6⟩, ⟨.binary 10 .assign 20, some 3⟩,
    ⟨.symbol "y" none false, some 9⟩,
    ⟨.function (.scalar .long) "g" [12] (some 13) false false, some 0⟩,
    ⟨.symbol "p" (some (.scalar .int)) false, some 11⟩, ⟨.block [14, 17], some 11⟩,
    ⟨.binary 15 .assign 16, some 13⟩, ⟨.symbol "x" none false, some 14⟩,
    ⟨.symbol "p" none false, some 14⟩, ⟨.binary 18 .assign 19, some 13⟩,
    ⟨.symbol "z" none false, some 17⟩, ⟨.symbol "w" none false, some 17⟩,
    ⟨.symbol "x" none false, some 9⟩], 0⟩

theorem twoFunctions_declare_once :
    twoFunctions.validate 0 = .ok () ∧
    ∃ s, Ends (fill .builtin 0) (start twoFunctions) false s ∧
      Declared (start twoFunctions) s 5 "x" ∧ Declared (start twoFunctions) s 15 "x" ∧
      Declared (start twoFunctions) s 7 "y" ∧ ¬ Declared (start twoFunctions) s 10 "y" ∧
      ¬ twoFunctions.SameFunction 0 5 15 := by
  have hv : twoFunctions.validate 0 = .ok () := by decide +kernel
  have hends : ∃ s, Ends (fill .builtin 0) (start twoFunctions) false s ∧
      Declared (start twoFunctions) s 5 "x" ∧ Declared (start twoFunctions) s 15 "x" ∧
      Declared (start twoFunctions) s 7 "y" ∧
      s.tree.get? 10 = some (.symbol "y" none false) :=
    ⟨_, by exact ⟨rfl, rfl⟩, ⟨_, _, rfl, rfl⟩, ⟨_, _, rfl, rfl⟩, ⟨_, _, rfl, rfl⟩, rfl⟩
  obtain ⟨s, hends, hx, hx', hy, hlast⟩ := hends
  refine ⟨hv, s, hends, hx, hx', hy, ?_, fun hsame => ?_⟩
  · rintro ⟨_, _, -, hs⟩
    cases hlast.symm.trans hs
  · have hone := (declared_once_per_function hv hends hx).1 15 hx' hsame
    cases hone

end Filling
end Arbor
