import Arbor.Proofs.Visit
import Mathlib.Data.List.Flatten

/-!
Where filling puts declarations.

A name has one scope for the whole of a function, and it is declared at the first of its
assignments in the order in which they are visited: a right operand before the assignment itself.
C has a scope for every block, branch and loop, so that a declaration inside one of them does not
reach the uses outside of it, and uses that are no assignments may also come before it.
-/
namespace Arbor

namespace Tree

/-- The one is visited from the other without entering a function. -/
def Locally (t : Tree) : NodeId → NodeId → Prop :=
  Relation.ReflTransGen fun p c =>
    ∃ node, t.get? p = some node ∧ node.isFunction = false ∧ c ∈ node.visited

variable {t : Tree}

theorem Locally.reach {id x : NodeId} (h : t.Locally id x) : t.Reach id x := by
  refine Relation.ReflTransGen.mono ?_ _ _ h
  rintro p c ⟨node, hn, -, hm⟩
  rw [Child, childrenOf_eq hn]
  exact node.visited_sublist.subset hm

theorem Locally.cases_down {t' : Tree} (hs : t.SameShape t') {id x : NodeId} {node : Node}
    (hn : t'.get? id = some node) (h : t.Locally id x) :
    id = x ∨ (node.isFunction = false ∧ ∃ c ∈ node.visited, t.Locally c x) := by
  rcases Relation.ReflTransGen.cases_head h with he | ⟨c, ⟨known, hk, hf, hm⟩, hcx⟩
  · exact Or.inl he
  · obtain ⟨node', hn', he⟩ := hs.get?_some hk
    cases hn.symm.trans hn'
    rw [← Node.blind_isFunction.eq he] at hf
    rw [← Node.blind_visited.eq he] at hm
    exact Or.inr ⟨hf, c, hm, hcx⟩

def Names (t : Tree) (id : NodeId) (name : String) : Prop :=
  (t.get? id).bind Node.symbolName? = some name

theorem SameShape.names {t' : Tree} (h : t.SameShape t') {id : NodeId} {name : String}
    (hn : t.Names id name) : ∃ ty isConst, t'.get? id = some (.symbol name ty isConst) := by
  obtain ⟨node, hnode, hname⟩ := Option.bind_eq_some_iff.mp hn
  obtain ⟨node', hnode', he⟩ := h.get?_some hnode
  rw [← Node.blind_symbolName?.eq he] at hname
  cases node' <;> simp_all [Node.symbolName?]

theorem Names.reach {id x : NodeId} {name : String} (h : t.Names id name) (hx : t.Reach id x) :
    x = id := by
  obtain ⟨ty, isConst, hn⟩ := (SameShape.refl t).names h
  rcases Relation.ReflTransGen.cases_head hx with he | ⟨c, hc, -⟩
  · exact he.symm
  · rw [Child, childrenOf_eq hn] at hc
    cases hc

end Tree

namespace Filling

variable {registry : TypeRegistry} {t : Tree} {root : NodeId} {s s₁ s' : Filling}

/-- Between the two states the symbol got its type. -/
def Declared (s s' : Filling) (d : NodeId) (name : String) : Prop :=
  ∃ isConst ty, s.tree.get? d = some (.symbol name none isConst) ∧
    s'.tree.get? d = some (.symbol name (some ty) isConst)

namespace Declared

variable {d : NodeId} {name : String} {ids : List NodeId}

theorem target (h : Declared s s' d name) (ha : Advances t ids s s') :
    ¬ s.scopes.isBound name ∧ ∃ id ∈ ids, ∃ holder right, t.Reach id holder ∧
      t.get? holder = some (.binary d .assign right) := by
  obtain ⟨isConst, ty, hs, hs'⟩ := h
  cases ha.node d with
  | keeps he => cases hs'.symm.trans (he.trans hs)
  | types _ _ hn => cases hs.symm.trans hn
  | declares hi hr hb hn _ hfree =>
    cases hs.symm.trans hn
    exact ⟨hfree, _, hi, _, _, hr, hb⟩

theorem reach (h : Declared s s' d name) (ha : Advances t ids s s') :
    ∃ id ∈ ids, t.Reach id d := by
  obtain ⟨-, id, hi, holder, right, hr, hb⟩ := h.target ha
  exact ⟨id, hi, hr.child hb (by simp)⟩

theorem split (h : Declared s s' d name) (ha : Advances t ids s s₁) :
    Declared s s₁ d name ∨ Declared s₁ s' d name := by
  obtain ⟨isConst, ty, hs, hs'⟩ := h
  cases ha.node d with
  | keeps he => exact Or.inr ⟨isConst, ty, he.trans hs, hs'⟩
  | types _ _ hn => cases hs.symm.trans hn
  | declares _ _ _ hn hs₁ =>
    cases hs.symm.trans hn
    exact Or.inl ⟨isConst, _, hs, hs₁⟩

end Declared

theorem Advances.symbol {ids : List NodeId} {d : NodeId} {name : String} {isConst : Bool}
    (h : Advances t ids s s') (hs : s.tree.get? d = some (.symbol name none isConst)) :
    s'.tree.get? d = some (.symbol name none isConst) ∨ Declared s s' d name := by
  cases h.node d with
  | keeps he => exact Or.inl (he.trans hs)
  | types _ _ hn => cases hs.symm.trans hn
  | declares _ _ _ hn hs' =>
    cases hs.symm.trans hn
    exact Or.inr ⟨isConst, _, hs, hs'⟩

theorem Each.bound {visits : Visits} {ids : List NodeId} {name : String} {c : NodeId}
    (h : Each visits ids s true s') (hs : t.SameShape s.tree) (hc : c ∈ ids)
    (hv : ∀ id ∈ ids, ∀ s done s', t.SameShape s.tree → visits id s done s' → Advances t [id] s s')
    (hb : ∀ s s', t.SameShape s.tree → visits c s true s' → s'.scopes.isBound name) :
    s'.scopes.isBound name := by
  induction ids generalizing s with
  | nil => cases hc
  | cons id rest ih =>
    obtain ⟨hid, hvr⟩ := List.forall_mem_cons.mp hv
    cases h with
    | cons hhead hrest =>
      have hs₁ := hs.trans (hid _ _ _ hs hhead).sameShape
      rcases List.mem_cons.mp hc with rfl | hc
      · exact (hrest.advances hs₁ hvr).scopes.isBound (hb _ _ hs hhead)
      · exact ih hrest hs₁ hc hvr

section Order

variable {name : String} {a u right : NodeId}

/-- The target of an assignment has no other holder, so that nothing below the assignment
declares it. -/
theorem not_declared_below (hroot : t.WellLinked root) (hr : t.Reach root a)
    (ha : t.get? a = some (.binary u .assign right)) (hin : Advances t [u, right] s s₁) :
    ¬ Declared s s₁ u name := by
  have child : ∀ c ∈ [u, right], t.Child a c := by
    intro c hc
    rw [Tree.Child, Tree.childrenOf_eq ha]
    exact hc
  intro hd
  obtain ⟨-, c, hc, holder, right', hrh, hh⟩ := hd.target hin
  have hrc : t.Reach root holder := (hr.tail (child c hc)).trans hrh
  have hlink := (hroot.node_of_reach (c := u) hrc hh (by simp)).2
  have hlink' := hroot.linked a u hr (child u (by simp))
  obtain rfl : holder = a := Option.some.inj (hlink.symm.trans hlink')
  exact hroot.acyclic hr (.head' (child c hc) hrh)

theorem bound_of_assignment (hroot : t.WellLinked root) (hr : t.Reach root a)
    (ha : t.get? a = some (.binary u .assign right)) (hu : t.Names u name) {depth : Nat}
    (hs : t.SameShape s.tree)
    (hv : ∀ c ∈ [u, right], ∀ s done s', t.SameShape s.tree →
      Ends (visitTo registry depth c) s done s' → Advances t [c] s s')
    (he : Each (fun c => Ends (visitTo registry depth c)) [u, right] s true s₁)
    (hc : Closes registry a (.binary u .assign right) s₁ true s') : s'.scopes.isBound name := by
  obtain ⟨ty, isConst, hsu⟩ := hs.names hu
  have hin := he.advances hs hv
  cases ty with
  | some ty =>
    cases he with
    | cons hleft hrest =>
      obtain ⟨room, rfl⟩ : ∃ room, depth = room + 1 := by
        cases depth with
        | zero => cases hleft.1
        | succ room => exact ⟨room, rfl⟩
      obtain rfl := (visit_symbol hsu).mp hleft
      have hright := hrest.advances hs fun c hm => hv c (by simp [hm])
      have hbound : (s.scopes.bind name ty).1.isBound name := Scopes.isBound_top (Scopes.top_bind ..)
      exact hc.grows.isBound (hright.scopes.isBound hbound)
  | none =>
    have hsu₁ := (hin.symbol hsu).resolve_right (not_declared_below hroot hr ha hin)
    cases hc with
    | declares hl =>
      cases hsu₁.symm.trans hl
      exact Scopes.isBound_top (Scopes.top_bind ..)
    | bound hl hb =>
      cases hsu₁.symm.trans hl
      exact hb
    | settled hl hne =>
      cases hsu₁.symm.trans hl
      exact absurd rfl (hne name isConst)
    | nothing hn => cases hn

theorem bound_of_visit (hroot : t.WellLinked root) (ha : t.get? a = some (.binary u .assign right))
    (hu : t.Names u name) {depth : Nat} {id : NodeId} (hr : t.Reach root id)
    (hw : t.Within depth id) (hs : t.SameShape s.tree) (hl : t.Locally id a)
    (h : Ends (visitTo registry depth id) s true s') : s'.scopes.isBound name := by
  induction depth generalizing id s s' with
  | zero => exact hw.elim
  | succ depth ih =>
    have known := hs.symm.get?_binary ha
    cases ends_visitTo.mp h with
    | function hn =>
      rcases hl.cases_down hs hn with rfl | ⟨hf, -⟩
      · cases known.symm.trans hn
      · cases hf
    | @close node _ _ _ hn _ he hc =>
      have child : ∀ c ∈ node.visited, t.Child id c ∧ t.Within depth c := fun c hm =>
        hs.child_within hw hn (node.visited_sublist.subset hm)
      have visits := visits_advance registry hs hw hn
      rcases hl.cases_down hs hn with rfl | ⟨-, c, hm, hca⟩
      · cases hn.symm.trans known
        exact bound_of_assignment hroot hr ha hu hs visits he (closes_of_ends hc)
      · have hb := he.bound hs hm visits fun s s' hs hv =>
          ih (hr.tail (child c hm).1) (child c hm).2 hs hca hv
        exact (closes_of_ends hc).grows.isBound hb

/-- The declaration comes first, or stands on the right of the other assignment. -/
def Leads (t : Tree) (order : List NodeId) (d u right : NodeId) : Prop :=
  [d, u].Sublist order ∨ t.Reach right d

theorem Each.leads {d : NodeId} (hroot : t.WellLinked root)
    (ha : t.get? a = some (.binary u .assign right)) (hu : t.Names u name) {depth : Nat}
    {ids : List NodeId} (hids : ∀ c ∈ ids, t.Reach root c ∧ t.Within depth c)
    (hv : ∀ c ∈ ids, ∀ s s', t.SameShape s.tree → Ends (visitTo registry depth c) s true s' →
      Declared s s' d name → t.Locally c a → Leads t (t.preorderTo depth c) d u right)
    (hs : t.SameShape s.tree) (h : Each (fun c => Ends (visitTo registry depth c)) ids s true s')
    (hd : Declared s s' d name) {c : NodeId} (hc : c ∈ ids) (hl : t.Locally c a) :
    Leads t (ids.flatMap (t.preorderTo depth)) d u right := by
  have target : ∀ c, t.Locally c a → t.Reach c u := fun c hl => hl.reach.child ha (by simp)
  induction ids generalizing s with
  | nil => cases hc
  | cons id rest ih =>
    obtain ⟨⟨hr, hw⟩, hrest⟩ := List.forall_mem_cons.mp hids
    obtain ⟨hvid, hvrest⟩ := List.forall_mem_cons.mp hv
    cases h with
    | @cons _ _ _ s₁ _ _ hhead htail =>
      have hfirst := visitTo_advances hs hw hhead
      have hs₁ := hs.trans hfirst.sameShape
      rw [List.flatMap_cons]
      rcases hd.split hfirst with hd | hd
      · rcases List.mem_cons.mp hc with rfl | hc
        · rcases hvid s s₁ hs hhead hd hl with hsub | hright
          · exact Or.inl (hsub.trans (List.sublist_append_left ..))
          · exact Or.inr hright
        · -- declared in an earlier child than the one with the other assignment
          obtain ⟨_, hid, hreach⟩ := hd.reach hfirst
          cases List.mem_singleton.mp hid
          have hbefore := (Tree.mem_preorderTo hw).mpr hreach
          have hafter : u ∈ rest.flatMap (t.preorderTo depth) :=
            List.mem_flatMap.mpr ⟨c, hc, (Tree.mem_preorderTo (hrest c hc).2).mpr (target c hl)⟩
          exact Or.inl (.append (List.singleton_sublist.mpr hbefore)
            (List.singleton_sublist.mpr hafter))
      · rcases List.mem_cons.mp hc with rfl | hc
        · -- the other assignment was visited before, and its name is bound since
          have hb := bound_of_visit hroot ha hu hr hw hs hl hhead
          have hadv := htail.advances hs₁ fun c hm _ _ _ hs hvc =>
            visitTo_advances hs (hrest c hm).2 hvc
          exact absurd hb (hd.target hadv).1
        · rcases ih hrest hvrest hs₁ htail hd hc with hsub | hright
          · exact Or.inl (hsub.trans (List.sublist_append_right ..))
          · exact Or.inr hright

theorem Leads.mono {order order' : List NodeId} {d : NodeId} (h : Leads t order d u right)
    (hsub : order.Sublist order') : Leads t order' d u right :=
  h.imp_left fun hfirst => hfirst.trans hsub

theorem Closes.declared {id d : NodeId} {node : Node} {done : Bool}
    (h : Closes registry id node s done s') (hn : s.tree.get? id = some node)
    (hd : Declared s s' d name) :
    ¬ s.scopes.isBound name ∧ ∃ right, node = .binary d .assign right := by
  obtain ⟨isConst, ty, hs, hs'⟩ := hd
  cases h with
  | @declares _ left right _ _ _ hl hfree =>
    by_cases hx : d = left
    · subst hx
      cases hs.symm.trans hl
      exact ⟨hfree, right, rfl⟩
    · cases hs'.symm.trans ((Tree.get?_setNode_other _ hx).trans hs)
  | @types _ func args ty tree _ ht =>
    obtain rfl := Tree.setType_call_eq hn ht
    have hx : d ≠ id := by
      rintro rfl
      cases hs.symm.trans hn
    cases hs'.symm.trans ((Tree.get?_setNode_other _ hx).trans hs)
  | binds | untyped | bound | settled | nothing | fails => cases hs'.symm.trans hs

theorem visited_preorder {depth : Nat} {id : NodeId} {node : Node} (hs : t.SameShape s.tree)
    (hn : s.tree.get? id = some node) :
    (node.visited.flatMap (t.preorderTo depth)).Sublist (t.preorderTo (depth + 1) id) := by
  obtain ⟨known, hk, he⟩ := hs.symm.get?_some hn
  simp only [Tree.preorderTo, hk, Node.blind_children.eq he]
  exact (node.visited_sublist.flatMap _).trans (List.sublist_cons_self ..)

theorem leads_of_visit {d : NodeId} (hroot : t.WellLinked root)
    (ha : t.get? a = some (.binary u .assign right)) (hu : t.Names u name) (hne : u ≠ d)
    {depth : Nat} {id : NodeId} (hr : t.Reach root id) (hw : t.Within depth id)
    (hs : t.SameShape s.tree) (hl : t.Locally id a)
    (h : Ends (visitTo registry depth id) s true s') (hd : Declared s s' d name) :
    Leads t (t.preorderTo depth id) d u right := by
  induction depth generalizing id s s' with
  | zero => exact hw.elim
  | succ depth ih =>
    have known := hs.symm.get?_binary ha
    cases ends_visitTo.mp h with
    | function hn =>
      rcases hl.cases_down hs hn with rfl | ⟨hf, -⟩
      · cases known.symm.trans hn
      · cases hf
    | @close node _ _ _ hn _ he hc =>
      have child : ∀ c ∈ node.visited, t.Child id c ∧ t.Within depth c := fun c hm =>
        hs.child_within hw hn (node.visited_sublist.subset hm)
      have visits := visits_advance registry hs hw hn
      have hin := he.advances hs visits
      have hclose := closes_of_ends hc
      have hkept := hin.get?_visited hs hw hn
      rcases hl.cases_down hs hn with rfl | ⟨-, c, hm, hca⟩
      · -- the node is the other assignment: whatever is declared under it is on its right
        cases hn.symm.trans known
        rcases hd.split hin with hd | hd
        · obtain ⟨c, hm, hreach⟩ := hd.reach hin
          rcases List.mem_pair.mp hm with rfl | rfl
          · exact absurd (hu.reach hreach).symm hne
          · exact Or.inr hreach
        · obtain ⟨-, right', he⟩ := hclose.declared hkept hd
          cases he
          exact absurd rfl hne
      · rcases hd.split hin with hd | hd
        · have hleads := he.leads hroot ha hu (fun c hm => ⟨hr.tail (child c hm).1, (child c hm).2⟩)
            (fun c hm s s' hs hv hd hl => ih (hr.tail (child c hm).1) (child c hm).2 hs hl hv hd)
            hs hd hm hca
          exact hleads.mono (visited_preorder hs hn)
        · -- closing comes after the other assignment, when the name is not free any more
          have hb := he.bound hs hm visits fun s s' hs hv =>
            bound_of_visit hroot ha hu (hr.tail (child c hm).1) (child c hm).2 hs hca hv
          exact absurd hb (hclose.declared hkept hd).1

end Order

end Filling

namespace Node

def bodies : Node → List NodeId
  | .branch _ thenBody elseBody => thenBody :: elseBody.toList
  | .whileLoop _ body | .doWhile body _ | .forLoop _ _ _ body => [body]
  | _ => []

def isScope : Node → Bool
  | .block _ | .forLoop _ _ _ _ => true
  | _ => false

end Node

namespace Tree

/-- C opens a scope for a block, for a `for` statement, and for the body of a branch or a loop. -/
def opensScope (t : Tree) (id : NodeId) : Bool :=
  (t.get? id).any Node.isScope ||
    ((t.parent? id).bind t.get?).any fun holder => holder.bodies.contains id

/-- The innermost scope of a function that a declaration in it belongs to. -/
structure ScopeOf (t : Tree) (f scope d : NodeId) : Prop where
  inside : t.Reach f scope
  opens : t.opensScope scope
  holds : t.Reach scope d
  innermost : ∀ other, t.Reach f other → t.opensScope other → t.Reach other d →
    t.Reach other scope

/-- Part of a function itself, not of one inside of it. -/
def InFunction (t : Tree) (f x : NodeId) : Prop := ∃ c, t.Child f c ∧ t.Locally c x

variable {t : Tree} {f d : NodeId}

theorem InFunction.reach {x : NodeId} (h : t.InFunction f x) : t.Reach f x := by
  obtain ⟨c, hc, hl⟩ := h
  exact .head hc hl.reach

section Function

variable {returnType : CType} {fname : String} {params : List NodeId} {defn : Option NodeId}
  {isStatic isInline : Bool} (hroot : t.WellLinked f)
  (hf : t.get? f = some (.function returnType fname params defn isStatic isInline))

include hroot hf

theorem InFunction.assignment {a right : NodeId} (hd : t.InFunction f d) (hr : t.Reach f a)
    (ha : t.get? a = some (.binary d .assign right)) : t.InFunction f a := by
  have hlink := (hroot.node_of_reach (c := d) hr ha (by simp)).2
  obtain ⟨c, hc, hl⟩ := hd
  rcases Relation.ReflTransGen.cases_tail hl with rfl | ⟨p, hp, node, hn, -, hm⟩
  · cases Option.some.inj (hlink.symm.trans (hroot.linked f _ .refl hc))
    cases hf.symm.trans ha
  · have hreach : t.Reach f p := .head hc (Locally.reach hp)
    have hlink' := (hroot.node_of_reach hreach hn (node.visited_sublist.subset hm)).2
    cases Option.some.inj (hlink.symm.trans hlink')
    exact ⟨c, hc, hp⟩

theorem leads_of_fill {registry : TypeRegistry} {scopes : Scopes} {s : Filling} {name : String}
    (hfill : Filling.fill registry f ⟨t, scopes⟩ = .ok () s)
    (hd : Filling.Declared ⟨t, scopes⟩ s d name) {b u right : NodeId} (hin : t.InFunction f b)
    (hb : t.get? b = some (.binary u .assign right)) (hu : t.Names u name) (hne : u ≠ d) :
    Filling.Leads t (t.preorder f) d u right := by
  have child : ∀ c, t.Child f c → t.Reach f c ∧ t.Within t.size c := fun c hc =>
    ⟨.single hc, hroot.within (.single hc)⟩
  have children : t.childrenOf f = params ++ defn.toList := by
    rw [childrenOf_eq hf, Node.children_function]
  cases Filling.ends_visitTo.mp (Filling.ends_ok.mpr hfill) with
  | close hn hnf => cases hf.symm.trans hn; cases hnf
  | function hn he =>
    cases hf.symm.trans hn
    rw [← children] at he
    obtain ⟨c, hc, hl⟩ := hin
    have hleads := he.leads hroot hb hu child
      (fun c hm s s' hs hv hd hl =>
        Filling.leads_of_visit hroot hb hu hne (child c hm).1 (child c hm).2 hs hl hv hd)
      (.refl t) hd hc hl
    refine hleads.mono ?_
    simp only [preorder, preorderTo, hf, childrenOf_eq hf]
    exact List.sublist_cons_self ..

variable {body a right : NodeId} {stmts : List NodeId} (hbody : defn = some body)
  (hblock : t.get? body = some (.block stmts)) (ha : t.get? a = some (.binary d .assign right))
  (hm : a ∈ stmts)

include hbody hblock ha hm

theorem statement_links : t.Reach f body ∧ t.parent? body = some f ∧ t.Reach f a ∧
    t.parent? a = some body ∧ t.parent? d = some a := by
  have hb := hroot.node_of_reach (c := body) .refl hf (by simp [Node.children_function, hbody])
  have hs := hroot.node_of_reach (c := a) hb.1 hblock
    (by simpa [Node.children, Node.slots, Slot.ids] using hm)
  exact ⟨hb.1, hb.2, hs.1, hs.2, (hroot.node_of_reach (c := d) hs.1 ha (by simp)).2⟩

theorem scopeOf_statement {name : String} {ty : Option CType} {isConst : Bool}
    (hd : t.get? d = some (.symbol name ty isConst)) : t.ScopeOf f body d := by
  obtain ⟨hb, -, hr, hpa, hpd⟩ := statement_links hroot hf hbody hblock ha hm
  have down : t.Child body a := by
    rw [Child, childrenOf_eq hblock]
    simpa [Node.children, Node.slots, Slot.ids] using hm
  refine ⟨hb, by simp [opensScope, hblock, Node.isScope], ?_, fun other ho hopen hreach => ?_⟩
  · exact Reach.child (.single down) ha (by simp)
  · rcases hroot.reach_parent ho hreach hpd with rfl | hreach
    · simp [opensScope, hd, hpd, ha, Node.isScope, Node.bodies] at hopen
    · rcases hroot.reach_parent ho hreach hpa with rfl | hreach
      · simp [opensScope, ha, hpa, hblock, Node.isScope, Node.bodies] at hopen
      · exact hreach

theorem not_reach_statement {b u right' : NodeId} (hb : t.Reach f b)
    (hu : t.get? b = some (.binary u .assign right')) : ¬ t.Reach right' d := by
  intro hreach
  obtain ⟨-, hpb, -, hpa, hpd⟩ := statement_links hroot hf hbody hblock ha hm
  obtain ⟨hr, hp⟩ := hroot.node_of_reach (c := right') hb hu (by simp)
  rcases hroot.reach_parent hr hreach hpd with rfl | hreach
  · cases Option.some.inj (hp.symm.trans hpd)
    cases hu.symm.trans ha
    have hnodup := hroot.children_nodup hb
    simp [childrenOf_eq ha] at hnodup
  · rcases hroot.reach_parent hr hreach hpa with rfl | hreach
    · cases Option.some.inj (hp.symm.trans hpa)
      cases hu.symm.trans hblock
    · rcases hroot.reach_parent hr hreach hpb with rfl | hreach
      · cases Option.some.inj (hp.symm.trans hpb)
        cases hu.symm.trans hf
      · have hdown : t.Child b right' := by
          rw [Child, childrenOf_eq hu]
          simp
        exact hroot.acyclic .refl ((Relation.TransGen.tail' hb hdown).trans_left hreach)

end Function

/-- Filling declares a local at the first of the assignments to it: every other assignment of the
function comes after it, unless the declaration stands on its right. Where that first assignment
is a statement of the function's own block, C gives the name the whole of the block as scope. -/
theorem local_declared_at_first_assignment {registry : TypeRegistry} {scopes : Scopes}
    {s : Filling} {returnType : CType} {fname name : String} {params : List NodeId}
    {defn : Option NodeId} {isStatic isInline isConst : Bool} {ty : CType}
    (hv : t.validate f = .ok ())
    (hf : t.get? f = some (.function returnType fname params defn isStatic isInline))
    (hfill : Filling.fill registry f ⟨t, scopes⟩ = .ok () s)
    (hin : t.InFunction f d) (hd : t.get? d = some (.symbol name none isConst))
    (hd' : s.tree.get? d = some (.symbol name (some ty) isConst)) :
    (∃ a right, t.InFunction f a ∧ t.get? a = some (.binary d .assign right)) ∧
    (∀ b u right, t.InFunction f b → t.get? b = some (.binary u .assign right) →
      t.Names u name → u ≠ d → [d, u].Sublist (t.preorder f) ∨ t.Reach right d) ∧
    ∀ a right body stmts, t.get? a = some (.binary d .assign right) → defn = some body →
      t.get? body = some (.block stmts) → a ∈ stmts →
      t.ScopeOf f body d ∧
      ∀ b u right, t.InFunction f b → t.get? b = some (.binary u .assign right) →
        t.Names u name → u ≠ d → [d, u].Sublist (t.preorder f) := by
  have hroot := (wellFormed_of_validate hv).region
  have hdeclared : Filling.Declared ⟨t, scopes⟩ s d name := ⟨isConst, ty, hd, hd'⟩
  have first : ∀ b u right, t.InFunction f b → t.get? b = some (.binary u .assign right) →
      t.Names u name → u ≠ d → [d, u].Sublist (t.preorder f) ∨ t.Reach right d :=
    fun b u right hb hbu hu hne => leads_of_fill hroot hf hfill hdeclared hb hbu hu hne
  refine ⟨?_, first, ?_⟩
  · have hadv := Filling.visitTo_advances (.refl t) (hroot.within .refl).succ
      (Filling.ends_ok.mpr hfill)
    obtain ⟨-, _, hm, a, right, hr, ha⟩ := hdeclared.target hadv
    rw [List.mem_singleton.mp hm] at hr
    exact ⟨a, right, hin.assignment hroot hf hr ha, ha⟩
  · intro a right body stmts ha hbody hblock hm
    refine ⟨scopeOf_statement hroot hf hbody hblock ha hm hd, ?_⟩
    intro b u right' hb hbu hu hne
    have hnot := not_reach_statement hroot hf hbody hblock ha hm hb.reach hbu
    exact (first b u right' hb hbu hu hne).resolve_right hnot

/-- `long f(int c) { x = (y = c); y = x; x = y; }` -/
def exchanged : Tree :=
  ⟨#[⟨.function (.scalar .long) "f" [1] (some 2) false false, none⟩,
    ⟨.symbol "c" (some (.scalar .int)) false, some 0⟩, ⟨.block [3, 8, 11], some 0⟩,
    ⟨.binary 4 .assign 5, some 2⟩, ⟨.symbol "x" none false, some 3⟩, ⟨.binary 6 .assign 7, some 3⟩,
    ⟨.symbol "y" none false, some 5⟩, ⟨.symbol "c" none false, some 5⟩,
    ⟨.binary 9 .assign 10, some 2⟩, ⟨.symbol "y" none false, some 8⟩,
    ⟨.symbol "x" none false, some 8⟩, ⟨.binary 12 .assign 13, some 2⟩,
    ⟨.symbol "x" none false, some 11⟩, ⟨.symbol "y" none false, some 11⟩], 0⟩

theorem exchanged_declared_first :
    exchanged.validate 0 = .ok () ∧
    (∃ s, Filling.fill .builtin 0 (.start exchanged) = .ok () s ∧
      s.tree.get? 4 = some (.symbol "x" (some (.scalar .int)) false)) ∧
    exchanged.ScopeOf 0 2 4 ∧ [4, 12].Sublist (exchanged.preorder 0) := by
  have hv : exchanged.validate 0 = .ok () := by decide +kernel
  have filled : ∃ s, Filling.fill .builtin 0 (.start exchanged) = .ok () s ∧
      s.tree.get? 4 = some (.symbol "x" (some (.scalar .int)) false) := ⟨_, by rfl, by rfl⟩
  have hbody : exchanged.Child 0 2 := show 2 ∈ exchanged.childrenOf 0 by decide
  have hfirst : exchanged.InFunction 0 4 := by
    refine ⟨2, hbody, .tail (.single (b := 3) ⟨_, rfl, rfl, ?_⟩) ⟨_, rfl, rfl, ?_⟩⟩ <;> decide
  have hlast : exchanged.InFunction 0 11 := ⟨2, hbody, .single ⟨_, rfl, rfl, by decide⟩⟩
  obtain ⟨s, hfill, htyped⟩ := filled
  obtain ⟨-, -, hscope⟩ := local_declared_at_first_assignment hv rfl hfill hfirst rfl htyped
  obtain ⟨hscope, horder⟩ := hscope 3 5 2 [3, 8, 11] rfl rfl rfl (by decide)
  exact ⟨hv, ⟨s, hfill, htyped⟩, hscope, horder 11 12 13 hlast rfl rfl (by decide)⟩

/-- `long f() { if (x) { x = 1; } return x; }` -/
def guarded : Tree :=
  ⟨#[⟨.function (.scalar .long) "f" [] (some 1) false false, none⟩, ⟨.block [2, 8], some 0⟩,
    ⟨.branch 3 4 none, some 1⟩, ⟨.symbol "x" none false, some 2⟩, ⟨.block [5], some 2⟩,
    ⟨.binary 6 .assign 7, some 4⟩, ⟨.symbol "x" none false, some 5⟩, ⟨.constant (.int 1), some 5⟩,
    ⟨.ret (some 9), some 1⟩, ⟨.symbol "x" none false, some 8⟩], 0⟩

/-- A use before the first assignment and one after the block that the declaration is in: the
declaration reaches neither. -/
theorem declaration_in_branch_misses_uses :
    guarded.validate 0 = .ok () ∧
    (∃ s, Filling.fill .builtin 0 (.start guarded) = .ok () s ∧
      s.tree.get? 6 = some (.symbol "x" (some (.scalar .long)) false)) ∧
    (∀ id ∈ [3, 6, 9], guarded.get? id = some (.symbol "x" none false)) ∧
    ¬ [6, 3].Sublist (guarded.preorder 0) ∧
    ¬ ∃ scope, guarded.ScopeOf 0 scope 6 ∧ guarded.Reach scope 9 := by
  have hv : guarded.validate 0 = .ok () := by decide +kernel
  have hroot := (wellFormed_of_validate hv).region
  have reach : ∀ {x y}, guarded.Reach 0 x →
      (guarded.Reach x y ↔ y ∈ guarded.preorderTo guarded.size x) := fun hx =>
    (mem_preorderTo (hroot.within hx)).symm
  refine ⟨hv, ⟨_, by rfl, by rfl⟩, by decide, by decide, ?_⟩
  rintro ⟨scope, hscope, huse⟩
  have hblock : guarded.Reach 0 4 := (reach .refl).mpr (by decide)
  have hinner : guarded.Reach 4 scope :=
    hscope.innermost 4 hblock (by decide) ((reach hblock).mpr (by decide))
  have hmem := (reach hblock).mp hinner
  have huse := (reach hscope.inside).mp huse
  have apart : ∀ id ∈ guarded.preorderTo guarded.size 4,
      9 ∉ guarded.preorderTo guarded.size id := by decide
  exact apart scope hmem huse

end Tree
end Arbor
