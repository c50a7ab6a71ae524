import Arbor.Proofs.Visit
import Mathlib.Data.List.Forall2

/-!
Filling a tree that is filled already.

The second pass finds every declaration that the first one made, and binds its name no later than
the first pass did. It declares nothing more, and it fails nowhere: all it may add is the type of
a call whose callee the first pass came upon too early.
-/
namespace Arbor

namespace Scopes

/-- Every name of the one stack is in the same scope of the other, with whatever type. -/
structure Covers (s s' : Scopes) : Prop where
  inner : List.Forall₂ (fun a b => ∀ name, a.contains name → b.contains name) s.inner s'.inner
  outermost : ∀ name, s.outermost.contains name → s'.outermost.contains name

namespace Covers

variable {s s' : Scopes} {name : String}

theorem refl (s : Scopes) : s.Covers s :=
  ⟨List.forall₂_same.mpr fun _ _ _ h => h, fun _ h => h⟩

theorem push (h : s.Covers s') : s.push.Covers s'.push :=
  ⟨.cons (fun _ h => h) h.inner, h.outermost⟩

theorem pop (h : s.Covers s') : s.pop.Covers s'.pop := by
  obtain ⟨inner, outermost⟩ := s
  obtain ⟨inner', outermost'⟩ := s'
  obtain ⟨hi, ho⟩ := h
  cases hi with
  | nil => exact ⟨.nil, ho⟩
  | cons _ hrest => exact ⟨hrest, ho⟩

theorem isBound (h : s.Covers s') (hb : s.isBound name) : s'.isBound name := by
  obtain ⟨scope, hm, hc⟩ := isBound_iff.mp hb
  have hall : List.Forall₂ (fun a b => ∀ name, a.contains name → b.contains name) s.all s'.all :=
    List.rel_append h.inner (.cons h.outermost .nil)
  obtain ⟨i, hi, rfl⟩ := List.getElem_of_mem hm
  have hi' : i < s'.all.length := hall.length_eq ▸ hi
  exact isBound_iff.mpr ⟨s'.all[i], List.getElem_mem hi', hall.get hi hi' name hc⟩

theorem bind_right (h : s.Covers s') (ty : CType) : s.Covers (s'.bind name ty).1 := by
  have wider : ∀ {a b : Table String CType}, (∀ n, a.contains n → b.contains n) →
      ∀ n, a.contains n → (b.set name ty).contains n := fun hab n hn =>
    (Table.contains_set ..).mpr (Or.inl (hab n hn))
  obtain ⟨inner, outermost⟩ := s
  obtain ⟨inner', outermost'⟩ := s'
  obtain ⟨hi, ho⟩ := h
  cases hi with
  | nil =>
    simp only [Scopes.bind]
    split
    · exact ⟨.nil, ho⟩
    · exact ⟨.nil, wider ho⟩
  | cons hfirst hrest =>
    simp only [Scopes.bind]
    split
    · exact ⟨.cons hfirst hrest, ho⟩
    · exact ⟨.cons (wider hfirst) hrest, ho⟩

theorem bind_left (h : s.Covers s') (ty : CType) (hn : s'.top.contains name) :
    (s.bind name ty).1.Covers s' := by
  have narrower : ∀ {a b : Table String CType}, (∀ n, a.contains n → b.contains n) →
      b.contains name → ∀ n, (a.set name ty).contains n → b.contains n := by
    intro a b hab hb n hn
    rcases (Table.contains_set ..).mp hn with hn | rfl
    · exact hab n hn
    · exact hb
  obtain ⟨inner, outermost⟩ := s
  obtain ⟨inner', outermost'⟩ := s'
  obtain ⟨hi, ho⟩ := h
  cases hi with
  | nil =>
    simp only [Scopes.bind]
    split
    · exact ⟨.nil, ho⟩
    · exact ⟨.nil, narrower ho hn⟩
  | cons hfirst hrest =>
    simp only [Scopes.bind]
    split
    · exact ⟨.cons hfirst hrest, ho⟩
    · exact ⟨.cons (narrower hfirst hn) hrest, ho⟩

theorem bind (h : s.Covers s') (ty ty' : CType) :
    (s.bind name ty).1.Covers (s'.bind name ty').1 :=
  (h.bind_right ty').bind_left ty (top_bind ..)

end Covers
end Scopes

theorem Node.unannotated_eq (node : Node) {node' : Node}
    (h : node'.unannotated = node.unannotated) :
    node' = node ∨
      (∃ name ty ty' isConst, node = .symbol name ty isConst ∧ node' = .symbol name ty' isConst) ∨
      ∃ func args ty ty', node = .call func args ty ∧ node' = .call func args ty' := by
  cases node' with
  | symbol name ty' isConst =>
    cases node <;> cases h
    exact Or.inr (Or.inl ⟨_, _, _, _, rfl, rfl⟩)
  | call func args ty' =>
    cases node <;> cases h
    exact Or.inr (Or.inr ⟨_, _, _, _, rfl, rfl⟩)
  | _ =>
    left
    cases node <;> first | exact h | cases h

namespace Tree

/-- The same tree, but that calls without a type may have got one. -/
structure Recalls (t t' : Tree) : Prop where
  size_eq : t'.size = t.size
  parent_eq : ∀ id, t'.parent? id = t.parent? id
  node : ∀ x, t'.get? x = t.get? x ∨ ∃ func args ty, t.get? x = some (.call func args none) ∧
    t'.get? x = some (.call func args (some ty))

namespace Recalls

variable {t t' : Tree} {x : NodeId} {node : Node}

theorem refl (t : Tree) : t.Recalls t := ⟨rfl, fun _ => rfl, fun _ => Or.inl rfl⟩

theorem sameShape (h : t.Recalls t') : t.SameShape t' := by
  refine ⟨h.size_eq, h.parent_eq, fun x => ?_⟩
  rcases h.node x with he | ⟨func, args, ty, hn, hn'⟩
  · rw [he]
  · rw [hn, hn']
    rfl

theorem get?_eq (h : t.Recalls t') (hn : t.get? x = some node)
    (hc : ∀ func args, node ≠ .call func args none) : t'.get? x = some node := by
  rcases h.node x with he | ⟨func, args, ty, hn', -⟩
  · exact he.trans hn
  · cases hn.symm.trans hn'
    exact absurd rfl (hc func args)

theorem setCall (h : t.Recalls t') {func : NodeId} {args : List NodeId} {ty : CType}
    {before : Option CType} (hn : t.get? x = some (.call func args none))
    (hn' : t'.get? x = some (.call func args before)) :
    t.Recalls (t'.setNode x (.call func args (some ty))) := by
  refine ⟨(size_setNode ..).trans h.size_eq, fun id => ?_, fun y => ?_⟩
  · rw [parent?_setNode]
    exact h.parent_eq id
  · by_cases hy : y = x
    · subst hy
      exact Or.inr ⟨func, args, ty, hn, get?_setNode_same _ hn'⟩
    · rw [get?_setNode_other _ hy]
      exact h.node y

end Recalls

theorem SameShape.get?_function {t t' : Tree} (h : t.SameShape t') {id : NodeId}
    {returnType : CType} {name : String} {params : List NodeId} {defn : Option NodeId}
    {isStatic isInline : Bool}
    (hn : t.get? id = some (.function returnType name params defn isStatic isInline)) :
    t'.get? id = some (.function returnType name params defn isStatic isInline) := by
  obtain ⟨node', hn', he⟩ := h.get?_some hn
  rcases Node.unannotated_eq _ he with rfl | ⟨_, _, _, _, h, -⟩ | ⟨_, _, _, _, h, -⟩
  · exact hn'
  · cases h
  · cases h

end Tree

namespace Typer

variable {y y' : Typer}

theorem binaryType_ok {typeOf typeOf' : NodeId → Result} {left right : NodeId} {op : Operator}
    (hc : ∀ c ty, typeOf c = .ok ty → ∃ ty', typeOf' c = .ok ty') {ty : Option CType}
    (h : binaryType typeOf left op right = .ok ty) :
    ∃ ty', binaryType typeOf' left op right = .ok ty' := by
  unfold binaryType at h ⊢
  by_cases hb : op.isBoolean
  · exact ⟨_, if_pos hb⟩
  · rw [if_neg hb] at h ⊢
    split at h
    · exact hc left ty h
    · exact hc right ty h
    · exact ⟨_, rfl⟩
    · exact ⟨_, rfl⟩
    · obtain ⟨l, hl, h⟩ := bind_eq_ok.mp h
      obtain ⟨r, hr, -⟩ := bind_eq_ok.mp h
      obtain ⟨l', hl'⟩ := hc left l hl
      obtain ⟨r', hr'⟩ := hc right r hr
      rw [hl', hr']
      cases l' <;> cases r' <;> exact ⟨_, rfl⟩

/-- Whether an expression can be typed depends on its shape and on the registry only. -/
theorem nodeType_ok {typeOf typeOf' : NodeId → Result} {node node' : Node}
    (hreg : y'.registry = y.registry) (he : node'.unannotated = node.unannotated)
    (hc : ∀ c ty, typeOf c = .ok ty → ∃ ty', typeOf' c = .ok ty') {ty : Option CType}
    (h : y.nodeType typeOf node = .ok ty) : ∃ ty', y'.nodeType typeOf' node' = .ok ty' := by
  rcases node.unannotated_eq he with rfl | hfree
  · cases node' with
    | constant value =>
      simp only [nodeType, recognize, hreg] at h ⊢
      exact ⟨ty, h⟩
    | unary op arg =>
      obtain ⟨argType, harg, -⟩ := bind_eq_ok.mp h
      obtain ⟨argType', harg'⟩ := hc arg argType harg
      exact ⟨_, bind_eq_ok.mpr ⟨argType', harg', rfl⟩⟩
    | binary left op right => exact binaryType_ok hc h
    | augAssign target op value => exact hc target ty h
    | ternary cond thenValue elseValue =>
      obtain ⟨l, hl, h⟩ := bind_eq_ok.mp h
      obtain ⟨r, hr, -⟩ := bind_eq_ok.mp h
      obtain ⟨l', hl'⟩ := hc thenValue l hl
      obtain ⟨r', hr'⟩ := hc elseValue r hr
      exact ⟨_, bind_eq_ok.mpr ⟨l', hl', bind_eq_ok.mpr ⟨r', hr', rfl⟩⟩⟩
    | _ => exact ⟨_, rfl⟩
  · rcases hfree with ⟨_, _, _, _, -, rfl⟩ | ⟨_, _, _, _, -, rfl⟩
    · exact ⟨_, rfl⟩
    · exact ⟨_, rfl⟩

theorem typeTo_ok (hreg : y'.registry = y.registry) (hs : y.tree.SameShape y'.tree) {depth : Nat}
    {id : NodeId} {ty : Option CType} (h : y.typeTo depth id = .ok ty) :
    ∃ ty', y'.typeTo depth id = .ok ty' := by
  induction depth generalizing id ty with
  | zero => cases h
  | succ depth ih =>
    obtain ⟨node, hn, hty⟩ := bind_eq_ok.mp h
    have hnode : y.tree.get? id = some node := by
      unfold Typer.node at hn
      split at hn
      · next hn' =>
        cases hn
        exact Tree.node_eq_ok.mp hn'
      · cases hn
    obtain ⟨node', hnode', he⟩ := hs.get?_some hnode
    obtain ⟨ty', hty'⟩ := nodeType_ok hreg he (fun c _ hc => ih hc) hty
    refine ⟨ty', bind_eq_ok.mpr ⟨node', ?_, hty'⟩⟩
    simp [Typer.node, Tree.node_eq_ok.mpr hnode']

end Typer

namespace Filling

variable {registry : TypeRegistry} {t F : Tree} {root : NodeId} {s s₁ s' r r₁ : Filling}

theorem callType_eq {func : NodeId} {args : List NodeId} {callee : Node}
    (hf : s.tree.get? func = some callee) :
    callType registry func args s =
      match callee.symbolName? with
      | none => .ok none s
      | some name =>
        match s.scopes.lookup? name, args with
        | some ty, _ => .ok (some ty) s
        | none, first :: _ =>
          if polymorphic.contains name then FillM.typeOf registry first s else .ok none s
        | none, [] => .ok none s := by
  simp only [callType, bind, EStateM.bind, node_ok hf]
  cases callee.symbolName? with
  | none => rfl
  | some name =>
    simp only [EStateM.bind, FillM.lookup?]
    cases s.scopes.lookup? name with
    | some ty => rfl
    | none =>
      cases args with
      | nil => rfl
      | cons first rest =>
        simp only
        split <;> rfl

theorem typeOf_ok {id : NodeId} {ty : Option CType} (hs : s.tree.SameShape r.tree)
    (h : FillM.typeOf registry id s = .ok ty s) : ∃ ty', FillM.typeOf registry id r = .ok ty' r := by
  unfold FillM.typeOf at h ⊢
  split at h
  · next found hty =>
    unfold Typer.typeOf at hty ⊢
    obtain ⟨ty', hty'⟩ := @Typer.typeTo_ok ⟨s.tree, registry, s.scopes⟩ ⟨r.tree, registry, r.scopes⟩
      rfl hs _ _ _ hty
    refine ⟨ty', ?_⟩
    simp only [hs.size_eq, hty']
  · cases h

theorem callType_ok {func : NodeId} {args : List NodeId} (hs : s.tree.SameShape r.tree)
    (hcov : s.scopes.Covers r.scopes) (h : callType registry func args s = .ok none s) :
    ∃ found, callType registry func args r = .ok found r := by
  cases hf : s.tree.get? func with
  | none => simp [callType, bind, EStateM.bind, FillM.node, Tree.node, hf] at h
  | some callee =>
    obtain ⟨callee', hf', he⟩ := hs.get?_some hf
    rw [callType_eq hf] at h
    rw [callType_eq hf', Node.blind_symbolName?.eq he]
    cases hname : callee.symbolName? with
    | none => exact ⟨none, rfl⟩
    | some name =>
      rw [hname] at h
      simp only at h ⊢
      cases hr : r.scopes.lookup? name with
      | some ty => exact ⟨some ty, rfl⟩
      | none =>
        -- what the second pass cannot look up, the first could not either
        have hfree : s.scopes.lookup? name = none := by
          rw [Scopes.lookup?_eq_none] at hr ⊢
          exact fun hb => hr (hcov.isBound hb)
        rw [hfree] at h
        cases args with
        | nil => exact ⟨none, rfl⟩
        | cons first rest =>
          simp only at h ⊢
          split at h
          · next hp =>
            rw [if_pos hp]
            exact typeOf_ok hs h
          · next hp => exact ⟨none, if_neg hp⟩

structure Tracks (F : Tree) (s r : Filling) : Prop where
  tree : F.Recalls r.tree
  scopes : s.scopes.Covers r.scopes

/-- Whatever a visit of the first pass does, with `F` as the outcome where it went, the same visit
of the second pass goes through. -/
def Refills (t F : Tree) (visits : Visits) (id : NodeId) : Prop :=
  ∀ s s' r, t.SameShape s.tree → visits id s true s' →
    (∀ x, t.Reach id x → F.get? x = s'.tree.get? x) → Tracks F s r →
    ∃ r', visits id r true r' ∧ Tracks F s' r'

theorem Each.refill {visits : Visits} {ids : List NodeId}
    (hv : ∀ c ∈ ids, ∀ s done s', t.SameShape s.tree → visits c s done s' → Advances t [c] s s')
    (hrefills : ∀ c ∈ ids, Refills t F visits c) (hapart : ids.Pairwise t.Apart)
    (hs : t.SameShape s.tree) (h : Each visits ids s true s')
    (hF : ∀ c ∈ ids, ∀ x, t.Reach c x → F.get? x = s'.tree.get? x) (htracks : Tracks F s r) :
    ∃ r', Each visits ids r true r' ∧ Tracks F s' r' := by
  induction ids generalizing s r with
  | nil =>
    cases h
    exact ⟨r, .nil r, htracks⟩
  | cons c rest ih =>
    obtain ⟨hvc, hvrest⟩ := List.forall_mem_cons.mp hv
    obtain ⟨hc, hrest⟩ := List.forall_mem_cons.mp hrefills
    obtain ⟨hca, hra⟩ := List.pairwise_cons.mp hapart
    obtain ⟨hFc, hFrest⟩ := List.forall_mem_cons.mp hF
    cases h with
    | cons hhead htail =>
      have hs₁ := hs.trans (hvc _ _ _ hs hhead).sameShape
      have hafter := htail.advances hs₁ hvrest
      -- the visits that follow do not come back below `c`
      obtain ⟨r₁, hr₁, htracks₁⟩ := hc _ _ r hs hhead (fun x hx => by
        rw [hFc x hx]
        exact hafter.get?_eq fun c' hm hx' => hca c' hm x hx hx') htracks
      obtain ⟨r', hr', htracks'⟩ := ih hvrest hrest hra hs₁ htail hFrest htracks₁
      exact ⟨r', .cons hr₁ hr', htracks'⟩

theorem closing_call {id func : NodeId} {args : List NodeId} {before : Option CType}
    (hn : F.get? id = some (.call func args none))
    (hn' : r.tree.get? id = some (.call func args before)) (htracks : Tracks F s r)
    (hok : ∃ found, callType registry func args r = .ok found r) :
    ∃ r', Ends (closing registry id (.call func args none)) r true r' ∧ Tracks F s r' := by
  obtain ⟨found, hfound⟩ := hok
  cases found with
  | none => exact ⟨r, by simp [Ends, closing, bind, EStateM.bind, hfound, pure, EStateM.pure], htracks⟩
  | some ty =>
    have ht : r.tree.setType id ty = .ok (r.tree.setNode id (.call func args (some ty))) :=
      bind_eq_ok.mpr ⟨_, Tree.node_eq_ok.mpr hn', rfl⟩
    refine ⟨{ r with tree := r.tree.setNode id (.call func args (some ty)) }, ?_, ?_⟩
    · simp [Ends, closing, bind, EStateM.bind, hfound, FillM.annotate, ht]
    · exact ⟨htracks.tree.setCall hn hn', htracks.scopes⟩

theorem Closes.get?_other {id x : NodeId} {node : Node} {done : Bool}
    (h : Closes registry id node s done s') (hassign : ∀ left right, node ≠ .binary left .assign right)
    (hn : s.tree.get? id = some node) (hx : x ≠ id) : s'.tree.get? x = s.tree.get? x := by
  cases h with
  | types _ ht =>
    obtain rfl := Tree.setType_call_eq hn ht
    exact Tree.get?_setNode_other _ hx
  | declares => exact absurd rfl (hassign _ _)
  | binds | untyped | bound | settled | nothing | fails => rfl

theorem closing_refill {id : NodeId} {node node' : Node} (hclose : Closes registry id node s true s')
    (hassign : ∀ left right, node ≠ .binary left .assign right)
    (hs : s.tree.SameShape r.tree) (hn : s.tree.get? id = some node)
    (hF : F.get? id = s'.tree.get? id)
    (hfound : r₁.tree.get? id = some node') (htracks₁ : F.Recalls r₁.tree) (htracks : Tracks F s r) :
    ∃ r', Ends (closing registry id node') r true r' ∧ Tracks F s' r' := by
  have same : F.get? id = some node → (∀ func args, node ≠ .call func args none) → node' = node := by
    intro hF hne
    exact Option.some.inj (hfound.symm.trans (htracks₁.get?_eq hF hne))
  cases hclose with
  | @binds _ name ty isConst =>
    obtain rfl := same (hF.trans hn) (by intro _ _ h; cases h)
    exact ⟨_, ⟨rfl, rfl⟩, htracks.tree, htracks.scopes.bind ty ty⟩
  | @types _ func args ty tree _ ht =>
    obtain rfl := Tree.setType_call_eq hn ht
    rw [Tree.get?_setNode_same _ hn] at hF
    have hn' := htracks₁.get?_eq hF (by intro _ _ h; cases h)
    cases hfound.symm.trans hn'
    exact ⟨r, ⟨rfl, rfl⟩, htracks.tree, htracks.scopes⟩
  | @untyped _ func args hcall =>
    rcases htracks₁.node id with he | ⟨_, _, ty, hn', hn''⟩
    · cases hfound.symm.trans (he.trans (hF.trans hn))
      have hnow : ∃ before, r.tree.get? id = some (.call func args before) := by
        rcases htracks.tree.node id with he | ⟨_, _, ty, hn', hn''⟩
        · exact ⟨none, he.trans (hF.trans hn)⟩
        · cases (hF.trans hn).symm.trans hn'
          exact ⟨some ty, hn''⟩
      obtain ⟨before, hnow⟩ := hnow
      exact closing_call (hF.trans hn) hnow htracks (callType_ok hs htracks.scopes hcall)
    · cases hfound.symm.trans hn''
      exact ⟨r, ⟨rfl, rfl⟩, htracks⟩
  | declares | bound | settled => exact absurd rfl (hassign _ _)
  | nothing hc =>
    obtain rfl := same (hF.trans hn) (by rintro func args rfl; cases hc)
    rw [closing_eq_pure hc]
    exact ⟨r, ⟨rfl, rfl⟩, htracks⟩

/-- An untyped name that is still so after its visit was so before, and the visit did nothing. -/
theorem visit_untyped {depth : Nat} {left : NodeId} {name : String} {isConst : Bool}
    (hs : t.SameShape s.tree) (hw : t.Within depth left)
    (h : Ends (visitTo registry depth left) s true s')
    (hn : s'.tree.get? left = some (.symbol name none isConst)) : s' = s := by
  have hbefore : s.tree.get? left = some (.symbol name none isConst) := by
    cases (visitTo_advances hs hw h).node left with
    | keeps he => exact he ▸ hn
    | types _ _ _ hn' => cases hn.symm.trans hn'
    | declares _ _ _ _ hn' => cases hn.symm.trans hn'
  cases depth with
  | zero => exact hw.elim
  | succ depth => exact (visit_symbol hbefore).mp h

/-- A target that the first pass declared. The second pass finds the declaration and binds the
name before it visits the value, where the first pass bound it after. -/
theorem declared_refill {depth : Nat} {left right : NodeId} {name : String} {isConst : Bool}
    {ty : CType} (hs : t.SameShape s.tree) (hr : t.SameShape r.tree)
    (hwl : t.Within depth left) (hwr : t.Within depth right)
    (hleft : F.get? left = some (.symbol name (some ty) isConst))
    (hagree : ∀ x, t.Reach right x → F.get? x = s₁.tree.get? x)
    (hright : Refills t F (fun c => Ends (visitTo registry depth c)) right)
    (h : Ends (visitTo registry depth right) s true s₁) (htracks : Tracks F s r) :
    ∃ r', Each (fun c => Ends (visitTo registry depth c)) [left, right] r true r' ∧
      Ends (declareTarget registry left right) r' true r' ∧ F.Recalls r'.tree ∧
      (s₁.scopes.bind name ty).1.Covers r'.scopes := by
  have hne : ∀ func args, (Node.symbol name (some ty) isConst) ≠ .call func args none := by
    intro _ _ h
    cases h
  obtain ⟨r₁, hr₁, hvisit⟩ : ∃ r₁ : Filling, r₁ = { r with scopes := (r.scopes.bind name ty).1 } ∧
      Ends (visitTo registry depth left) r true r₁ := by
    cases depth with
    | zero => exact hwl.elim
    | succ depth =>
      exact ⟨_, rfl, (visit_symbol (htracks.tree.get?_eq hleft hne)).mpr rfl⟩
  have hsame : t.SameShape r₁.tree := by
    rw [hr₁]
    exact hr
  have hearly : Tracks F s r₁ := by
    rw [hr₁]
    exact ⟨htracks.tree, htracks.scopes.bind_right ty⟩
  obtain ⟨r', hvisit', htracks'⟩ := hright s s₁ r₁ hs h hagree hearly
  -- the early binding outlives the visit to the value, where the first pass makes its own
  have htop : r'.scopes.top.contains name := by
    refine (visitTo_advances hsame hwr hvisit').scopes.top name ?_
    rw [hr₁]
    exact Scopes.top_bind ..
  refine ⟨r', .cons hvisit (.cons hvisit' (.nil r')), ends_ok.mpr ?_, htracks'.tree,
    htracks'.scopes.bind_left ty htop⟩
  refine declareTarget_settled (htracks'.tree.get?_eq hleft hne) ?_
  intro _ _ h
  cases h

theorem bound_refill {left right : NodeId} {name : String} {isConst : Bool}
    (hn : F.get? left = some (.symbol name none isConst)) (hb : s.scopes.isBound name)
    (htracks : Tracks F s r) : Ends (declareTarget registry left right) r true r := by
  refine ends_ok.mpr (declareTarget_bound (htracks.tree.get?_eq hn ?_) (htracks.scopes.isBound hb))
  intro _ _ h
  cases h

theorem settled_refill {left right : NodeId} {node : Node} (hn : F.get? left = some node)
    (hne : ∀ name isConst, node ≠ .symbol name none isConst) (htree : F.Recalls r.tree) :
    Ends (declareTarget registry left right) r true r := by
  refine ends_ok.mpr ?_
  rcases htree.node left with he | ⟨_, _, ty, -, hn'⟩
  · exact declareTarget_settled (he.trans hn) hne
  · refine declareTarget_settled hn' ?_
    intro _ _ h
    cases h

theorem assign_refill {depth : Nat} {id left right : NodeId} (hs : t.SameShape s.tree)
    (hr : t.SameShape r.tree) (hw : t.Within (depth + 1) id)
    (hn : s.tree.get? id = some (.binary left .assign right)) (hapart : t.Apart left right)
    (hrefills : ∀ c ∈ [left, right], Refills t F (fun c => Ends (visitTo registry depth c)) c)
    (heach : Each (fun c => Ends (visitTo registry depth c)) [left, right] s true s₁)
    (hclose : Closes registry id (.binary left .assign right) s₁ true s')
    (hagree : ∀ x, t.Reach id x → F.get? x = s'.tree.get? x) (htracks : Tracks F s r) :
    ∃ r₁ r', Each (fun c => Ends (visitTo registry depth c)) [left, right] r true r₁ ∧
      Ends (declareTarget registry left right) r₁ true r' ∧ Tracks F s' r' := by
  have hwl := hs.child_within hw hn (c := left) (by simp)
  have hwr := hs.child_within hw hn (c := right) (by simp)
  have hleft : F.get? left = s'.tree.get? left := hagree left (.single hwl.1)
  -- unless the target is declared now, both sides are as the visits to them left them
  have again : s' = s₁ → ∃ r₁, Each (fun c => Ends (visitTo registry depth c)) [left, right] r true r₁ ∧
      Tracks F s₁ r₁ := by
    rintro rfl
    refine Each.refill (visits_advance registry hs hw hn) hrefills
      (by simpa using hapart) hs heach (fun c hc x hx => hagree x (.head ?_ hx)) htracks
    exact (hs.child_within hw hn hc).1
  cases hclose with
  | @declares _ _ _ name isConst ty hl hb =>
    cases heach with
    | cons hhead htail =>
      cases htail with
      | cons hright hnil =>
        cases hnil
        have hgone := visitTo_advances (hs.trans (visitTo_advances hs hwl.2 hhead).sameShape) hwr.2 hright
        have hkept := hgone.get?_eq (x := left) (by simpa using hapart left .refl)
        obtain rfl := visit_untyped hs hwl.2 hhead (hkept.symm.trans hl)
        rw [Tree.get?_setNode_same _ hl] at hleft
        have hvalue : ∀ x, t.Reach right x → F.get? x = s₁.tree.get? x := by
          intro x hx
          rw [hagree x (.head hwr.1 hx)]
          refine Tree.get?_setNode_other _ ?_
          rintro rfl
          exact hapart _ .refl hx
        obtain ⟨r', heach', hclose', htree, hcov⟩ := declared_refill hs hr hwl.2 hwr.2 hleft hvalue
          (hrefills right (by simp)) hright htracks
        exact ⟨r', r', heach', hclose', htree, hcov⟩
  | bound hl hb =>
    obtain ⟨r₁, heach', htracks₁⟩ := again rfl
    exact ⟨r₁, r₁, heach', bound_refill (hleft.trans hl) hb htracks₁, htracks₁⟩
  | settled hl hne =>
    obtain ⟨r₁, heach', htracks₁⟩ := again rfl
    exact ⟨r₁, r₁, heach', settled_refill (hleft.trans hl) hne htracks₁.tree, htracks₁⟩
  | nothing hc => cases hc

theorem function_refill {depth : Nat} {id : NodeId} {returnType : CType} {name : String}
    {params : List NodeId} {defn : Option NodeId} {isStatic isInline : Bool}
    (hs : t.SameShape s.tree) (hw : t.Within (depth + 1) id)
    (hn : s.tree.get? id = some (.function returnType name params defn isStatic isInline))
    (hapart : (Node.function returnType name params defn isStatic isInline).children.Pairwise t.Apart)
    (hrefills : ∀ c ∈ (Node.function returnType name params defn isStatic isInline).children,
      Refills t F (fun c => Ends (visitTo registry depth c)) c)
    (heach : Each (fun c => Ends (visitTo registry depth c)) (params ++ defn.toList)
      { s with scopes := (s.scopes.bind name returnType).1.push } true s₁)
    (hagree : ∀ x, t.Reach id x → F.get? x = s₁.tree.get? x) (htracks : Tracks F s r) :
    ∃ r₁, Each (fun c => Ends (visitTo registry depth c)) (params ++ defn.toList)
      { r with scopes := (r.scopes.bind name returnType).1.push } true r₁ ∧ Tracks F s₁ r₁ := by
  have hchild : ∀ c ∈ (Node.function returnType name params defn isStatic isInline).children,
      t.Child id c ∧ t.Within depth c := by
    intro c hc
    exact hs.child_within hw hn hc
  rw [Node.children_function] at hapart hrefills hchild
  have hadvance : ∀ c ∈ params ++ defn.toList, ∀ s done s', t.SameShape s.tree →
      Ends (visitTo registry depth c) s done s' → Advances t [c] s s' := by
    intro c hc s₀ done s' hs₀ hv
    exact visitTo_advances hs₀ (hchild c hc).2 hv
  have hbelow : ∀ c ∈ params ++ defn.toList, ∀ x, t.Reach c x → F.get? x = s₁.tree.get? x := by
    intro c hc x hx
    exact hagree x (.head (hchild c hc).1 hx)
  have hs₀ : t.SameShape
      (Filling.tree { s with scopes := (s.scopes.bind name returnType).1.push }) := hs
  exact Each.refill hadvance hrefills hapart hs₀ heach hbelow
    ⟨htracks.tree, (htracks.scopes.bind returnType returnType).push⟩

theorem plain_refill {depth : Nat} {id : NodeId} {node : Node} (hs : t.SameShape s.tree)
    (hr : t.SameShape r.tree) (hw : t.Within (depth + 1) id) (hn : s.tree.get? id = some node)
    (hassign : ∀ left right, node ≠ .binary left .assign right)
    (hapart : node.children.Pairwise t.Apart)
    (hrefills : ∀ c ∈ node.children, Refills t F (fun c => Ends (visitTo registry depth c)) c)
    (heach : Each (fun c => Ends (visitTo registry depth c)) node.visited s true s₁)
    (hclose : Closes registry id node s₁ true s')
    (hagree : ∀ x, t.Reach id x → F.get? x = s'.tree.get? x) (htracks : Tracks F s r) :
    ∃ node' r₁ r', r.tree.get? id = some node' ∧ node'.unannotated = node.unannotated ∧
      Each (fun c => Ends (visitTo registry depth c)) node.visited r true r₁ ∧
      Ends (closing registry id node') r₁ true r' ∧ Tracks F s' r' := by
  have hadv := heach.advances hs (visits_advance registry hs hw hn)
  have hkept := hadv.get?_visited hs hw hn
  have hbelow : ∀ c ∈ node.visited, ∀ x, t.Reach c x → F.get? x = s₁.tree.get? x := by
    intro c hc x hx
    have hchild := hs.child_within hw hn (node.visited_sublist.subset hc)
    rw [hagree x (.head hchild.1 hx)]
    refine hclose.get?_other hassign hkept ?_
    rintro rfl
    exact hw.no_return (.head' hchild.1 hx)
  obtain ⟨r₁, heach', htracks₁⟩ := Each.refill (visits_advance registry hs hw hn)
    (fun c hc => hrefills c (node.visited_sublist.subset hc))
    (hapart.sublist node.visited_sublist) hs heach hbelow htracks
  obtain ⟨node', hn', hsame⟩ := (hs.symm.trans hr).get?_some hn
  have hs₁ : s₁.tree.SameShape r₁.tree :=
    hadv.sameShape.symm.trans (hs.symm.trans
      (hr.trans (htracks.tree.sameShape.symm.trans htracks₁.tree.sameShape)))
  obtain ⟨r', hclose', htracks'⟩ := closing_refill hclose hassign hs₁ hkept (hagree id .refl) hn'
    htracks.tree htracks₁
  exact ⟨node', r₁, r', hn', hsame, heach', hclose', htracks'⟩

theorem refills_visit (hroot : t.WellLinked root) (hF : t.SameShape F) {depth : Nat} {id : NodeId}
    (hreach : t.Reach root id) (hw : t.Within depth id) :
    Refills t F (fun c => Ends (visitTo registry depth c)) id := by
  induction depth generalizing id with
  | zero => exact hw.elim
  | succ depth ih =>
    intro s s' r hs h hagree htracks
    have hr : t.SameShape r.tree := hF.trans htracks.tree.sameShape
    have hsr : s.tree.SameShape r.tree := hs.symm.trans hr
    have refills : ∀ {node : Node}, s.tree.get? id = some node → ∀ c ∈ node.children,
        Refills t F (fun c => Ends (visitTo registry depth c)) c := by
      intro node hn c hc
      have hchild := hs.child_within hw hn hc
      exact ih (hreach.tail hchild.1) hchild.2
    have apart : ∀ {node : Node}, s.tree.get? id = some node → node.children.Pairwise t.Apart := by
      intro node hn
      rw [← Tree.childrenOf_eq hn, hs.childrenOf_eq]
      exact hroot.children_apart hreach
    cases ends_visitTo.mp h with
    | function hn heach =>
      obtain ⟨r₁, heach', htracks₁⟩ :=
        function_refill hs hw hn (apart hn) (refills hn) heach hagree htracks
      exact ⟨{ r₁ with scopes := r₁.scopes.pop },
        ends_visitTo.mpr (.function (hsr.get?_function hn) heach'), htracks₁.tree, htracks₁.scopes.pop⟩
    | @close node _ _ _ hn hf heach hclose =>
      have hclose := closes_of_ends hclose
      by_cases ha : ∃ left right, node = .binary left .assign right
      · obtain ⟨left, right, rfl⟩ := ha
        obtain ⟨r₁, r', heach', hclose', htracks'⟩ := assign_refill hs hr hw hn
          (by simpa using apart hn) (refills hn) heach hclose hagree htracks
        exact ⟨r', ends_visitTo.mpr (.close (hsr.symm.get?_binary hn) rfl heach' hclose'), htracks'⟩
      · have hassign : ∀ left right, node ≠ .binary left .assign right := by
          intro left right he
          exact ha ⟨left, right, he⟩
        obtain ⟨node', r₁, r', hn', hsame, heach', hclose', htracks'⟩ :=
          plain_refill hs hr hw hn hassign (apart hn) (refills hn) heach hclose hagree htracks
        rw [← Node.blind_isFunction.eq hsame] at hf
        rw [← Node.blind_visited.eq hsame] at heach'
        exact ⟨r', ends_visitTo.mpr (.close hn' hf heach' hclose'), htracks'⟩

end Filling
end Arbor
