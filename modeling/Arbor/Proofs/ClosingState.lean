import Arbor.Proofs.Binding

/-!
The state in which a node is closed.

What a node does once its children are visited depends on the annotations and the bindings of that
moment. `ComesTo` says which moment that is. Where every node has one holder there is no more than
one for each node; a pass that goes through comes to all that it visits, an error at such a moment
is the error of the pass, and what is typed there keeps its type to the end.
-/
namespace Arbor

namespace Node

def hasType : Node → Bool
  | .symbol _ ty _ => ty.isSome
  | .call _ _ ty => ty.isSome
  | _ => false

end Node

theorem Tree.SameShape.symbolName_eq {t t' : Tree} (h : t.SameShape t') (id : NodeId) :
    (t'.get? id).bind Node.symbolName? = (t.get? id).bind Node.symbolName? := by
  have hnode := h.node_eq id
  cases hn : t.get? id <;> cases hn' : t'.get? id <;> simp_all
  exact Node.blind_symbolName?.eq hnode

theorem Tree.SameShape.keepsName {t t' : Tree} (h : t.SameShape t') {id : NodeId} {name : String}
    (hn : t.Names id name) : t'.Names id name :=
  (h.symbolName_eq id).trans hn

namespace Filling

/-- In a visit to `id` that starts in `s`, the children of `x` have been visited by `mid`, and `x`
itself is closed next. -/
inductive ComesTo (registry : TypeRegistry) :
    (depth : Nat) → (id : NodeId) → (s : Filling) → (x : NodeId) → (mid : Filling) → Prop where
  | here {depth id s node mid} : s.tree.get? id = some node → node.isFunction = false →
      visitEach (visitTo registry depth) node.visited s = .ok () mid →
      ComesTo registry (depth + 1) id s id mid
  | inside {depth id s node front c back s₁ x mid} : s.tree.get? id = some node →
      node.visited = front ++ c :: back →
      visitEach (visitTo registry depth) front (s.enter node) = .ok () s₁ →
      ComesTo registry depth c s₁ x mid → ComesTo registry (depth + 1) id s x mid

/-- A node is closed in `mid` when `root` is filled from `s`. -/
def ClosedIn (registry : TypeRegistry) (root : NodeId) (s : Filling) (x : NodeId) (mid : Filling) :
    Prop :=
  ComesTo registry (s.tree.size + 1) root s x mid

def KeepsTypes (s s' : Filling) : Prop :=
  ∀ x node, s.tree.get? x = some node → node.hasType → s'.tree.get? x = some node

theorem KeepsTypes.trans {s s₁ s' : Filling} (h : KeepsTypes s s₁) (k : KeepsTypes s₁ s') :
    KeepsTypes s s' :=
  fun x node hn ht => k x node (h x node hn ht) ht

theorem Advances.keepsTypes {t : Tree} {ids : List NodeId} {s s' : Filling}
    (h : Advances t ids s s') : KeepsTypes s s' := by
  intro x node hn ht
  cases h.node x with
  | keeps he => exact he.trans hn
  | types _ _ hs => cases hn.symm.trans hs; cases ht
  | declares _ _ _ hs => cases hn.symm.trans hs; cases ht

section Runs

variable {registry : TypeRegistry} {visit : NodeId → FillM Unit} {depth : Nat} {id c : NodeId}
  {front : List NodeId} {s s₁ s' : Filling} {node : Node} {e : InferError}

theorem visitEach_ok {ids : List NodeId} :
    visitEach visit ids s = .ok () s' ↔ Each (fun c => Ends (visit c)) ids s true s' := by
  rw [← ends_visitEach, ends_ok]

theorem visitEach_error (back : List NodeId) (hfront : visitEach visit front s = .ok () s₁)
    (hc : visit c s₁ = .error e s') :
    visitEach visit (front ++ c :: back) s = .error e s' := by
  induction front generalizing s with
  | nil =>
    cases hfront
    simp [visitEach, bind, EStateM.bind, hc]
  | cons f front ih =>
    simp only [visitEach, bind, EStateM.bind, List.cons_append] at hfront ⊢
    cases hf : visit f s with
    | ok _ s₂ =>
      rw [hf] at hfront
      exact ih hfront
    | error e' s₂ =>
      rw [hf] at hfront
      cases hfront

theorem visitTo_succ (hn : s.tree.get? id = some node) :
    visitTo registry (depth + 1) id s =
      visitNode registry (visitTo registry depth) id node s := by
  simp [visitTo, bind, EStateM.bind, node_ok hn]

theorem visitTo_error (hn : s.tree.get? id = some node)
    (he : visitEach (visitTo registry depth) node.visited (s.enter node) = .error e s₁) :
    ∃ s', visitTo registry (depth + 1) id s = .error e s' := by
  rw [visitTo_succ hn]
  cases hf : node.isFunction with
  | true =>
    cases node <;> cases hf
    rename_i returnType name params defn isStatic isInline
    simp only [Node.visited, Node.children_function, enter] at he
    simp only [visitNode, bind, EStateM.bind, FillM.bind, FillM.inScope, he]
    exact ⟨_, rfl⟩
  | false =>
    rw [enter_eq s hf] at he
    rw [visitNode_eq hf]
    simp [bind, EStateM.bind, he]

end Runs

namespace Awaits

variable {registry : TypeRegistry} {t : Tree} {root : NodeId} {depth : Nat} {id c : NodeId}
  {front back : List NodeId} {s s₁ : Filling} {node : Node}

theorem past (h : Awaits t root depth s.tree (front ++ c :: back))
    (he : visitEach (visitTo registry depth) front s = .ok () s₁) :
    Awaits t root depth s₁.tree (c :: back) := by
  induction front generalizing s with
  | nil =>
    cases he
    exact h
  | cons f front ih =>
    cases visitEach_ok.mp he with
    | cons hf hrest =>
      have hadv := visitTo_advances h.shape (h.within f (by simp)) hf
      exact ih (h.next hadv) (visitEach_ok.mpr hrest)

theorem inside (h : Awaits t root (depth + 1) s.tree [id]) (hroot : t.WellLinked root)
    (hn : s.tree.get? id = some node) (hsplit : node.visited = front ++ c :: back)
    (he : visitEach (visitTo registry depth) front (s.enter node) = .ok () s₁) :
    Awaits t root depth s₁.tree [c] := by
  have hall := h.children hroot (h.get?_eq.symm.trans hn)
  rw [hsplit, ← enter_tree s node] at hall
  exact (hall.past he).head

end Awaits

section Moments

variable {registry : TypeRegistry} {t : Tree} {root : NodeId} {depth : Nat} {id x : NodeId}
  {s s' mid mid' : Filling} {node : Node} {done : Bool}

theorem Each.imp {visits visits' : Visits} {ids : List NodeId} (h : Each visits ids s done s')
    (hv : ∀ c s done s', visits c s done s' → visits' c s done s') : Each visits' ids s done s' := by
  induction h with
  | nil s => exact .nil s
  | cons hc _ ih => exact .cons (hv _ _ _ _ hc) ih
  | stop hc => exact .stop (hv _ _ _ _ hc)

theorem Each.run {ids : List NodeId} (h : Each (Awaited registry t root depth) ids s true s') :
    visitEach (visitTo registry depth) ids s = .ok () s' :=
  visitEach_ok.mpr (h.imp fun _ _ _ _ hc => hc.2)

/-- A pass that goes through comes to every node that it visits, functions apart. -/
theorem Awaited.comesTo (hroot : t.WellLinked root)
    (h : Awaited registry t root depth id s true s') (hseen : t.Seen id x)
    (hx : t.get? x = some node) (hf : node.isFunction = false) :
    ∃ mid, ComesTo registry depth id s x mid := by
  induction depth generalizing id s s' with
  | zero => exact (h.1.within id (List.mem_singleton_self id)).elim
  | succ depth ih =>
    obtain ⟨holder, done₁, s₁, hn, he, hleave⟩ := h.enters hroot
    have hgone : done₁ = true := by
      rcases hleave with ⟨hdone, -⟩ | ⟨hdone, -⟩
      · exact hdone.symm
      · exact hdone
    subst hgone
    have hhere := h.1.get?_eq.trans hn
    rcases hseen.cases_down hn with rfl | ⟨c, hc, hcx⟩
    · cases hn.symm.trans hx
      rw [enter_eq s hf] at he
      exact ⟨s₁, .here hhere hf he.run⟩
    · obtain ⟨front, back, hsplit⟩ := List.append_of_mem hc
      rw [hsplit] at he
      rcases each_append.mp he with ⟨s₂, hfront, hback⟩ | ⟨hfalse, -⟩
      · cases hback with
        | cons hvisit _ =>
          obtain ⟨mid, hmid⟩ := ih hvisit hcx
          exact ⟨mid, .inside hhere hsplit hfront.run hmid⟩
      · cases hfalse

theorem Awaited.declaredIn {d : NodeId} {name : String}
    (hroot : t.WellLinked root) (h : Awaited registry t root depth id s done s')
    (hd : Declared s s' d name) :
    ∃ b right mid, ComesTo registry depth id s b mid ∧
      t.get? b = some (.binary d .assign right) ∧ ¬ mid.scopes.isBound name := by
  induction depth generalizing id s done s' with
  | zero => exact (h.1.within id (List.mem_singleton_self id)).elim
  | succ depth ih =>
    cases h.declares hroot hd with
    | here hn he hfree =>
      exact ⟨id, _, _, .here (h.1.get?_eq.trans hn) rfl he.run, hn, hfree⟩
    | inside hn hsplit hfront hvisit hd =>
      obtain ⟨b, right, mid, hmid, hb, hfree⟩ := ih hvisit hd
      exact ⟨b, right, mid, .inside (h.1.get?_eq.trans hn) hsplit hfront.run hmid, hb, hfree⟩

variable (hroot : t.WellLinked root) (ha : Awaits t root depth s.tree [id])

include hroot ha

theorem ComesTo.seen (h : ComesTo registry depth id s x mid) : t.Seen id x := by
  induction h with
  | here => exact .refl
  | inside hn hsplit hfront _ ih =>
    have hn' := ha.get?_eq.symm.trans hn
    exact .head ⟨_, hn', by simp [hsplit]⟩ (ih (ha.inside hroot hn hsplit hfront))

theorem ComesTo.own (h : ComesTo registry depth id s x mid) :
    ∃ node depth' s₀, t.get? x = some node ∧ node.isFunction = false ∧
      Awaits t root (depth' + 1) s₀.tree [x] ∧
      Each (Awaited registry t root depth') node.visited s₀ true mid := by
  induction h with
  | here hn hf he =>
    have hn' := ha.get?_eq.symm.trans hn
    exact ⟨_, _, _, hn', hf, ha, (ha.children hroot hn').each (visitEach_ok.mp he)⟩
  | inside hn hsplit hfront _ ih => exact ih (ha.inside hroot hn hsplit hfront)

/-- There is one such moment at most. -/
theorem ComesTo.unique (h : ComesTo registry depth id s x mid)
    (h' : ComesTo registry depth id s x mid') : mid = mid' := by
  induction h with
  | here hn hf he =>
    cases h' with
    | here hn' _ he' =>
      cases hn.symm.trans hn'
      cases he.symm.trans he'
      rfl
    | @inside _ _ _ _ _ c _ _ _ _ hn' hsplit hfront h' =>
      have hbelow := h'.seen hroot (ha.inside hroot hn' hsplit hfront)
      have hchild := Tree.child_of_visited (ha.get?_eq.symm.trans hn') (c := c) (by simp [hsplit])
      exact absurd rfl (hroot.ne_of_below (ha.reach _ (by simp)) hchild hbelow.reach)
  | @inside _ id s node front c back s₁ x mid hn hsplit hfront h ih =>
    have hin := ha.inside hroot hn hsplit hfront
    have hid := ha.reach id (by simp)
    have hknown := ha.get?_eq.symm.trans hn
    have hchild := Tree.child_of_visited hknown (c := c) (by simp [hsplit])
    cases h' with
    | here => exact absurd rfl (hroot.ne_of_below hid hchild (h.seen hroot hin).reach)
    | @inside _ _ _ _ front' c' back' s₁' _ _ hn' hsplit' hfront' h' =>
      cases hn.symm.trans hn'
      have hin' := ha.inside hroot hn hsplit' hfront'
      have hchild' := Tree.child_of_visited hknown (c := c') (by simp [hsplit'])
      obtain rfl := hroot.child_unique hid hchild hchild' (h.seen hroot hin).reach
        (h'.seen hroot hin').reach
      have hnodup := hroot.visited_nodup hid hknown
      rw [hsplit] at hsplit' hnodup
      have hout : c ∉ front ∧ c ∉ back := by
        simp only [List.nodup_append, List.nodup_cons, List.mem_cons] at hnodup
        exact ⟨fun hm => hnodup.2.2 c hm c (Or.inl rfl) rfl, hnodup.2.1.1⟩
      obtain ⟨rfl, -⟩ := (List.append_cons_inj_of_notMem hout.1 hout.2).mp hsplit'
      cases hfront.symm.trans hfront'
      exact ih hin h'

theorem ComesTo.shape (h : ComesTo registry depth id s x mid) : t.SameShape mid.tree := by
  obtain ⟨node, depth', s₀, -, -, ha', he⟩ := h.own hroot ha
  exact ha'.shape.trans (he.awaited_advances ha'.shape).sameShape

theorem ComesTo.get?_eq (h : ComesTo registry depth id s x mid) (hx : t.get? x = some node) :
    mid.tree.get? x = some node := by
  obtain ⟨node', depth', s₀, hx', -, ha', he⟩ := h.own hroot ha
  cases hx.symm.trans hx'
  have hw := ha'.within x (List.mem_singleton_self x)
  exact (he.awaited_advances ha'.shape).get?_visited ha'.shape hw (ha'.get?_eq.trans hx)

/-- When an assignment is closed, a target without a type is still without it. -/
theorem ComesTo.target {d right : NodeId} {name : String} {isConst : Bool}
    (h : ComesTo registry depth id s x mid) (hx : t.get? x = some (.binary d .assign right))
    (hd : t.get? d = some (.symbol name none isConst)) :
    mid.tree.get? d = some (.symbol name none isConst) := by
  obtain ⟨node, depth', s₀, hx', -, ha', he⟩ := h.own hroot ha
  cases hx.symm.trans hx'
  have hreach := ha'.reach x (List.mem_singleton_self x)
  have hin := he.awaited_advances ha'.shape
  have hfresh := ha'.fresh x (List.mem_singleton_self x) d (Tree.Reach.child .refl hx (by simp))
  exact (hin.symbol (hfresh.trans hd)).resolve_right (not_declared_below hroot hreach hx hin)

theorem ComesTo.fails {e : InferError} (h : ComesTo registry depth id s x mid)
    (hx : t.get? x = some node) (he : closing registry x node mid = .error e s') :
    ∃ last, visitTo registry depth id s = .error e last := by
  induction h with
  | here hn hf hrun =>
    cases hx.symm.trans (ha.get?_eq.symm.trans hn)
    rw [visitTo_succ hn, visitNode_eq hf]
    simp only [bind, EStateM.bind, hrun]
    exact ⟨s', he⟩
  | @inside _ _ _ _ _ _ back _ _ _ hn hsplit hfront _ ih =>
    obtain ⟨last, herror⟩ := ih (ha.inside hroot hn hsplit hfront) hx he
    have hstop := visitEach_error back hfront herror
    rw [← hsplit] at hstop
    exact visitTo_error hn hstop

/-- What is typed at such a moment is so in the end, also if the pass fails later. -/
theorem ComesTo.run (h : ComesTo registry depth id s x mid) (hx : t.get? x = some node)
    (he : Ends (visitTo registry depth id) s done s') :
    ∃ done' s₁, Ends (closing registry x node) mid done' s₁ ∧ KeepsTypes s₁ s' := by
  induction h generalizing done s' with
  | here hn hf hrun =>
    cases hx.symm.trans (ha.get?_eq.symm.trans hn)
    rw [Ends, visitTo_succ hn, visitNode_eq hf] at he
    simp only [bind, EStateM.bind, hrun] at he
    exact ⟨done, s', he, fun _ _ hn _ => hn⟩
  | @inside _ id s holder front c back s₁ x mid hn hsplit hfront _ ih =>
    have hin := ha.inside hroot hn hsplit hfront
    obtain ⟨holder', done₁, s₂, hn', heach, hleave⟩ :=
      Awaited.enters hroot (⟨ha, he⟩ : Awaited registry t root _ id s done s')
    cases hn.symm.trans (ha.get?_eq.trans hn')
    have hshape : t.SameShape (s.enter holder).tree := enter_tree s holder ▸ ha.shape
    have hlast : KeepsTypes s₂ s' := by
      rcases hleave with ⟨-, hs', -⟩ | ⟨-, -, hkept, hclose⟩
      · exact fun _ _ hn _ => hs' ▸ hn
      · have hshape := hshape.trans (heach.awaited_advances hshape).sameShape
        exact (hclose.advances hshape hkept).keepsTypes
    rw [hsplit] at heach
    rcases each_append.mp heach with ⟨s₁', hfront', hback⟩ | ⟨-, hfront'⟩
    · cases hfront.symm.trans hfront'.run
      cases hback with
      | cons hc hrest =>
        obtain ⟨done', s₃, hclose, hkeeps⟩ := ih hin hx hc.2
        have hthen := hrest.awaited_advances (hin.shape.trans hc.advances.sameShape)
        exact ⟨done', s₃, hclose, hkeeps.trans (hthen.keepsTypes.trans hlast)⟩
      | stop hc =>
        obtain ⟨done', s₃, hclose, hkeeps⟩ := ih hin hx hc.2
        exact ⟨done', s₃, hclose, hkeeps.trans hlast⟩
    · -- the visits to the first children went through
      have hfalse := ends_visitEach.mpr (hfront'.imp fun _ _ _ _ hc => hc.2)
      rw [Ends, hfront] at hfalse
      cases hfalse.1

end Moments

theorem closedIn_exists {registry : TypeRegistry} {root x : NodeId} {s s' : Filling} {node : Node}
    (hv : s.tree.validate root = .ok ()) (h : fill registry root s = .ok () s')
    (hseen : s.tree.Seen root x) (hx : s.tree.get? x = some node) (hf : node.isFunction = false) :
    ∃ mid, ClosedIn registry root s x mid ∧
      ∀ mid', ClosedIn registry root s x mid' → mid' = mid := by
  have hroot := (Tree.wellFormed_of_validate hv).region
  have ha : Awaits s.tree root _ s.tree [root] := .start hroot
  have hvisit : Awaited registry s.tree root (s.tree.size + 1) root s true s' := ⟨ha, ends_ok.mpr h⟩
  obtain ⟨mid, hmid⟩ := hvisit.comesTo hroot hseen hx hf
  exact ⟨mid, hmid, fun mid' hmid' => hmid'.unique hroot ha hmid⟩

end Filling
end Arbor
