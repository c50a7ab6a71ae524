import Arbor.Proofs.Annotation

/-!
What one visit of the filling pass does, whether it goes through or fails.

A function is visited in a scope of its own. Every other node is closed after its children: a
declaration binds its name, a call takes the type of its callee, and an assignment declares a
target that nothing binds. `Turn` says so once for each visit; `Advances` is what every visit comes
to: annotations are added below the visited node only, a symbol gets one only where its name is
unbound, and no scope but the innermost is written.
-/
namespace Arbor

namespace Scopes

def top (s : Scopes) : Table String CType := s.inner.headD s.outermost

/-- Only the innermost scope is written, and it keeps its names. -/
structure Grows (s s' : Scopes) : Prop where
  tail : s'.inner.tail = s.inner.tail
  depth : s'.inner.length = s.inner.length
  outermost : s.inner ≠ [] → s'.outermost = s.outermost
  top : ∀ name, s.top.contains name → s'.top.contains name

theorem isBound_iff {s : Scopes} {name : String} :
    s.isBound name ↔ ∃ scope ∈ s.all, scope.contains name := by
  simp only [isBound, lookup?, List.findSome?_isSome_iff, Table.contains]

theorem isBound_top {s : Scopes} {name : String} (h : s.top.contains name) : s.isBound name := by
  refine isBound_iff.mpr ⟨s.top, ?_, h⟩
  unfold top all
  cases s.inner <;> simp

theorem isBound_push {s : Scopes} {name : String} : s.push.isBound name ↔ s.isBound name := by
  simp [isBound_iff, push, all, Table.contains]

theorem lookup?_eq_none {s : Scopes} {name : String} : s.lookup? name = none ↔ ¬ s.isBound name := by
  simp [isBound]

namespace Grows

variable {s s' s'' : Scopes}

theorem refl (s : Scopes) : s.Grows s := ⟨rfl, rfl, fun _ => rfl, fun _ h => h⟩

theorem trans (h : s.Grows s') (k : s'.Grows s'') : s.Grows s'' := by
  refine ⟨k.tail.trans h.tail, k.depth.trans h.depth, fun hne => ?_, fun n hn => k.top n (h.top n hn)⟩
  have hne' : s'.inner ≠ [] := by
    intro he
    have hlen := h.depth
    rw [he, List.length_nil] at hlen
    exact hne (List.length_eq_zero_iff.mp hlen.symm)
  exact (k.outermost hne').trans (h.outermost hne)

theorem all_eq (h : s.Grows s') : ∃ rest, s.all = s.top :: rest ∧ s'.all = s'.top :: rest := by
  have htail := h.tail
  have hdepth := h.depth
  have houter := h.outermost
  unfold Scopes.all Scopes.top
  cases hi : s.inner with
  | nil =>
    rw [hi, List.length_nil, List.length_eq_zero_iff] at hdepth
    rw [hdepth]
    exact ⟨[], rfl, rfl⟩
  | cons first rest =>
    cases hi' : s'.inner with
    | nil => simp [hi, hi'] at hdepth
    | cons first' rest' =>
      rw [hi] at htail houter
      rw [hi'] at htail
      obtain rfl : rest' = rest := htail
      rw [houter (by simp)]
      exact ⟨rest' ++ [s.outermost], rfl, rfl⟩

theorem isBound (h : s.Grows s') {name : String} (hb : s.isBound name) : s'.isBound name := by
  obtain ⟨rest, hall, hall'⟩ := h.all_eq
  obtain ⟨scope, hm, hc⟩ := isBound_iff.mp hb
  rw [hall] at hm
  rcases List.mem_cons.mp hm with rfl | hm
  · exact isBound_top (h.top name hc)
  · exact isBound_iff.mpr ⟨scope, hall' ▸ List.mem_cons_of_mem _ hm, hc⟩

theorem pop_eq (h : s.push.Grows s') : s'.pop = s := by
  -- only the scope that was pushed can have been written
  have htail : s'.inner.tail = s.inner := h.tail
  have houter : s'.outermost = s.outermost := h.outermost (by simp [push])
  rw [pop, htail, houter]

theorem bind (s : Scopes) (name : String) (ty : CType) : s.Grows (s.bind name ty).1 := by
  unfold Scopes.bind
  split
  · next hi =>
    split
    · exact refl s
    · refine ⟨rfl, rfl, fun hne => absurd hi hne, fun n hn => ?_⟩
      simp only [Scopes.top, hi, List.headD_nil] at hn ⊢
      exact (Table.contains_set ..).mpr (Or.inl hn)
  · next scope rest hi =>
    split
    · exact refl s
    · refine ⟨by simp [hi], by simp [hi], fun _ => rfl, fun n hn => ?_⟩
      simp only [Scopes.top, hi, List.headD_cons] at hn ⊢
      exact (Table.contains_set ..).mpr (Or.inl hn)

end Grows

theorem top_bind (s : Scopes) (name : String) (ty : CType) :
    (s.bind name ty).1.top.contains name := by
  unfold Scopes.bind
  split
  · next hi =>
    split
    · next hc => simpa [top, hi] using hc
    · simp [top, hi, Table.contains_set]
  · next scope rest hi =>
    split
    · next hc => simpa [top, hi] using hc
    · simp [top, Table.contains_set]

end Scopes

namespace Node

def isFunction : Node → Bool
  | .function _ _ _ _ _ _ => true
  | _ => false

/-- Something is left to do once the children are visited. -/
def isClosed : Node → Bool
  | .symbol _ (some _) _ => true
  | .call _ _ none => true
  | .binary _ .assign _ => true
  | _ => false

/-- The children that are visited: a callee is no variable. -/
def visited : Node → List NodeId
  | .call _ args _ => args
  | node => node.children

@[simp] theorem children_binary (left : NodeId) (op : Operator) (right : NodeId) :
    (binary left op right).children = [left, right] := rfl

theorem children_function (returnType : CType) (name : String) (params : List NodeId)
    (defn : Option NodeId) (isStatic isInline : Bool) :
    (function returnType name params defn isStatic isInline).children = params ++ defn.toList := by
  simp [children, slots, Slot.ids]

theorem visited_sublist (n : Node) : n.visited.Sublist n.children := by
  cases n
  case call func args ty => simp [visited, children, slots, Slot.ids]
  all_goals exact .refl _

theorem blind_isFunction : Blind isFunction := fun n => by cases n <;> rfl

theorem blind_visited : Blind visited := fun n => by cases n <;> rfl

theorem blind_symbolName? : Blind symbolName? := fun n => by cases n <;> rfl

end Node

namespace Tree

theorem get?_setNode_same {t : Tree} {id : NodeId} {node : Node} (new : Node)
    (hn : t.get? id = some node) : (t.setNode id new).get? id = some new := by
  rw [get?_setNode, if_pos ⟨rfl, lt_size_of_get? hn⟩]

theorem get?_setNode_other {t : Tree} {id x : NodeId} (new : Node) (hx : x ≠ id) :
    (t.setNode id new).get? x = t.get? x := by
  rw [get?_setNode, if_neg fun h => hx h.1]

theorem setType_call_eq {t tree : Tree} {id func : NodeId} {args : List NodeId}
    {before : Option CType} {ty : CType} (hn : t.get? id = some (.call func args before))
    (ht : t.setType id ty = .ok tree) : tree = t.setNode id (.call func args (some ty)) := by
  obtain ⟨_, hn', hset⟩ := bind_eq_ok.mp ht
  cases hn.symm.trans (node_eq_ok.mp hn')
  exact (Except.ok.inj hset).symm

theorem SameShape.get?_binary {t t' : Tree} (h : t.SameShape t') {id left right : NodeId}
    {op : Operator} (hn : t'.get? id = some (.binary left op right)) :
    t.get? id = some (.binary left op right) := by
  obtain ⟨node, hn', he⟩ := h.symm.get?_some hn
  cases node <;> simp_all [Node.unannotated]

theorem SameShape.child_within {t t' : Tree} (h : t.SameShape t') {depth : Nat} {id c : NodeId}
    {node : Node} (hw : t.Within (depth + 1) id) (hn : t'.get? id = some node)
    (hc : c ∈ node.children) : t.Child id c ∧ t.Within depth c := by
  obtain ⟨known, hk, hwc⟩ := hw
  obtain ⟨node', hn', he⟩ := h.get?_some hk
  cases hn.symm.trans hn'
  rw [Node.blind_children.eq he] at hc
  rw [Child, Tree.childrenOf_eq hk]
  exact ⟨hc, hwc c hc⟩

end Tree

namespace Filling

/-- What is done at a node, other than a function, once its children are visited. -/
def closing (registry : TypeRegistry) (id : NodeId) : Node → FillM Unit
  | .symbol name (some ty) _ => FillM.bind name ty
  | .call func args none => do
    match ← callType registry func args with
    | some ty => FillM.annotate id ty
    | none => return
  | .binary left .assign right => declareTarget registry left right
  | _ => pure ()

theorem closing_eq_pure {registry : TypeRegistry} {id : NodeId} {node : Node}
    (hc : node.isClosed = false) : closing registry id node = pure () := by
  unfold closing
  split <;> first | cases hc | rfl

theorem visitNode_eq {registry : TypeRegistry} {visit : NodeId → FillM Unit} {id : NodeId}
    {node : Node} (hf : node.isFunction = false) :
    visitNode registry visit id node = (do
      visitEach visit node.visited
      closing registry id node) := by
  unfold visitNode
  split
  · cases hf
  · simp [Node.visited, Node.children, Node.slots, visitEach, closing]
  · rfl
  · simp [Node.visited, closing]
  · simp [Node.visited, Node.children, Node.slots, Slot.ids, visitEach, closing]
  · next h₁ h₂ h₃ h₄ h₅ =>
    have hv : node.visited = node.children := by
      cases node
      case call func args ty => cases ty <;> simp_all
      all_goals rfl
    have hc : node.isClosed = false := by
      unfold Node.isClosed
      split <;> simp_all
    simp [hv, closing_eq_pure hc]

/-- The pass takes `s` to `s'`; the flag says whether it went through. -/
def Ends (m : FillM Unit) (s : Filling) (done : Bool) (s' : Filling) : Prop :=
  match m s with
  | .ok _ s₁ => done = true ∧ s₁ = s'
  | .error _ s₁ => done = false ∧ s₁ = s'

abbrev Visits := NodeId → Filling → Bool → Filling → Prop

inductive Each (visits : Visits) : List NodeId → Filling → Bool → Filling → Prop where
  | nil (s) : Each visits [] s true s
  | cons {id rest s s₁ done s₂} : visits id s true s₁ → Each visits rest s₁ done s₂ →
      Each visits (id :: rest) s done s₂
  | stop {id rest s s₁} : visits id s false s₁ → Each visits (id :: rest) s false s₁

/-- One visit, given those to the children. -/
inductive Turn (registry : TypeRegistry) (visits : Visits) (id : NodeId) :
    Filling → Bool → Filling → Prop where
  | unknown {s} : s.tree.get? id = none → Turn registry visits id s false s
  | function {s returnType name params defn isStatic isInline done s'} :
      s.tree.get? id = some (.function returnType name params defn isStatic isInline) →
      Each visits (params ++ defn.toList)
        { s with scopes := (s.scopes.bind name returnType).1.push } done s' →
      Turn registry visits id s done { s' with scopes := s'.scopes.pop }
  | stop {s node s'} : s.tree.get? id = some node → node.isFunction = false →
      Each visits node.visited s false s' → Turn registry visits id s false s'
  | close {s node s₁ done s'} : s.tree.get? id = some node → node.isFunction = false →
      Each visits node.visited s true s₁ → Ends (closing registry id node) s₁ done s' →
      Turn registry visits id s done s'

theorem Each.related {R : Filling → Filling → Prop} (hrefl : ∀ s, R s s)
    (htrans : ∀ s s₁ s₂, R s s₁ → R s₁ s₂ → R s s₂) {visits : Visits} {ids : List NodeId}
    {s s' : Filling} {done : Bool} (h : Each visits ids s done s')
    (hv : ∀ id s done s', visits id s done s' → R s s') : R s s' := by
  induction h with
  | nil s => exact hrefl s
  | cons hid _ ih => exact htrans _ _ _ (hv _ _ _ _ hid) ih
  | stop hid => exact hv _ _ _ _ hid

theorem ends_ok {m : FillM Unit} {s s' : Filling} : Ends m s true s' ↔ m s = .ok () s' := by
  unfold Ends
  cases m s with
  | ok a s₁ => simp
  | error e s₁ => simp

theorem ends_bind {m m' : FillM Unit} {s s' : Filling} {done : Bool} :
    Ends (do m; m') s done s' ↔
      (∃ s₁, Ends m s true s₁ ∧ Ends m' s₁ done s') ∨ (done = false ∧ Ends m s false s') := by
  unfold Ends
  simp only [bind, EStateM.bind]
  cases m s with
  | ok a s₁ => simp
  | error e s₁ => simp

theorem ends_visitEach {visit : NodeId → FillM Unit} {ids : List NodeId} {s s' : Filling}
    {done : Bool} :
    Ends (visitEach visit ids) s done s' ↔ Each (fun id => Ends (visit id)) ids s done s' := by
  induction ids generalizing s with
  | nil =>
    constructor
    · rintro ⟨rfl, rfl⟩
      exact .nil s
    · rintro ⟨⟩
      exact ⟨rfl, rfl⟩
  | cons id rest ih =>
    rw [visitEach, ends_bind]
    constructor
    · rintro (⟨s₁, hid, hrest⟩ | ⟨rfl, hid⟩)
      · exact .cons hid (ih.mp hrest)
      · exact .stop hid
    · intro h
      cases h with
      | cons hid hrest => exact Or.inl ⟨_, hid, ih.mpr hrest⟩
      | stop hid => exact Or.inr ⟨rfl, hid⟩

theorem ends_inScope {m : FillM Unit} {s s' : Filling} {done : Bool} :
    Ends (FillM.inScope m) s done s' ↔ ∃ s₁, Ends m { s with scopes := s.scopes.push } done s₁ ∧
      s' = { s₁ with scopes := s₁.scopes.pop } := by
  unfold Ends FillM.inScope
  cases m { s with scopes := s.scopes.push } with
  | ok a s₁ => simp [eq_comm]
  | error e s₁ => simp [eq_comm]

theorem ends_visitTo {registry : TypeRegistry} {depth : Nat} {id : NodeId} {s s' : Filling}
    {done : Bool} :
    Ends (visitTo registry (depth + 1) id) s done s' ↔
      Turn registry (fun c => Ends (visitTo registry depth c)) id s done s' := by
  cases hn : s.tree.get? id with
  | none =>
    have hv : ∃ e, visitTo registry (depth + 1) id s = .error e s := by
      simp [visitTo, FillM.node, Tree.node, hn, bind, EStateM.bind]
    obtain ⟨e, he⟩ := hv
    rw [Ends, he]
    constructor
    · rintro ⟨rfl, rfl⟩
      exact .unknown hn
    · intro h
      cases h with
      | unknown => exact ⟨rfl, rfl⟩
      | function hn' => cases hn.symm.trans hn'
      | stop hn' => cases hn.symm.trans hn'
      | close hn' => cases hn.symm.trans hn'
  | some node =>
    have hv : visitTo registry (depth + 1) id s =
        visitNode registry (visitTo registry depth) id node s := by
      simp [visitTo, bind, EStateM.bind, node_ok hn]
    rw [Ends, hv, ← Ends]
    cases hf : node.isFunction with
    | true =>
      cases node <;> cases hf
      rename_i returnType name params defn isStatic isInline
      rw [visitNode, ends_bind]
      constructor
      · rintro (⟨s₁, ⟨-, rfl⟩, hs⟩ | ⟨-, h, -⟩)
        · obtain ⟨s₂, hin, rfl⟩ := ends_inScope.mp hs
          exact .function hn (ends_visitEach.mp hin)
        · cases h
      · intro h
        cases h with
        | unknown hn' => cases hn.symm.trans hn'
        | function hn' hs =>
          cases hn.symm.trans hn'
          exact Or.inl ⟨_, ⟨rfl, rfl⟩, ends_inScope.mpr ⟨_, ends_visitEach.mpr hs, rfl⟩⟩
        | stop hn' hf => cases hn.symm.trans hn'; cases hf
        | close hn' hf => cases hn.symm.trans hn'; cases hf
    | false =>
      rw [visitNode_eq hf, ends_bind]
      constructor
      · rintro (⟨s₁, hs, hc⟩ | ⟨rfl, hs⟩)
        · exact .close hn hf (ends_visitEach.mp hs) hc
        · exact .stop hn hf (ends_visitEach.mp hs)
      · intro h
        cases h with
        | unknown hn' => cases hn.symm.trans hn'
        | function hn' => cases hn.symm.trans hn'; cases hf
        | stop hn' _ hs =>
          cases hn.symm.trans hn'
          exact Or.inr ⟨rfl, ends_visitEach.mpr hs⟩
        | close hn' _ hs hc =>
          cases hn.symm.trans hn'
          exact Or.inl ⟨_, ends_visitEach.mpr hs, hc⟩

def afterSymbol (s : Filling) (name : String) : Option CType → Filling
  | none => s
  | some ty => { s with scopes := (s.scopes.bind name ty).1 }

theorem visit_symbol {registry : TypeRegistry} {depth : Nat} {id : NodeId} {s s' : Filling}
    {name : String} {ty : Option CType} {isConst : Bool}
    (hn : s.tree.get? id = some (.symbol name ty isConst)) :
    Ends (visitTo registry (depth + 1) id) s true s' ↔ s' = s.afterSymbol name ty := by
  rw [ends_visitTo]
  constructor
  · intro h
    cases h with
    | function hn' => cases hn.symm.trans hn'
    | close hn' _ he hc =>
      cases hn.symm.trans hn'
      cases he
      cases ty <;> exact hc.2.symm
  · rintro rfl
    refine .close hn rfl (.nil s) ?_
    cases ty <;> exact ⟨rfl, rfl⟩

inductive Closes (registry : TypeRegistry) (id : NodeId) :
    Node → Filling → Bool → Filling → Prop where
  | binds {s name ty isConst} : Closes registry id (.symbol name (some ty) isConst) s true
      { s with scopes := (s.scopes.bind name ty).1 }
  | types {s func args ty tree} : callType registry func args s = .ok (some ty) s →
      s.tree.setType id ty = .ok tree →
      Closes registry id (.call func args none) s true { s with tree := tree }
  | untyped {s func args} : callType registry func args s = .ok none s →
      Closes registry id (.call func args none) s true s
  | declares {s left right name isConst ty} :
      s.tree.get? left = some (.symbol name none isConst) → ¬ s.scopes.isBound name →
      localType registry name right s = .ok (some ty) s →
      Closes registry id (.binary left .assign right) s true
        ⟨s.tree.setNode left (.symbol name (some ty) isConst), (s.scopes.bind name ty).1⟩
  | bound {s left right name isConst} :
      s.tree.get? left = some (.symbol name none isConst) → s.scopes.isBound name →
      Closes registry id (.binary left .assign right) s true s
  | settled {s left right node} : s.tree.get? left = some node →
      (∀ name isConst, node ≠ .symbol name none isConst) →
      Closes registry id (.binary left .assign right) s true s
  | nothing {s node} : node.isClosed = false → Closes registry id node s true s
  | fails {s node} : Closes registry id node s false s

theorem ReadsAt.cases {α : Type} {A : InferError → Prop} {m : FillM α} {s : Filling}
    (h : ReadsAt A m s) : (∃ a, m s = .ok a s) ∨ ∃ e, m s = .error e s := by
  unfold ReadsAt at h
  cases hm : m s with
  | ok a s' =>
    rw [hm] at h
    obtain rfl : s' = s := h
    exact Or.inl ⟨a, rfl⟩
  | error e s' =>
    rw [hm] at h
    obtain ⟨rfl, -⟩ : s' = s ∧ A e := h
    exact Or.inr ⟨e, rfl⟩

theorem reads_typeOf (registry : TypeRegistry) (id : NodeId) (s : Filling) :
    ReadsAt (fun _ => True) (FillM.typeOf registry id) s := by
  unfold ReadsAt FillM.typeOf
  cases Typer.typeOf ⟨s.tree, registry, s.scopes⟩ id with
  | ok ty => rfl
  | error e => exact ⟨rfl, trivial⟩

theorem reads_localType (registry : TypeRegistry) (name : String) (right : NodeId) (s : Filling) :
    ReadsAt (fun _ => True) (localType registry name right) s := by
  have htype := reads_typeOf registry right s
  unfold ReadsAt localType at *
  cases (untemporary? name).bind s.scopes.lookup? with
  | some ty => rfl
  | none => exact htype

theorem readsAt_bind {α β : Type} {A : InferError → Prop} {m : FillM α} {f : α → FillM β}
    {s : Filling} (hm : ReadsAt A m s) (hf : ∀ a, ReadsAt A (f a) s) : ReadsAt A (m >>= f) s := by
  unfold ReadsAt at *
  simp only [bind, EStateM.bind]
  cases hr : m s with
  | ok a s' =>
    rw [hr] at hm
    obtain rfl : s' = s := hm
    exact hf a
  | error e s' =>
    rw [hr] at hm
    exact hm

theorem reads_node (id : NodeId) (s : Filling) : ReadsAt (fun _ => True) (FillM.node id) s := by
  unfold ReadsAt FillM.node
  cases s.tree.node id with
  | ok node => rfl
  | error e => exact ⟨rfl, trivial⟩

theorem reads_callType (registry : TypeRegistry) (func : NodeId) (args : List NodeId)
    (s : Filling) : ReadsAt (fun _ => True) (callType registry func args) s := by
  refine readsAt_bind (reads_node func s) fun callee => ?_
  cases callee.symbolName? with
  | none => rfl
  | some name =>
    refine readsAt_bind rfl fun found => ?_
    cases found with
    | some ty => rfl
    | none =>
      cases args with
      | nil => rfl
      | cons first rest =>
        simp only
        split
        · exact reads_typeOf registry first s
        · rfl

section Targets

variable {registry : TypeRegistry} {left right : NodeId} {s : Filling} {name : String}
  {isConst : Bool}

theorem declareTarget_settled {node : Node} (hn : s.tree.get? left = some node)
    (hne : ∀ name isConst, node ≠ .symbol name none isConst) :
    declareTarget registry left right s = .ok () s := by
  simp only [declareTarget, bind, EStateM.bind, node_ok hn]
  rfl

theorem declareTarget_bound (hn : s.tree.get? left = some (.symbol name none isConst))
    (hb : s.scopes.isBound name) : declareTarget registry left right s = .ok () s := by
  obtain ⟨ty, hty⟩ := Option.isSome_iff_exists.mp hb
  simp only [declareTarget, bind, EStateM.bind, node_ok hn, FillM.lookup?, hty]
  rfl

/-- Inference changes nothing, so the target is still without a type when it is declared. -/
theorem declareTarget_unbound (hn : s.tree.get? left = some (.symbol name none isConst))
    (hb : s.scopes.lookup? name = none) :
    (∃ ty, localType registry name right s = .ok (some ty) s ∧
      declareTarget registry left right s =
        .ok () ⟨s.tree.setNode left (.symbol name (some ty) isConst), (s.scopes.bind name ty).1⟩) ∨
    ∃ e, declareTarget registry left right s = .error e s := by
  simp only [declareTarget, bind, EStateM.bind, node_ok hn, FillM.lookup?, hb]
  rcases (reads_localType registry name right s).cases with ⟨found, hl⟩ | ⟨e, he⟩
  · cases found with
    | none =>
      rw [hl]
      exact Or.inr ⟨_, rfl⟩
    | some ty =>
      have ht : s.tree.setType left ty = .ok (s.tree.setNode left (.symbol name (some ty) isConst)) :=
        bind_eq_ok.mpr ⟨_, Tree.node_eq_ok.mpr hn, rfl⟩
      refine Or.inl ⟨ty, hl, ?_⟩
      simp only [hl, EStateM.bind, FillM.annotate, ht, FillM.bind]
  · rw [he]
    exact Or.inr ⟨e, rfl⟩

end Targets

theorem declareTarget_closes {registry : TypeRegistry} {id left right : NodeId} {s s' : Filling}
    {done : Bool} (h : Ends (declareTarget registry left right) s done s') :
    Closes registry id (.binary left .assign right) s done s' := by
  unfold Ends at h
  cases hn : s.tree.get? left with
  | none =>
    simp only [declareTarget, bind, EStateM.bind, FillM.node, Tree.node, hn] at h
    obtain ⟨rfl, rfl⟩ := h
    exact .fails
  | some node =>
    by_cases hs : ∃ name isConst, node = .symbol name none isConst
    · obtain ⟨name, isConst, rfl⟩ := hs
      cases hb : s.scopes.lookup? name with
      | some ty =>
        have hbound : s.scopes.isBound name := by simp [Scopes.isBound, hb]
        rw [declareTarget_bound hn hbound] at h
        obtain ⟨rfl, rfl⟩ := h
        exact .bound hn hbound
      | none =>
        rcases declareTarget_unbound hn hb with ⟨ty, hl, he⟩ | ⟨e, he⟩
        · rw [he] at h
          obtain ⟨rfl, rfl⟩ := h
          exact .declares hn (Scopes.lookup?_eq_none.mp hb) hl
        · rw [he] at h
          obtain ⟨rfl, rfl⟩ := h
          exact .fails
    · have hne : ∀ name isConst, node ≠ .symbol name none isConst := by
        intro name isConst he
        exact hs ⟨name, isConst, he⟩
      rw [declareTarget_settled hn hne] at h
      obtain ⟨rfl, rfl⟩ := h
      exact .settled hn hne

theorem closes_of_ends {registry : TypeRegistry} {id : NodeId} {node : Node} {s s' : Filling}
    {done : Bool} (h : Ends (closing registry id node) s done s') :
    Closes registry id node s done s' := by
  unfold closing at h
  split at h
  · obtain ⟨rfl, rfl⟩ := h
    exact .binds
  · next func args =>
    rcases (reads_callType registry func args s).cases with ⟨found, hf⟩ | ⟨e, he⟩
    · simp only [Ends, bind, EStateM.bind, hf] at h
      cases found with
      | none =>
        obtain ⟨rfl, rfl⟩ := h
        exact .untyped hf
      | some ty =>
        simp only [FillM.annotate] at h
        cases ht : s.tree.setType id ty with
        | ok tree =>
          rw [ht] at h
          obtain ⟨rfl, rfl⟩ := h
          exact .types hf ht
        | error e =>
          rw [ht] at h
          obtain ⟨rfl, rfl⟩ := h
          exact .fails
    · simp only [Ends, bind, EStateM.bind, he] at h
      obtain ⟨rfl, rfl⟩ := h
      exact .fails
  · next left right => exact declareTarget_closes h
  · next h₁ h₂ h₃ =>
    obtain ⟨rfl, rfl⟩ := h
    refine .nothing ?_
    unfold Node.isClosed
    split <;> simp_all

/-- What a pass below some ids does to one node: nothing, or it types a call, or it declares the
target of an assignment whose name was bound nowhere. -/
inductive Annotates (t : Tree) (ids : List NodeId) (s s' : Filling) (x : NodeId) : Prop where
  | keeps : s'.tree.get? x = s.tree.get? x → Annotates t ids s s' x
  | types {id func args ty} : id ∈ ids → t.Reach id x →
      s.tree.get? x = some (.call func args none) →
      s'.tree.get? x = some (.call func args (some ty)) → Annotates t ids s s' x
  | declares {id holder right name isConst ty} : id ∈ ids → t.Reach id holder →
      t.get? holder = some (.binary x .assign right) →
      s.tree.get? x = some (.symbol name none isConst) →
      s'.tree.get? x = some (.symbol name (some ty) isConst) →
      ¬ s.scopes.isBound name → Annotates t ids s s' x

structure Advances (t : Tree) (ids : List NodeId) (s s' : Filling) : Prop where
  size_eq : s'.tree.size = s.tree.size
  parent_eq : ∀ id, s'.tree.parent? id = s.tree.parent? id
  scopes : s.scopes.Grows s'.scopes
  node : ∀ x, Annotates t ids s s' x

namespace Advances

variable {t : Tree} {ids : List NodeId} {s s₁ s' : Filling}

theorem refl (t : Tree) (ids : List NodeId) (s : Filling) : Advances t ids s s :=
  ⟨rfl, fun _ => rfl, .refl _, fun _ => .keeps rfl⟩

theorem trans (h : Advances t ids s s₁) (k : Advances t ids s₁ s') : Advances t ids s s' := by
  refine ⟨k.size_eq.trans h.size_eq, fun id => (k.parent_eq id).trans (h.parent_eq id),
    h.scopes.trans k.scopes, fun x => ?_⟩
  -- a node that has its type is left alone, so one of the two passes keeps it
  cases h.node x with
  | keeps he =>
    cases k.node x with
    | keeps he' => exact .keeps (he'.trans he)
    | types hi hr hs hs' => exact .types hi hr (he ▸ hs) hs'
    | declares hi hr ha hs hs' hb =>
      exact .declares hi hr ha (he ▸ hs) hs' fun hbound => hb (h.scopes.isBound hbound)
  | types hi hr hs hs₁ =>
    cases k.node x with
    | keeps he' => exact .types hi hr hs (he' ▸ hs₁)
    | types _ _ hn => cases hs₁.symm.trans hn
    | declares _ _ _ hn => cases hs₁.symm.trans hn
  | declares hi hr ha hs hs₁ hb =>
    cases k.node x with
    | keeps he' => exact .declares hi hr ha hs (he' ▸ hs₁) hb
    | types _ _ hn => cases hs₁.symm.trans hn
    | declares _ _ _ hn => cases hs₁.symm.trans hn

theorem below {ids' : List NodeId} (h : Advances t ids s s')
    (hb : ∀ id ∈ ids, ∃ id' ∈ ids', t.Reach id' id) : Advances t ids' s s' := by
  refine ⟨h.size_eq, h.parent_eq, h.scopes, fun x => ?_⟩
  cases h.node x with
  | keeps he => exact .keeps he
  | types hi hr hs hs' =>
    obtain ⟨id', hi', hr'⟩ := hb _ hi
    exact .types hi' (hr'.trans hr) hs hs'
  | declares hi hr ha hs hs' hn =>
    obtain ⟨id', hi', hr'⟩ := hb _ hi
    exact .declares hi' (hr'.trans hr) ha hs hs' hn

theorem mono {ids' : List NodeId} (h : Advances t ids s s') (hsub : ids ⊆ ids') :
    Advances t ids' s s' :=
  h.below fun id hi => ⟨id, hsub hi, .refl⟩

theorem sameShape (h : Advances t ids s s') : s.tree.SameShape s'.tree := by
  refine ⟨h.size_eq, h.parent_eq, fun x => ?_⟩
  cases h.node x with
  | keeps he => rw [he]
  | types _ _ hs hs' => rw [hs, hs']; rfl
  | declares _ _ _ hs hs' => rw [hs, hs']; rfl

theorem get?_eq (h : Advances t ids s s') {x : NodeId} (hx : ∀ id ∈ ids, ¬ t.Reach id x) :
    s'.tree.get? x = s.tree.get? x := by
  cases h.node x with
  | keeps he => exact he
  | types hi hr => exact absurd hr (hx _ hi)
  | declares hi hr ha =>
    exact absurd (hr.child ha (by simp)) (hx _ hi)

/-- Nothing below a node leads back to it, so it is closed as it was found. -/
theorem get?_visited {id : NodeId} {node : Node} {depth : Nat} (h : Advances t node.visited s s')
    (hs : t.SameShape s.tree) (hw : t.Within (depth + 1) id) (hn : s.tree.get? id = some node) :
    s'.tree.get? id = some node := by
  refine (h.get?_eq fun c hm hr => ?_).trans hn
  have hchild := hs.child_within hw hn (node.visited_sublist.subset hm)
  exact hw.no_return (.head' hchild.1 hr)

theorem bind (t : Tree) (ids : List NodeId) (s : Filling) (name : String) (ty : CType) :
    Advances t ids s { s with scopes := (s.scopes.bind name ty).1 } :=
  ⟨rfl, fun _ => rfl, .bind .., fun _ => .keeps rfl⟩

theorem ownScope (h : Advances t ids { s with scopes := s.scopes.push } s') :
    Advances t ids s { s' with scopes := s'.scopes.pop } := by
  -- an empty scope more binds no name more, so what was free inside was free before
  refine ⟨h.size_eq, h.parent_eq, ?_, fun x => ?_⟩
  · rw [h.scopes.pop_eq]
    exact .refl _
  · cases h.node x with
    | keeps he => exact .keeps he
    | types hi hr hs hs' => exact .types hi hr hs hs'
    | declares hi hr ha hs hs' hb =>
      exact .declares hi hr ha hs hs' fun hbound => hb (Scopes.isBound_push.mpr hbound)

end Advances

theorem Each.advances {t : Tree} {visits : Visits} {ids : List NodeId} {s s' : Filling}
    {done : Bool} (h : Each visits ids s done s') (hs : t.SameShape s.tree)
    (hv : ∀ id ∈ ids, ∀ s done s', t.SameShape s.tree → visits id s done s' →
      Advances t [id] s s') : Advances t ids s s' := by
  induction h with
  | nil s => exact .refl ..
  | cons hid _ ih =>
    have hhead := hv _ (by simp) _ _ _ hs hid
    have hrest := ih (hs.trans hhead.sameShape) fun c hc => hv c (by simp [hc])
    exact (hhead.mono (by simp)).trans (hrest.mono (by simp))
  | stop hid => exact (hv _ (by simp) _ _ _ hs hid).mono (by simp)

section Visiting

variable {registry : TypeRegistry} {t : Tree} {id : NodeId} {s s₁ s' : Filling} {done : Bool}

theorem Closes.grows {node : Node} (h : Closes registry id node s done s') :
    s.scopes.Grows s'.scopes := by
  cases h with
  | binds | declares => exact .bind ..
  | types | untyped | bound | settled | nothing | fails => exact .refl _

theorem Closes.advances {node : Node} (h : Closes registry id node s done s')
    (hs : t.SameShape s.tree) (hn : s.tree.get? id = some node) : Advances t [id] s s' := by
  cases h with
  | binds => exact .bind ..
  | @types _ func args ty tree _ ht =>
    obtain rfl := Tree.setType_call_eq hn ht
    refine ⟨Tree.size_setNode .., fun c => Tree.parent?_setNode .., .refl _, fun x => ?_⟩
    by_cases hx : x = id
    · subst hx
      exact .types (List.mem_singleton_self x) .refl hn (Tree.get?_setNode_same _ hn)
    · exact .keeps (Tree.get?_setNode_other _ hx)
  | @declares _ left right name isConst ty hl hb =>
    refine ⟨Tree.size_setNode .., fun c => Tree.parent?_setNode .., .bind .., fun x => ?_⟩
    by_cases hx : x = left
    · subst hx
      exact .declares (List.mem_singleton_self id) .refl (hs.get?_binary hn) hl
        (Tree.get?_setNode_same _ hl) hb
    · exact .keeps (Tree.get?_setNode_other _ hx)
  | untyped | bound | settled | nothing | fails => exact .refl ..

theorem Turn.advances {visits : Visits} {depth : Nat} (h : Turn registry visits id s done s')
    (hs : t.SameShape s.tree) (hw : t.Within (depth + 1) id)
    (hv : ∀ c, t.Within depth c → ∀ s done s', t.SameShape s.tree → visits c s done s' →
      Advances t [c] s s') : Advances t [id] s s' := by
  have each : ∀ {node ids s₀ done s₁}, s.tree.get? id = some node → ids ⊆ node.children →
      Each visits ids s₀ done s₁ → t.SameShape s₀.tree → Advances t ids s₀ s₁ := by
    intro node ids s₀ done s₁ hn hsub he hs₀
    exact he.advances hs₀ fun c hm => hv c (hs.child_within hw hn (hsub hm)).2
  have up : ∀ {node ids}, s.tree.get? id = some node → ids ⊆ node.children →
      ∀ c ∈ ids, ∃ p ∈ [id], t.Reach p c := by
    intro node ids hn hsub c hm
    exact ⟨id, List.mem_singleton_self id, .single (hs.child_within hw hn (hsub hm)).1⟩
  cases h with
  | unknown => exact .refl ..
  | @function returnType name params defn isStatic isInline _ _ hn he =>
    have hsub : params ++ defn.toList ⊆
        (Node.function returnType name params defn isStatic isInline).children := by
      rw [Node.children_function]
      exact List.Subset.refl _
    have hin := (each hn hsub he hs).ownScope (s := { s with scopes := (s.scopes.bind name returnType).1 })
    exact (Advances.bind t [id] s name returnType).trans (hin.below (up hn hsub))
  | @stop node _ hn _ he =>
    have hsub := node.visited_sublist.subset
    exact (each hn hsub he hs).below (up hn hsub)
  | @close node _ _ _ hn _ he hclose =>
    -- the children are visited first, and none of them is or holds the node that is closed
    have hsub := node.visited_sublist.subset
    have hin := each hn hsub he hs
    have hkept := hin.get?_visited hs hw hn
    have hout := (closes_of_ends hclose).advances (hs.trans hin.sameShape) hkept
    exact (hin.below (up hn hsub)).trans hout

theorem visitTo_advances {depth : Nat} (hs : t.SameShape s.tree) (hw : t.Within depth id)
    (h : Ends (visitTo registry depth id) s done s') : Advances t [id] s s' := by
  induction depth generalizing id s done s' with
  | zero => exact hw.elim
  | succ depth ih =>
    exact (ends_visitTo.mp h).advances hs hw fun c hc s done s' hs hv => ih hs hc hv

theorem visits_advance (registry : TypeRegistry) {depth : Nat} {node : Node} (hs : t.SameShape s.tree)
    (hw : t.Within (depth + 1) id) (hn : s.tree.get? id = some node) :
    ∀ c ∈ node.visited, ∀ s done s', t.SameShape s.tree →
      Ends (visitTo registry depth c) s done s' → Advances t [c] s s' := by
  intro c hm s₀ done s₁ hs₀ h
  exact visitTo_advances hs₀ (hs.child_within hw hn (node.visited_sublist.subset hm)).2 h

end Visiting

end Filling
end Arbor
