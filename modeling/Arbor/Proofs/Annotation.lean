import Arbor.Proofs.Rendering
import Arbor.Proofs.Search
import Arbor.Proofs.Validation
import Arbor.Typing.Declare

/-!
Filling declarations over a well-formed region.

The pass only writes annotations of symbols and calls: the tree keeps its shape, whether the pass
succeeds or fails. Over a region that resolves and has finitely many levels every annotation finds
a node that takes it, so that only the program or the registry can be at fault; the built-in
registry has a type for every literal.
-/
namespace Arbor

def Node.unannotated : Node → Node
  | .symbol name _ isConst => .symbol name none isConst
  | .call func args _ => .call func args none
  | node => node

/-- A view of nodes that does not see annotations. -/
def Node.Blind {α : Type} (view : Node → α) : Prop := ∀ n : Node, view n.unannotated = view n

namespace Node

theorem Blind.eq {α : Type} {view : Node → α} (hb : Blind view) {n m : Node}
    (h : n.unannotated = m.unannotated) : view n = view m := by
  rw [← hb n, h, hb m]

theorem blind_children : Blind children := fun n => by cases n <;> rfl

theorem blind_operatorSuits : Blind OperatorSuits := fun n => by cases n <;> rfl

theorem blind_operands : Blind operands := fun n => by cases n <;> rfl

theorem blind_parameters : Blind parameters := fun n => by cases n <;> rfl

theorem blind_files : Blind files := fun n => by cases n <;> rfl

theorem blind_isExpression : Blind isExpression := fun n => by cases n <;> rfl

theorem blind_isSymbol : Blind isSymbol := fun n => by cases n <;> rfl

theorem blind_isCustom : Blind isCustom := fun n => by cases n <;> rfl

theorem blind_isProject : Blind isProject := fun n => by cases n <;> rfl

theorem blind_isFile : Blind isFile := fun n => by cases n <;> rfl

end Node

namespace Tree

/-- The same tree up to annotations. -/
structure SameShape (t t' : Tree) : Prop where
  size_eq : t'.size = t.size
  parent_eq : ∀ id, t'.parent? id = t.parent? id
  node_eq : ∀ id, (t'.get? id).map Node.unannotated = (t.get? id).map Node.unannotated

namespace SameShape

variable {t t' t'' : Tree}

theorem refl (t : Tree) : t.SameShape t := ⟨rfl, fun _ => rfl, fun _ => rfl⟩

theorem trans (h : t.SameShape t') (k : t'.SameShape t'') : t.SameShape t'' :=
  ⟨k.size_eq.trans h.size_eq, fun id => (k.parent_eq id).trans (h.parent_eq id),
    fun id => (k.node_eq id).trans (h.node_eq id)⟩

theorem symm (h : t.SameShape t') : t'.SameShape t :=
  ⟨h.size_eq.symm, fun id => (h.parent_eq id).symm, fun id => (h.node_eq id).symm⟩

theorem get?_some (h : t.SameShape t') {id : NodeId} {node : Node} (hn : t.get? id = some node) :
    ∃ node', t'.get? id = some node' ∧ node'.unannotated = node.unannotated := by
  have he := h.node_eq id
  rw [hn, Option.map_some] at he
  exact Option.map_eq_some_iff.mp he

theorem childrenOf_eq (h : t.SameShape t') : t'.childrenOf = t.childrenOf := by
  funext id
  cases hn : t.get? id with
  | none =>
    have he := h.node_eq id
    rw [hn, Option.map_none, Option.map_eq_none_iff] at he
    simp [childrenOf, hn, he]
  | some node =>
    obtain ⟨node', hn', he⟩ := h.get?_some hn
    rw [Tree.childrenOf_eq hn', Tree.childrenOf_eq hn, Node.blind_children.eq he]

theorem reach_eq (h : t.SameShape t') : t'.Reach = t.Reach := by
  have hc : t'.Child = t.Child := by
    funext p c
    rw [Child, h.childrenOf_eq, Child]
  rw [Reach, hc, Reach]

theorem within (h : t.SameShape t') {depth : Nat} {id : NodeId} (hw : t.Within depth id) :
    t'.Within depth id := by
  induction depth generalizing id with
  | zero => exact hw
  | succ depth ih =>
    obtain ⟨node, hn, hc⟩ := hw
    obtain ⟨node', hn', he⟩ := h.get?_some hn
    refine ⟨node', hn', fun c hm => ih (hc c ?_)⟩
    rw [← Node.blind_children.eq he]
    exact hm

theorem is (h : t.SameShape t') {id : NodeId} {kind : Node → Bool} (hk : Node.Blind kind)
    (hi : t.Is id kind) : t'.Is id kind := by
  obtain ⟨node, hn, hb⟩ := hi
  obtain ⟨node', hn', he⟩ := h.get?_some hn
  exact ⟨node', hn', by rw [hk.eq he]; exact hb⟩

theorem node_of_reach (h : t.SameShape t') {root id : NodeId} {node' : Node}
    (hr : t'.Reach root id) (hn' : t'.get? id = some node') :
    t.Reach root id ∧ ∃ node, t.get? id = some node ∧ node.unannotated = node'.unannotated := by
  rw [h.reach_eq] at hr
  exact ⟨hr, h.symm.get?_some hn'⟩

theorem each_is (h : t.SameShape t') {root : NodeId} {pick : Node → List NodeId}
    {kind : Node → Bool} (hp : Node.Blind pick) (hk : Node.Blind kind)
    (hall : ∀ id node, t.Reach root id → t.get? id = some node → ∀ c ∈ pick node, t.Is c kind) :
    ∀ id node, t'.Reach root id → t'.get? id = some node → ∀ c ∈ pick node, t'.Is c kind := by
  intro id node' hr hn' c hc
  obtain ⟨hr, node, hn, he⟩ := h.node_of_reach hr hn'
  rw [← hp.eq he] at hc
  exact h.is hk (hall id node hr hn c hc)

theorem follow?_eq (h : t.SameShape t') : t'.follow? = t.follow? := by
  funext id path
  induction path generalizing id with
  | nil => rfl
  | cons i path ih =>
    simp only [follow?, h.childrenOf_eq]
    congr 1
    funext c
    exact ih c

theorem wellLinked (h : t.SameShape t') {root : NodeId} (hl : t.WellLinked root) :
    t'.WellLinked root := by
  refine ⟨?_, ?_, ?_⟩
  · intro id hr
    rw [h.reach_eq] at hr
    obtain ⟨node, hn⟩ := hl.resolves id hr
    obtain ⟨node', hn', -⟩ := h.get?_some hn
    exact ⟨node', hn'⟩
  · intro id hr
    rw [h.reach_eq] at hr
    rw [h.follow?_eq]
    exact hl.once id hr
  · intro p c hr hc
    rw [h.reach_eq] at hr
    rw [Child, h.childrenOf_eq] at hc
    rw [h.parent_eq]
    exact hl.linked p c hr hc

theorem wellFormed (h : t.SameShape t') {root : NodeId} (hw : t.WellFormed root) :
    t'.WellFormed root := by
  have expressions : Node.Blind fun n => n.isExpression || n.isCustom := fun n => by
    simp only [Node.blind_isExpression n, Node.blind_isCustom n]
  refine ⟨h.wellLinked hw.region, ?_, h.each_is Node.blind_operands expressions hw.operand,
    h.each_is Node.blind_parameters Node.blind_isSymbol hw.parameter,
    h.each_is Node.blind_files Node.blind_isFile hw.file, ?_, ?_⟩
  · intro id node' hr hn'
    obtain ⟨hr, node, hn, he⟩ := h.node_of_reach hr hn'
    rw [← Node.blind_operatorSuits.eq he]
    exact hw.operator id node hr hn
  · intro id hr hp
    rw [h.reach_eq] at hr
    exact hw.project_place id hr (h.symm.is Node.blind_isProject hp)
  · intro id hr hf
    rw [h.reach_eq] at hr
    rcases hw.file_place id hr (h.symm.is Node.blind_isFile hf) with he | ⟨p, hp, hpp, hpc⟩
    · exact Or.inl he
    · refine Or.inr ⟨p, h.reach_eq ▸ hp, h.is Node.blind_isProject hpp, ?_⟩
      rw [Child, h.childrenOf_eq]
      exact hpc

end SameShape

theorem setNode_sameShape {t : Tree} {id : NodeId} {node new : Node} (hn : t.get? id = some node)
    (he : new.unannotated = node.unannotated) : t.SameShape (t.setNode id new) := by
  refine ⟨size_setNode .., fun c => parent?_setNode .., fun c => ?_⟩
  rw [get?_setNode]
  split
  · next hc =>
    obtain ⟨rfl, -⟩ := hc
    rw [hn, Option.map_some, Option.map_some, he]
  · rfl

theorem setType_symbol {t : Tree} {id : NodeId} {name : String} {isConst : Bool} (ty : CType)
    (hn : t.get? id = some (.symbol name none isConst)) :
    ∃ t', t.setType id ty = .ok t' ∧ t.SameShape t' :=
  ⟨_, bind_eq_ok.mpr ⟨_, node_eq_ok.mpr hn, rfl⟩, setNode_sameShape hn rfl⟩

theorem setType_call {t : Tree} {id func : NodeId} {args : List NodeId} {before : Option CType}
    (ty : CType) (hn : t.get? id = some (.call func args before)) :
    ∃ t', t.setType id ty = .ok t' ∧ t.SameShape t' :=
  ⟨_, bind_eq_ok.mpr ⟨_, node_eq_ok.mpr hn, rfl⟩, setNode_sameShape hn rfl⟩

end Tree

namespace Typer

theorem recognize_builtin (v : Value) :
    ∃ ty, TypeRegistry.builtin.recognize (.constant v) = .ok ty := by
  cases v <;> exact ⟨_, rfl⟩

variable {y : Typer} {A : InferError → Prop}

theorem nodeType_failsOnly {typeOf : NodeId → Result} {node : Node}
    (hr : ∀ v e, y.registry.recognize (.constant v) = .error e → A (.registry e))
    (h : ∀ c ∈ node.children, FailsOnly A (typeOf c)) : FailsOnly A (y.nodeType typeOf node) := by
  cases node <;> simp only [Node.children, Node.slots, Slot.ids, List.flatMap_cons,
    List.flatMap_nil, List.append_nil, List.mem_append, List.mem_cons, List.not_mem_nil, or_false,
    forall_eq_or_imp, forall_eq] at h
  case constant v =>
    simp only [nodeType, recognize]
    split
    · exact failsOnly_ok _
    · next e he => exact failsOnly_error (hr v e he)
  case unary op arg => exact failsOnly_bind h fun _ => failsOnly_ok _
  case binary left op right =>
    simp only [nodeType, binaryType]
    split
    · exact failsOnly_ok _
    · split
      · exact h.1
      · exact h.2
      · exact failsOnly_ok _
      · exact failsOnly_ok _
      · refine failsOnly_bind h.1 fun l => failsOnly_bind h.2 fun r => ?_
        cases l <;> cases r <;> exact failsOnly_ok _
  case augAssign target op value => exact h.1
  case ternary cond thenValue elseValue =>
    exact failsOnly_bind h.2.1 fun _ => failsOnly_bind h.2.2 fun _ => failsOnly_ok _
  all_goals exact failsOnly_ok _

theorem typeTo_failsOnly
    (hr : ∀ v e, y.registry.recognize (.constant v) = .error e → A (.registry e))
    {depth : Nat} {id : NodeId} (hw : y.tree.Within depth id) :
    FailsOnly A (y.typeTo depth id) := by
  induction depth generalizing id with
  | zero => exact hw.elim
  | succ depth ih =>
    obtain ⟨node, hn, hc⟩ := hw
    have hnode : y.node id = .ok node := by simp [Typer.node, Tree.node_eq_ok.mpr hn]
    simp only [typeTo, hnode]
    exact nodeType_failsOnly hr fun c hm => ih (hc c hm)

end Typer

/-- The program gives a name no type; the tree itself is not at fault. -/
def InferError.BlamesProgram : InferError → Prop
  | .unboundSymbol _ => True
  | .uninferable _ _ => True
  | _ => False

namespace Filling

/-- The errors that filling may end with: those of the program, and those that the registry has
for a literal. -/
structure Admits (A : InferError → Prop) (registry : TypeRegistry) : Prop where
  program : ∀ e, e.BlamesProgram → A e
  literal : ∀ v e, registry.recognize (.constant v) = .error e → A (.registry e)

theorem admits_builtin : Admits InferError.BlamesProgram .builtin := by
  refine ⟨fun _ h => h, fun v e he => ?_⟩
  obtain ⟨ty, hty⟩ := Typer.recognize_builtin v
  rw [hty] at he
  cases he

/-- Run at `s`, a pass keeps the shape of `t` and fails only with an error of the kind `A`. -/
def CalmAt {α : Type} (A : InferError → Prop) (t : Tree) (m : FillM α) (s : Filling) : Prop :=
  match m s with
  | .ok _ s' => t.SameShape s'.tree
  | .error e s' => t.SameShape s'.tree ∧ A e

/-- Calm on every tree of the shape of `t`, whatever is bound. -/
def Calm {α : Type} (A : InferError → Prop) (t : Tree) (m : FillM α) : Prop :=
  ∀ s, t.SameShape s.tree → CalmAt A t m s

def ReadsAt {α : Type} (A : InferError → Prop) (m : FillM α) (s : Filling) : Prop :=
  match m s with
  | .ok _ s' => s' = s
  | .error e s' => s' = s ∧ A e

variable {A : InferError → Prop} {registry : TypeRegistry} {t : Tree} {α β : Type}

theorem calm_pure (a : α) : Calm A t (pure a) := fun _ hs => hs

theorem calm_bind {m : FillM α} {f : α → FillM β} (hm : Calm A t m) (hf : ∀ a, Calm A t (f a)) :
    Calm A t (m >>= f) := by
  intro s hs
  have h := hm s hs
  simp only [CalmAt, bind, EStateM.bind] at h ⊢
  cases hr : m s with
  | ok a s' => rw [hr] at h; exact hf a s' h
  | error e s' => rw [hr] at h; exact h

theorem calmAt_read {m : FillM α} {f : α → FillM β} {s : Filling} {a : α} (hm : m s = .ok a s)
    (hf : CalmAt A t (f a) s) : CalmAt A t (m >>= f) s := by
  simpa only [CalmAt, bind, EStateM.bind, hm] using hf

theorem calmAt_query {m : FillM α} {f : α → FillM β} {s : Filling} (hs : t.SameShape s.tree)
    (hm : ReadsAt A m s) (hf : ∀ a, CalmAt A t (f a) s) : CalmAt A t (m >>= f) s := by
  simp only [ReadsAt, CalmAt, bind, EStateM.bind] at hm hf ⊢
  cases hr : m s with
  | ok a s' =>
    rw [hr] at hm
    obtain rfl : s' = s := hm
    exact hf a
  | error e s' =>
    rw [hr] at hm
    obtain ⟨rfl, he⟩ : s' = s ∧ A e := hm
    exact ⟨hs, he⟩

theorem node_ok {s : Filling} {id : NodeId} {node : Node} (hn : s.tree.get? id = some node) :
    FillM.node id s = .ok node s := by
  simp only [FillM.node, Tree.node_eq_ok.mpr hn]

theorem calm_node {id : NodeId} {node : Node} {f : Node → FillM β} (hn : t.get? id = some node)
    (hf : ∀ n, n.unannotated = node.unannotated → Calm A t (f n)) :
    Calm A t (FillM.node id >>= f) := by
  intro s hs
  obtain ⟨n, hn', he⟩ := hs.get?_some hn
  exact calmAt_read (node_ok hn') (hf n he s hs)

theorem calm_bindName (name : String) (ty : CType) : Calm A t (FillM.bind name ty) :=
  fun _ hs => hs

theorem calm_visitEach {visit : NodeId → FillM Unit} {ids : List NodeId}
    (h : ∀ id ∈ ids, Calm A t (visit id)) : Calm A t (visitEach visit ids) := by
  induction ids with
  | nil => exact calm_pure ()
  | cons id rest ih =>
    obtain ⟨hid, hrest⟩ := List.forall_mem_cons.mp h
    exact calm_bind hid fun _ => ih hrest

theorem calm_inScope {m : FillM Unit} (h : Calm A t m) : Calm A t (FillM.inScope m) := by
  intro s hs
  have hm := h { s with scopes := s.scopes.push } hs
  simp only [CalmAt, FillM.inScope] at hm ⊢
  cases hr : m { s with scopes := s.scopes.push } with
  | ok a s' => rw [hr] at hm; exact hm
  | error e s' => rw [hr] at hm; exact hm

theorem readsAt_typeOf (ha : Admits A registry) {s : Filling} {id : NodeId}
    (hs : t.SameShape s.tree) (hw : t.Within t.size id) :
    ReadsAt A (FillM.typeOf registry id) s := by
  have hdeep : s.tree.Within (s.tree.size + 1) id := by
    rw [hs.size_eq]
    exact (hs.within hw).succ
  have hfails := Typer.typeTo_failsOnly (y := ⟨s.tree, registry, s.scopes⟩) ha.literal hdeep
  simp only [ReadsAt, FillM.typeOf, Typer.typeOf]
  cases hr : Typer.typeTo ⟨s.tree, registry, s.scopes⟩ (s.tree.size + 1) id with
  | ok ty => rfl
  | error e => exact ⟨rfl, hfails e hr⟩

theorem calm_typeOf (ha : Admits A registry) {id : NodeId} (hw : t.Within t.size id) :
    Calm A t (FillM.typeOf registry id) := by
  intro s hs
  have hreads := readsAt_typeOf ha hs hw
  simp only [ReadsAt, CalmAt] at hreads ⊢
  split at hreads
  · rw [hreads]
    exact hs
  · rw [hreads.1]
    exact ⟨hs, hreads.2⟩

theorem calm_callType (ha : Admits A registry) {func : NodeId} {args : List NodeId} {node : Node}
    (hf : t.get? func = some node) (hw : ∀ c ∈ args, t.Within t.size c) :
    Calm A t (callType registry func args) := by
  refine calm_node hf fun n _ => ?_
  split
  · exact calm_pure none
  · next name _ =>
    refine calm_bind (fun _ hs => hs) fun found => ?_
    cases found with
    | some ty => exact calm_pure (some ty)
    | none =>
      cases args with
      | nil => exact calm_pure none
      | cons first rest =>
        simp only
        split
        · exact calm_typeOf ha (hw first (by simp))
        · exact calm_pure none

theorem calm_annotate_call {id func : NodeId} {args : List NodeId} {before : Option CType}
    (ty : CType) (hn : t.get? id = some (.call func args before)) :
    Calm A t (FillM.annotate id ty) := by
  intro s hs
  obtain ⟨node, hn', he⟩ := hs.get?_some hn
  cases node <;> simp only [Node.unannotated, Node.call.injEq, reduceCtorEq] at he
  obtain ⟨tree, ht, hshape⟩ := Tree.setType_call ty hn'
  simpa only [CalmAt, FillM.annotate, ht] using hs.trans hshape

theorem calm_annotate_symbol {left : NodeId} {name : String} {isConst : Bool} {s : Filling}
    (ty : CType) (hs : t.SameShape s.tree)
    (hn : s.tree.get? left = some (.symbol name none isConst)) :
    CalmAt A t (do FillM.annotate left ty; FillM.bind name ty) s := by
  obtain ⟨tree, ht, hshape⟩ := Tree.setType_symbol ty hn
  simpa only [CalmAt, bind, EStateM.bind, FillM.annotate, ht, FillM.bind] using hs.trans hshape

theorem explain_blames (s : Filling) (name : String) (left right : NodeId) :
    (s.explain name left right).BlamesProgram := by
  simp only [explain]
  split <;> trivial

theorem readsAt_localType (ha : Admits A registry) {s : Filling} {right : NodeId} (name : String)
    (hs : t.SameShape s.tree) (hw : t.Within t.size right) :
    ReadsAt A (localType registry name right) s := by
  have hreads := readsAt_typeOf ha hs hw
  simp only [ReadsAt, localType] at hreads ⊢
  cases (untemporary? name).bind s.scopes.lookup? with
  | some ty => rfl
  | none => exact hreads

/-- Inference changes nothing, so the target is still without a type when it is declared. -/
theorem calm_declareTarget (ha : Admits A registry) {left right : NodeId} {node : Node}
    (hl : t.get? left = some node) (hw : t.Within t.size right) :
    Calm A t (declareTarget registry left right) := by
  intro s hs
  obtain ⟨n, hn, -⟩ := hs.get?_some hl
  refine calmAt_read (node_ok hn) ?_
  split
  · next name isConst =>
    refine calmAt_read (a := s.scopes.lookup? name) rfl ?_
    cases s.scopes.lookup? name with
    | some ty => exact hs
    | none =>
      refine calmAt_query hs (readsAt_localType ha name hs hw) fun ty => ?_
      cases ty with
      | some ty => exact calm_annotate_symbol ty hs hn
      | none => exact ⟨hs, ha.program _ (explain_blames s name left right)⟩
  · exact hs

theorem calm_visitNode (ha : Admits A registry) {visit : NodeId → FillM Unit} {id : NodeId}
    {node n : Node} (hn : t.get? id = some node) (he : n.unannotated = node.unannotated)
    (hw : ∀ c ∈ node.children, t.Within t.size c)
    (hv : ∀ c ∈ node.children, Calm A t (visit c)) :
    Calm A t (visitNode registry visit id n) := by
  rw [← Node.blind_children.eq he] at hw hv
  unfold visitNode
  split
  · next returnType name params defn kinds attrs =>
    refine calm_bind (calm_bindName name returnType) fun _ => calm_inScope (calm_visitEach ?_)
    intro c hm
    exact hv c (by simpa [Node.children, Node.slots, Slot.ids] using hm)
  · exact calm_bindName _ _
  · next func args =>
    obtain ⟨before, hcall⟩ : ∃ before, node = .call func args before := by
      cases node <;> simp only [Node.unannotated, Node.call.injEq, reduceCtorEq] at he
      exact ⟨_, by rw [he.1, he.2.1]⟩
    have hmem : ∀ c ∈ func :: args, c ∈ (Node.call func args none).children := by
      simp [Node.children, Node.slots, Slot.ids]
    -- the arguments may be annotated before the call is typed, which keeps the shape
    obtain ⟨callee, hf⟩ := (hw func (hmem _ (by simp))).resolves
    refine calm_bind (calm_visitEach fun c hm => hv c (hmem c (by simp [hm]))) fun _ => ?_
    refine calm_bind (calm_callType ha hf fun c hm => hw c (hmem c (by simp [hm]))) fun ty => ?_
    cases ty with
    | some ty => exact calm_annotate_call ty (hcall ▸ hn)
    | none => exact calm_pure ()
  · exact calm_visitEach fun c hm => hv c (by simp [Node.children, Node.slots, Slot.ids, hm])
  · next left right =>
    obtain ⟨target, hl⟩ := (hw left (by simp [Node.children, Node.slots, Slot.ids])).resolves
    refine calm_bind (hv left (by simp [Node.children, Node.slots, Slot.ids])) fun _ => ?_
    refine calm_bind (hv right (by simp [Node.children, Node.slots, Slot.ids])) fun _ => ?_
    exact calm_declareTarget ha hl (hw right (by simp [Node.children, Node.slots, Slot.ids]))
  · exact calm_visitEach hv

theorem calm_visitTo (ha : Admits A registry) {root : NodeId}
    (hw : ∀ x, t.Reach root x → t.Within t.size x) {depth : Nat} {id : NodeId}
    (hi : t.Reach root id) (hd : t.Within depth id) : Calm A t (visitTo registry depth id) := by
  induction depth generalizing id with
  | zero => exact hd.elim
  | succ depth ih =>
    obtain ⟨node, hn, hc⟩ := hd
    have below : ∀ c ∈ node.children, t.Reach root c := fun c hm => hi.child hn hm
    exact calm_node hn fun n he => calm_visitNode ha hn he (fun c hm => hw c (below c hm))
      fun c hm => ih (below c hm) (hc c hm)

theorem calm_fill_of_within (ha : Admits A registry) {root : NodeId}
    (hw : ∀ x, t.Reach root x → t.Within t.size x) : Calm A t (fill registry root) := by
  intro s hs
  simp only [CalmAt, fill, hs.size_eq]
  exact calm_visitTo ha hw .refl (hw root .refl).succ s hs

theorem calm_fill {root : NodeId} (hl : t.WellLinked root) :
    CalmAt InferError.BlamesProgram t (fill .builtin root) (start t) :=
  calm_fill_of_within admits_builtin (fun _ hx => hl.within hx) (start t) (.refl t)

end Filling

namespace Tree

def Plain (t : Tree) (root : NodeId) : Prop :=
  ∀ id node, t.Reach root id → t.get? id = some node → ¬ node.isCustom

/-- What the passes can rely on: the tree is accepted, it renders whatever the rules for
extension nodes are, and a search over it ends only when everything has been seen. -/
structure Passes (t : Tree) (root : NodeId) : Prop where
  valid : t.validate root = .ok ()
  renders : ∀ rules, ∃ text, Renderer.render ⟨t, .builtin, rules⟩ root = .ok text
  searches : ∀ id p, t.Reach root id →
    (t.first? id p = none ↔ ∀ x, t.Reach id x → p x = false)

variable {t t' : Tree} {root : NodeId}

theorem WellFormed.passes (hw : t.WellFormed root) (hp : t.Plain root) : t.Passes root where
  valid := hw.validate_ok
  renders rules := Renderer.renderAt_succeeds (g := ⟨t, .builtin, rules⟩) rfl hw.region hp 0
  searches _ p hi := hw.region.first?_eq_none_iff hi p

theorem SameShape.plain (h : t.SameShape t') (hp : t.Plain root) : t'.Plain root := by
  intro id node' hr hn' hc
  obtain ⟨hr, node, hn, he⟩ := h.node_of_reach hr hn'
  rw [← Node.blind_isCustom.eq he] at hc
  exact hp id node hr hn hc

/-- Once a tree is accepted, filling can fail only for the program, and leaves a tree that is
accepted and renders, be it filled to the end or not. -/
theorem accepted_tree_passes (hv : t.validate root = .ok ()) (hp : t.Plain root) :
    t.Passes root ∧
    ∃ s, s.tree.Passes root ∧
      (Filling.fill .builtin root (.start t) = .ok () s ∨
        (∃ name, Filling.fill .builtin root (.start t) = .error (.unboundSymbol name) s) ∨
        ∃ name id, Filling.fill .builtin root (.start t) = .error (.uninferable name id) s) := by
  have hw := wellFormed_of_validate hv
  refine ⟨hw.passes hp, ?_⟩
  have kept : ∀ s : Filling, t.SameShape s.tree → s.tree.Passes root :=
    fun s hs => (hs.wellFormed hw).passes (hs.plain hp)
  have hcalm := Filling.calm_fill hw.region
  unfold Filling.CalmAt at hcalm
  split at hcalm
  · next s hf => exact ⟨s, kept s hcalm, .inl hf⟩
  · next e s hf =>
    refine ⟨s, kept s hcalm.1, .inr ?_⟩
    cases e with
    | unboundSymbol name => exact .inl ⟨name, hf⟩
    | uninferable name id => exact .inr ⟨name, id, hf⟩
    | tree e => exact hcalm.2.elim
    | registry e => exact hcalm.2.elim

/-- `int f(void) { a = 1; b = a + c; }`, whose second assignment reads an unbound name. -/
def unboundRead : Tree :=
  ⟨#[⟨.function (.scalar .int) "f" [] (some 1) false false, none⟩, ⟨.block [2, 5], some 0⟩,
    ⟨.binary 3 .assign 4, some 1⟩, ⟨.symbol "a" none false, some 2⟩, ⟨.constant (.int 1), some 2⟩,
    ⟨.binary 6 .assign 7, some 1⟩, ⟨.symbol "b" none false, some 5⟩, ⟨.binary 8 .add 9, some 5⟩,
    ⟨.symbol "a" none false, some 7⟩, ⟨.symbol "c" none false, some 7⟩], 0⟩

theorem unboundRead_plain : unboundRead.Plain 0 := by
  intro id node _ hn
  have none_custom : ∀ e ∈ unboundRead.entries.toList, ¬ e.node.isCustom := by decide
  obtain ⟨e, he, rfl⟩ := entry_of_get? hn
  exact none_custom e he

theorem unboundRead_passes :
    unboundRead.validate 0 = .ok () ∧ unboundRead.Plain 0 ∧
    ∃ s, s.tree.Passes 0 ∧
      Filling.fill .builtin 0 (.start unboundRead) = .error (.unboundSymbol "c") s := by
  have hv : unboundRead.validate 0 = .ok () := by decide +kernel
  refine ⟨hv, unboundRead_plain, ?_⟩
  obtain ⟨-, s, hs, hfill⟩ := accepted_tree_passes hv unboundRead_plain
  have stops : ∃ s, Filling.fill .builtin 0 (.start unboundRead) = .error (.unboundSymbol "c") s :=
    ⟨_, by rfl⟩
  obtain ⟨s', he⟩ := stops
  rcases hfill with hf | ⟨_, hf⟩ | ⟨_, _, hf⟩
  · cases he.symm.trans hf
  · cases he.symm.trans hf
    exact ⟨s, hs, he⟩
  · cases he.symm.trans hf

end Tree
end Arbor
