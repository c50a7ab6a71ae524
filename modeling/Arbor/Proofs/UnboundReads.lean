import Arbor.Proofs.ClosingState
import Arbor.Proofs.FoldedType
import Arbor.Proofs.Search
import Arbor.Render.Source

/-!
Names that are read before they are bound.

A local is declared with the type of the expression that is assigned to it. That type rests on some
of the names in the expression: they have to be bound, or have types of their own. Of the two arms of
a choice one is enough. What does not make the type is not looked at: the operands of a comparison
or of `!`, what a cast converts, the arguments of a call, the value before a comma. There a name may
be read that nothing binds.
-/
namespace Arbor

namespace Node

/-- The operands that typing asks for their types. -/
def typedBy : Node → List NodeId
  | .unary op arg => if op = .not ∨ op = .sizeOf then [] else [arg]
  | .binary left op right =>
    if op.isBoolean ∨ op = .dot ∨ op = .arrow then []
    else if op = .assign then [left]
    else if op = .comma then [right]
    else [left, right]
  | .augAssign target _ _ => [target]
  | .ternary _ thenValue elseValue => [thenValue, elseValue]
  | _ => []

/-- The operands whose types make the type are all needed. -/
def isOperation : Node → Bool
  | .unary _ _ | .augAssign _ _ _ => true
  | .binary _ op _ => op ≠ .dot ∧ op ≠ .arrow
  | _ => false

/-- The operands of which one is enough for a type. -/
def arms : Node → List NodeId
  | .ternary _ thenValue elseValue => [thenValue, elseValue]
  | _ => []

theorem eq_of_unannotated {node known : Node} (he : known.unannotated = node.unannotated)
    (h : node.isOperation ∨ node.arms ≠ []) : known = node := by
  rcases node.unannotated_eq he with hsame | ⟨_, _, _, _, rfl, -⟩ | ⟨_, _, _, _, rfl, -⟩
  · exact hsame
  · rcases h with h | h
    · cases h
    · exact absurd rfl h
  · rcases h with h | h
    · cases h
    · exact absurd rfl h

theorem arms_subset (node : Node) : node.arms ⊆ node.typedBy := by
  cases node <;> simp [arms, typedBy]

theorem typedBy_visited {node : Node} {c : NodeId} (hc : c ∈ node.typedBy) :
    node.isFunction = false ∧ c ∈ node.visited := by
  cases node with
  | unary op arg =>
    simp only [typedBy] at hc
    split at hc
    · cases hc
    · exact ⟨rfl, hc⟩
  | binary left op right =>
    have hsub : (binary left op right).typedBy ⊆ [left, right] := by
      simp only [typedBy]
      split
      · simp
      · split
        · simp
        · split <;> simp
    exact ⟨rfl, hsub hc⟩
  | augAssign target op value => exact ⟨rfl, List.mem_cons.mpr (Or.inl (List.mem_singleton.mp hc))⟩
  | ternary cond thenValue elseValue => exact ⟨rfl, List.mem_cons_of_mem _ hc⟩
  | _ => cases hc

end Node

namespace Tree

def calleeBound (t : Tree) (scopes : Scopes) (func : NodeId) : Bool :=
  ((t.get? func).bind Node.symbolName?).any scopes.isBound

def calleePolymorphic (t : Tree) (func : NodeId) : Bool :=
  ((t.get? func).bind Node.symbolName?).any Filling.polymorphic.contains

/-- The type is known without those of the operands. -/
def GivesType (t : Tree) (scopes : Scopes) : Node → Prop
  | .constant _ | .string _ | .cast _ _ => True
  | .symbol name ty _ => ty.isSome ∨ scopes.isBound name
  | .call func _ ty => ty.isSome ∨ t.calleeBound scopes func
  | _ => False

/-- All that the type of an expression rests on is known. -/
inductive Grounded (t : Tree) (scopes : Scopes) : NodeId → Prop where
  | leaf {id node} : t.get? id = some node → t.GivesType scopes node → Grounded t scopes id
  | operation {id node} : t.get? id = some node → node.isOperation →
      (∀ c ∈ node.typedBy, Grounded t scopes c) → Grounded t scopes id
  | argument {id func first rest} : t.get? id = some (.call func (first :: rest) none) →
      t.calleePolymorphic func → Grounded t scopes first → Grounded t scopes id
  | arm {id node c} : t.get? id = some node → c ∈ node.arms → Grounded t scopes c →
      Grounded t scopes id

/-- The operands without which there is no type. -/
def needed (t : Tree) (scopes : Scopes) : Node → List NodeId
  | .call func args none => if t.calleeBound scopes func then [] else args.take 1
  | node => if node.isOperation then node.typedBy else []

/-- The type of the one cannot be known without that of the other. -/
def RestsOn (t : Tree) (scopes : Scopes) : NodeId → NodeId → Prop :=
  Relation.ReflTransGen fun p c => ∃ node, t.get? p = some node ∧ c ∈ t.needed scopes node

namespace Grounded

variable {t : Tree} {scopes scopes' : Scopes} {id : NodeId}

theorem mono (h : t.Grounded scopes id)
    (hg : ∀ name, scopes.isBound name → scopes'.isBound name) : t.Grounded scopes' id := by
  induction h with
  | @leaf id node hn hgives =>
    refine .leaf hn ?_
    cases node with
    | symbol name ty isConst => exact hgives.imp_right (hg name)
    | call func args ty =>
      refine hgives.imp_right fun hb => ?_
      obtain ⟨name, hname, hb⟩ := (Option.any_eq_true _ _).mp hb
      exact (Option.any_eq_true _ _).mpr ⟨name, hname, hg name hb⟩
    | _ => exact hgives
  | operation hn hop _ ih => exact .operation hn hop ih
  | argument hn hp _ ih => exact .argument hn hp ih
  | arm hn hc _ ih => exact .arm hn hc ih

theorem needed {node : Node} (h : t.Grounded scopes id) (hn : t.get? id = some node) :
    ∀ c ∈ t.needed scopes node, t.Grounded scopes c := by
  intro c hc
  cases h with
  | leaf hn' hgives =>
    cases hn.symm.trans hn'
    cases node with
    | call func args ty => cases ty <;> simp_all [Tree.needed, Node.isOperation, GivesType]
    | _ => simp_all [Tree.needed, Node.isOperation, GivesType]
  | operation hn' hop hall =>
    cases hn.symm.trans hn'
    have hneeded : t.needed scopes node = node.typedBy := by
      cases node <;> simp_all [Tree.needed, Node.isOperation]
    exact hall c (hneeded ▸ hc)
  | argument hn' _ hfirst =>
    cases hn.symm.trans hn'
    simp only [Tree.needed] at hc
    split at hc
    · cases hc
    · rw [List.mem_singleton.mp hc]
      exact hfirst
  | arm hn' harm =>
    cases hn.symm.trans hn'
    cases node <;> simp_all [Tree.needed, Node.isOperation, Node.arms]

theorem symbol {name : String} {isConst : Bool} (h : t.Grounded scopes id)
    (hn : t.get? id = some (.symbol name none isConst)) : scopes.isBound name := by
  cases h with
  | leaf hn' hgives =>
    cases hn.symm.trans hn'
    exact hgives.resolve_left (by simp)
  | operation hn' hop => cases hn.symm.trans hn'; cases hop
  | argument hn' => cases hn.symm.trans hn'
  | arm hn' hc => cases hn.symm.trans hn'; cases hc

theorem read {r : NodeId} {name : String} {isConst : Bool} (h : t.Grounded scopes id)
    (hr : t.RestsOn scopes id r) (hn : t.get? r = some (.symbol name none isConst)) :
    scopes.isBound name := by
  have hlast : t.Grounded scopes r := by
    clear hn
    induction hr with
    | refl => exact h
    | tail _ hstep ih =>
      obtain ⟨node, hp, hc⟩ := hstep
      exact ih.needed hp _ hc
  exact hlast.symbol hn

end Grounded
end Tree

namespace Filling

/-- What an assignment without a type is reported by: a name that is read and not bound, or the
assignment itself if there is none. -/
inductive Blames (s : Filling) (name : String) (left right : NodeId) : InferError → Prop where
  | read {r v} : s.tree.Reach right r → s.isUnboundRead r → s.tree.Names r v →
      Blames s name left right (.unboundSymbol v)
  | assignment : (∀ r, s.tree.Reach right r → s.isUnboundRead r = false) →
      Blames s name left right (.uninferable name left)

variable {registry : TypeRegistry} {t : Tree} {root id : NodeId} {s mid s' : Filling}

section Types

variable {typeOf : NodeId → Typer.Result} {ty : CType}

theorem unary_operand {op : Operator} {arg : Option CType} (h : Typer.unaryType? op arg = some ty)
    (hop : ¬ (op = .not ∨ op = .sizeOf)) : ∃ ty', arg = some ty' := by
  cases arg with
  | some ty' => exact ⟨ty', rfl⟩
  | none => cases op <;> simp_all [Typer.unaryType?]

theorem binary_operands {left right : NodeId} {op : Operator}
    (h : Typer.binaryType typeOf left op right = .ok (some ty)) :
    (Node.binary left op right).isOperation ∧
      ∀ c ∈ (Node.binary left op right).typedBy, ∃ ty', typeOf c = .ok (some ty') := by
  by_cases hbool : op.isBoolean
  · refine ⟨?_, by simp [Node.typedBy, hbool]⟩
    cases op <;> first | rfl | cases hbool
  · simp only [Typer.binaryType, hbool, Bool.false_eq_true, if_false] at h
    split at h
    · exact ⟨rfl, fun c hc => ⟨ty, (List.mem_singleton.mp hc) ▸ h⟩⟩
    · exact ⟨rfl, fun c hc => ⟨ty, (List.mem_singleton.mp hc) ▸ h⟩⟩
    · cases h
    · cases h
    · next hassign hcomma hdot harrow =>
      have hother : op ≠ .assign ∧ op ≠ .comma ∧ op ≠ .dot ∧ op ≠ .arrow :=
        ⟨hassign, hcomma, hdot, harrow⟩
      obtain ⟨l, hl, h⟩ := bind_eq_ok.mp h
      obtain ⟨r, hr, h⟩ := bind_eq_ok.mp h
      cases l with
      | none => cases h
      | some l =>
        cases r with
        | none => cases h
        | some r =>
          have hop : (Node.binary left op right).typedBy = [left, right] := by
            simp [Node.typedBy, hbool, hother]
          rw [hop]
          refine ⟨by simp [Node.isOperation, hother], fun c hc => ?_⟩
          rcases List.mem_pair.mp hc with rfl | rfl
          · exact ⟨l, hl⟩
          · exact ⟨r, hr⟩

theorem nodeType_cases {node : Node}
    (h : Typer.nodeType ⟨s.tree, registry, s.scopes⟩ typeOf node = .ok (some ty)) :
    s.tree.GivesType s.scopes node ∨
      (node.isOperation ∧ ∀ c ∈ node.typedBy, ∃ ty', typeOf c = .ok (some ty')) ∨
      ∃ c ∈ node.arms, ∃ ty', typeOf c = .ok (some ty') := by
  cases node with
  | constant value => exact Or.inl trivial
  | string value => exact Or.inl trivial
  | cast ty value => exact Or.inl trivial
  | symbol name own isConst =>
    refine Or.inl ?_
    cases own with
    | some ty => exact Or.inl rfl
    | none => exact Or.inr (Option.isSome_iff_exists.mpr ⟨ty, Except.ok.inj h⟩)
  | call func args own =>
    refine Or.inl ?_
    cases own with
    | some ty => exact Or.inl rfl
    | none =>
      obtain ⟨name, hname, hb⟩ := Option.bind_eq_some_iff.mp (Except.ok.inj h)
      exact Or.inr ((Option.any_eq_true _ _).mpr
        ⟨name, hname, Option.isSome_iff_exists.mpr ⟨ty, hb⟩⟩)
  | unary op arg =>
    obtain ⟨found, harg, h⟩ := bind_eq_ok.mp h
    refine Or.inr (Or.inl ⟨rfl, fun c hc => ?_⟩)
    simp only [Node.typedBy] at hc
    split at hc
    · cases hc
    · next hop =>
      obtain ⟨ty', rfl⟩ := unary_operand (Except.ok.inj h) hop
      rw [List.mem_singleton.mp hc]
      exact ⟨ty', harg⟩
  | binary left op right => exact Or.inr (Or.inl (binary_operands h))
  | augAssign target op value =>
    refine Or.inr (Or.inl ⟨rfl, fun c hc => ?_⟩)
    rw [List.mem_singleton.mp hc]
    exact ⟨ty, h⟩
  | ternary cond thenValue elseValue =>
    obtain ⟨a, ha, h⟩ := bind_eq_ok.mp h
    obtain ⟨b, hb, h⟩ := bind_eq_ok.mp h
    refine Or.inr (Or.inr ?_)
    cases a with
    | some ty' => exact ⟨thenValue, by simp [Node.arms], ty', ha⟩
    | none =>
      cases b with
      | some ty' => exact ⟨elseValue, by simp [Node.arms], ty', hb⟩
      | none => cases Except.ok.inj h
  | _ => cases h

end Types

/-- A type that a node has now, and had not from the start, rests on what is known. -/
def Justified (t : Tree) (s : Filling) (x : NodeId) : Prop :=
  ∀ node, s.tree.get? x = some node → node.hasType →
    t.get? x = some node ∨ t.Grounded s.scopes x

theorem Justified.mono {x : NodeId} (h : Justified t s x) (hn : s'.tree.get? x = s.tree.get? x)
    (hg : ∀ name, s.scopes.isBound name → s'.scopes.isBound name) : Justified t s' x := by
  intro node hnode htype
  exact (h node (hn ▸ hnode) htype).imp_right fun hgrounded => hgrounded.mono hg

theorem calleeBound_eq (hs : t.SameShape s.tree) (scopes : Scopes) (func : NodeId) :
    s.tree.calleeBound scopes func = t.calleeBound scopes func := by
  rw [Tree.calleeBound, Tree.calleeBound, hs.symbolName_eq]

theorem grounded_of_givesType {node : Node} (hs : t.SameShape s.tree) (hj : Justified t s id)
    (hn : s.tree.get? id = some node) (h : s.tree.GivesType s.scopes node) :
    t.Grounded s.scopes id := by
  obtain ⟨known, hk, he⟩ := hs.symm.get?_some hn
  have typed : node.hasType → t.Grounded s.scopes id := by
    intro htype
    rcases hj node hn htype with hsame | hgrounded
    · refine .leaf hsame ?_
      cases node <;> first | exact Or.inl htype | cases htype
    · exact hgrounded
  cases node with
  | symbol name ty isConst =>
    rcases h with htype | hb
    · exact typed htype
    · cases known <;> cases he
      exact .leaf hk (Or.inr hb)
  | call func args ty =>
    rcases h with htype | hb
    · exact typed htype
    · cases known <;> cases he
      exact .leaf hk (Or.inr (calleeBound_eq hs .. ▸ hb))
  | constant value =>
    cases known <;> cases he
    exact .leaf hk trivial
  | string value =>
    cases known <;> cases he
    exact .leaf hk trivial
  | cast ty value =>
    cases known <;> cases he
    exact .leaf hk trivial
  | _ => cases h

theorem grounded_of_typeTo {depth : Nat} {ty : CType} (hs : t.SameShape s.tree)
    (hj : ∀ x, t.Locally id x → Justified t s x)
    (h : Typer.typeTo ⟨s.tree, registry, s.scopes⟩ depth id = .ok (some ty)) :
    t.Grounded s.scopes id := by
  induction depth generalizing id ty with
  | zero => cases h
  | succ depth ih =>
    obtain ⟨node, hnode, h⟩ := bind_eq_ok.mp h
    have hn : s.tree.get? id = some node := by
      unfold Typer.node at hnode
      split at hnode
      · next hok =>
        cases hnode
        exact Tree.node_eq_ok.mp hok
      · cases hnode
    obtain ⟨known, hk, he⟩ := hs.symm.get?_some hn
    have operand : ∀ c ∈ known.typedBy, ∀ ty, Typer.typeTo ⟨s.tree, registry, s.scopes⟩ depth c =
        .ok (some ty) → t.Grounded s.scopes c := by
      intro c hc ty hty
      obtain ⟨hf, hvisited⟩ := Node.typedBy_visited hc
      exact ih (fun x hx => hj x (.head ⟨known, hk, hf, hvisited⟩ hx)) hty
    rcases nodeType_cases h with hgives | ⟨hop, hall⟩ | ⟨c, hc, ty', hty⟩
    · exact grounded_of_givesType hs (hj id .refl) hn hgives
    · obtain rfl := Node.eq_of_unannotated he (Or.inl hop)
      refine .operation hk hop fun c hc => ?_
      obtain ⟨ty', hty⟩ := hall c hc
      exact operand c hc ty' hty
    · obtain rfl := Node.eq_of_unannotated he (Or.inr (List.ne_nil_of_mem hc))
      exact .arm hk hc (operand c (known.arms_subset hc) ty' hty)

theorem typeOf_of_ok {found : Option CType} (h : FillM.typeOf registry id s = .ok found s') :
    Typer.typeOf ⟨s.tree, registry, s.scopes⟩ id = .ok found := by
  unfold FillM.typeOf at h
  split at h
  · next hty =>
    cases h
    exact hty
  · cases h

theorem grounded_of_callType {x func : NodeId} {args : List NodeId} {ty : CType}
    (hs : t.SameShape s.tree) (hx : t.get? x = some (.call func args none))
    (hj : ∀ c ∈ args, ∀ y, t.Locally c y → Justified t s y)
    (h : callType registry func args s = .ok (some ty) s) : t.Grounded s.scopes x := by
  cases hn : s.tree.get? func with
  | none => simp [callType, bind, EStateM.bind, FillM.node, Tree.node, hn] at h
  | some callee =>
    have hname : (t.get? func).bind Node.symbolName? = callee.symbolName? := by
      rw [← hs.symbolName_eq, hn, Option.bind_some]
    cases hc : callee.symbolName? with
    | none =>
      simp only [callType, bind, EStateM.bind, node_ok hn, hc] at h
      cases h
    | some name =>
      rw [hc] at hname
      cases hb : s.scopes.lookup? name with
      | some bound =>
        refine .leaf hx (Or.inr ?_)
        simp [Tree.calleeBound, hname, Scopes.isBound, hb]
      | none =>
        cases args with
        | nil =>
          simp only [callType, bind, EStateM.bind, node_ok hn, hc, FillM.lookup?, hb] at h
          cases h
        | cons first rest =>
          simp only [callType, bind, EStateM.bind, node_ok hn, hc, FillM.lookup?, hb] at h
          split at h
          · next hpoly =>
            have hcallee : t.calleePolymorphic func := by
              simpa [Tree.calleePolymorphic, hname] using hpoly
            exact .argument hx hcallee
              (grounded_of_typeTo hs (hj first (by simp)) (typeOf_of_ok h))
          · cases h

section Visits

variable {depth : Nat}

theorem Each.justified {ids : List NodeId} (h : Each (Awaited registry t root depth) ids s true s')
    (hs : t.SameShape s.tree) (happart : ids.Pairwise t.Apart)
    (hv : ∀ c ∈ ids, ∀ s s', Awaited registry t root depth c s true s' →
      ∀ x, t.Locally c x → Justified t s' x) :
    ∀ c ∈ ids, ∀ x, t.Locally c x → Justified t s' x := by
  induction ids generalizing s with
  | nil => exact nofun
  | cons id rest ih =>
    obtain ⟨hfirst, happart⟩ := List.pairwise_cons.mp happart
    cases h with
    | cons hhead hrest =>
      have hs₁ := hs.trans hhead.advances.sameShape
      intro c hc x hx
      rcases List.mem_cons.mp hc with rfl | hc
      · have hadv := hrest.awaited_advances hs₁
        refine (hv c (by simp) _ _ hhead x hx).mono (hadv.get?_eq fun c' hc' hr => ?_)
          fun name => hadv.scopes.isBound
        exact hfirst c' hc' x hx.reach hr
      · exact ih hrest hs₁ happart (fun c hc => hv c (by simp [hc])) c hc x hx

theorem Closes.justified_self {node : Node} (h : Closes registry id node s true s')
    (hs : t.SameShape s.tree) (hk : t.get? id = some node) (hn : s.tree.get? id = some node)
    (hj : ∀ c ∈ node.visited, ∀ x, t.Locally c x → Justified t s x) : Justified t s' id := by
  have same : s'.tree.get? id = some node → Justified t s' id := by
    intro hlast node' hn' htype
    exact Or.inl (hk.trans (hlast.symm.trans hn'))
  cases h with
  | types hty ht =>
    have hgrounded := grounded_of_callType hs hk hj hty
    exact fun _ _ _ => Or.inr hgrounded
  | @declares _ left _ name _ ty hl =>
    refine same ?_
    have hne : id ≠ left := by
      rintro rfl
      cases hn.symm.trans hl
    rw [Tree.get?_setNode_other _ hne]
    exact hn
  | binds | untyped | bound | settled | nothing => exact same hn

theorem Closes.justified_other {x : NodeId} {node : Node} (h : Closes registry id node s true s')
    (hn : s.tree.get? id = some node) (hx : x ≠ id) (hj : Justified t s x)
    (hback : ∀ name isConst, s.tree.get? x = some (.symbol name none isConst) →
      t.get? x = some (.symbol name none isConst)) : Justified t s' x := by
  cases h with
  | binds => exact hj.mono rfl fun name => (Scopes.Grows.bind ..).isBound
  | types _ ht =>
    rw [Tree.setType_call_eq hn ht]
    exact hj.mono (Tree.get?_setNode_other _ hx) fun _ hb => hb
  | @declares _ left _ name isConst ty hl =>
    by_cases hleft : x = left
    · subst hleft
      exact fun _ _ _ => Or.inr (.leaf (hback _ _ hl) (Or.inr (Scopes.isBound_top (Scopes.top_bind ..))))
    · exact hj.mono (Tree.get?_setNode_other _ hleft) fun name => (Scopes.Grows.bind ..).isBound
  | untyped | bound | settled | nothing => exact hj

theorem Awaited.justified (hroot : t.WellLinked root)
    (h : Awaited registry t root depth id s true s') :
    ∀ x, t.Locally id x → Justified t s' x := by
  induction depth generalizing id s s' with
  | zero => exact (h.1.within id (List.mem_singleton_self id)).elim
  | succ depth ih =>
    have hshape := h.1.shape.trans h.advances.sameShape
    obtain ⟨ha, h⟩ := h
    have hid := List.mem_singleton_self id
    intro x hx
    cases ends_visitTo.mp h with
    | function hn he =>
      have hknown := ha.get?_eq.symm.trans hn
      rcases hx.cases_down (.refl t) hknown with rfl | ⟨hf, -⟩
      · intro node hnode htype
        obtain ⟨known, hk, he⟩ := hshape.symm.get?_some hnode
        cases hknown.symm.trans hk
        cases node <;> first | cases htype | cases he
      · cases hf
    | @close node s₁ _ _ hn hf he hclose =>
      have hknown := ha.get?_eq.symm.trans hn
      have hchildren := ha.children hroot hknown
      have heach := hchildren.each he
      have hin := heach.awaited_advances ha.shape
      have hkept := hin.get?_visited ha.shape (ha.within id hid) hn
      have hbelow := heach.justified ha.shape hchildren.apart fun c _ s s' h => ih h
      have hs₁ := ha.shape.trans hin.sameShape
      rcases hx.cases_down (.refl t) hknown with rfl | ⟨-, c, hc, hcx⟩
      · exact (closes_of_ends hclose).justified_self hs₁ hknown hkept hbelow
      · have hne := hroot.ne_of_below (ha.reach id hid) (Tree.child_of_visited hknown hc) hcx.reach
        refine (closes_of_ends hclose).justified_other hkept hne.symm (hbelow c hc x hcx) ?_
        intro name isConst hlast
        have hfresh := ha.fresh id hid x (Tree.Locally.reach hx)
        exact hfresh.symm.trans (hin.untyped hlast)

theorem ComesTo.grounded {b left right : NodeId} {ty : CType} (hroot : t.WellLinked root)
    (ha : Awaits t root depth s.tree [id]) (h : ComesTo registry depth id s b mid)
    (hb : t.get? b = some (.binary left .assign right))
    (hty : Typer.typeOf ⟨mid.tree, registry, mid.scopes⟩ right = .ok (some ty)) :
    t.Grounded mid.scopes right := by
  obtain ⟨node, depth', s₀, hb', -, -, heach⟩ := h.own hroot ha
  cases hb.symm.trans hb'
  cases heach with
  | cons _ hrest =>
    cases hrest with
    | cons hvisit hnil =>
      cases hnil
      exact grounded_of_typeTo (h.shape hroot ha) (hvisit.justified hroot) hty

end Visits

section Failures

variable {left right x : NodeId} {name : String} {isConst : Bool}

theorem symbol_of_unboundRead {r : NodeId} (h : s.isUnboundRead r) :
    ∃ v, s.tree.Names r v := by
  unfold isUnboundRead at h
  split at h
  · next v isConst hn => exact ⟨v, by simp [Tree.Names, hn, Node.symbolName?]⟩
  · cases h

theorem explain_blamed (hroot : s.tree.WellLinked root) (hr : s.tree.Reach root right) :
    s.Blames name left right (s.explain name left right) := by
  unfold explain
  cases hfirst : s.tree.first? right s.isUnboundRead with
  | none => exact .assignment ((hroot.first?_eq_none_iff hr _).mp hfirst)
  | some r =>
    obtain ⟨hread, _, hm, hreach⟩ := Tree.findUpTo_sound (List.mem_of_mem_head? hfirst)
    rw [List.mem_singleton.mp hm] at hreach
    obtain ⟨v, hv⟩ := symbol_of_unboundRead hread
    have hv' : (s.tree.get? r).bind Node.symbolName? = some v := hv
    simp only [Option.bind_some, hv']
    exact .read hreach hread hv

theorem closing_without_type (hl : s.tree.get? left = some (.symbol name none isConst))
    (hfree : ¬ s.scopes.isBound name) (hbase : (untemporary? name).bind s.scopes.lookup? = none)
    (hnot : ∀ ty, Typer.typeOf ⟨s.tree, registry, s.scopes⟩ right ≠ .ok (some ty)) :
    ∃ e, closing registry x (.binary left .assign right) s = .error e s ∧
      (Typer.typeOf ⟨s.tree, registry, s.scopes⟩ right = .error e ∨
        e = s.explain name left right) := by
  cases hty : Typer.typeOf ⟨s.tree, registry, s.scopes⟩ right with
  | error e =>
    refine ⟨e, ?_, Or.inl rfl⟩
    simp only [closing, declareTarget, bind, EStateM.bind, node_ok hl, FillM.lookup?,
      Scopes.lookup?_eq_none.mpr hfree, localType, hbase, FillM.typeOf, hty]
  | ok found =>
    cases found with
    | some ty => exact absurd hty (hnot ty)
    | none =>
      refine ⟨_, ?_, Or.inr rfl⟩
      simp only [closing, declareTarget, bind, EStateM.bind, node_ok hl, FillM.lookup?,
        Scopes.lookup?_eq_none.mpr hfree, localType, hbase, FillM.typeOf, hty]
      rfl

theorem fill_without_type {b : NodeId} (hv : s.tree.validate root = .ok ())
    (hmid : ClosedIn registry root s b mid) (hb : s.tree.get? b = some (.binary left .assign right))
    (hl : s.tree.get? left = some (.symbol name none isConst)) (hfree : ¬ mid.scopes.isBound name)
    (hbase : (untemporary? name).bind mid.scopes.lookup? = none)
    (hnot : ∀ ty, Typer.typeOf ⟨mid.tree, registry, mid.scopes⟩ right ≠ .ok (some ty)) :
    ∃ e last, fill registry root s = .error e last ∧
      ((∃ v r, registry.recognize (.constant v) = .error r ∧ e = .registry r) ∨
        mid.Blames name left right e) := by
  have hroot := (Tree.wellFormed_of_validate hv).region
  have ha : Awaits s.tree root _ s.tree [root] := .start hroot
  have hshape := hmid.shape hroot ha
  have hroot' := hshape.wellLinked hroot
  have hright : mid.tree.Reach root right := by
    rw [hshape.reach_eq]
    exact (hmid.seen hroot ha).reach.child hb (by simp)
  obtain ⟨e, hclose, hwhy⟩ := closing_without_type (hmid.target hroot ha hb hl) hfree hbase hnot
  obtain ⟨last, hfill⟩ := hmid.fails hroot ha hb hclose
  refine ⟨e, last, hfill, ?_⟩
  rcases hwhy with hty | rfl
  · have hfails := Typer.typeTo_failsOnly (y := ⟨mid.tree, registry, mid.scopes⟩)
      (A := fun e => ∃ v r, registry.recognize (.constant v) = .error r ∧ e = .registry r)
      (fun v r hr => ⟨v, r, hr, rfl⟩) (hroot'.within hright).succ
    exact Or.inl (hfails e hty)
  · exact Or.inr (explain_blamed hroot' hright)

end Failures

/-- A fill that goes through declares a local only if it stands for a name that is bound, or if all
that the type of its first value rests on is known when the assignment is closed. If it is not, the
fill fails there, and names an unbound read if there is one. -/
theorem declares_only_grounded (hv : s.tree.validate root = .ok ()) :
    (∀ s', fill registry root s = .ok () s' → ∀ d name, Declared s s' d name →
      ∃ b right mid, s.tree.get? b = some (.binary d .assign right) ∧
        ClosedIn registry root s b mid ∧ (∀ mid', ClosedIn registry root s b mid' → mid' = mid) ∧
        ¬ mid.scopes.isBound name ∧
        ((∃ base, untemporary? name = some base ∧ mid.scopes.isBound base) ∨
          s.tree.Grounded mid.scopes right ∧
          ∀ r v isConst, s.tree.RestsOn mid.scopes right r →
            s.tree.get? r = some (.symbol v none isConst) → mid.scopes.isBound v)) ∧
    ∀ b d right name isConst mid, ClosedIn registry root s b mid →
      s.tree.get? b = some (.binary d .assign right) →
      s.tree.get? d = some (.symbol name none isConst) → ¬ mid.scopes.isBound name →
      (untemporary? name).bind mid.scopes.lookup? = none →
      ¬ s.tree.Grounded mid.scopes right →
      ∃ e last, fill registry root s = .error e last ∧
        ((∃ v r, registry.recognize (.constant v) = .error r ∧ e = .registry r) ∨
          mid.Blames name d right e) := by
  have hroot := (Tree.wellFormed_of_validate hv).region
  have ha : Awaits s.tree root _ s.tree [root] := .start hroot
  refine ⟨fun s' h d name hd => ?_, fun b d right name isConst mid hmid hb hd hfree hbase hnot => ?_⟩
  · have hvisit : Awaited registry s.tree root (s.tree.size + 1) root s true s' :=
      ⟨ha, ends_ok.mpr h⟩
    obtain ⟨b, right, mid, hmid, hb, hfree⟩ := hvisit.declaredIn hroot hd
    obtain ⟨isConst, ty, hs, -⟩ := hd
    refine ⟨b, right, mid, hb, hmid, fun mid' hmid' => hmid'.unique hroot ha hmid, hfree, ?_⟩
    cases hbase : (untemporary? name).bind mid.scopes.lookup? with
    | some ty =>
      obtain ⟨base, hname, hbound⟩ := Option.bind_eq_some_iff.mp hbase
      exact Or.inl ⟨base, hname, Option.isSome_iff_exists.mpr ⟨ty, hbound⟩⟩
    | none =>
      have hty : ∃ ty, Typer.typeOf ⟨mid.tree, registry, mid.scopes⟩ right = .ok (some ty) := by
        by_contra hnot
        obtain ⟨e, last, hfails, -⟩ :=
          fill_without_type hv hmid hb hs hfree hbase (not_exists.mp hnot)
        cases h.symm.trans hfails
      obtain ⟨ty, hty⟩ := hty
      have hgrounded := hmid.grounded hroot ha hb hty
      exact Or.inr ⟨hgrounded, fun r v isConst hr hn => hgrounded.read hr hn⟩
  · refine fill_without_type hv hmid hb hd hfree hbase fun ty hty => hnot ?_
    exact hmid.grounded hroot ha hb hty

/-- `{ x = 1; y = x + (b > 0); }` -/
def sumWithComparison : Tree :=
  ⟨#[⟨.block [1, 4], none⟩, ⟨.binary 2 .assign 3, some 0⟩, ⟨.symbol "x" none false, some 1⟩,
    ⟨.constant (.int 1), some 1⟩, ⟨.binary 5 .assign 6, some 0⟩, ⟨.symbol "y" none false, some 4⟩,
    ⟨.binary 7 .add 8, some 4⟩, ⟨.symbol "x" none false, some 6⟩, ⟨.binary 9 .gt 10, some 6⟩,
    ⟨.symbol "b" none false, some 8⟩, ⟨.constant (.int 0), some 8⟩], 0⟩

theorem sumWithComparison_declares_grounded :
    sumWithComparison.validate 0 = .ok () ∧
    ∃ s, fill .builtin 0 (.start sumWithComparison) = .ok () s ∧
      Declared (.start sumWithComparison) s 5 "y" ∧
      ∃ b right mid, sumWithComparison.get? b = some (.binary 5 .assign right) ∧
        ClosedIn .builtin 0 (.start sumWithComparison) b mid ∧
        sumWithComparison.Grounded mid.scopes right := by
  have hv : sumWithComparison.validate 0 = .ok () := by decide +kernel
  have hfill : ∃ s, fill .builtin 0 (.start sumWithComparison) = .ok () s ∧
      Declared (.start sumWithComparison) s 5 "y" := ⟨_, by rfl, _, _, by rfl, by rfl⟩
  obtain ⟨s, hfill, hd⟩ := hfill
  have hname : untemporary? "y" = none := by decide +kernel
  obtain ⟨b, right, mid, hb, hmid, -, -, htemp | ⟨hgrounded, -⟩⟩ :=
    (declares_only_grounded hv).1 s hfill 5 "y" hd
  · obtain ⟨base, hbase, -⟩ := htemp
    cases hname.symm.trans hbase
  · exact ⟨hv, s, hfill, hd, b, right, mid, hb, hmid, hgrounded⟩

/-- `y = b > 0` -/
def comparison : Tree :=
  ⟨#[⟨.binary 1 .assign 2, none⟩, ⟨.symbol "y" none false, some 0⟩, ⟨.binary 3 .gt 4, some 0⟩,
    ⟨.symbol "b" none false, some 2⟩, ⟨.constant (.int 0), some 2⟩], 0⟩

theorem comparison_reads_unbound :
    comparison.validate 0 = .ok () ∧
    ∃ s mid, fill .builtin 0 (.start comparison) = .ok () s ∧
      Declared (.start comparison) s 1 "y" ∧ ClosedIn .builtin 0 (.start comparison) 0 mid ∧
      comparison.Reach 2 3 ∧ mid.isUnboundRead 3 ∧
      Renderer.render ⟨s.tree, .builtin, .empty⟩ 0 = .ok "int y = b > 0" := by
  have hv : comparison.validate 0 = .ok () := by decide +kernel
  have hread : comparison.Reach 2 3 := .single (by decide)
  exact ⟨hv, _, _, by rfl, ⟨_, _, by rfl, by rfl⟩, .here (by rfl) (by rfl) (by rfl), hread,
    by rfl, by decide +kernel⟩

end Filling
end Arbor
