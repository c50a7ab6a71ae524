import Arbor.Fold
import Arbor.Proofs.ParentLinks
import Arbor.Proofs.RebuiltLinks
import Arbor.Proofs.WriteOnce

/-!
An id names the same node for ever.

Edits, folds and fills may come in any order, succeed or stop halfway. None of them takes a node
out, and what is written at a node stays, apart from its child slots. A type that is missing may be
written; a type that is there is final at a symbol, and at a call or a cast only the request to set
the type of this very node changes it.
-/
namespace Arbor

def Slot.emptied : Slot → Slot
  | .required _ => .required 0
  | .optional _ => .optional none
  | .list _ => .list []

namespace Node

/-- What a node is apart from its children and its type: its kind and everything written at it. -/
def identity : Node → Node
  | .symbol name _ isConst => .symbol name none isConst
  | .call _ _ _ => .call 0 [] none
  | .cast _ _ => .cast (.scalar .void) 0
  | node => node.withSlots (node.slots.map fun slot => slot.2.emptied)

/-- The same node later on. If it was `retyped`, a call or a cast may have another type. -/
structure Keeps (retyped : Prop) (n m : Node) : Prop where
  identity_eq : m.identity = n.identity
  annotation_eq : ∀ ty, n.annotation? = some ty → n.isSymbol ∨ ¬ retyped → m.annotation? = some ty

theorem Keeps.refl (retyped : Prop) (n : Node) : Keeps retyped n n := ⟨rfl, fun _ h _ => h⟩

theorem isSymbol_of_identity {n m : Node} (h : m.identity = n.identity) (hs : n.isSymbol) :
    m.isSymbol := by
  cases n <;> cases hs
  cases m <;> first | rfl | cases h

theorem Keeps.trans {p q : Prop} {n m k : Node} (h : Keeps p n m) (h' : Keeps q m k) :
    Keeps (p ∨ q) n k := by
  refine ⟨h'.identity_eq.trans h.identity_eq, fun ty hty hfinal => ?_⟩
  have hm : m.annotation? = some ty :=
    h.annotation_eq ty hty (hfinal.imp_right fun hn hp => hn (.inl hp))
  refine h'.annotation_eq ty hm ?_
  exact hfinal.imp (isSymbol_of_identity h.identity_eq) fun hn hq => hn (.inr hq)

theorem Keeps.mono {p q : Prop} {n m : Node} (h : Keeps p n m) (hpq : p → q) : Keeps q n m :=
  ⟨h.identity_eq, fun ty hty hfinal =>
    h.annotation_eq ty hty (hfinal.imp_right fun hn hp => hn (hpq hp))⟩

theorem keeps_withSlots (n : Node) (ss : List Slot) : Keeps False n (n.withSlots ss) := by
  unfold withSlots
  split <;> exact ⟨rfl, fun _ h _ => h⟩

theorem Typed.keeps {n m : Node} (h : n.Typed m) : Keeps False n m := by
  cases h <;> exact ⟨rfl, nofun⟩

end Node

namespace Tree

structure Keeps (retyped : NodeId → Prop) (t t' : Tree) : Prop where
  size_le : t.size ≤ t'.size
  node : ∀ id n, t.get? id = some n → ∃ m, t'.get? id = some m ∧ n.Keeps (retyped id) m

def nowhere : NodeId → Prop := fun _ => False

namespace Keeps

variable {t t' t'' : Tree}

theorem refl (t : Tree) : t.Keeps nowhere t := ⟨Nat.le_refl _, fun _ n hn => ⟨n, hn, .refl _ n⟩⟩

theorem trans {p q : NodeId → Prop} (h : t.Keeps p t') (h' : t'.Keeps q t'') :
    t.Keeps (fun id => p id ∨ q id) t'' := by
  refine ⟨Nat.le_trans h.size_le h'.size_le, fun id n hn => ?_⟩
  obtain ⟨m, hm, hkeep⟩ := h.node id n hn
  obtain ⟨k, hk, hkeep'⟩ := h'.node id m hm
  exact ⟨k, hk, hkeep.trans hkeep'⟩

theorem mono {p q : NodeId → Prop} (h : t.Keeps p t') (hpq : ∀ id, p id → q id) : t.Keeps q t' := by
  refine ⟨h.size_le, fun id n hn => ?_⟩
  obtain ⟨m, hm, hkeep⟩ := h.node id n hn
  exact ⟨m, hm, hkeep.mono (hpq id)⟩

theorem andThen (h : t.Keeps nowhere t') (h' : t'.Keeps nowhere t'') : t.Keeps nowhere t'' :=
  (h.trans h').mono fun _ hp => hp.elim False.elim False.elim

theorem of_get? (hs : t'.size = t.size) (hn : ∀ id, t'.get? id = t.get? id) : t.Keeps nowhere t' :=
  ⟨Nat.le_of_eq hs.symm, fun id n h => ⟨n, (hn id).trans h, .refl _ n⟩⟩

theorem add (t : Tree) (node : Node) : t.Keeps nowhere (t.add node).1 := by
  refine ⟨by rw [size_add]; exact Nat.le_succ _, fun id n hn => ⟨n, ?_, .refl _ n⟩⟩
  rw [get?_add, if_neg (Nat.ne_of_lt (lt_size_of_get? hn))]
  exact hn

theorem of_relinks {holder : NodeId} {freed taken : List NodeId}
    (h : t.Relinks holder freed taken t') : t.Keeps nowhere t' := by
  refine ⟨Nat.le_of_eq h.size_eq.symm, fun id n hn => ?_⟩
  obtain ⟨node, place, slot, filled, hnode, -, -, -, -, -, rfl⟩ := h.written
  rw [get?_setParents, get?_setParents, get?_fillSlot hnode]
  by_cases hid : id = holder
  · subst hid
    obtain rfl : node = n := Option.some.inj (hnode.symm.trans hn)
    exact ⟨_, if_pos rfl, node.keeps_withSlots _⟩
  · exact ⟨n, (if_neg hid).trans hn, .refl _ n⟩

theorem of_replace {id new : NodeId} (h : t.replace id new = .ok t') : t.Keeps nowhere t' := by
  rcases replace_relinks h with rfl | ⟨holder, -, -, hr⟩
  · exact .refl _
  · exact .of_relinks hr

theorem of_setNode {id : NodeId} {n m : Node} {p : NodeId → Prop} (hn : t.get? id = some n)
    (hk : n.Keeps (p id) m) : t.Keeps p (t.setNode id m) := by
  refine ⟨Nat.le_of_eq (size_setNode ..).symm, fun x k hx => ?_⟩
  by_cases he : x = id
  · subst he
    obtain rfl : n = k := Option.some.inj (hn.symm.trans hx)
    exact ⟨m, get?_setNode_same m hn, hk⟩
  · exact ⟨k, (get?_setNode_other m he).trans hx, .refl _ k⟩

theorem of_setType {id : NodeId} {ty : CType} (h : t.setType id ty = .ok t') :
    t.Keeps (· = id) t' := by
  obtain ⟨node, hn, h⟩ := bind_eq_ok.mp h
  have hn := node_eq_ok.mp hn
  split at h
  · cases h
    exact of_setNode hn ((Node.Typed.symbol _ ty _).keeps.mono False.elim)
  · split at h
    · cases h
      exact (refl t).mono fun _ => False.elim
    · cases h
  · cases h
    refine of_setNode hn ⟨rfl, fun _ _ hfinal => ?_⟩
    exact hfinal.elim nofun fun hnot => absurd rfl hnot
  · cases h
    refine of_setNode hn ⟨rfl, fun _ _ hfinal => ?_⟩
    exact hfinal.elim nofun fun hnot => absurd rfl hnot
  · cases h

theorem of_writesOnce {s : Tree} {ids : List NodeId} (h : WritesOnce s ids t t') :
    t.Keeps nowhere t' := by
  refine ⟨Nat.le_of_eq h.size_eq.symm, fun id n hn => ?_⟩
  rcases h.node id with he | ⟨-, -, -, k, m, hk, hm, hty⟩
  · exact ⟨n, he.trans hn, .refl _ n⟩
  · obtain rfl : k = n := Option.some.inj (hk.symm.trans hn)
    exact ⟨m, hm, hty.keeps⟩

end Keeps
end Tree

namespace TreeM

/-- The pass leaves what is kept so far, also where it stops halfway. -/
def Maintains {α : Type} (P : Tree → Prop) (m : TreeM α) : Prop := ∀ t, P t → P (t.after m)

variable {α β : Type} {P : Tree → Prop}

theorem Maintains.bind {m : TreeM α} {f : α → TreeM β} (hm : Maintains P m)
    (hf : ∀ a, Maintains P (f a)) : Maintains P (m >>= f) := by
  intro t ht
  have hmid := hm t ht
  unfold Tree.after at hmid ⊢
  simp only [Bind.bind, EStateM.bind]
  cases hr : m t with
  | ok a t' =>
    rw [hr] at hmid
    exact hf a t' hmid
  | error e t' =>
    rw [hr] at hmid
    exact hmid

theorem maintains_pure (a : α) : Maintains P (pure a : TreeM α) := fun _ ht => ht

theorem maintains_get : Maintains P (get : TreeM Tree) := fun _ ht => ht

theorem maintains_node (id : NodeId) : Maintains P (TreeM.node id) := by
  intro t ht
  unfold Tree.after TreeM.node
  cases t.node id <;> exact ht

end TreeM

namespace Fold

open TreeM

variable {P : Tree → Prop}

/-- A fold changes the tree by adding nodes and by replacing them. It makes up no symbol. -/
theorem maintains_fold_known
    (hadd : ∀ s t node, P s → s.Knows node → P t → P (t.add node).1)
    (hreplace : ∀ t t' id new, P t → t.replace id new = .ok t' → P t') (root : NodeId) :
    Maintains P (fold root) := by
  have hsubstitute : ∀ left op right, Maintains P (substitute? left op right) := by
    intro left op right t ht
    unfold Tree.after substitute?
    cases outcome t left op right with
    | keep => exact ht
    | operand id => exact ht
    | literal value => exact hadd t t _ ht nofun ht
    | negated id => exact hadd t t _ ht nofun ht
  have hsettle : ∀ root substitute, Maintains P (settle root substitute) := by
    intro root substitute
    refine maintains_get.bind fun t => ?_
    split
    · refine Maintains.bind ?_ fun _ => maintains_pure _
      intro t ht
      unfold Tree.after TreeM.edit
      simp only
      cases hr : t.replace root substitute with
      | ok t' => exact hreplace t t' root substitute ht hr
      | error e => exact ht
    · split
      · exact fun t ht => Tree.copyTo_adds_known P hadd _ substitute t ht
      · exact maintains_pure _
  have hfold : ∀ depth root, Maintains P (foldTo depth root) := by
    intro depth
    induction depth with
    | zero => exact fun root t ht => ht
    | succ depth ih =>
      have heach : ∀ ids, Maintains P (foldEach (foldTo depth) ids) := by
        intro ids
        induction ids with
        | nil => exact maintains_pure ()
        | cons id rest ihr => exact (ih id).bind fun _ => ihr
      intro root
      refine (maintains_node root).bind fun node => (heach node.children).bind fun _ => ?_
      refine (maintains_node root).bind fun node => ?_
      split
      · refine (hsubstitute _ _ _).bind fun found => ?_
        cases found with
        | none => exact maintains_pure root
        | some substitute => exact hsettle root substitute
      · exact maintains_pure root
  exact fun t ht => hfold (t.size + 1) root t ht

theorem maintains_fold (hadd : ∀ t node, P t → P (t.add node).1)
    (hreplace : ∀ t t' id new, P t → t.replace id new = .ok t' → P t') (root : NodeId) :
    Maintains P (fold root) :=
  maintains_fold_known (fun _ t node _ _ => hadd t node) hreplace root

end Fold

inductive Change where
  | edit (e : Edit)
  | fixParents
  | fold (root : NodeId)
  | fill (registry : TypeRegistry) (scopes : Scopes) (root : NodeId)

namespace Change

def next (t : Tree) : Change → Tree
  | .edit e => e.next t
  | .fixParents => t.fixParents
  | .fold root => t.after (Fold.fold root)
  | .fill registry scopes root =>
    match Filling.fill registry root ⟨t, scopes⟩ with
    | .ok _ s => s.tree
    | .error _ s => s.tree

def run (t : Tree) (changes : List Change) : Tree := changes.foldl next t

def Retypes (c : Change) (id : NodeId) : Prop := ∃ ty, c = .edit (.setType id ty)

end Change

open Tree in
theorem Edit.keeps (t : Tree) (e : Edit) : t.Keeps (Change.edit e).Retypes (e.next t) := by
  have lift : ∀ {t'}, t.Keeps nowhere t' → t.Keeps (Change.edit e).Retypes t' :=
    fun h => h.mono fun _ => False.elim
  cases e with
  | add node => exact lift (.add t node)
  | setField parent field child =>
    exact orElse_of (lift (.refl t)) fun t' old hr => lift (.of_relinks (setField_relinks hr))
  | setList parent field children =>
    exact orElse_of (lift (.refl t)) fun t' old hr => lift (.of_relinks (setList_relinks hr))
  | replace id new => exact outcome_of (lift (.refl t)) fun t' hr => lift (.of_replace hr)
  | insertBefore id new =>
    refine outcome_of (lift (.refl t)) fun t' hr => ?_
    obtain ⟨holder, -, hr⟩ := insertSibling_relinks (Nat.zero_le 1) hr
    exact lift (.of_relinks hr)
  | insertAfter id new =>
    refine outcome_of (lift (.refl t)) fun t' hr => ?_
    obtain ⟨holder, -, hr⟩ := insertSibling_relinks (Nat.le_refl 1) hr
    exact lift (.of_relinks hr)
  | setType id ty =>
    refine outcome_of (lift (.refl t)) fun t' hr => (Keeps.of_setType hr).mono ?_
    rintro _ rfl
    exact ⟨ty, rfl⟩
  | uniqueSymbol stem ty =>
    have hcount : t.Keeps nowhere { t with nextUnique := t.nextUnique + 1 } :=
      .of_get? rfl fun _ => rfl
    exact lift (hcount.andThen (.add _ _))
  | copySymbol id declare =>
    refine orElse_of (lift (.refl t)) fun t' copy hr => ?_
    obtain ⟨node, -, hr⟩ := bind_eq_ok.mp hr
    split at hr
    · cases hr
      exact lift (.add t _)
    · cases hr
  | cloneSubtree id =>
    exact lift (copyTo_adds (t.Keeps nowhere) (fun t' node h => h.andThen (.add t' node)) _ id t
      (.refl t))

namespace Change

theorem ends_of_fill (t : Tree) (registry : TypeRegistry) (scopes : Scopes) (root : NodeId) :
    ∃ done s, Filling.Ends (Filling.fill registry root) ⟨t, scopes⟩ done s ∧
      next t (.fill registry scopes root) = s.tree := by
  simp only [next, Filling.Ends]
  cases Filling.fill registry root ⟨t, scopes⟩ with
  | ok a s => exact ⟨true, s, ⟨rfl, rfl⟩, rfl⟩
  | error e s => exact ⟨false, s, ⟨rfl, rfl⟩, rfl⟩

theorem next_keeps (t : Tree) (c : Change) : t.Keeps c.Retypes (c.next t) := by
  have lift : ∀ {t'}, t.Keeps Tree.nowhere t' → t.Keeps c.Retypes t' :=
    fun h => h.mono fun _ => False.elim
  cases c with
  | edit e => exact e.keeps t
  | fixParents => exact lift (.of_get? (Tree.size_fixParents t) (Tree.get?_fixParents t))
  | fold root =>
    refine lift (Fold.maintains_fold ?_ ?_ root t (.refl t))
    · exact fun t' node h => h.andThen (.add t' node)
    · exact fun t' t'' id new h hr => h.andThen (.of_replace hr)
  | fill registry scopes root =>
    obtain ⟨done, s, hends, htree⟩ := ends_of_fill t registry scopes root
    rw [htree]
    exact lift (.of_writesOnce (Filling.fill_writesOnce hends))

theorem run_keeps (t : Tree) (changes : List Change) :
    t.Keeps (fun id => ∃ c ∈ changes, c.Retypes id) (run t changes) := by
  induction changes generalizing t with
  | nil => exact (Tree.Keeps.refl t).mono fun _ => False.elim
  | cons c rest ih =>
    refine ((next_keeps t c).trans (ih (c.next t))).mono fun id h => ?_
    rcases h with h | ⟨c', hc', h⟩
    · exact ⟨c, List.mem_cons_self, h⟩
    · exact ⟨c', List.mem_cons_of_mem c hc', h⟩

/-- Whatever is done to a tree, in whatever order and with whatever outcome, no node goes away and
each keeps its kind and all that is written at it. A type that was there is there still, at a symbol
in any case and at another node unless its own type was set. -/
theorem identity_stable (t : Tree) (changes : List Change) :
    t.size ≤ (run t changes).size ∧ ∀ id n, t.get? id = some n →
      ∃ m, (run t changes).get? id = some m ∧ m.identity = n.identity ∧
        ∀ ty, n.annotation? = some ty →
          n.isSymbol ∨ (∀ ty', .edit (.setType id ty') ∉ changes) → m.annotation? = some ty := by
  have hkeeps := run_keeps t changes
  refine ⟨hkeeps.size_le, fun id n hn => ?_⟩
  obtain ⟨m, hm, hnode⟩ := hkeeps.node id n hn
  refine ⟨m, hm, hnode.identity_eq, fun ty hty hfinal => hnode.annotation_eq ty hty ?_⟩
  refine hfinal.imp_right ?_
  rintro hnever ⟨_, hmem, ty', rfl⟩
  exact hnever ty' hmem

/-- `x = (int) f(x + 0)`, where `x` is a declared `long`. -/
def declared : Tree :=
  .ofNodes [.symbol "x" (some (.scalar .long)) false, .symbol "f" none false,
    .symbol "x" none false, .constant (.int 0), .binary 2 .add 3, .call 1 [4] none,
    .cast (.scalar .int) 5, .binary 0 .assign 6] 0

/-- A refused type, a fold, a fill, a copy, an exchange of operands and new links. -/
def mixture : List Change :=
  [.edit (.setType 0 (.scalar .int)), .fold 7, .fill .builtin .empty 7, .edit (.cloneSubtree 7),
    .edit (.setType 5 (.scalar .double)), .edit (.setField 7 "left" (some 4)), .fixParents,
    .edit (.setList 5 "args" [1])]

theorem identity_stable_mixture :
    declared.get? 0 = some (.symbol "x" (some (.scalar .long)) false) ∧
    declared.get? 6 = some (.cast (.scalar .int) 5) ∧
    declared.size ≤ (run declared mixture).size ∧
    (∃ m, (run declared mixture).get? 0 = some m ∧ m.identity = .symbol "x" none false ∧
      m.annotation? = some (.scalar .long)) ∧
    ∃ m, (run declared mixture).get? 6 = some m ∧ m.identity = .cast (.scalar .void) 0 ∧
      m.annotation? = some (.scalar .int) := by
  have hsymbol : declared.get? 0 = some (.symbol "x" (some (.scalar .long)) false) := by
    decide +kernel
  have hcast : declared.get? 6 = some (.cast (.scalar .int) 5) := by decide +kernel
  obtain ⟨hsize, hnode⟩ := identity_stable declared mixture
  refine ⟨hsymbol, hcast, hsize, ?_, ?_⟩
  · obtain ⟨m, hm, hidentity, htype⟩ := hnode 0 _ hsymbol
    exact ⟨m, hm, hidentity, htype _ rfl (.inl rfl)⟩
  · obtain ⟨m, hm, hidentity, htype⟩ := hnode 6 _ hcast
    exact ⟨m, hm, hidentity, htype _ rfl (.inr (by simp [mixture]))⟩

end Change
end Arbor
