import Arbor.Proofs.Term
import Arbor.Proofs.Validation
import Mathlib.Data.List.Forall2

/-!
Well-formedness, read off a term.

What the check asks of a node concerns the node and the kinds of its children, so that it can be
said of a term: `Sound`. Where a term stands on ids of which none is repeated, the tree is well
formed there exactly if the term is sound. A child may give way to any expression where it is an
operation itself, which is what folding does.
-/
namespace Arbor

namespace Node

def isOperand (n : Node) : Bool := n.isExpression || n.isCustom

/-- The children that a view picks out are the first ones, as many as the form says. -/
def Leading (pick : Node → List NodeId) : Prop :=
  ∀ n : Node, pick n = n.children.take (pick n.form).length

theorem leading_operands : Leading operands := by
  intro n
  cases n <;> simp [operands, form, mapChildren, withSlots, children, slots, Slot.ids, Slot.map]

theorem leading_parameters : Leading parameters := by
  intro n
  cases n <;> simp [parameters, form, mapChildren, withSlots, children, slots, Slot.ids, Slot.map]

theorem leading_files : Leading files := by
  intro n
  cases n <;> simp [files, form, mapChildren, withSlots, children, slots, Slot.ids, Slot.map]

/-- A view of nodes that does not see ids. -/
def Formal {α : Type} (view : Node → α) : Prop := ∀ n : Node, view n.form = view n

theorem formal_operatorSuits : Formal OperatorSuits := fun n => by cases n <;> rfl

theorem formal_isOperand : Formal isOperand := fun n => by cases n <;> rfl

theorem formal_isSymbol : Formal isSymbol := fun n => by cases n <;> rfl

theorem formal_isFile : Formal isFile := fun n => by cases n <;> rfl

theorem formal_isProject : Formal isProject := fun n => by cases n <;> rfl

/-- What the check asks of a node, given the nodes of its children. -/
structure Accepts (n : Node) (heads : List Node) : Prop where
  operator : n.OperatorSuits
  operand : ∀ m ∈ heads.take n.operands.length, m.isOperand
  parameter : ∀ m ∈ heads.take n.parameters.length, m.isSymbol
  file : ∀ m ∈ heads.take n.files.length, m.isFile
  place : ∀ m ∈ heads, ¬ m.isProject ∧ (m.isFile → n.isProject)

/-- What may come into the place of a node: itself, or an operand for an operation. -/
def Yields (n m : Node) : Prop := m = n ∨ (∃ left op right, n = .binary left op right) ∧ m.isOperand

theorem Yields.refl (n : Node) : n.Yields n := Or.inl rfl

theorem not_isFile_of_isOperand {n : Node} (h : n.isOperand) : ¬ n.isProject ∧ ¬ n.isFile := by
  cases n <;> simp_all [isOperand, isExpression, isCustom, isProject, isFile]

namespace Yields

variable {n m : Node}

theorem isOperand (h : n.Yields m) (hn : n.isOperand) : m.isOperand := by
  rcases h with rfl | ⟨-, hm⟩
  · exact hn
  · exact hm

theorem kind (h : n.Yields m) {kind : Node → Bool}
    (hk : ∀ left op right, ¬ kind (.binary left op right)) (hn : kind n) : kind m := by
  rcases h with rfl | ⟨⟨left, op, right, rfl⟩, -⟩
  · exact hn
  · exact absurd hn (hk left op right)

theorem place (h : n.Yields m) {holder : Node}
    (hn : ¬ n.isProject ∧ (n.isFile → holder.isProject)) :
    ¬ m.isProject ∧ (m.isFile → holder.isProject) := by
  rcases h with rfl | ⟨-, hm⟩
  · exact hn
  · obtain ⟨hproject, hfile⟩ := not_isFile_of_isOperand hm
    exact ⟨hproject, fun hf => absurd hf hfile⟩

end Yields

theorem forall_of_yields {P Q : Node → Prop} {heads heads' : List Node}
    (h : List.Forall₂ Yields heads heads') (hpq : ∀ n m, n.Yields m → P n → Q m)
    (hp : ∀ n ∈ heads, P n) : ∀ m ∈ heads', Q m := by
  induction h with
  | nil => exact fun _ hm => nomatch hm
  | cons hy _ ih =>
    obtain ⟨hn, hrest⟩ := List.forall_mem_cons.mp hp
    exact List.forall_mem_cons.mpr ⟨hpq _ _ hy hn, ih hrest⟩

theorem Accepts.yields {n : Node} {heads heads' : List Node} (h : n.Accepts heads)
    (hy : List.Forall₂ Yields heads heads') : n.Accepts heads' where
  operator := h.operator
  operand := forall_of_yields (List.forall₂_take _ hy) (fun _ _ hy => hy.isOperand) h.operand
  parameter := forall_of_yields (List.forall₂_take _ hy) (fun _ _ hy => hy.kind (by simp [isSymbol]))
    h.parameter
  file := forall_of_yields (List.forall₂_take _ hy) (fun _ _ hy => hy.kind (by simp [isFile])) h.file
  place := forall_of_yields hy (fun _ _ hy => hy.place) h.place

end Node

namespace Term

def head : Term → Node
  | .mk node _ => node

/-- Every node of the term is accepted with its children. -/
inductive Sound : Term → Prop where
  | mk {node : Node} {es : List Term} (accepts : node.Accepts (es.map head))
      (below : ∀ e ∈ es, Sound e) : Sound (.mk node es)

theorem Sound.part {e e' : Term} (h : e.Sound) (hp : e.Part e') : e'.Sound := by
  induction hp with
  | itself => exact h
  | child _ hm ih =>
    cases ih with
    | mk _ hbelow => exact hbelow _ hm

theorem Sound.exchange {node : Node} {es₁ es₂ : List Term} {e e' : Term}
    (h : (Term.mk node (es₁ ++ e :: es₂)).Sound) (hy : e.head.Yields e'.head) (he : e'.Sound) :
    (Term.mk node (es₁ ++ e' :: es₂)).Sound := by
  cases h with
  | mk haccepts hbelow =>
    refine .mk (haccepts.yields ?_) fun d hd => ?_
    · rw [List.map_append, List.map_cons, List.map_append, List.map_cons]
      have same : ∀ heads : List Node, List.Forall₂ Node.Yields heads heads := fun heads =>
        List.forall₂_same.mpr fun n _ => .refl n
      exact List.rel_append (same _) (.cons hy (same _))
    · rcases List.mem_append.mp hd with hd | hd
      · exact hbelow d (List.mem_append_left _ hd)
      · rcases List.mem_cons.mp hd with rfl | hd
        · exact he
        · exact hbelow d (by simp [hd])

end Term

namespace Tree

variable {t : Tree} {depth : Nat} {root id : NodeId} {holder : Option NodeId} {e : Term}
  {ids : List NodeId}

theorem Stands.is_iff (h : t.Stands depth id holder e ids) {kind : Node → Bool}
    (hk : Node.Formal kind) : kind e.head ↔ t.Is id kind := by
  obtain ⟨_, node, es, below, hn, -, -, rfl, -⟩ := h.top
  rw [Term.head, hk node]
  constructor
  · intro hkind
    exact ⟨node, hn, hkind⟩
  · rintro ⟨_, hn', hkind⟩
    cases hn.symm.trans hn'
    exact hkind

section Rows

variable {node : Node} {es : List Term} {below : List NodeId} {kind : Node → Bool}

theorem Abreast.heads_iff {cs : List NodeId}
    (hb : Abreast (fun c => t.Stands depth c holder) cs es below) (hk : Node.Formal kind) :
    (∀ m ∈ es.map Term.head, kind m) ↔ ∀ c ∈ cs, t.Is c kind := by
  rw [List.forall_mem_map]
  exact hb.forall_iff fun c e ids _ hs => hs.is_iff hk

theorem Abreast.leading_iff {pick : Node → List NodeId}
    (hb : Abreast (fun c => t.Stands depth c holder) node.children es below)
    (hl : Node.Leading pick) (hk : Node.Formal kind) :
    (∀ m ∈ (es.map Term.head).take (pick node.form).length, kind m) ↔
      ∀ c ∈ pick node, t.Is c kind := by
  obtain ⟨_, hrow⟩ := hb.take (pick node.form).length
  rw [← List.map_take, hl node]
  exact hrow.heads_iff hk

end Rows

theorem Stands.wellLinked (h : t.Stands depth root holder e ids) (hn : ids.Nodup) :
    t.WellLinked root := by
  refine wellLinked_of_links ?_ ?_ ?_ ?_
  · exact fun x hx => (h.within.reach hx).resolves
  · intro p c hp hc
    obtain ⟨n, q, e', ids', hs, -, -⟩ := h.of_reach hp
    obtain ⟨_, node, es, below, hnode, -, hb, -, -⟩ := hs.top
    rw [Child, childrenOf_eq hnode] at hc
    obtain ⟨_, _, -, -, hstands⟩ := hb.of_mem hc
    exact hstands.parent
  · intro p hp
    obtain ⟨n, q, e', ids', hs, hsub, -⟩ := h.of_reach hp
    obtain ⟨_, node, es, below, hnode, -, hb, -, rfl⟩ := hs.top
    rw [childrenOf_eq hnode]
    exact hb.nodup (List.nodup_cons.mp (hn.sublist hsub)).2
  · exact fun p hp hc => h.within.no_return (.tail' hp hc)

theorem WellFormed.sound (hw : t.WellFormed root) (hi : t.Reach root id)
    (h : t.Stands depth id holder e ids) : e.Sound := by
  induction depth generalizing id holder e ids with
  | zero => exact h.elim
  | succ depth ih =>
    obtain ⟨node, es, below, hn, -, hb, rfl, -⟩ := h
    refine .mk ⟨?_, ?_, ?_, ?_, ?_⟩ ?_
    · rw [Node.formal_operatorSuits]
      exact hw.operator id node hi hn
    · exact (hb.leading_iff Node.leading_operands Node.formal_isOperand).mpr (hw.operand id node hi hn)
    · exact (hb.leading_iff Node.leading_parameters Node.formal_isSymbol).mpr
        (hw.parameter id node hi hn)
    · exact (hb.leading_iff Node.leading_files Node.formal_isFile).mpr (hw.file id node hi hn)
    · rw [List.forall_mem_map]
      refine (hb.forall_iff (Q := fun c => ¬ t.Is c Node.isProject ∧
        (t.Is c Node.isFile → node.isProject)) fun c e ids _ hs => ?_).mpr fun c hc => ?_
      · rw [hs.is_iff Node.formal_isProject, hs.is_iff Node.formal_isFile, Node.formal_isProject]
      · have hchild : t.Child id c := by
          rw [Child, childrenOf_eq hn]
          exact hc
        have hroot : c ≠ root := by
          rintro rfl
          exact hw.region.root_not_child hi hchild
        refine ⟨fun hp => hroot (hw.project_place c (hi.tail hchild) hp), fun hf => ?_⟩
        obtain ⟨p, hp, ⟨holder, hh, hproject⟩, hpc⟩ :=
          (hw.file_place c (hi.tail hchild) hf).resolve_left hroot
        -- a child has one holder, so that the project is the node itself
        have hlink := (hw.region.linked p c hp hpc).symm.trans (hw.region.linked id c hi hchild)
        obtain rfl := Option.some.inj hlink
        cases hn.symm.trans hh
        exact hproject
    · exact (hb.forall_iff (Q := fun _ => True) fun c e ids hc hs =>
        iff_of_true (ih (hi.child hn hc) hs) trivial).mpr fun _ _ => trivial

/-- Where a sound term stands on ids of its own, the tree is well formed. -/
theorem Stands.wellFormed (h : t.Stands depth root holder e ids) (hn : ids.Nodup) (hs : e.Sound) :
    t.WellFormed root := by
  have accepted : ∀ x node, t.Reach root x → t.get? x = some node →
      ∃ n es below, Abreast (fun c => t.Stands n c (some x)) node.children es below ∧
        node.form.Accepts (es.map Term.head) := by
    intro x node hx hnode
    obtain ⟨n, p, e', ids', hstands, -, hpart⟩ := h.of_reach hx
    obtain ⟨n, _, es, below, hnode', -, hb, rfl, -⟩ := hstands.top
    cases hnode.symm.trans hnode'
    cases hs.part hpart with
    | mk haccepts _ => exact ⟨n, es, below, hb, haccepts⟩
  -- where a project or a file may stand is asked of its holder
  have held : ∀ x, t.Reach root x → x = root ∨ ∃ p node, t.Reach root p ∧ t.Child p x ∧
      t.get? p = some node ∧ ¬ t.Is x Node.isProject ∧ (t.Is x Node.isFile → node.isProject) := by
    intro x hx
    rcases Relation.ReflTransGen.cases_tail hx with he | ⟨p, hp, hc⟩
    · exact Or.inl he
    · obtain ⟨node, hnode⟩ := (h.within.reach hp).resolves
      obtain ⟨n, es, below, hb, haccepts⟩ := accepted p node hp hnode
      refine Or.inr ⟨p, node, hp, hc, hnode, ?_⟩
      rw [Child, childrenOf_eq hnode] at hc
      obtain ⟨e', ids', hmem, -, hstands⟩ := hb.of_mem hc
      rw [← hstands.is_iff Node.formal_isProject, ← hstands.is_iff Node.formal_isFile,
        ← Node.formal_isProject node]
      exact haccepts.place e'.head (List.mem_map_of_mem hmem)
  refine ⟨h.wellLinked hn, ?_, ?_, ?_, ?_, ?_, ?_⟩
  · intro x node hx hnode
    obtain ⟨n, es, below, -, haccepts⟩ := accepted x node hx hnode
    rw [← Node.formal_operatorSuits]
    exact haccepts.operator
  · intro x node hx hnode
    obtain ⟨n, es, below, hb, haccepts⟩ := accepted x node hx hnode
    exact (hb.leading_iff Node.leading_operands Node.formal_isOperand).mp haccepts.operand
  · intro x node hx hnode
    obtain ⟨n, es, below, hb, haccepts⟩ := accepted x node hx hnode
    exact (hb.leading_iff Node.leading_parameters Node.formal_isSymbol).mp haccepts.parameter
  · intro x node hx hnode
    obtain ⟨n, es, below, hb, haccepts⟩ := accepted x node hx hnode
    exact (hb.leading_iff Node.leading_files Node.formal_isFile).mp haccepts.file
  · intro x hx hp
    rcases held x hx with he | ⟨_, _, -, -, -, hno, -⟩
    · exact he
    · exact absurd hp hno
  · intro x hx hf
    rcases held x hx with he | ⟨p, node, hp, hc, hnode, -, hproject⟩
    · exact Or.inl he
    · exact Or.inr ⟨p, hp, ⟨node, hnode, hproject hf⟩, hc⟩

end Tree
end Arbor
