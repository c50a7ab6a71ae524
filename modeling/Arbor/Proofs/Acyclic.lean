import Arbor.Proofs.Annotation
import Arbor.Proofs.Levels
import Arbor.Proofs.ParentLinks

/-!
Child slots without cycles.

The check that guards every edit follows parent links. An edit that takes a node out of what it
displaces leaves the old holder with a slot that no link knows of, and the old holder may then go
under that very node. What goes into a slot closes no cycle as long as the links below it agree
with the slots, and every pass ends on a tree that was built so.
-/
namespace Arbor

/-- Calls that build a tree up: nodes are added over distinct nodes that nobody holds. -/
def Edit.Orderly (t : Tree) : Edit → Prop
  | .add node => node.children.Nodup ∧ ∀ c ∈ node.children, c < t.size ∧ t.parent? c = none
  | .setField _ _ _ | .setList _ _ _ | .replace _ _ | .insertBefore _ _ | .insertAfter _ _ => True
  | _ => False

def Edit.incoming : Edit → List NodeId
  | .setField _ _ child => child.toList
  | .setList _ _ children => children
  | .replace _ new | .insertBefore _ new | .insertAfter _ new => [new]
  | _ => []

/-- The trees that calls of a kind make of the empty one. -/
inductive Built (allowed : Tree → Edit → Prop) : Tree → Prop where
  | empty : Built allowed .empty
  | next {t} (e : Edit) : Built allowed t → allowed t e → Built allowed (e.next t)

def AllowedFrom (allowed : Tree → Edit → Prop) : Tree → List Edit → Prop
  | _, [] => True
  | t, e :: rest => allowed t e ∧ AllowedFrom allowed (e.next t) rest

theorem built_run {allowed : Tree → Edit → Prop} {edits : List Edit}
    (h : AllowedFrom allowed .empty edits) : Built allowed (Edit.run edits) := by
  have extend : ∀ (edits : List Edit) t, Built allowed t → AllowedFrom allowed t edits →
      Built allowed (edits.foldl Edit.next t) := by
    intro edits
    induction edits with
    | nil => exact fun _ hb _ => hb
    | cons e rest ih => exact fun t hb ha => ih (e.next t) (hb.next e ha.1) ha.2
  exact extend edits _ .empty h

namespace Tree

def Acyclic (t : Tree) : Prop := ∀ id, ¬ Relation.TransGen t.Child id id

def LinkedBelow (t : Tree) (id : NodeId) : Prop :=
  ∀ p c, t.Reach id p → t.Child p c → t.parent? c = some p

structure SlotsSound (t : Tree) : Prop where
  links : t.LinksSound
  resolves : ∀ p c, t.Child p c → c < t.size
  acyclic : t.Acyclic

variable {t : Tree}

theorem LinkedBelow.up {id x : NodeId} (h : t.LinkedBelow id) (hx : t.Reach id x) :
    Relation.ReflTransGen t.Up x id := by
  induction hx with
  | refl => exact .refl
  | tail hp hc ih => exact .head (h _ _ hp hc) ih

theorem LinkedBelow.not_reach (hl : t.LinksSound) {holder c : NodeId} {freed : List NodeId}
    (h : t.LinkedBelow c) (ha : t.checkAttachable holder c freed = .ok ()) :
    ¬ t.Reach c holder := by
  intro hr
  obtain ⟨-, hne, hnot, -⟩ := checkAttachable_eq_ok.mp ha
  rcases Relation.reflTransGen_iff_eq_or_transGen.mp (h.up hr) with he | hup
  · exact hne he
  · exact hnot (hl.mem_ancestors.mpr hup)

theorem reach_swap {p c : NodeId} :
    Relation.ReflTransGen (fun c p => t.Child p c) p c ↔ t.Reach c p :=
  Relation.reflTransGen_swap

theorem acyclic_swap :
    t.Acyclic ↔ ∀ id, ¬ Relation.TransGen (fun c p => t.Child p c) id id := by
  unfold Acyclic
  refine forall_congr' fun id => not_congr ?_
  exact Relation.transGen_swap.symm

/-- New slots lead from one holder to nodes from which nothing leads back to it. -/
theorem Acyclic.attach {t' : Tree} (h : t.Acyclic) (holder : NodeId)
    (hc : ∀ p c, t'.Child p c → t.Child p c ∨ (p = holder ∧ ¬ t.Reach c holder)) :
    t'.Acyclic := by
  refine acyclic_swap.mpr (acyclic_of_attach holder (acyclic_swap.mp h) fun c p hcp => ?_)
  rcases hc p c hcp with hold | ⟨rfl, hn⟩
  · exact Or.inl hold
  · exact Or.inr ⟨rfl, fun hr => hn (reach_swap.mp hr)⟩

namespace SlotsSound

theorem empty : SlotsSound .empty := by
  have none : ∀ p c, ¬ Tree.empty.Child p c := by
    intro p c hc
    simp [Child, childrenOf, get?, Tree.empty] at hc
  refine ⟨empty_linksSound, fun p c hc => absurd hc (none p c), fun id h => ?_⟩
  obtain ⟨c, hc, -⟩ := Relation.TransGen.head'_iff.mp h
  exact none id c hc

theorem add (h : t.SlotsSound) {node : Node} (hn : ∀ c ∈ node.children, c < t.size) :
    (t.add node).1.SlotsSound := by
  have child : ∀ p c, (t.add node).1.Child p c →
      t.Child p c ∨ (p = t.size ∧ c ∈ node.children) := by
    intro p c hc
    rw [Child, childrenOf_add] at hc
    split at hc
    · next hp => exact Or.inr ⟨hp, hc⟩
    · exact Or.inl hc
  have unheld : ∀ p, ¬ t.Child p t.size := fun p hc => Nat.lt_irrefl _ (h.resolves p _ hc)
  refine ⟨h.links.add node, ?_, h.acyclic.attach t.size ?_⟩
  · intro p c hc
    rw [size_add]
    rcases child p c hc with hold | ⟨-, hm⟩
    · exact Nat.lt_succ_of_lt (h.resolves p c hold)
    · exact Nat.lt_succ_of_lt (hn c hm)
  · intro p c hc
    rcases child p c hc with hold | ⟨hp, hm⟩
    · exact Or.inl hold
    · refine Or.inr ⟨hp, fun hr => ?_⟩
      rcases Relation.ReflTransGen.cases_tail hr with he | ⟨q, -, hq⟩
      · exact Nat.ne_of_lt (hn c hm) he.symm
      · exact unheld q hq

theorem relink (h : t.SlotsSound) {t' : Tree} {holder : NodeId} {freed taken : List NodeId}
    (hr : t.Relinks holder freed taken t') (hl : ∀ c ∈ taken, t.LinkedBelow c) :
    t'.SlotsSound := by
  refine ⟨h.links.relink hr, ?_, h.acyclic.attach holder ?_⟩
  · intro p c hc
    rw [hr.size_eq]
    rcases hr.child_cases hc with hold | ⟨-, hm⟩
    · exact h.resolves p c hold
    · exact (checkAttachable_eq_ok.mp (hr.attachable c hm)).1
  · intro p c hc
    rcases hr.child_cases hc with hold | ⟨hp, hm⟩
    · exact Or.inl hold
    · exact Or.inr ⟨hp, (hl c hm).not_reach h.links (hr.attachable c hm)⟩

theorem insertSibling (h : t.SlotsSound) {t' : Tree} {id new : NodeId} {offset : Nat}
    (ho : offset ≤ 1) (hl : ∀ c ∈ [new], t.LinkedBelow c)
    (hi : t.insertSibling id new offset = .ok t') : t'.SlotsSound := by
  obtain ⟨holder, -, hr⟩ := insertSibling_relinks ho hi
  exact h.relink hr hl

theorem step (h : t.SlotsSound) (e : Edit) (ho : e.Orderly t)
    (hl : ∀ c ∈ e.incoming, t.LinkedBelow c) : (e.next t).SlotsSound := by
  cases e with
  | add node => exact h.add fun c hc => (ho.2 c hc).1
  | setField parent field child =>
    exact orElse_of h fun t' old hr => h.relink (setField_relinks hr) hl
  | setList parent field children =>
    exact orElse_of h fun t' old hr => h.relink (setList_relinks hr) hl
  | replace id new =>
    refine outcome_of h fun t' hr => ?_
    rcases replace_relinks hr with rfl | ⟨holder, -, -, hr⟩
    · exact h
    · exact h.relink hr hl
  | insertBefore id new =>
    exact outcome_of h fun t' hr => h.insertSibling (Nat.zero_le 1) hl hr
  | insertAfter id new =>
    exact outcome_of h fun t' hr => h.insertSibling (Nat.le_refl 1) hl hr
  | setType | uniqueSymbol | copySymbol | cloneSubtree => exact ho.elim

theorem within (h : t.SlotsSound) {id : NodeId} (hi : id < t.size) : t.Within t.size id := by
  refine within_of_acyclic (fun x hx => ?_) (fun x _ => h.acyclic x) .refl
  rcases Relation.ReflTransGen.cases_tail hx with rfl | ⟨p, -, hp⟩
  · exact hi
  · exact h.resolves p x hp

end SlotsSound

/-- Every pass from the node ends: a walk is over before its bound, and the others never come
upon a level that they have no room for. -/
structure PassesEnd (t : Tree) (id : NodeId) : Prop where
  walk : ∀ count, t.walkBound ≤ count → t.walkUpTo count [id] = t.walk id
  render : ∀ registry rules indent x,
    Renderer.renderAt ⟨t, registry, rules⟩ id indent ≠ .error (.tree (.endless x))
  fill : ∀ registry scopes x s,
    Filling.fill registry id ⟨t, scopes⟩ ≠ .error (.tree (.endless x)) s
  fold : ∀ x t', Fold.fold id t ≠ .error (.endless x) t'
  clone : ∀ x t', cloneSubtree id t ≠ .error (.endless x) t'

theorem EndsAt.ne_endless {α : Type} {m : TreeM α} {Q : α → Tree → Prop} (h : EndsAt m t Q)
    (x : NodeId) (t' : Tree) : m t ≠ .error (.endless x) t' := by
  intro he
  rw [EndsAt, he] at h
  exact h x rfl

theorem Within.passesEnd {id : NodeId} (h : t.Within t.size id) : t.PassesEnd id where
  walk _ hc := h.walkUpTo_eq hc
  render registry rules indent x he := by
    have hspell : ∀ ty, FailsOnly (fun e => ∀ x, e ≠ RenderError.tree (.endless x))
        (Renderer.spell ⟨t, registry, rules⟩ ty) := by
      intro ty
      unfold Renderer.spell
      split
      · exact failsOnly_ok _
      · exact failsOnly_error nofun
    exact Renderer.renderTo_failsOnly hspell (fun _ _ _ _ _ _ => nofun) indent .refl h.succ _ he x rfl
  fill registry scopes x s he := by
    have hadmits : Filling.Admits (fun e => ∀ x, e ≠ .tree (.endless x)) registry := by
      refine ⟨fun e hb x hx => ?_, fun _ _ _ => nofun⟩
      subst hx
      exact hb
    have hcalm := Filling.calm_fill_of_within hadmits
      (fun _ hx => (h.reach hx).within_size) ⟨t, scopes⟩ (.refl t)
    rw [Filling.CalmAt, he] at hcalm
    exact hcalm.2 x rfl
  fold := (Fold.fold_ends h).ne_endless
  clone := (cloneSubtree_ends h).ne_endless

theorem linkedBelow_of_validate {id : NodeId} (h : t.validate id = .ok ()) : t.LinkedBelow id :=
  (wellFormed_of_validate h).region.linked

/-- As long as whatever goes into a slot is linked as it is held, runs of edits never close a cycle
of child slots, and every pass ends from every node. -/
theorem linked_edits_close_no_cycle
    (h : Built (fun t e => e.Orderly t ∧ ∀ c ∈ e.incoming, t.LinkedBelow c) t) :
    (∀ id, ¬ Relation.TransGen t.Child id id) ∧ ∀ id, id < t.size → t.PassesEnd id := by
  have hs : t.SlotsSound := by
    induction h with
    | empty => exact .empty
    | next e _ ha ih => exact ih.step e ha.1 ha.2
  exact ⟨hs.acyclic, fun id hi => (hs.within hi).passesEnd⟩

/-- A block goes into the place of the block that holds it; the displaced one is emptied and then
put under the other. -/
def turnedOver : List Edit :=
  [.add (.symbol "a" none false), .add (.block [0]), .add (.block [1]), .add (.block [2]),
    .replace 2 1, .setList 2 "body" [], .insertAfter 0 2]

theorem turnedOver_closes_no_cycle :
    Built (fun t e => e.Orderly t ∧ ∀ c ∈ e.incoming, t.LinkedBelow c) (Edit.run turnedOver) ∧
    (Edit.run turnedOver).walk 3 = [3, 1, 0, 2] ∧ (Edit.run turnedOver).Acyclic ∧
    (Edit.run turnedOver).PassesEnd 3 := by
  have linked : ∀ (t : Tree) (id : NodeId), t.validate id = .ok () → ∀ c ∈ [id], t.LinkedBelow c := by
    rintro t id hv c hc
    obtain rfl := List.mem_singleton.mp hc
    exact linkedBelow_of_validate hv
  have hbuilt : Built (fun t e => e.Orderly t ∧ ∀ c ∈ e.incoming, t.LinkedBelow c)
      (Edit.run turnedOver) := by
    refine built_run ⟨?_, ?_, ?_, ?_, ?_, ?_, ?_, trivial⟩
    · exact ⟨⟨by decide, by decide⟩, nofun⟩
    · exact ⟨⟨by decide, by decide⟩, nofun⟩
    · exact ⟨⟨by decide, by decide⟩, nofun⟩
    · exact ⟨⟨by decide, by decide⟩, nofun⟩
    · exact ⟨trivial, linked _ 1 (by decide +kernel)⟩
    · exact ⟨trivial, nofun⟩
    · exact ⟨trivial, linked _ 2 (by decide +kernel)⟩
  obtain ⟨hacyclic, hpasses⟩ := linked_edits_close_no_cycle hbuilt
  exact ⟨hbuilt, by decide +kernel, hacyclic, hpasses 3 (by decide)⟩

def turnedBack : List Edit :=
  [.add (.block []), .add (.block [0]), .add (.block [1]), .replace 1 0, .setList 0 "body" [1]]

/-- The check alone does not keep cycles out: each of these calls succeeds. -/
theorem stale_slot_closes_a_cycle :
    Built (fun t e => e.Orderly t) (Edit.run turnedBack) ∧
    (Edit.run turnedBack).childrenOf 0 = [1] ∧ (Edit.run turnedBack).childrenOf 1 = [0] ∧
    ¬ (Edit.run turnedBack).Acyclic ∧
    ∃ x, Renderer.renderAt ⟨Edit.run turnedBack, .builtin, .empty⟩ 2 0 = .error (.tree (.endless x)) := by
  have down : (Edit.run turnedBack).childrenOf 0 = [1] := by decide
  have back : (Edit.run turnedBack).childrenOf 1 = [0] := by decide
  refine ⟨built_run ⟨?_, ?_, ?_, trivial, trivial, trivial⟩, down, back, ?_, ?_⟩
  · exact ⟨by decide, by decide⟩
  · exact ⟨by decide, by decide⟩
  · exact ⟨by decide, by decide⟩
  · intro hacyclic
    refine hacyclic 0 (.tail (.single (b := 1) ?_) ?_)
    · simp [Child, down]
    · simp [Child, back]
  · exact ⟨_, by rfl⟩

end Tree
end Arbor
