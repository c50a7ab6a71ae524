import Arbor.Proofs.ParentLinks
import Arbor.Tree.InPlace

/-!
An edit of the tree that is held happens as a whole or not at all.

An edit asks first and writes last. What it asks leaves the tree alone, and between the last
question and the first write nothing changes, so that a slot that was found when it was read is
found again when it is written: the names of the slots of a node are distinct. Links are set
without asking. Hence an edit that fails has not written anything.
-/
namespace Arbor

theorem Node.fields_nodup (n : Node) : (n.slots.map Prod.fst).Nodup := by
  cases n <;> simp [slots]

namespace Tree

theorem slotNamed?_of_getElem? {slots : List (String × Slot)} (hn : (slots.map Prod.fst).Nodup)
    {i : Nat} {field : String} {slot : Slot} (h : slots[i]? = some (field, slot)) (start : Nat) :
    slotNamed? field slots start = some (start + i, slot) := by
  induction slots generalizing i start with
  | nil => simp at h
  | cons entry rest ih =>
    obtain ⟨name, s⟩ := entry
    obtain ⟨hfresh, hn⟩ := List.nodup_cons.mp hn
    cases i with
    | zero =>
      cases h
      simp [slotNamed?]
    | succ i =>
      rw [List.getElem?_cons_succ] at h
      have hne : name ≠ field := by
        rintro rfl
        exact hfresh (List.mem_map.mpr ⟨_, List.mem_of_getElem? h, rfl⟩)
      rw [slotNamed?, if_neg hne, ih hn h, Nat.add_right_comm, Nat.add_assoc]

theorem setNode_self {t : Tree} {id : NodeId} {node : Node} (h : t.get? id = some node) :
    t.setNode id node = t := by
  obtain ⟨entry, hentry, rfl⟩ := Option.map_eq_some_iff.mp h
  have hsame : (t.entries.modify id fun e => { e with node := entry.node }) = t.entries := by
    apply Array.ext_getElem?
    intro i
    rw [Array.getElem?_modify]
    split
    · next he =>
      subst he
      rw [hentry]
      rfl
    · rfl
  rw [setNode, hsame]

/-- What a pass leaves and gives when it runs an edit in one piece: the new tree, or the reason
and the tree as it was. -/
def allOrNothing {α β : Type} (tree : α → Tree) (value : α → β) (t : Tree) :
    Except TreeError α → EStateM.Result TreeError Tree β
  | .ok a => .ok (value a) (tree a)
  | .error e => .error e t

end Tree

namespace TreeM

open Tree (allOrNothing)

section Steps

variable {α β γ : Type} {t t' : Tree}

theorem bind_of_ok {m : TreeM α} {f : α → TreeM β} {a : α} (h : m t = .ok a t') :
    (m >>= f) t = f a t' := by
  simp only [bind, EStateM.bind, h]

theorem bind_look {f : Tree → Except TreeError α} {m : α → TreeM β} {tree : γ → Tree}
    {value : γ → β} {r : α → Except TreeError γ}
    (h : ∀ a, f t = .ok a → m a t = allOrNothing tree value t (r a)) :
    (look f >>= m) t = allOrNothing tree value t (f t >>= r) := by
  cases hf : f t with
  | error e => simp only [bind, EStateM.bind, look, hf, Except.bind, allOrNothing]
  | ok a =>
    rw [bind_of_ok (show look f t = .ok a t by rw [look, hf])]
    exact h a hf

theorem setParents_ok (parent : Option NodeId) (ids : List NodeId) (t : Tree) :
    setParents parent ids t = .ok () (t.setParents ids parent) := by
  induction ids generalizing t with
  | nil => rfl
  | cons id rest ih => exact ih (t.setParent id parent)

theorem changeSlot_ok {id : NodeId} {field : String} {change : Slot → Slot} {place : Nat}
    {slot : Slot} (h : t.slotOf id field = .ok (place, slot)) :
    changeSlot id field change t = .ok () (t.fillSlot id place (change slot)) := by
  have hlook : look (·.slotOf id field) t = .ok (place, slot) t := by rw [look, h]
  rw [changeSlot, bind_of_ok hlook]

theorem writes_ok {parent : NodeId} {field : String} {change : Slot → Slot} {place : Nat}
    {slot : Slot} (h : t.slotOf parent field = .ok (place, slot)) (old new : List NodeId) (a : α) :
    (do changeSlot parent field change
        setParents none old
        setParents (some parent) new
        return a : TreeM α) t =
      .ok a (((t.fillSlot parent place (change slot)).setParents old none).setParents new
        (some parent)) := by
  rw [bind_of_ok (changeSlot_ok h), bind_of_ok (setParents_ok ..), bind_of_ok (setParents_ok ..)]
  rfl

theorem fieldAt_ok {id : NodeId} {l : Tree.Location} (h : t.locate id = .ok l) :
    ∃ field, fieldAt l.parent l.place t = .ok field t ∧
      t.slotOf l.parent field = .ok (l.place, l.slot) := by
  obtain ⟨-, -, node, hn, hc⟩ := Tree.locate_eq_ok h
  rw [Node.contents, List.getElem?_map] at hc
  obtain ⟨⟨field, slot⟩, hslot, rfl⟩ := Option.map_eq_some_iff.mp hc
  have hnode := Tree.node_eq_ok.mpr hn
  refine ⟨field, ?_, ?_⟩
  · have hlook : look (·.node l.parent) t = .ok node t := by rw [look, hnode]
    rw [fieldAt, bind_of_ok hlook, List.getElem?_map, hslot]
    rfl
  · have hfound := Tree.slotNamed?_of_getElem? node.fields_nodup hslot 0
    rw [Nat.zero_add] at hfound
    refine bind_eq_ok.mpr ⟨node, hnode, ?_⟩
    rw [hfound]

end Steps

variable (t : Tree)

theorem setField_run (parent : NodeId) (field : String) (child : Option NodeId) :
    setField parent field child t =
      allOrNothing Prod.fst Prod.snd t (t.setField parent field child) := by
  refine bind_look fun found hslot => ?_
  obtain ⟨place, slot⟩ := found
  cases slot with
  | list ids => rfl
  | required id =>
    cases child with
    | none => rfl
    | some c => exact bind_look fun _ _ => writes_ok hslot [id] [c] (some id)
  | optional id =>
    cases child with
    | none => exact writes_ok hslot id.toList [] id
    | some c => exact bind_look fun _ _ => writes_ok hslot id.toList [c] id

theorem setList_run (parent : NodeId) (field : String) (children : List NodeId) :
    setList parent field children t =
      allOrNothing Prod.fst Prod.snd t (t.setList parent field children) := by
  refine bind_look fun found hslot => ?_
  obtain ⟨place, slot⟩ := found
  cases slot with
  | required id => rfl
  | optional id => rfl
  | list old => exact bind_look fun _ _ => writes_ok hslot old children old

theorem replace_run (id new : NodeId) :
    replace id new t = allOrNothing (fun t' => t') (fun _ => ()) t (t.replace id new) := by
  refine bind_look fun l hl => ?_
  obtain ⟨field, hfield, hslot⟩ := fieldAt_ok hl
  rw [bind_of_ok hfield]
  by_cases he : new = id
  · rw [if_pos he, if_pos he]
    rfl
  · rw [if_neg he, if_neg he]
    refine bind_look fun _ _ => ?_
    rw [bind_of_ok (changeSlot_ok hslot)]
    rfl

theorem insertSibling_run (id new : NodeId) (offset : Nat) :
    insertSibling id new offset t =
      allOrNothing (fun t' => t') (fun _ => ()) t (t.insertSibling id new offset) := by
  refine bind_look fun l hl => ?_
  obtain ⟨field, hfield, hslot⟩ := fieldAt_ok hl
  obtain ⟨-, hhold, -⟩ := Tree.locate_eq_ok hl
  rw [bind_of_ok hfield]
  obtain ⟨parent, place, slot, position⟩ := l
  cases slot <;> cases position <;> simp only [Tree.Location.Holds] at hhold
  case list.some ids position =>
    refine bind_look fun _ _ => ?_
    rw [bind_of_ok (changeSlot_ok hslot)]
    rfl
  all_goals rfl

theorem setType_run (id : NodeId) (ty : CType) :
    setType id ty t = allOrNothing (fun t' => t') (fun _ => ()) t (t.setType id ty) := by
  refine bind_look fun node hn => ?_
  cases node
  case symbol name existing isConst =>
    cases existing with
    | none => rfl
    | some existing =>
      by_cases he : existing = ty
      · subst he
        simp only [if_true, setNode, Tree.setNode_self (Tree.node_eq_ok.mp hn)]
        rfl
      · simp only [if_neg he]
        rfl
  all_goals rfl

theorem copySymbol_run (id : NodeId) (declare : Bool) :
    copySymbol id declare t =
      allOrNothing Prod.fst Prod.snd t (t.copySymbol id declare) := by
  refine bind_look fun node hn => ?_
  cases node <;> rfl

section Dropped

variable {t : Tree}

theorem discard_cases {α : Type} {m : TreeM α} {r : Except TreeError (Tree × α)}
    (h : m t = allOrNothing Prod.fst Prod.snd t r) :
    discard m t = .ok () (t.orElse r) ∨
      ∃ error, discard m t = .error error t ∧ t.orElse r = t := by
  change EStateM.map _ m t = _ ∨ ∃ error, EStateM.map _ m t = _ ∧ _
  simp only [EStateM.map, h]
  cases r with
  | ok result => exact Or.inl rfl
  | error e => exact Or.inr ⟨e, rfl, rfl⟩

theorem outcome_cases {m : TreeM Unit} {r : Except TreeError Tree}
    (h : m t = allOrNothing (fun t' => t') (fun _ => ()) t r) :
    m t = .ok () (t.outcome r) ∨ ∃ error, m t = .error error t ∧ t.outcome r = t := by
  rw [h]
  cases r with
  | ok t' => exact Or.inl rfl
  | error e => exact Or.inr ⟨e, rfl, rfl⟩

end Dropped

end TreeM

/-- Carries a call out on the tree that is held. -/
def Edit.carryOut : Edit → TreeM Unit
  | .add node => discard (TreeM.add node)
  | .setField parent field child => discard (TreeM.setField parent field child)
  | .setList parent field children => discard (TreeM.setList parent field children)
  | .replace id new => TreeM.replace id new
  | .insertBefore id new => TreeM.insertBefore id new
  | .insertAfter id new => TreeM.insertAfter id new
  | .setType id ty => TreeM.setType id ty
  | .uniqueSymbol stem ty => fun t => .ok () (t.uniqueSymbol stem ty).1
  | .copySymbol id declare => discard (TreeM.copySymbol id declare)
  | .cloneSubtree id => discard (Tree.cloneSubtree id)

/-- A call goes through and leaves the next tree of the run, or it fails and leaves the tree. Only
a copy is added node by node. -/
theorem Edit.carryOut_cases (t : Tree) (e : Edit) (he : ∀ id, e ≠ .cloneSubtree id) :
    e.carryOut t = .ok () (e.next t) ∨ ∃ error, e.carryOut t = .error error t ∧ e.next t = t := by
  cases e with
  | add node => exact Or.inl rfl
  | setField parent field child =>
    exact TreeM.discard_cases (TreeM.setField_run t parent field child)
  | setList parent field children =>
    exact TreeM.discard_cases (TreeM.setList_run t parent field children)
  | replace id new => exact TreeM.outcome_cases (TreeM.replace_run t id new)
  | insertBefore id new => exact TreeM.outcome_cases (TreeM.insertSibling_run t id new 0)
  | insertAfter id new => exact TreeM.outcome_cases (TreeM.insertSibling_run t id new 1)
  | setType id ty => exact TreeM.outcome_cases (TreeM.setType_run t id ty)
  | uniqueSymbol stem ty => exact Or.inl rfl
  | copySymbol id declare => exact TreeM.discard_cases (TreeM.copySymbol_run t id declare)
  | cloneSubtree id => exact absurd rfl (he id)

namespace Tree

/-- Whatever a call other than a copy is given, in whatever tree: if it fails, every entry and the
next unique number are as before. The tree that it leaves is always the next one of the run. -/
theorem rejected_edit_changes_nothing (t : Tree) (e : Edit) (he : ∀ id, e ≠ .cloneSubtree id) :
    t.after e.carryOut = e.next t ∧
      ∀ error t', e.carryOut t = .error error t' → t'.entries = t.entries ∧
        t'.nextUnique = t.nextUnique := by
  rcases e.carryOut_cases t he with hok | ⟨error, hfail, hnext⟩
  · rw [after, hok]
    refine ⟨rfl, ?_⟩
    intro error t' heq
    cases heq
  · rw [after, hfail, hnext]
    refine ⟨rfl, ?_⟩
    intro error' t' heq
    cases heq
    exact ⟨rfl, rfl⟩

/-- `while (a) { int b; return 1; }`, and a symbol with a link to a block that does not hold it. -/
def misled : Tree :=
  ⟨#[⟨.whileLoop 1 2, none⟩, ⟨.symbol "a" none false, some 0⟩, ⟨.block [3, 4], some 0⟩,
    ⟨.symbol "b" (some (.scalar .int)) false, some 2⟩, ⟨.ret (some 5), some 2⟩,
    ⟨.constant (.int 1), some 4⟩, ⟨.symbol "c" none false, some 2⟩], 9⟩

/-- A slot with no such name, a cycle, a child that comes twice after others have passed, a link
that leads nowhere, a node in no list, a node held elsewhere, a second type, a copy of no symbol. -/
def refusals : List Edit :=
  [.setField 4 "arg" none, .setField 4 "value" (some 0), .setList 2 "body" [4, 3, 4],
    .replace 6 1, .insertBefore 5 6, .insertAfter 3 1, .setType 3 (.scalar .long),
    .copySymbol 4 true]

theorem misled_unchanged :
    misled.parent? 6 = some 2 ∧ 6 ∉ misled.childrenOf 2 ∧
    ∀ e ∈ refusals, ∃ error t', e.carryOut misled = .error error t' ∧
      t'.entries = misled.entries ∧ t'.nextUnique = 9 := by
  have refused : ∀ e : Edit, (∀ id, e ≠ .cloneSubtree id) →
      (∃ error t', e.carryOut misled = .error error t') →
      ∃ error t', e.carryOut misled = .error error t' ∧ t'.entries = misled.entries ∧
        t'.nextUnique = 9 := by
    rintro e he ⟨error, t', h⟩
    exact ⟨error, t', h, (rejected_edit_changes_nothing misled e he).2 error t' h⟩
  refine ⟨by decide, by decide, ?_⟩
  simp only [refusals, List.forall_mem_cons]
  refine ⟨?_, ?_, ?_, ?_, ?_, ?_, ?_, ?_, nofun⟩ <;> exact refused _ nofun ⟨_, _, rfl⟩

end Tree
end Arbor
