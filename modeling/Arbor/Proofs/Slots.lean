import Arbor.Proofs.Region
import Arbor.Tree.Edit
import Mathlib.Data.List.Forall2

/-!
What the edits of a tree do to the two views `get?` and `parent?`.

A slot keeps its shape when it is filled anew, and then only the ids in it change. Links and
slots are written independently: the lemmas below describe each write by its effect on the other
view too, so that an edit is the composition of its writes.
-/
namespace Arbor

def Slot.SameShape : Slot → Slot → Prop
  | .required _, .required _ => True
  | .optional _, .optional _ => True
  | .list _, .list _ => True
  | _, _ => False

theorem Slot.SameShape.refl (s : Slot) : s.SameShape s := by
  cases s <;> trivial

namespace Node

def contents (n : Node) : List Slot := n.slots.map Prod.snd

theorem contents_withSlots (n : Node) (ss : List Slot)
    (h : List.Forall₂ Slot.SameShape n.contents ss) : (n.withSlots ss).contents = ss := by
  cases n <;> simp only [contents, slots, List.map_cons, List.map_nil, List.forall₂_cons_left_iff,
    List.forall₂_nil_left_iff] at h
  -- by the number of slots; a slot of another shape is excluded as soon as it is split
  case project | file | ret | block | unary | cast | custom =>
    obtain ⟨s, _, hs, rfl, rfl⟩ := h
    cases s <;> first | rfl | exact hs.elim
  case whileLoop | doWhile | function | binary | augAssign | call =>
    obtain ⟨s, _, hs, ⟨u, _, hu, rfl, rfl⟩, rfl⟩ := h
    cases s <;> first | exact hs.elim | cases u <;> first | rfl | exact hu.elim
  case branch | ternary | arrayDef =>
    obtain ⟨s, _, hs, ⟨u, _, hu, ⟨v, _, hv, rfl, rfl⟩, rfl⟩, rfl⟩ := h
    cases s <;> first | exact hs.elim | cases u <;> first | exact hu.elim | cases v <;>
      first | rfl | exact hv.elim
  case forLoop =>
    obtain ⟨s, _, hs, ⟨u, _, hu, ⟨v, _, hv, ⟨w, _, hw, rfl, rfl⟩, rfl⟩, rfl⟩, rfl⟩ := h
    cases s <;> first | exact hs.elim | cases u <;> first | exact hu.elim | cases v <;>
      first | exact hv.elim | cases w <;> first | rfl | exact hw.elim
  all_goals
    subst h
    rfl

theorem contents_setSlot {n : Node} {place : Nat} {old new : Slot}
    (h : n.contents[place]? = some old) (hs : old.SameShape new) :
    (n.setSlot place new).contents = n.contents.set place new :=
  contents_withSlots n _ (forall₂_set Slot.SameShape.refl h hs)

theorem children_eq (n : Node) : n.children = n.contents.flatMap Slot.ids := by
  simp [children, contents, List.flatMap_map]

/-- The ids of a slot stand together among the children, and so do those it is filled with. -/
theorem children_setSlot {n : Node} {place : Nat} {old new : Slot}
    (h : n.contents[place]? = some old) (hs : old.SameShape new) :
    ∃ front back, n.children = front ++ old.ids ++ back ∧
      (n.setSlot place new).children = front ++ new.ids ++ back := by
  obtain ⟨start, rest, hsplit, rfl⟩ := exists_around h
  refine ⟨start.flatMap Slot.ids, rest.flatMap Slot.ids, ?_, ?_⟩
  · rw [children_eq, hsplit]
    simp
  · rw [children_eq, contents_setSlot h hs, hsplit, set_around]
    simp

end Node

namespace Tree

@[simp] theorem size_setParents (t : Tree) (ids : List NodeId) (p : Option NodeId) :
    (t.setParents ids p).size = t.size := by
  induction ids generalizing t with
  | nil => rfl
  | cons id ids ih => exact (ih (t.setParent id p)).trans (size_setParent t id p)

@[simp] theorem get?_setParents (t : Tree) (ids : List NodeId) (p : Option NodeId) (id : NodeId) :
    (t.setParents ids p).get? id = t.get? id := by
  induction ids generalizing t with
  | nil => rfl
  | cons c ids ih => exact (ih (t.setParent c p)).trans (get?_setParent t c id p)

theorem parent?_setParents (t : Tree) (ids : List NodeId) (p : Option NodeId) (id : NodeId) :
    (t.setParents ids p).parent? id = if id ∈ ids ∧ id < t.size then p else t.parent? id := by
  induction ids generalizing t with
  | nil => simp [setParents]
  | cons c ids ih =>
    refine (ih (t.setParent c p)).trans ?_
    rw [size_setParent, parent?_setParent]
    by_cases hc : id = c
    · subst hc
      by_cases hs : id < t.size <;> simp [hs]
    · simp [hc]

@[simp] theorem childrenOf_setParents (t : Tree) (ids : List NodeId) (p : Option NodeId) :
    (t.setParents ids p).childrenOf = t.childrenOf := by
  funext x
  simp [childrenOf]

@[simp] theorem size_fillSlot (t : Tree) (id : NodeId) (place : Nat) (s : Slot) :
    (t.fillSlot id place s).size = t.size := by
  unfold fillSlot
  split <;> simp

@[simp] theorem parent?_fillSlot (t : Tree) (id : NodeId) (place : Nat) (s : Slot) (c : NodeId) :
    (t.fillSlot id place s).parent? c = t.parent? c := by
  unfold fillSlot
  split <;> simp

theorem get?_fillSlot {t : Tree} {id : NodeId} {node : Node} (h : t.get? id = some node)
    (place : Nat) (s : Slot) (c : NodeId) :
    (t.fillSlot id place s).get? c = if c = id then some (node.setSlot place s) else t.get? c := by
  unfold fillSlot
  rw [h]
  simp only [get?_setNode, lt_size_of_get? h, and_true]

theorem childrenOf_fillSlot {t : Tree} {id : NodeId} {node : Node} (h : t.get? id = some node)
    (place : Nat) (s : Slot) (c : NodeId) :
    (t.fillSlot id place s).childrenOf c =
      if c = id then (node.setSlot place s).children else t.childrenOf c := by
  unfold childrenOf
  rw [get?_fillSlot h]
  by_cases hc : c = id <;> simp [hc]

theorem parent?_of_size_le {t : Tree} {id : NodeId} (h : t.size ≤ id) : t.parent? id = none := by
  simp only [size] at h
  simp [parent?, h]

theorem lt_size_of_parent? {t : Tree} {id p : NodeId} (h : t.parent? id = some p) :
    id < t.size := by
  by_contra hn
  rw [parent?_of_size_le (Nat.le_of_not_lt hn)] at h
  cases h

@[simp] theorem size_add (t : Tree) (node : Node) : (t.add node).1.size = t.size + 1 := by
  have h := size_setParents t node.children (some t.size)
  simp only [size] at h
  simp [add, size, h]

theorem get?_add (t : Tree) (node : Node) (id : NodeId) :
    (t.add node).1.get? id = if id = t.size then some node else t.get? id := by
  have hs : (t.setParents node.children (some t.size)).entries.size = t.size := size_setParents ..
  rw [← get?_setParents t node.children (some t.size) id]
  simp only [get?, add, Array.getElem?_push, hs]
  split <;> rfl

theorem parent?_add (t : Tree) (node : Node) (id : NodeId) :
    (t.add node).1.parent? id =
      if id ∈ node.children ∧ id < t.size then some t.size else t.parent? id := by
  have hs : (t.setParents node.children (some t.size)).entries.size = t.size := size_setParents ..
  rw [← parent?_setParents t node.children (some t.size) id]
  simp only [parent?, add, Array.getElem?_push, hs]
  split
  · next he =>
    subst he
    rw [Array.getElem?_eq_none (Nat.le_of_eq hs)]
    rfl
  · rfl

theorem childrenOf_add (t : Tree) (node : Node) (id : NodeId) :
    (t.add node).1.childrenOf id = if id = t.size then node.children else t.childrenOf id := by
  unfold childrenOf
  rw [get?_add]
  by_cases h : id = t.size <;> simp [h]

theorem slotNamed?_some {field : String} {slots : List (String × Slot)} {start place : Nat}
    {slot : Slot} (h : slotNamed? field slots start = some (place, slot)) :
    ∃ j, place = start + j ∧ (slots.map Prod.snd)[j]? = some slot := by
  induction slots generalizing start with
  | nil => simp [slotNamed?] at h
  | cons entry rest ih =>
    obtain ⟨name, s⟩ := entry
    simp only [slotNamed?] at h
    split at h
    · cases h
      exact ⟨0, rfl, rfl⟩
    · obtain ⟨j, hj, hs⟩ := ih h
      exact ⟨j + 1, by omega, hs⟩

theorem slotOf_eq_ok {t : Tree} {id : NodeId} {field : String} {place : Nat} {slot : Slot}
    (h : t.slotOf id field = .ok (place, slot)) :
    ∃ node, t.get? id = some node ∧ node.contents[place]? = some slot := by
  obtain ⟨node, hn, h⟩ := bind_eq_ok.mp h
  refine ⟨node, node_eq_ok.mp hn, ?_⟩
  split at h
  · next found hf =>
    cases h
    obtain ⟨j, hj, hs⟩ := slotNamed?_some hf
    rw [show place = j by omega]
    exact hs
  · cases h

def Location.Holds (l : Location) (id : NodeId) : Prop :=
  match l.slot, l.position with
  | .required c, none => c = id
  | .optional c, none => c = some id
  | .list ids, some position => ids[position]? = some id
  | _, _ => False

theorem locateIn_some {id parent : NodeId} {slots : List (String × Slot)} {start : Nat}
    {l : Location} (h : locateIn id parent slots start = some l) :
    l.parent = parent ∧ l.Holds id ∧
      ∃ j, l.place = start + j ∧ (slots.map Prod.snd)[j]? = some l.slot := by
  induction slots generalizing start with
  | nil => simp [locateIn] at h
  | cons entry rest ih =>
    obtain ⟨name, s⟩ := entry
    have later : locateIn id parent rest (start + 1) = some l → l.parent = parent ∧ l.Holds id ∧
        ∃ j, l.place = start + j ∧ (((name, s) :: rest).map Prod.snd)[j]? = some l.slot := by
      intro h
      obtain ⟨hp, hh, j, hj, hs⟩ := ih h
      exact ⟨hp, hh, j + 1, by omega, hs⟩
    cases s with
    | required c =>
      simp only [locateIn] at h
      split at h
      · next hc =>
        cases h
        exact ⟨rfl, hc, 0, rfl, rfl⟩
      · exact later h
    | optional c =>
      simp only [locateIn] at h
      split at h
      · next hc =>
        cases h
        exact ⟨rfl, hc, 0, rfl, rfl⟩
      · exact later h
    | list ids =>
      simp only [locateIn] at h
      split at h
      · next position hf =>
        cases h
        obtain ⟨hlt, hid, -⟩ := List.findIdx?_eq_some_iff_getElem.mp hf
        refine ⟨rfl, ?_, 0, rfl, rfl⟩
        change ids[position]? = some id
        rw [List.getElem?_eq_getElem hlt]
        simpa using hid
      · exact later h

theorem locateIn_none {id parent : NodeId} {slots : List (String × Slot)} {start : Nat}
    (h : locateIn id parent slots start = none) : ∀ slot ∈ slots, id ∉ slot.2.ids := by
  induction slots generalizing start with
  | nil => simp
  | cons entry rest ih =>
    obtain ⟨name, s⟩ := entry
    refine List.forall_mem_cons.mpr ?_
    cases s with
    | required c =>
      simp only [locateIn] at h
      split at h
      · cases h
      · next hc => exact ⟨by simpa [Slot.ids] using Ne.symm hc, ih h⟩
    | optional c =>
      simp only [locateIn] at h
      split at h
      · cases h
      · next hc => exact ⟨by simpa [Slot.ids] using hc, ih h⟩
    | list ids =>
      simp only [locateIn] at h
      split at h
      · cases h
      · next hf =>
        refine ⟨fun hm => ?_, ih h⟩
        simp only [List.findIdx?_eq_none_iff, beq_eq_false_iff_ne] at hf
        exact hf id hm rfl

theorem locate_eq_ok {t : Tree} {id : NodeId} {l : Location} (h : t.locate id = .ok l) :
    t.parent? id = some l.parent ∧ l.Holds id ∧
      ∃ node, t.get? l.parent = some node ∧ node.contents[l.place]? = some l.slot := by
  obtain ⟨_, -, h⟩ := bind_eq_ok.mp h
  split at h
  · cases h
  · next parent hp =>
    obtain ⟨holder, hh, h⟩ := bind_eq_ok.mp h
    split at h
    · next location hl =>
      cases h
      obtain ⟨rfl, hhold, j, hj, hs⟩ := locateIn_some hl
      refine ⟨hp, hhold, holder, node_eq_ok.mp hh, ?_⟩
      rw [show l.place = j by omega]
      exact hs
    · cases h

theorem checkAttachable_eq_ok {t : Tree} {holder child : NodeId} {displaced : List NodeId} :
    t.checkAttachable holder child displaced = .ok () ↔
      child < t.size ∧ child ≠ holder ∧ child ∉ t.ancestors holder ∧
      ∀ current, t.parent? child = some current → t.releasedBy child current displaced := by
  unfold checkAttachable
  constructor
  · intro h
    obtain ⟨node, hn, h⟩ := bind_eq_ok.mp h
    split at h
    · cases h
    · next hc =>
      simp only [Bool.or_eq_true, beq_iff_eq, List.contains_eq_mem, decide_eq_true_eq, not_or] at hc
      refine ⟨lt_size_of_get? (node_eq_ok.mp hn), hc.1, hc.2, ?_⟩
      intro current hp
      rw [hp] at h
      simp only at h
      split at h
      · assumption
      · cases h
  · rintro ⟨hs, hne, ha, hr⟩
    obtain ⟨node, hn⟩ := get?_of_lt_size hs
    refine bind_eq_ok.mpr ⟨node, node_eq_ok.mpr hn, ?_⟩
    rw [if_neg (by simp [hne, ha])]
    split
    · rfl
    · next current hp => rw [if_pos (hr current hp)]

/-- What every edit of a slot comes to: one slot of the holder keeps its shape and all it held
but the nodes set free, and holds the nodes taken in and nothing else; the links follow. -/
structure Relinks (t : Tree) (holder : NodeId) (freed taken : List NodeId) (t' : Tree) : Prop where
  attachable : ∀ c ∈ taken, t.checkAttachable holder c freed = .ok ()
  written : ∃ node place slot filled, t.get? holder = some node ∧
    node.contents[place]? = some slot ∧ slot.SameShape filled ∧
    (∀ c ∈ slot.ids, c ∈ freed ∨ c ∈ filled.ids) ∧ (∀ c ∈ taken, c ∈ filled.ids) ∧
    (∀ c ∈ filled.ids, c ∈ slot.ids ∨ c ∈ taken) ∧
    t' = ((t.fillSlot holder place filled).setParents freed none).setParents taken (some holder)

/-- The nodes freed stood together among the children of the holder, and those taken in stand in
their place. -/
structure Splices (t : Tree) (holder : NodeId) (front freed taken back : List NodeId)
    (t' : Tree) : Prop extends t.Relinks holder freed taken t' where
  before : t.childrenOf holder = front ++ freed ++ back
  after : t'.childrenOf holder = front ++ taken ++ back

theorem splices_of_fill {t t' : Tree} {holder : NodeId} {node : Node} {place : Nat}
    {slot : Slot} (filled : Slot) (start freed taken rest : List NodeId)
    (hn : t.get? holder = some node) (hc : node.contents[place]? = some slot)
    (hs : slot.SameShape filled) (ho : slot.ids = start ++ freed ++ rest)
    (hf : filled.ids = start ++ taken ++ rest)
    (ha : ∀ c ∈ taken, t.checkAttachable holder c freed = .ok ())
    (ht : ((t.fillSlot holder place filled).setParents freed none).setParents taken
      (some holder) = t') :
    ∃ front back, t.Splices holder (front ++ start) freed taken (rest ++ back) t' := by
  obtain ⟨front, back, hbefore, hafter⟩ := Node.children_setSlot hc hs
  refine ⟨front, back, ⟨ha, node, place, slot, filled, hn, hc, hs, ?_, ?_, ?_, ht.symm⟩, ?_, ?_⟩
  · grind
  · grind
  · grind
  · rw [childrenOf_eq hn, hbefore, ho]
    simp
  · rw [← ht, childrenOf_setParents, childrenOf_setParents, childrenOf_fillSlot hn, if_pos rfl,
      hafter, hf]
    simp

theorem splices_of_refill {t t' : Tree} {holder : NodeId} {node : Node} {place : Nat}
    {slot : Slot} {freed taken : List NodeId} (filled : Slot) (hn : t.get? holder = some node)
    (hc : node.contents[place]? = some slot) (hs : slot.SameShape filled) (ho : slot.ids = freed)
    (hf : filled.ids = taken) (ha : ∀ c ∈ taken, t.checkAttachable holder c freed = .ok ())
    (ht : ((t.fillSlot holder place filled).setParents freed none).setParents taken
      (some holder) = t') :
    ∃ front back, t.Splices holder front freed taken back t' := by
  obtain ⟨front, back, hsplice⟩ :=
    splices_of_fill filled [] _ _ [] hn hc hs (by simpa using ho) (by simpa using hf) ha ht
  exact ⟨_, _, hsplice⟩

theorem setField_splices {t t' : Tree} {parent : NodeId} {field : String}
    {child old : Option NodeId} (h : t.setField parent field child = .ok (t', old)) :
    ∃ front back, t.Splices parent front old.toList child.toList back t' := by
  obtain ⟨⟨place, slot⟩, hslot, h⟩ := bind_eq_ok.mp h
  obtain ⟨node, hn, hc⟩ := slotOf_eq_ok hslot
  cases slot with
  | list ids => cases h
  | required id =>
    cases child with
    | none => cases h
    | some c =>
      obtain ⟨ha, h⟩ := seq_eq_ok.mp h
      cases h
      exact splices_of_refill (.required c) hn hc trivial rfl rfl (by simpa using ha) rfl
  | optional id =>
    cases child with
    | none =>
      cases h
      exact splices_of_refill (.optional none) hn hc trivial rfl rfl (by simp) rfl
    | some c =>
      obtain ⟨ha, h⟩ := seq_eq_ok.mp h
      cases h
      exact splices_of_refill (.optional (some c)) hn hc trivial rfl rfl (by simpa using ha) rfl

theorem setField_relinks {t t' : Tree} {parent : NodeId} {field : String}
    {child old : Option NodeId} (h : t.setField parent field child = .ok (t', old)) :
    t.Relinks parent old.toList child.toList t' := by
  obtain ⟨front, back, hsplice⟩ := setField_splices h
  exact hsplice.toRelinks

theorem checkList_eq_ok {t : Tree} {parent : NodeId} {old before after : List NodeId}
    (h : t.checkList parent old before after = .ok ()) :
    after.Nodup ∧ (∀ c ∈ after, c ∉ before) ∧
      ∀ c ∈ after, t.checkAttachable parent c old = .ok () := by
  induction after generalizing before with
  | nil => simp
  | cons c rest ih =>
    simp only [checkList] at h
    split at h
    · cases h
    · next hb =>
      obtain ⟨ha, h⟩ := seq_eq_ok.mp h
      obtain ⟨hn, hd, hr⟩ := ih h
      refine ⟨List.nodup_cons.mpr ⟨fun hm => hd c hm (by simp), hn⟩, ?_, ?_⟩
      · refine List.forall_mem_cons.mpr ⟨by simpa using hb, ?_⟩
        exact fun x hx hm => hd x hx (List.mem_cons_of_mem c hm)
      · exact List.forall_mem_cons.mpr ⟨ha, hr⟩

theorem setList_splices {t t' : Tree} {parent : NodeId} {field : String}
    {children old : List NodeId} (h : t.setList parent field children = .ok (t', old)) :
    children.Nodup ∧ ∃ front back, t.Splices parent front old children back t' := by
  obtain ⟨⟨place, slot⟩, hslot, h⟩ := bind_eq_ok.mp h
  obtain ⟨node, hn, hc⟩ := slotOf_eq_ok hslot
  cases slot with
  | required id => cases h
  | optional id => cases h
  | list ids =>
    obtain ⟨hl, h⟩ := seq_eq_ok.mp h
    cases h
    obtain ⟨hnodup, -, ha⟩ := checkList_eq_ok hl
    exact ⟨hnodup, splices_of_refill (.list children) hn hc trivial rfl rfl ha rfl⟩

theorem setList_relinks {t t' : Tree} {parent : NodeId} {field : String}
    {children old : List NodeId} (h : t.setList parent field children = .ok (t', old)) :
    t.Relinks parent old children t' := by
  obtain ⟨-, front, back, hsplice⟩ := setList_splices h
  exact hsplice.toRelinks

theorem Location.Holds.exchanged {l : Location} {id : NodeId} (h : l.Holds id) (new : NodeId) :
    l.slot.SameShape (l.exchanged new) ∧ ∃ start rest, l.slot.ids = start ++ [id] ++ rest ∧
      (l.exchanged new).ids = start ++ [new] ++ rest := by
  obtain ⟨parent, place, slot, position⟩ := l
  cases slot <;> cases position <;> simp only [Location.Holds] at h
  case required.none c =>
    subst h
    exact ⟨trivial, [], [], rfl, rfl⟩
  case optional.none c =>
    subst h
    exact ⟨trivial, [], [], rfl, rfl⟩
  case list.some ids position =>
    obtain ⟨start, rest, rfl, rfl⟩ := exists_around h
    refine ⟨trivial, start, rest, by simp [Slot.ids], ?_⟩
    simp [Location.exchanged, Slot.ids]

theorem replace_splices {t t' : Tree} {id new : NodeId} (h : t.replace id new = .ok t') :
    (new = id ∧ t' = t) ∨ ∃ holder front back, t.parent? id = some holder ∧
      t.Splices holder front [id] [new] back t' := by
  obtain ⟨l, hl, h⟩ := bind_eq_ok.mp h
  obtain ⟨hp, hhold, node, hn, hc⟩ := locate_eq_ok hl
  split at h
  · next he =>
    cases h
    exact Or.inl ⟨he, rfl⟩
  · obtain ⟨ha, h⟩ := seq_eq_ok.mp h
    cases h
    obtain ⟨hshape, start, rest, ho, hf⟩ := hhold.exchanged new
    obtain ⟨front, back, hsplice⟩ :=
      splices_of_fill (l.exchanged new) start _ _ rest hn hc hshape ho hf (by simpa using ha) rfl
    exact Or.inr ⟨l.parent, _, _, hp, hsplice⟩

theorem replace_relinks {t t' : Tree} {id new : NodeId} (h : t.replace id new = .ok t') :
    t' = t ∨ ∃ holder, t.parent? id = some holder ∧ t.Child holder id ∧
      t.Relinks holder [id] [new] t' := by
  rcases replace_splices h with ⟨-, he⟩ | ⟨holder, front, back, hp, hsplice⟩
  · exact Or.inl he
  · refine Or.inr ⟨holder, hp, ?_, hsplice.toRelinks⟩
    rw [Child, hsplice.before]
    simp

/-- The new node comes before the other one with offset 0, and after it with offset 1. -/
theorem insertSibling_splices {t t' : Tree} {id new : NodeId} {offset : Nat}
    (ho : offset ≤ 1) (h : t.insertSibling id new offset = .ok t') :
    ∃ holder front back, t.parent? id = some holder ∧
      t.Splices holder (front ++ [id].take offset) [] [new] ([id].drop offset ++ back) t' := by
  obtain ⟨l, hl, h⟩ := bind_eq_ok.mp h
  obtain ⟨hp, hhold, node, hn, hc⟩ := locate_eq_ok hl
  split at h
  · next ids position hs hpos =>
    obtain ⟨ha, h⟩ := seq_eq_ok.mp h
    cases h
    simp only [Location.Holds, hs, hpos] at hhold
    obtain ⟨start, rest, hids, hlength⟩ := exists_around hhold
    have hold : ids = (start ++ [id].take offset) ++ ([id].drop offset ++ rest) := by
      rw [List.append_assoc, ← List.append_assoc ([id].take offset), List.take_append_drop, hids,
        List.singleton_append]
    have hplace : position + offset = (start ++ [id].take offset).length := by
      rw [List.length_append, List.length_take, List.length_singleton]
      omega
    rw [hs] at hc
    obtain ⟨front, back, hsplice⟩ := splices_of_fill (.list (ids.insertIdx (position + offset) new))
      (start ++ [id].take offset) [] [new] ([id].drop offset ++ rest) hn hc trivial
      (by simpa [Slot.ids] using hold) (by rw [Slot.ids, hold, hplace, insertIdx_around]; simp)
      (by simpa using ha) rfl
    refine ⟨l.parent, front ++ start, rest ++ back, hp, ?_⟩
    rw [List.append_assoc, ← List.append_assoc ([id].drop offset)]
    exact hsplice
  · cases h

theorem insertSibling_relinks {t t' : Tree} {id new : NodeId} {offset : Nat}
    (ho : offset ≤ 1) (h : t.insertSibling id new offset = .ok t') :
    ∃ holder, t.parent? id = some holder ∧ t.Relinks holder [] [new] t' := by
  obtain ⟨holder, front, back, hp, hsplice⟩ := insertSibling_splices ho h
  exact ⟨holder, hp, hsplice.toRelinks⟩

namespace Relinks

variable {t t' : Tree} {holder : NodeId} {freed taken : List NodeId}

theorem size_eq (h : t.Relinks holder freed taken t') : t'.size = t.size := by
  obtain ⟨node, place, slot, filled, -, -, -, -, -, -, rfl⟩ := h.written
  simp

theorem parent?_eq (h : t.Relinks holder freed taken t') (c : NodeId) :
    t'.parent? c = if c ∈ taken then some holder
      else if c ∈ freed ∧ c < t.size then none else t.parent? c := by
  obtain ⟨node, place, slot, filled, -, -, -, -, -, -, rfl⟩ := h.written
  rw [parent?_setParents, parent?_setParents, parent?_fillSlot, size_setParents, size_fillSlot]
  by_cases hc : c ∈ taken
  · have hs := (checkAttachable_eq_ok.mp (h.attachable c hc)).1
    simp [hc, hs]
  · simp [hc]

theorem childrenOf_other (h : t.Relinks holder freed taken t') {q : NodeId} (hq : q ≠ holder) :
    t'.childrenOf q = t.childrenOf q := by
  obtain ⟨node, place, slot, filled, hn, -, -, -, -, -, rfl⟩ := h.written
  simp [childrenOf_fillSlot hn, hq]

theorem children_eq (h : t.Relinks holder freed taken t') : ∃ front back old new,
    t.childrenOf holder = front ++ old ++ back ∧ t'.childrenOf holder = front ++ new ++ back ∧
      (∀ c ∈ old, c ∈ freed ∨ c ∈ new) ∧ (∀ c ∈ taken, c ∈ new) ∧
      ∀ c ∈ new, c ∈ old ∨ c ∈ taken := by
  obtain ⟨node, place, slot, filled, hn, hs, hshape, hkeep, hin, honly, rfl⟩ := h.written
  obtain ⟨front, back, hbefore, hafter⟩ := Node.children_setSlot hs hshape
  refine ⟨front, back, slot.ids, filled.ids, ?_, ?_, hkeep, hin, honly⟩
  · rw [childrenOf_eq hn, hbefore]
  · rw [childrenOf_setParents, childrenOf_setParents, childrenOf_fillSlot hn, if_pos rfl, hafter]

theorem child_taken (h : t.Relinks holder freed taken t') {c : NodeId} (hc : c ∈ taken) :
    t'.Child holder c := by
  obtain ⟨front, back, old, new, -, hafter, -, hin, -⟩ := h.children_eq
  rw [Child, hafter]
  simp [hin c hc]

theorem child_kept (h : t.Relinks holder freed taken t') {c : NodeId} (hc : t.Child holder c)
    (hf : c ∉ freed) : t'.Child holder c := by
  obtain ⟨front, back, old, new, hbefore, hafter, hkeep, -, -⟩ := h.children_eq
  rw [Child, hbefore] at hc
  rw [Child, hafter]
  grind

/-- No slot holds more than before, but the holder's has the nodes taken in. -/
theorem child_cases (h : t.Relinks holder freed taken t') {p c : NodeId} (hc : t'.Child p c) :
    t.Child p c ∨ (p = holder ∧ c ∈ taken) := by
  by_cases hp : p = holder
  · subst hp
    obtain ⟨front, back, old, new, hbefore, hafter, -, -, honly⟩ := h.children_eq
    rw [Child, hafter] at hc
    rw [Child, hbefore]
    grind
  · rw [Child, h.childrenOf_other hp] at hc
    exact Or.inl hc

end Relinks

end Tree
end Arbor
