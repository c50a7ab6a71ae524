import Arbor.Document.Tree
import Arbor.Proofs.Cutting
import Arbor.Proofs.DeclarationOrder
import Arbor.Proofs.Identity

/-!
Names that a tree makes up.

Such a name is a stem and the count of the names made up before. The number stands behind the last
underscore, so no two of them are alike, whatever their stems are. Copies, folds and fills put no
name into a tree that it does not have. A new name can therefore only meet a name that came from
outside, in a document or with a symbol that was added; nothing keeps it from that.
-/
namespace Arbor

theorem Node.symbolName?_identity (n : Node) : n.identity.symbolName? = n.symbolName? := by
  cases n <;> rfl

namespace Tree

/-- A made-up name. -/
def coined (stem : String) (n : Nat) : String := stem ++ "_" ++ toString n

theorem underscore_notMem_toDigits (n : Nat) : '_' ∉ Nat.toDigits 10 n := by
  intro h
  exact absurd (Nat.isDigit_of_mem_toDigits (by decide) (by decide) h) (by decide)

/-- The number is read off behind the last underscore. -/
theorem eq_of_coined_eq {stem stem' : String} {n k : Nat} (h : coined stem n = coined stem' k) :
    n = k := by
  have hchars : ∀ stem n, (coined stem n).toList.reverse =
      (Nat.toDigits 10 n).reverse ++ '_' :: stem.toList.reverse := by
    intro stem n
    simp [coined]
  have hnone : ∀ n, '_' ∉ (Nat.toDigits 10 n).reverse :=
    fun n hm => underscore_notMem_toDigits n (List.mem_reverse.mp hm)
  have hends := congrArg (fun s => s.toList.reverse) h
  simp only [hchars] at hends
  obtain ⟨hdigits, -⟩ := Text.cut_at_first (hnone n) (hnone k) hends
  calc n
    _ = Nat.ofDigitChars 10 (Nat.toDigits 10 n) 0 := Nat.ofDigitChars_ten_toDigits.symm
    _ = Nat.ofDigitChars 10 (Nat.toDigits 10 k) 0 := by rw [List.reverse_injective hdigits]
    _ = k := Nat.ofDigitChars_ten_toDigits

/-- The names of the symbols, in the order of their ids. -/
def symbolNames (t : Tree) : List String := t.nodes.filterMap Node.symbolName?

variable {t t' t'' : Tree} {name : String}

theorem mem_symbolNames : name ∈ t.symbolNames ↔ ∃ id, t.Names id name := by
  rw [symbolNames, List.mem_filterMap]
  constructor
  · rintro ⟨node, hn, hname⟩
    obtain ⟨id, hid⟩ := List.mem_iff_getElem?.mp hn
    rw [getElem?_nodes] at hid
    exact ⟨id, Option.bind_eq_some_iff.mpr ⟨node, hid, hname⟩⟩
  · rintro ⟨id, hname⟩
    obtain ⟨node, hid, hname⟩ := Option.bind_eq_some_iff.mp hname
    rw [← getElem?_nodes] at hid
    exact ⟨node, List.mem_iff_getElem?.mpr ⟨id, hid⟩, hname⟩

theorem symbolNames_add (t : Tree) (node : Node) :
    (t.add node).1.symbolNames = t.symbolNames ++ node.symbolName?.toList := by
  have hnodes : (t.add node).1.nodes = t.nodes ++ [node] := by
    have hlinked : (t.setParents node.children (some t.size)).nodes = t.nodes :=
      nodes_eq_of_get? fun id => get?_setParents ..
    rw [← hlinked]
    simp [add, nodes]
  rw [symbolNames, hnodes, List.filterMap_append, ← symbolNames]
  cases hname : node.symbolName? <;> simp [hname]

theorem symbolNames_uniqueSymbol (t : Tree) (stem : String) (ty : Option CType) :
    (t.uniqueSymbol stem ty).1.symbolNames = t.symbolNames ++ [coined stem t.nextUnique] :=
  symbolNames_add ..

theorem nextUnique_add (t : Tree) (node : Node) : (t.add node).1.nextUnique = t.nextUnique :=
  nextUnique_setParents ..

theorem nextUnique_fillSlot (t : Tree) (id : NodeId) (place : Nat) (slot : Slot) :
    (t.fillSlot id place slot).nextUnique = t.nextUnique := by
  unfold fillSlot
  split <;> rfl

theorem nextUnique_setType {id : NodeId} {ty : CType} (h : t.setType id ty = .ok t') :
    t'.nextUnique = t.nextUnique := by
  obtain ⟨node, -, h⟩ := bind_eq_ok.mp h
  split at h
  · cases h
    rfl
  · split at h
    · cases h
      rfl
    · cases h
  · cases h
    rfl
  · cases h
    rfl
  · cases h

/-- The symbols have the same names, and the next name made up has the same number. -/
structure SameNames (t t' : Tree) : Prop where
  mem_iff : ∀ name, name ∈ t'.symbolNames ↔ name ∈ t.symbolNames
  count_eq : t'.nextUnique = t.nextUnique

theorem Keeps.symbolNames_subset {p : NodeId → Prop} (h : t.Keeps p t') :
    t.symbolNames ⊆ t'.symbolNames := by
  intro name hm
  obtain ⟨id, hname⟩ := mem_symbolNames.mp hm
  obtain ⟨n, hn, hname⟩ := Option.bind_eq_some_iff.mp hname
  obtain ⟨m, hm, hkeep⟩ := h.node id n hn
  refine mem_symbolNames.mpr ⟨id, Option.bind_eq_some_iff.mpr ⟨m, hm, ?_⟩⟩
  rw [← m.symbolName?_identity, hkeep.identity_eq, n.symbolName?_identity, hname]

namespace SameNames

theorem refl (t : Tree) : t.SameNames t := ⟨fun _ => Iff.rfl, rfl⟩

theorem trans (h : t.SameNames t') (k : t'.SameNames t'') : t.SameNames t'' :=
  ⟨fun name => (k.mem_iff name).trans (h.mem_iff name), k.count_eq.trans h.count_eq⟩

theorem of_keeps {p : NodeId → Prop} (h : t.Keeps p t') (hsize : t'.size = t.size)
    (hcount : t'.nextUnique = t.nextUnique) : t.SameNames t' := by
  refine ⟨fun name => ⟨fun hm => ?_, fun hm => h.symbolNames_subset hm⟩, hcount⟩
  obtain ⟨id, hname⟩ := mem_symbolNames.mp hm
  obtain ⟨m, hm, hname⟩ := Option.bind_eq_some_iff.mp hname
  obtain ⟨n, hn⟩ := get?_of_lt_size (hsize ▸ lt_size_of_get? hm)
  obtain ⟨m', hm', hkeep⟩ := h.node id n hn
  obtain rfl : m' = m := Option.some.inj (hm'.symm.trans hm)
  refine mem_symbolNames.mpr ⟨id, Option.bind_eq_some_iff.mpr ⟨n, hn, ?_⟩⟩
  rw [← n.symbolName?_identity, ← hkeep.identity_eq, m'.symbolName?_identity, hname]

theorem add {node : Node} (h : ∀ name, node.symbolName? = some name → name ∈ t.symbolNames) :
    t.SameNames (t.add node).1 := by
  refine ⟨fun name => ?_, nextUnique_add t node⟩
  simp only [symbolNames_add, List.mem_append, Option.mem_toList, or_iff_left_iff_imp]
  exact h name

theorem add_known {s : Tree} {node : Node} (hs : t.SameNames s) (hk : s.Knows node)
    (ht : t.SameNames t') : t.SameNames (t'.add node).1 := by
  refine ht.trans (.add fun name hname => (ht.mem_iff name).mpr ((hs.mem_iff name).mp ?_))
  have hsymbol : node.isSymbol := by
    cases node <;> first | rfl | cases hname
  obtain ⟨id, hn⟩ := hk hsymbol
  exact mem_symbolNames.mpr ⟨id, Option.bind_eq_some_iff.mpr ⟨node, hn, hname⟩⟩

theorem of_relinks {holder : NodeId} {freed taken : List NodeId}
    (h : t.Relinks holder freed taken t') : t.SameNames t' := by
  refine .of_keeps (.of_relinks h) h.size_eq ?_
  obtain ⟨node, place, slot, filled, -, -, -, -, -, -, rfl⟩ := h.written
  rw [nextUnique_setParents, nextUnique_setParents, nextUnique_fillSlot]

theorem of_replace {id new : NodeId} (h : t.replace id new = .ok t') : t.SameNames t' := by
  rcases replace_relinks h with rfl | ⟨holder, -, -, hr⟩
  · exact .refl _
  · exact .of_relinks hr

theorem of_setType {id : NodeId} {ty : CType} (h : t.setType id ty = .ok t') : t.SameNames t' :=
  .of_keeps (.of_setType h) (setType_frame h).2.2 (nextUnique_setType h)

theorem of_copySymbol {id copy : NodeId} {declare : Bool}
    (h : t.copySymbol id declare = .ok (t', copy)) : t.SameNames t' := by
  obtain ⟨node, hn, h⟩ := bind_eq_ok.mp h
  split at h
  · next name ty isConst =>
    cases h
    refine .add fun _ hname => ?_
    cases hname
    exact mem_symbolNames.mpr ⟨id, by simp [Names, node_eq_ok.mp hn, Node.symbolName?]⟩
  · cases h

end SameNames
end Tree

namespace Filling

open Tree

variable {registry : TypeRegistry} {id : NodeId} {s s' : Filling} {done : Bool}

theorem Closes.sameNames {node : Node} (h : Closes registry id node s done s') :
    s.tree.SameNames s'.tree := by
  cases h with
  | types _ ht => exact .of_setType ht
  | @declares _ left _ name isConst ty hl =>
    have hkeeps : s.tree.Keeps nowhere (s.tree.setNode left (.symbol name (some ty) isConst)) :=
      .of_setNode hl (Node.Typed.symbol name ty isConst).keeps
    exact .of_keeps hkeeps (size_setNode ..) rfl
  | binds | untyped | bound | settled | nothing | fails => exact .refl _

theorem visitTo_sameNames {depth : Nat} (h : Ends (visitTo registry depth id) s done s') :
    s.tree.SameNames s'.tree := by
  induction depth generalizing id s done s' with
  | zero =>
    obtain ⟨-, rfl⟩ := h
    exact .refl _
  | succ depth ih =>
    have heach : ∀ ids s done s', Each (fun c => Ends (visitTo registry depth c)) ids s done s' →
        s.tree.SameNames s'.tree :=
      fun ids s done s' he =>
        he.related (fun s => .refl s.tree) (fun _ _ _ => .trans) fun _ _ _ _ => ih
    cases ends_visitTo.mp h with
    | unknown => exact .refl _
    | function _ he => exact (heach _ _ _ _ he :)
    | stop _ _ he => exact heach _ _ _ _ he
    | close _ _ he hclose => exact (heach _ _ _ _ he).trans (closes_of_ends hclose).sameNames

end Filling

/-- The names that came in, as they were given or made up. -/
structure Tree.Receives (t : Tree) (given made : List String) (t' : Tree) : Prop where
  mem_iff : ∀ name, name ∈ t'.symbolNames ↔ name ∈ t.symbolNames ∨ name ∈ given ∨ name ∈ made
  count_eq : t'.nextUnique = t.nextUnique + made.length

theorem Tree.SameNames.receives {t t' : Tree} (h : t.SameNames t') : t.Receives [] [] t' :=
  ⟨fun name => by simp [h.mem_iff], h.count_eq⟩

def Edit.given : Edit → List String
  | .add node => node.symbolName?.toList
  | _ => []

def Edit.made (t : Tree) : Edit → List String
  | .uniqueSymbol stem _ => [Tree.coined stem t.nextUnique]
  | _ => []

open Tree in
theorem Edit.receives (t : Tree) (e : Edit) : t.Receives e.given (e.made t) (e.next t) := by
  have quiet : t.Receives [] [] t := (SameNames.refl t).receives
  cases e with
  | add node =>
    refine ⟨fun name => ?_, nextUnique_add t node⟩
    simp [Edit.next, Edit.given, Edit.made, symbolNames_add]
  | setField parent field child =>
    exact orElse_of quiet fun t' old hr => (SameNames.of_relinks (setField_relinks hr)).receives
  | setList parent field children =>
    exact orElse_of quiet fun t' old hr => (SameNames.of_relinks (setList_relinks hr)).receives
  | replace id new => exact outcome_of quiet fun t' hr => (SameNames.of_replace hr).receives
  | insertBefore id new =>
    refine outcome_of quiet fun t' hr => ?_
    obtain ⟨holder, -, hr⟩ := insertSibling_relinks (Nat.zero_le 1) hr
    exact (SameNames.of_relinks hr).receives
  | insertAfter id new =>
    refine outcome_of quiet fun t' hr => ?_
    obtain ⟨holder, -, hr⟩ := insertSibling_relinks (Nat.le_refl 1) hr
    exact (SameNames.of_relinks hr).receives
  | setType id ty => exact outcome_of quiet fun t' hr => (SameNames.of_setType hr).receives
  | uniqueSymbol stem ty =>
    refine ⟨fun name => ?_, nextUnique_add ..⟩
    simp [Edit.next, Edit.given, Edit.made, symbolNames_uniqueSymbol]
  | copySymbol id declare =>
    exact orElse_of quiet fun t' copy hr => (SameNames.of_copySymbol hr).receives
  | cloneSubtree id =>
    have hcopy : t.SameNames (t.after (copyTo (t.size + 1) id)) :=
      copyTo_adds_known _ (fun _ _ _ => .add_known) _ id t (.refl t)
    exact hcopy.receives

namespace Change

def given : Change → List String
  | .edit e => e.given
  | _ => []

def made (t : Tree) : Change → List String
  | .edit e => e.made t
  | _ => []

theorem coined_of_made {t : Tree} {c : Change} {name : String} (h : name ∈ c.made t) :
    ∃ stem, name = Tree.coined stem t.nextUnique := by
  cases c with
  | edit e =>
    cases e with
    | uniqueSymbol stem ty => exact ⟨stem, List.mem_singleton.mp h⟩
    | _ => cases h
  | _ => cases h

theorem next_receives (t : Tree) (c : Change) : t.Receives c.given (c.made t) (c.next t) := by
  cases c with
  | edit e => exact e.receives t
  | fixParents =>
    have hkeeps : t.Keeps Tree.nowhere t.fixParents :=
      .of_get? (Tree.size_fixParents t) (Tree.get?_fixParents t)
    exact (Tree.SameNames.of_keeps hkeeps (Tree.size_fixParents t)
      (Tree.nextUnique_fixParents t)).receives
  | fold root =>
    have hfold : t.SameNames (t.after (Fold.fold root)) :=
      Fold.maintains_fold_known (fun _ _ _ => .add_known)
        (fun _ _ _ _ h hr => h.trans (.of_replace hr)) root t (.refl t)
    exact hfold.receives
  | fill registry scopes root =>
    obtain ⟨done, s, hends, htree⟩ := ends_of_fill t registry scopes root
    rw [htree]
    exact (Filling.visitTo_sameNames hends).receives

end Change

/-- A tree that changes have made of the empty one or of a document, and the names that its symbols
were given there or on the way. What is written out and read again starts anew, as a document. -/
inductive Grown : Tree → List String → Prop where
  | empty : Grown .empty []
  | document {text : String} {t : Tree} : Tree.parse? text = some t → Grown t t.symbolNames
  | change {t : Tree} {given : List String} (c : Change) :
      Grown t given → Grown (c.next t) (given ++ c.given)

namespace Grown

variable {t : Tree} {given : List String} {name : String}

theorem run (h : Grown t given) (changes : List Change) :
    Grown (Change.run t changes) (given ++ changes.flatMap Change.given) := by
  induction changes generalizing t given with
  | nil => simpa [Change.run] using h
  | cons c rest ih =>
    rw [List.flatMap_cons, ← List.append_assoc]
    exact ih (h.change c)

theorem mem_of_given (h : Grown t given) (hm : name ∈ given) : name ∈ t.symbolNames := by
  induction h with
  | empty => cases hm
  | document => exact hm
  | @change t given c _ ih =>
    refine ((c.next_receives t).mem_iff name).mpr ?_
    rcases List.mem_append.mp hm with hm | hm
    · exact Or.inl (ih hm)
    · exact Or.inr (Or.inl hm)

theorem given_or_coined (h : Grown t given) (hm : name ∈ t.symbolNames) :
    name ∈ given ∨ ∃ stem k, k < t.nextUnique ∧ name = Tree.coined stem k := by
  induction h with
  | empty => cases hm
  | document => exact Or.inl hm
  | @change t given c _ ih =>
    have hnext := c.next_receives t
    have hcount : t.nextUnique ≤ (c.next t).nextUnique := by
      rw [hnext.count_eq]
      exact Nat.le_add_right ..
    rcases (hnext.mem_iff name).mp hm with hm | hm | hm
    · rcases ih hm with hm | ⟨stem, k, hk, rfl⟩
      · exact Or.inl (List.mem_append_left _ hm)
      · exact Or.inr ⟨stem, k, Nat.lt_of_lt_of_le hk hcount, rfl⟩
    · exact Or.inl (List.mem_append_right _ hm)
    · obtain ⟨stem, rfl⟩ := Change.coined_of_made hm
      refine Or.inr ⟨stem, t.nextUnique, ?_, rfl⟩
      rw [hnext.count_eq]
      exact Nat.lt_add_of_pos_right (List.length_pos_of_mem hm)

/-- The next name is in the tree only if it was given, since its number is that of no other. -/
theorem coined_mem_iff (h : Grown t given) (stem : String) :
    Tree.coined stem t.nextUnique ∈ t.symbolNames ↔ Tree.coined stem t.nextUnique ∈ given := by
  refine ⟨fun hm => ?_, h.mem_of_given⟩
  rcases h.given_or_coined hm with hg | ⟨stem', k, hk, he⟩
  · exact hg
  · exact absurd (Tree.eq_of_coined_eq he).symm (Nat.ne_of_lt hk)

end Grown

namespace Tree

/-- A symbol with a made-up name is added, and no symbol of the tree has this name unless one was
given it. -/
theorem made_up_name_fresh_iff {t : Tree} {given : List String} (h : Grown t given) (stem : String)
    (ty : Option CType) :
    ∃ name, name = stem ++ "_" ++ toString t.nextUnique ∧
      t.get? (t.uniqueSymbol stem ty).2 = none ∧
      (t.uniqueSymbol stem ty).1.get? (t.uniqueSymbol stem ty).2 = some (.symbol name ty false) ∧
      ((∀ id other ty' isConst, t.get? id = some (.symbol other ty' isConst) → other ≠ name) ↔
        name ∉ given) := by
  refine ⟨coined stem t.nextUnique, rfl, by simp [uniqueSymbol, add, get?, size], ?_, ?_⟩
  · rw [uniqueSymbol, get?_add]
    exact if_pos rfl
  rw [← h.coined_mem_iff, mem_symbolNames]
  constructor
  · rintro hfresh ⟨id, hname⟩
    obtain ⟨ty', isConst, hn⟩ := (SameShape.refl t).names hname
    exact hfresh id _ ty' isConst hn rfl
  · rintro hnone id _ ty' isConst hn rfl
    exact hnone ⟨id, by simp [Names, hn, Node.symbolName?]⟩

def copied : List Change :=
  [.edit (.add (.symbol "a" none false)), .edit (.uniqueSymbol "a" none), .edit (.cloneSubtree 1)]

theorem made_up_name_fresh_beside_copy :
    Grown (Change.run .empty copied) ["a"] ∧
    (Change.run .empty copied).symbolNames = ["a", "a_0", "a_0"] ∧
    ((Change.run .empty copied).uniqueSymbol "a" none).1.get? 3 = some (.symbol "a_1" none false) ∧
    ∀ id other ty isConst, (Change.run .empty copied).get? id = some (.symbol other ty isConst) →
      other ≠ "a_1" := by
  have hgrown : Grown (Change.run .empty copied) ["a"] := Grown.empty.run copied
  have hname : "a" ++ "_" ++ toString (Change.run .empty copied).nextUnique = "a_1" := by
    decide +kernel
  obtain ⟨name, rfl, -, hadded, hfresh⟩ := made_up_name_fresh_iff hgrown "a" none
  rw [hname] at hadded hfresh
  exact ⟨hgrown, by decide +kernel, hadded, hfresh.mpr (by decide)⟩

/-- Nothing keeps the new name from one that was given. -/
theorem made_up_name_meets_given :
    ∃ t given, Grown t given ∧ t.get? 0 = some (.symbol "tmp_0" none false) ∧
      (t.uniqueSymbol "tmp" none).1.get? 1 = some (.symbol "tmp_0" none false) :=
  ⟨_, _, .change (.edit (.add (.symbol "tmp_0" none false))) .empty, by decide +kernel,
    by decide +kernel⟩

end Tree
end Arbor
