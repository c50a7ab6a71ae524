import Arbor.Proofs.Slots

/-!
Parent links over runs of edits.

An edit may be given any ids: dangling ones, ids held elsewhere, ids repeated. It may fail, and a
failed copy keeps what it has added. In every tree that edits make of the empty one a link names
a node that holds the child, and the links form no cycle, although slots may share nodes, dangle
or lead back to themselves.
-/
namespace Arbor

inductive Edit where
  | add (node : Node)
  | setField (parent : NodeId) (field : String) (child : Option NodeId)
  | setList (parent : NodeId) (field : String) (children : List NodeId)
  | replace (id new : NodeId)
  | insertBefore (id new : NodeId)
  | insertAfter (id new : NodeId)
  | setType (id : NodeId) (ty : CType)
  | uniqueSymbol (stem : String) (ty : Option CType)
  | copySymbol (id : NodeId) (declare : Bool)
  | cloneSubtree (id : NodeId)
  deriving DecidableEq, Repr

namespace Tree

def orElse {α : Type} (t : Tree) (result : Except TreeError (Tree × α)) : Tree :=
  match result with
  | .ok (t', _) => t'
  | .error _ => t

def outcome (t : Tree) (result : Except TreeError Tree) : Tree :=
  match result with
  | .ok t' => t'
  | .error _ => t

def after {α : Type} (t : Tree) (m : TreeM α) : Tree :=
  match m t with
  | .ok _ t' => t'
  | .error _ t' => t'

end Tree

/-- The tree after a call, whether it succeeds or fails. -/
def Edit.next (t : Tree) : Edit → Tree
  | .add node => (t.add node).1
  | .setField parent field child => t.orElse (t.setField parent field child)
  | .setList parent field children => t.orElse (t.setList parent field children)
  | .replace id new => t.outcome (t.replace id new)
  | .insertBefore id new => t.outcome (t.insertBefore id new)
  | .insertAfter id new => t.outcome (t.insertAfter id new)
  | .setType id ty => t.outcome (t.setType id ty)
  | .uniqueSymbol stem ty => (t.uniqueSymbol stem ty).1
  | .copySymbol id declare => t.orElse (t.copySymbol id declare)
  | .cloneSubtree id => t.after (Tree.cloneSubtree id)

inductive Execution : Tree → Tree → Prop where
  | refl (t) : Execution t t
  | tail {s t} (e : Edit) : Execution s t → Execution s (e.next t)

def Edit.run (edits : List Edit) : Tree := edits.foldl Edit.next .empty

theorem execution_run (edits : List Edit) : Execution .empty (Edit.run edits) := by
  have extend : ∀ (edits : List Edit) s t, Execution s t →
      Execution s (edits.foldl Edit.next t) := by
    intro edits
    induction edits with
    | nil => exact fun _ _ h => h
    | cons e rest ih => exact fun s t h => ih s (e.next t) (.tail e h)
  exact extend edits _ _ (.refl _)

namespace Tree

def Up (t : Tree) (c p : NodeId) : Prop := t.parent? c = some p

/-- A cycle of links is a chain of them from a node back to it. -/
structure LinksSound (t : Tree) : Prop where
  held : ∀ c p, t.Up c p → p < t.size ∧ t.Child p c
  acyclic : ∀ id, ¬ Relation.TransGen t.Up id id

/-- Links to one holder are new, and what gets them is neither the holder nor above it. A chain
upwards from the holder then never meets a new link. -/
theorem acyclic_of_attach {up up' : NodeId → NodeId → Prop} (p : NodeId)
    (ha : ∀ id, ¬ Relation.TransGen up id id)
    (hl : ∀ c q, up' c q → up c q ∨ (q = p ∧ ¬ Relation.ReflTransGen up p c)) :
    ∀ id, ¬ Relation.TransGen up' id id := by
  have above : ∀ y, Relation.ReflTransGen up' p y → Relation.ReflTransGen up p y := by
    intro y h
    induction h with
    | refl => exact .refl
    | tail _ hu ih =>
      rcases hl _ _ hu with hu | ⟨-, hn⟩
      · exact ih.tail hu
      · exact absurd ih hn
  -- a chain is an old one, or it takes a new link at `c` and goes on upwards from the holder
  have split : ∀ x y, Relation.TransGen up' x y → Relation.TransGen up x y ∨
      ∃ c, ¬ Relation.ReflTransGen up p c ∧ Relation.ReflTransGen up' x c ∧
        Relation.ReflTransGen up' p y := by
    intro x y h
    induction h with
    | single hu =>
      rcases hl _ _ hu with hu | ⟨rfl, hn⟩
      · exact Or.inl (.single hu)
      · exact Or.inr ⟨x, hn, .refl, .refl⟩
    | tail hxy hu ih =>
      rcases ih with ih | ⟨c, hn, hxc, hpy⟩
      · rcases hl _ _ hu with hu | ⟨rfl, hn⟩
        · exact Or.inl (ih.tail hu)
        · exact Or.inr ⟨_, hn, hxy.to_reflTransGen, .refl⟩
      · exact Or.inr ⟨c, hn, hxc, hpy.tail hu⟩
  intro id h
  rcases split id id h with h | ⟨c, hn, hc, hp⟩
  · exact ha id h
  · exact hn (above c (hp.trans hc))

theorem empty_linksSound : LinksSound .empty := by
  have none : ∀ c p, ¬ Tree.empty.Up c p := by
    intro c p h
    simp [Up, parent?, empty] at h
  refine ⟨fun c p h => absurd h (none c p), fun id h => ?_⟩
  cases h with
  | single h => exact none _ _ h
  | tail _ h => exact none _ _ h

theorem LinksSound.add {t : Tree} (h : t.LinksSound) (node : Node) : (t.add node).1.LinksSound := by
  have up : ∀ c q, (t.add node).1.Up c q →
      (q = t.size ∧ c ∈ node.children ∧ c < t.size) ∨ t.Up c q := by
    intro c q hu
    rw [Up, parent?_add] at hu
    split at hu
    · next hc => exact Or.inl ⟨(Option.some.inj hu).symm, hc⟩
    · exact Or.inr hu
  have top : ∀ y, Relation.ReflTransGen t.Up t.size y → y = t.size := by
    intro y hy
    rcases Relation.ReflTransGen.cases_head hy with he | ⟨z, hz, -⟩
    · exact he.symm
    · rw [Up, parent?_of_size_le (Nat.le_refl _)] at hz
      cases hz
  refine ⟨?_, acyclic_of_attach t.size h.acyclic ?_⟩
  · intro c q hu
    rw [size_add, Child, childrenOf_add]
    rcases up c q hu with ⟨rfl, hc, -⟩ | hu
    · exact ⟨Nat.lt_succ_self _, by simpa using hc⟩
    · obtain ⟨hq, hc⟩ := h.held c q hu
      rw [if_neg (Nat.ne_of_lt hq)]
      exact ⟨Nat.lt_succ_of_lt hq, hc⟩
  · intro c q hu
    rcases up c q hu with ⟨rfl, -, hc⟩ | hu
    · exact Or.inr ⟨rfl, fun hr => Nat.ne_of_lt hc (top c hr)⟩
    · exact Or.inl hu

theorem ancestorsUpTo_chain (t : Tree) (count : Nat) (id : NodeId) :
    List.IsChain t.Up (id :: t.ancestorsUpTo count id) := by
  induction count generalizing id with
  | zero => exact .singleton id
  | succ count ih =>
    simp only [ancestorsUpTo]
    split
    · exact .singleton id
    · next p hp => exact .cons_cons hp (ih p)

theorem ancestors_pairwise (t : Tree) (id : NodeId) :
    List.Pairwise (Relation.TransGen t.Up) (id :: t.ancestors id) :=
  List.isChain_iff_pairwise.mp ((ancestorsUpTo_chain t t.size id).imp fun _ _ => .single)

theorem below_root {t : Tree} {id a : NodeId} (h : a ∈ t.ancestors id) :
    a = t.root id ∨ Relation.TransGen t.Up a (t.root id) := by
  obtain ⟨last, hlast⟩ := Option.ne_none_iff_exists'.mp
    (mt List.getLast?_eq_none_iff.mp (List.ne_nil_of_mem h))
  have hroot : t.root id = last := by simp [root, hlast]
  obtain ⟨front, hf⟩ := List.getLast?_eq_some_iff.mp hlast
  have hpair := (List.pairwise_cons.mp (t.ancestors_pairwise id)).2
  rw [hf] at h hpair
  rw [hroot]
  rcases List.mem_append.mp h with hm | hm
  · exact Or.inr ((List.pairwise_append.mp hpair).2.2 a hm last (by simp))
  · exact Or.inl (List.mem_singleton.mp hm)

/-- A list of ancestors that is not cut off ends where no link goes on. -/
theorem ancestorsUpTo_complete {t : Tree} {count : Nat} {id a : NodeId}
    (hl : (t.ancestorsUpTo count id).length < count)
    (h : Relation.TransGen t.Up id a) : a ∈ t.ancestorsUpTo count id := by
  induction count generalizing id with
  | zero => simp at hl
  | succ count ih =>
    obtain ⟨p, hp, hpa⟩ := Relation.TransGen.head'_iff.mp h
    rw [Up] at hp
    simp only [ancestorsUpTo, hp, List.length_cons] at hl ⊢
    rcases Relation.ReflTransGen.cases_head hpa with rfl | ⟨q, hq, hqa⟩
    · simp
    · exact List.mem_cons_of_mem p (ih (by omega) (Relation.TransGen.head' hq hqa))

namespace LinksSound

variable {t : Tree}

theorem ancestors_length (h : t.LinksSound) (id : NodeId) :
    (t.ancestors id).length < t.size ∨ t.ancestors id = [] := by
  cases hl : t.ancestors id with
  | nil => exact Or.inr rfl
  | cons p rest =>
    refine Or.inl ?_
    have hpair := t.ancestors_pairwise id
    have hnodup : (id :: t.ancestors id).Nodup := by
      refine List.Pairwise.imp ?_ hpair
      rintro a _ hab rfl
      exact h.acyclic a hab
    -- `id` has a parent and the others are parents, so all of them are nodes of the tree
    have hle := length_le_size (t := t) hnodup (by
      intro x hx
      rcases List.mem_cons.mp hx with rfl | hx
      · have hup := (List.pairwise_cons.mp hpair).1 p (by simp [hl])
        obtain ⟨q, hq, -⟩ := Relation.TransGen.head'_iff.mp hup
        exact lt_size_of_parent? hq
      · have hup := (List.pairwise_cons.mp hpair).1 x hx
        obtain ⟨z, -, hz⟩ := Relation.TransGen.tail'_iff.mp hup
        exact (h.held z x hz).1)
    rw [hl] at hle
    simp only [List.length_cons] at hle ⊢
    omega

theorem mem_ancestors (h : t.LinksSound) {id a : NodeId} :
    a ∈ t.ancestors id ↔ Relation.TransGen t.Up id a := by
  constructor
  · exact (List.pairwise_cons.mp (t.ancestors_pairwise id)).1 a
  · intro hu
    rcases h.ancestors_length id with hl | hl
    · exact ancestorsUpTo_complete hl hu
    · obtain ⟨p, hp, -⟩ := Relation.TransGen.head'_iff.mp hu
      have hs := lt_size_of_parent? hp
      rw [Up] at hp
      obtain ⟨n, hn⟩ := Nat.exists_eq_succ_of_ne_zero (Nat.ne_zero_of_lt hs)
      simp [ancestors, hn, ancestorsUpTo, hp] at hl

theorem relink (h : t.LinksSound) {t' : Tree} {holder : NodeId} {freed taken : List NodeId}
    (hr : t.Relinks holder freed taken t') : t'.LinksSound := by
  have up : ∀ c q, t'.Up c q → (c ∈ taken ∧ q = holder) ∨ (c ∉ freed ∧ t.Up c q) := by
    intro c q hu
    rw [Up, hr.parent?_eq] at hu
    split at hu
    · next hc => exact Or.inl ⟨hc, (Option.some.inj hu).symm⟩
    · split at hu
      · cases hu
      · next hf => exact Or.inr ⟨fun hm => hf ⟨hm, lt_size_of_parent? hu⟩, hu⟩
  obtain ⟨node, _, _, _, hn, -⟩ := hr.written
  refine ⟨?_, acyclic_of_attach holder h.acyclic ?_⟩
  · intro c q hu
    rw [hr.size_eq]
    rcases up c q hu with ⟨hc, rfl⟩ | ⟨hf, hu⟩
    · exact ⟨lt_size_of_get? hn, hr.child_taken hc⟩
    · obtain ⟨hq, hc⟩ := h.held c q hu
      refine ⟨hq, ?_⟩
      by_cases he : q = holder
      · subst he
        exact hr.child_kept hc hf
      · rw [Child, hr.childrenOf_other he]
        exact hc
  · intro c q hu
    rcases up c q hu with ⟨hc, rfl⟩ | ⟨-, hu⟩
    · obtain ⟨-, hne, ha, -⟩ := checkAttachable_eq_ok.mp (hr.attachable c hc)
      refine Or.inr ⟨rfl, fun hup => ?_⟩
      rcases Relation.reflTransGen_iff_eq_or_transGen.mp hup with he | hup
      · exact hne he
      · exact ha (h.mem_ancestors.mpr hup)
    · exact Or.inl hu

theorem congr (h : t.LinksSound) {t' : Tree} (hp : t'.parent? = t.parent?)
    (hc : t'.childrenOf = t.childrenOf) (hs : t'.size = t.size) : t'.LinksSound := by
  have up : t'.Up = t.Up := by
    funext c p
    rw [Up, hp, Up]
  refine ⟨?_, by rw [up]; exact h.acyclic⟩
  intro c p hu
  rw [up] at hu
  rw [hs, Child, hc]
  exact h.held c p hu

end LinksSound

theorem setNode_childrenOf {t : Tree} {id : NodeId} {node new : Node} (h : t.get? id = some node)
    (hc : new.children = node.children) : (t.setNode id new).childrenOf = t.childrenOf := by
  funext x
  simp only [childrenOf, get?_setNode, lt_size_of_get? h, and_true]
  by_cases hx : x = id
  · subst hx
    simp [h, hc]
  · simp [hx]

theorem setType_frame {t t' : Tree} {id : NodeId} {ty : CType} (h : t.setType id ty = .ok t') :
    t'.parent? = t.parent? ∧ t'.childrenOf = t.childrenOf ∧ t'.size = t.size := by
  have annotated : ∀ node new : Node, t.get? id = some node → new.children = node.children →
      (t.setNode id new).parent? = t.parent? ∧ (t.setNode id new).childrenOf = t.childrenOf ∧
        (t.setNode id new).size = t.size := by
    intro node new hn hc
    exact ⟨funext fun c => parent?_setNode t id c new, setNode_childrenOf hn hc, size_setNode ..⟩
  obtain ⟨node, hn, h⟩ := bind_eq_ok.mp h
  have hn := node_eq_ok.mp hn
  split at h
  · cases h
    exact annotated _ _ hn rfl
  · split at h
    · cases h
      exact ⟨rfl, rfl, rfl⟩
    · cases h
  · cases h
    exact annotated _ _ hn rfl
  · cases h
    exact annotated _ _ hn rfl
  · cases h

def Knows (t : Tree) (node : Node) : Prop := node.isSymbol → ∃ id, t.get? id = some node

theorem knows_mapChildren {t : Tree} {id : NodeId} {node : Node} (hn : t.get? id = some node)
    (f : NodeId → NodeId) : t.Knows (node.mapChildren f) := by
  intro hs
  cases node with
  | symbol => exact ⟨id, hn⟩
  | _ => cases hs

/-- A copy is made by adding nodes and nothing else, also one that fails. Its symbols are symbols of
a tree on the way. -/
theorem copyTo_adds_known (P : Tree → Prop)
    (hadd : ∀ s t node, P s → s.Knows node → P t → P (t.add node).1) (depth : Nat)
    (id : NodeId) (t : Tree) (h : P t) : P (t.after (copyTo depth id)) := by
  induction depth generalizing id t with
  | zero => exact h
  | succ depth ih =>
    -- the children one after another, each from the tree that the copy before it leaves
    have each : ∀ (ids : List NodeId) (copies : Table NodeId NodeId) (t : Tree), P t →
        P (t.after (copyEach (copyTo depth) ids copies)) := by
      intro ids
      induction ids with
      | nil => exact fun _ _ h => h
      | cons c rest ihr =>
        intro copies t h
        simp only [copyEach]
        split
        · exact ihr copies t h
        · have hc := ih c t h
          simp only [after, bind, EStateM.bind] at hc ⊢
          split at hc
          · next c' t' hok =>
            rw [hok]
            exact ihr (copies.set c c') t' hc
          · next e t' herr =>
            rw [herr]
            exact hc
    simp only [copyTo, after, bind, EStateM.bind, TreeM.node]
    cases hn : t.node id with
    | error e => exact h
    | ok node =>
      have hc := each node.children [] t h
      simp only [after] at hc ⊢
      split at hc
      · next copies t' hok =>
        rw [hok]
        exact hadd t t' _ h (knows_mapChildren (node_eq_ok.mp hn) _) hc
      · next e t' herr =>
        rw [herr]
        exact hc

theorem copyTo_adds (P : Tree → Prop) (hadd : ∀ t node, P t → P (t.add node).1) (depth : Nat)
    (id : NodeId) (t : Tree) (h : P t) : P (t.after (copyTo depth id)) :=
  copyTo_adds_known P (fun _ t node _ _ => hadd t node) depth id t h

theorem orElse_of {α : Type} {P : Tree → Prop} {t : Tree} {r : Except TreeError (Tree × α)}
    (h : P t) (hr : ∀ t' a, r = .ok (t', a) → P t') : P (t.orElse r) := by
  unfold orElse
  split
  · next t' a => exact hr t' a rfl
  · exact h

theorem outcome_of {P : Tree → Prop} {t : Tree} {r : Except TreeError Tree}
    (h : P t) (hr : ∀ t', r = .ok t' → P t') : P (t.outcome r) := by
  unfold outcome
  split
  · next t' => exact hr t' rfl
  · exact h

theorem insertSibling_linksSound {t t' : Tree} {id new : NodeId} {offset : Nat} (ho : offset ≤ 1)
    (h : t.LinksSound) (hi : t.insertSibling id new offset = .ok t') : t'.LinksSound := by
  obtain ⟨holder, -, hr⟩ := insertSibling_relinks ho hi
  exact h.relink hr

theorem step_preserves_links {t : Tree} (h : t.LinksSound) (e : Edit) : (e.next t).LinksSound := by
  cases e with
  | add node => exact h.add node
  | setField parent field child =>
    exact orElse_of h fun t' old hr => h.relink (setField_relinks hr)
  | setList parent field children =>
    exact orElse_of h fun t' old hr => h.relink (setList_relinks hr)
  | replace id new =>
    refine outcome_of h fun t' hr => ?_
    rcases replace_relinks hr with rfl | ⟨holder, -, -, hr⟩
    · exact h
    · exact h.relink hr
  | insertBefore id new =>
    exact outcome_of h fun t' hr => insertSibling_linksSound (Nat.zero_le 1) h hr
  | insertAfter id new =>
    exact outcome_of h fun t' hr => insertSibling_linksSound (Nat.le_refl 1) h hr
  | setType id ty =>
    refine outcome_of h fun t' hr => ?_
    obtain ⟨hp, hc, hs⟩ := setType_frame hr
    exact h.congr hp hc hs
  | uniqueSymbol stem ty =>
    have hu : LinksSound { t with nextUnique := t.nextUnique + 1 } := h.congr rfl rfl rfl
    exact hu.add _
  | copySymbol id declare =>
    refine orElse_of h fun t' copy hr => ?_
    obtain ⟨node, -, hr⟩ := bind_eq_ok.mp hr
    split at hr
    · cases hr
      exact h.add _
    · cases hr
  | cloneSubtree id => exact copyTo_adds LinksSound (fun t node h => h.add node) _ id t h

theorem execution_preserves_links {s t : Tree} (h : Execution s t) (hs : s.LinksSound) :
    t.LinksSound := by
  induction h with
  | refl => exact hs
  | tail e _ ih => exact step_preserves_links ih e

namespace LinksSound

variable {t : Tree}

theorem locate_cases (h : t.LinksSound) (id : NodeId) :
    (∃ l, t.locate id = .ok l ∧ t.parent? id = some l.parent ∧ l.Holds id) ∨
    (t.get? id = none ∧ t.locate id = .error (.unknownNode id)) ∨
    (t.parent? id = none ∧ t.locate id = .error (.noParent (t.kind id) id)) := by
  cases hn : t.get? id with
  | none => exact Or.inr (Or.inl ⟨rfl, by simp [locate, node, hn, bind, Except.bind]⟩)
  | some n =>
    have hnode : t.node id = .ok n := node_eq_ok.mpr hn
    cases hp : t.parent? id with
    | none => exact Or.inr (Or.inr ⟨rfl, by simp [locate, hnode, hp, bind, Except.bind]⟩)
    | some p =>
      obtain ⟨hs, hc⟩ := h.held id p hp
      obtain ⟨holder, hh⟩ := get?_of_lt_size hs
      have hholder : t.node p = .ok holder := node_eq_ok.mpr hh
      rw [Child, childrenOf_eq hh] at hc
      refine Or.inl ?_
      cases hl : locateIn id p holder.slots 0 with
      | none =>
        obtain ⟨slot, hslot, hm⟩ := List.mem_flatMap.mp hc
        exact absurd hm (locateIn_none hl slot hslot)
      | some l =>
        have hloc : t.locate id = .ok l := by
          simp [locate, hnode, hp, hholder, hl, bind, Except.bind]
        obtain ⟨hlp, hhold, -⟩ := locateIn_some hl
        exact ⟨l, hloc, by rw [hlp], hhold⟩

theorem root_parentless (h : t.LinksSound) (id : NodeId) : t.parent? (t.root id) = none := by
  by_contra hne
  obtain ⟨p, hp⟩ := Option.ne_none_iff_exists'.mp hne
  have hlast : t.root id = id ∨ t.root id ∈ t.ancestors id := by
    unfold root
    cases hl : (t.ancestors id).getLast? with
    | none => exact Or.inl rfl
    | some a => exact Or.inr (List.mem_of_getLast? hl)
  have hmem : p ∈ t.ancestors id := by
    refine h.mem_ancestors.mpr ?_
    rcases hlast with he | hm
    · rw [he] at hp
      exact .single hp
    · exact (h.mem_ancestors.mp hm).tail hp
  rcases below_root hmem with rfl | hup
  · exact h.acyclic _ (.single hp)
  · exact h.acyclic p (hup.tail hp)

end LinksSound

/-- In every tree that edits make of the empty one, whatever ids they are given and whether they
succeed: a link names a node that holds the child, so that looking a node up in its parent never
fails; and following links ends, so that the ancestors of a node are all of them. -/
theorem links_sound_in_every_run {t : Tree} (h : Execution .empty t) :
    (∀ c p, t.parent? c = some p → p < t.size ∧ c ∈ t.childrenOf p) ∧
    (∀ id, (∃ l, t.locate id = .ok l) ∨
      (t.get? id = none ∧ t.locate id = .error (.unknownNode id)) ∨
      (t.parent? id = none ∧ t.locate id = .error (.noParent (t.kind id) id))) ∧
    (∀ id, ¬ Relation.TransGen (fun c p => t.parent? c = some p) id id) ∧
    (∀ id, List.IsChain (fun c p => t.parent? c = some p) (id :: t.ancestors id) ∧
      ∀ a, a ∈ t.ancestors id ↔ Relation.TransGen (fun c p => t.parent? c = some p) id a) ∧
    (∀ id, t.parent? (t.root id) = none) := by
  have hs := execution_preserves_links h empty_linksSound
  refine ⟨hs.held, fun id => ?_, hs.acyclic, fun id => ?_, hs.root_parentless⟩
  · rcases hs.locate_cases id with ⟨l, hl, -⟩ | hl | hl
    · exact Or.inl ⟨l, hl⟩
    · exact Or.inr (Or.inl hl)
    · exact Or.inr (Or.inr hl)
  · exact ⟨ancestorsUpTo_chain t t.size id, fun a => hs.mem_ancestors⟩

/-- Sharing, a repeated and a dangling child, an edit that closes a cycle and is refused, a copy,
and a node that is moved while its old holder keeps it. -/
def tangle : List Edit :=
  [.add (.symbol "a" none false), .add (.block [0, 0, 7]), .add (.block [0]), .replace 0 2,
    .setList 1 "body" [2], .cloneSubtree 1, .insertAfter 0 1, .add (.block [5, 1])]

theorem links_sound_after_tangle :
    Execution .empty (Edit.run tangle) ∧ (Edit.run tangle).ancestors 3 = [4, 5, 6] ∧
    (∀ c p, (Edit.run tangle).parent? c = some p →
      p < (Edit.run tangle).size ∧ c ∈ (Edit.run tangle).childrenOf p) ∧
    (∀ id, ¬ Relation.TransGen (fun c p => (Edit.run tangle).parent? c = some p) id id) ∧
    (∀ id, (Edit.run tangle).parent? ((Edit.run tangle).root id) = none) := by
  have h := links_sound_in_every_run (execution_run tangle)
  exact ⟨execution_run tangle, by decide, h.1, h.2.2.1, h.2.2.2.2⟩

end Tree
end Arbor
