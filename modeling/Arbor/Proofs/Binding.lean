import Arbor.Proofs.FillFrame
import Mathlib.Data.List.Pairwise

/-!
When names come to be bound.

A function binds its name where it stands, a symbol with a type binds its own, and once an
assignment to a symbol is through its name is bound in any case. `Ahead` says, of the tree alone,
that such a node is through before an assignment is closed, and that no function has been left
since. A fill never declares the target of an assignment if something ahead binds the name, and
one that goes through declares it in every other case.
-/
namespace Arbor

namespace Tree

instance (t : Tree) : Std.Symm t.Apart := ⟨fun _ _ h x hx hx' => h x hx' hx⟩

/-- The one is visited from the other; callees are passed over. -/
def Seen (t : Tree) : NodeId → NodeId → Prop :=
  Relation.ReflTransGen fun p c => ∃ node, t.get? p = some node ∧ c ∈ node.visited

/-- Once the node is visited, the name is bound. -/
inductive Binds (t : Tree) (name : String) (x : NodeId) : Prop where
  | function {returnType params defn isStatic isInline} :
      t.get? x = some (.function returnType name params defn isStatic isInline) → Binds t name x
  | declaration {ty isConst} : t.get? x = some (.symbol name (some ty) isConst) → Binds t name x
  | assignment {u right isConst} : t.get? x = some (.binary u .assign right) →
      t.get? u = some (.symbol name none isConst) → Binds t name x

def BindsLocally (t : Tree) (id : NodeId) (name : String) : Prop :=
  ∃ x, t.Locally id x ∧ t.Binds name x

/-- In a visit to the first id, what `x` binds is bound by the time the assignment `b` is closed,
in a scope that is open there. -/
inductive Ahead (t : Tree) : NodeId → NodeId → NodeId → Prop where
  /-- The operands of an assignment come before the assignment. -/
  | operand {x b} : t.Locally b x → x ≠ b → Ahead t b x b
  /-- A function is bound around its own scope. -/
  | enclosing {f b} : t.Is f Node.isFunction → t.Seen f b → Ahead t f f b
  /-- Children are visited in order. -/
  | sibling {id node c c' x b} : t.get? id = some node → [c, c'].Sublist node.visited →
      t.Locally c x → t.Seen c' b → Ahead t id x b
  | inside {id node c x b} : t.get? id = some node → c ∈ node.visited → Ahead t c x b →
      Ahead t id x b

variable {t : Tree}

theorem child_of_visited {id c : NodeId} {node : Node} (hn : t.get? id = some node)
    (hc : c ∈ node.visited) : t.Child id c := by
  rw [Child, childrenOf_eq hn]
  exact node.visited_sublist.subset hc

theorem Seen.reach {id x : NodeId} (h : t.Seen id x) : t.Reach id x := by
  refine Relation.ReflTransGen.mono ?_ _ _ h
  rintro p c ⟨node, hn, hm⟩
  exact child_of_visited hn hm

theorem Locally.seen {id x : NodeId} (h : t.Locally id x) : t.Seen id x := by
  refine Relation.ReflTransGen.mono ?_ _ _ h
  rintro p c ⟨node, hn, -, hm⟩
  exact ⟨node, hn, hm⟩

theorem Seen.cases_down {id x : NodeId} {node : Node} (hn : t.get? id = some node)
    (h : t.Seen id x) : id = x ∨ ∃ c ∈ node.visited, t.Seen c x := by
  rcases Relation.ReflTransGen.cases_head h with he | ⟨c, ⟨known, hk, hm⟩, hcx⟩
  · exact Or.inl he
  · cases hn.symm.trans hk
    exact Or.inr ⟨c, hm, hcx⟩

theorem Ahead.seen {id x b : NodeId} (h : t.Ahead id x b) : t.Seen id b := by
  induction h with
  | operand => exact .refl
  | enclosing _ hb => exact hb
  | sibling hn hsub _ hb => exact .head ⟨_, hn, hsub.subset (by simp)⟩ hb
  | inside hn hm _ ih => exact .head ⟨_, hn, hm⟩ ih

namespace WellLinked

variable {root p c c' x : NodeId} (h : t.WellLinked root) (hp : t.Reach root p)
include h hp

theorem child_unique (hc : t.Child p c) (hc' : t.Child p c') (hx : t.Reach c x)
    (hx' : t.Reach c' x) : c = c' := by
  by_contra hne
  exact (h.children_apart hp).forall hc hc' hne x hx hx'

theorem ne_of_below (hc : t.Child p c) (hx : t.Reach c x) : p ≠ x := by
  rintro rfl
  exact h.acyclic hp (.head' hc hx)

theorem visited_nodup {node : Node} (hn : t.get? p = some node) : node.visited.Nodup := by
  have hchildren := h.children_nodup hp
  rw [childrenOf_eq hn] at hchildren
  exact hchildren.sublist node.visited_sublist

theorem holder_unique {q u right right' : NodeId} {op op' : Operator} (hq : t.Reach root q)
    (hu : t.get? p = some (.binary u op right)) (hu' : t.get? q = some (.binary u op' right')) :
    p = q := by
  have hlink := (h.node_of_reach (c := u) hp hu (by simp)).2
  exact Option.some.inj (hlink.symm.trans (h.node_of_reach hq hu' (by simp)).2)

end WellLinked
end Tree

namespace Filling

variable {registry : TypeRegistry} {t : Tree} {root : NodeId} {s s₁ s' : Filling} {done : Bool}

/-- A fill of `t` has come to certain ids, which lie apart, and was not below them yet. -/
structure Awaits (t : Tree) (root : NodeId) (depth : Nat) (now : Tree) (ids : List NodeId) :
    Prop where
  shape : t.SameShape now
  reach : ∀ c ∈ ids, t.Reach root c
  within : ∀ c ∈ ids, t.Within depth c
  apart : ids.Pairwise t.Apart
  fresh : ∀ c ∈ ids, ∀ x, t.Reach c x → now.get? x = t.get? x

def Awaited (registry : TypeRegistry) (t : Tree) (root : NodeId) (depth : Nat) : Visits :=
  fun c s done s' =>
    Awaits t root depth s.tree [c] ∧ Ends (visitTo registry depth c) s done s'

section Awaiting

variable {depth : Nat} {ids : List NodeId} {id c : NodeId} {node : Node}

theorem Awaited.advances (h : Awaited registry t root depth c s done s') : Advances t [c] s s' :=
  visitTo_advances h.1.shape (h.1.within c (List.mem_singleton_self c)) h.2

theorem Each.awaited_advances (h : Each (Awaited registry t root depth) ids s done s')
    (hs : t.SameShape s.tree) : Advances t ids s s' :=
  h.advances hs fun _ _ _ _ _ _ hv => hv.advances

namespace Awaits

theorem start (hroot : t.WellLinked root) : Awaits t root (t.size + 1) t [root] where
  shape := .refl t
  reach _ hc := List.mem_singleton.mp hc ▸ .refl
  within _ hc := List.mem_singleton.mp hc ▸ (hroot.within .refl).succ
  apart := List.pairwise_singleton ..
  fresh _ _ _ _ := rfl

theorem get?_eq (h : Awaits t root depth s.tree [id]) : s.tree.get? id = t.get? id :=
  h.fresh id (List.mem_singleton_self id) id .refl

theorem children (h : Awaits t root (depth + 1) s.tree [id]) (hroot : t.WellLinked root)
    (hn : t.get? id = some node) : Awaits t root depth s.tree node.visited := by
  have hid := List.mem_singleton_self id
  have child : ∀ c ∈ node.visited, t.Child id c ∧ t.Within depth c := fun c hc =>
    Tree.SameShape.child_within (.refl t) (h.within id hid) hn (node.visited_sublist.subset hc)
  refine ⟨h.shape, fun c hc => (h.reach id hid).tail (child c hc).1, fun c hc => (child c hc).2,
    ?_, fun c hc x hx => h.fresh id hid x (.head (child c hc).1 hx)⟩
  have happart := hroot.children_apart (h.reach id hid)
  rw [Tree.childrenOf_eq hn] at happart
  exact happart.sublist node.visited_sublist

theorem next (h : Awaits t root depth s.tree (c :: ids)) (hadv : Advances t [c] s s') :
    Awaits t root depth s'.tree ids := by
  obtain ⟨hfirst, hrest⟩ := List.pairwise_cons.mp h.apart
  refine ⟨h.shape.trans hadv.sameShape, fun c hc => h.reach c (by simp [hc]),
    fun c hc => h.within c (by simp [hc]), hrest, fun c' hc' x hx => ?_⟩
  rw [hadv.get?_eq fun f hf hfx => ?_]
  · exact h.fresh c' (by simp [hc']) x hx
  · rw [List.mem_singleton.mp hf] at hfx
    exact hfirst c' hc' x hfx hx

theorem head (h : Awaits t root depth s.tree (c :: ids)) : Awaits t root depth s.tree [c] where
  shape := h.shape
  reach c' hc' := h.reach c' (by simp_all)
  within c' hc' := h.within c' (by simp_all)
  apart := List.pairwise_singleton ..
  fresh c' hc' := h.fresh c' (by simp_all)

theorem each (h : Awaits t root depth s.tree ids)
    (he : Each (fun c => Ends (visitTo registry depth c)) ids s done s') :
    Each (Awaited registry t root depth) ids s done s' := by
  induction he with
  | nil => exact .nil _
  | cons hvisit _ ih =>
    have hv : Awaited registry t root depth _ _ _ _ := ⟨h.head, hvisit⟩
    exact .cons hv (ih (h.next hv.advances))
  | stop hvisit => exact .stop ⟨h.head, hvisit⟩

end Awaits
end Awaiting

theorem each_append {visits : Visits} {front back : List NodeId} :
    Each visits (front ++ back) s done s' ↔
      (∃ s₁, Each visits front s true s₁ ∧ Each visits back s₁ done s') ∨
      (done = false ∧ Each visits front s false s') := by
  induction front generalizing s with
  | nil =>
    constructor
    · exact fun h => Or.inl ⟨s, .nil s, h⟩
    · rintro (⟨_, ⟨⟩, h⟩ | ⟨_, ⟨⟩⟩)
      exact h
  | cons c front ih =>
    constructor
    · intro h
      cases h with
      | cons hc hrest =>
        rcases ih.mp hrest with ⟨s₁, hfront, hback⟩ | ⟨hdone, hfront⟩
        · exact Or.inl ⟨s₁, .cons hc hfront, hback⟩
        · exact Or.inr ⟨hdone, .cons hc hfront⟩
      | stop hc => exact Or.inr ⟨rfl, .stop hc⟩
    · rintro (⟨s₁, hfront, hback⟩ | ⟨rfl, hfront⟩)
      · cases hfront with
        | cons hc hrest => exact .cons hc (ih.mpr (Or.inl ⟨s₁, hrest, hback⟩))
      · cases hfront with
        | cons hc hrest => exact .cons hc (ih.mpr (Or.inr ⟨rfl, hrest⟩))
        | stop hc => exact .stop hc

theorem Advances.untyped {ids : List NodeId} {u : NodeId} {name : String} {isConst : Bool}
    (h : Advances t ids s s') (hu : s'.tree.get? u = some (.symbol name none isConst)) :
    s.tree.get? u = some (.symbol name none isConst) := by
  cases h.node u with
  | keeps he => exact he.symm.trans hu
  | types _ _ _ hs' => cases hu.symm.trans hs'
  | declares _ _ _ _ hs' => cases hu.symm.trans hs'

def enter (s : Filling) : Node → Filling
  | .function returnType name _ _ _ _ =>
    { s with scopes := (s.scopes.bind name returnType).1.push }
  | _ => s

theorem enter_tree (s : Filling) (node : Node) : (s.enter node).tree = s.tree := by
  cases node <;> rfl

theorem isBound_of_enter {node : Node} {name : String} {f : NodeId} (hn : t.get? f = some node)
    (hb : (s.enter node).scopes.isBound name) :
    s.scopes.isBound name ∨ node.isFunction ∧ t.Binds name f := by
  cases node
  case function returnType fname params defn isStatic isInline =>
    have hadds := Scopes.Adds.bind (P := fun n => n = fname) (s := s.scopes) returnType rfl
    rcases (Scopes.Grows.bind ..).isBound_or hadds (Scopes.isBound_push.mp hb) with hb | rfl
    · exact Or.inl hb
    · exact Or.inr ⟨rfl, .function hn⟩
  all_goals exact Or.inl hb

theorem enter_eq {node : Node} (s : Filling) (hf : node.isFunction = false) : s.enter node = s := by
  unfold enter
  split
  · cases hf
  · rfl

theorem isBound_enter {node : Node} {name : String} {f : NodeId} (s : Filling)
    (hn : t.get? f = some node) (hf : node.isFunction) (hb : t.Binds name f) :
    (s.enter node).scopes.isBound name := by
  cases hb with
  | function hx =>
    cases hn.symm.trans hx
    exact Scopes.isBound_push.mpr (Scopes.isBound_top (Scopes.top_bind ..))
  | declaration hx => cases hn.symm.trans hx; cases hf
  | assignment hx => cases hn.symm.trans hx; cases hf

section Visits

variable {depth : Nat} {ids : List NodeId} {name : String} {id x b u right d : NodeId}

theorem Awaited.enters (hroot : t.WellLinked root)
    (h : Awaited registry t root (depth + 1) id s done s') :
    ∃ node done₁ s₁, t.get? id = some node ∧
      Each (Awaited registry t root depth) node.visited (s.enter node) done₁ s₁ ∧
      (done = done₁ ∧ s'.tree = s₁.tree ∧ (done = true → node.isFunction = true) ∨
        done₁ = true ∧ node.isFunction = false ∧ s₁.tree.get? id = some node ∧
        Closes registry id node s₁ done s') := by
  obtain ⟨ha, h⟩ := h
  have hw := ha.within id (List.mem_singleton_self id)
  have awaited : ∀ {node done s₁}, t.get? id = some node →
      Each (fun c => Ends (visitTo registry depth c)) node.visited (s.enter node) done s₁ →
      Each (Awaited registry t root depth) node.visited (s.enter node) done s₁ := by
    intro node done s₁ hn he
    refine Awaits.each ?_ he
    rw [enter_tree]
    exact ha.children hroot hn
  cases ends_visitTo.mp h with
  | unknown hn =>
    obtain ⟨node, hn'⟩ := hw.resolves
    cases hn.symm.trans (ha.get?_eq.trans hn')
  | function hn he =>
    rw [← Node.children_function] at he
    have hknown := ha.get?_eq.symm.trans hn
    exact ⟨_, done, _, hknown, awaited hknown he, Or.inl ⟨rfl, rfl, fun _ => rfl⟩⟩
  | stop hn hf he =>
    have hknown := ha.get?_eq.symm.trans hn
    refine ⟨_, false, s', hknown, awaited hknown ?_, Or.inl ⟨rfl, rfl, nofun⟩⟩
    rw [enter_eq s hf]
    exact he
  | @close node s₁ _ _ hn hf he hclose =>
    have hknown := ha.get?_eq.symm.trans hn
    have heach := ha.children hroot hknown |>.each he
    have hkept := (heach.awaited_advances ha.shape).get?_visited ha.shape hw hn
    refine ⟨node, true, s₁, hknown, ?_, Or.inr ⟨rfl, hf, hkept, closes_of_ends hclose⟩⟩
    rw [enter_eq s hf]
    exact heach

theorem Each.declared (h : Each (Awaited registry t root depth) ids s done s')
    (hd : Declared s s' d name) :
    ∃ front c back s₁ done₁ s₂, ids = front ++ c :: back ∧
      Each (Awaited registry t root depth) front s true s₁ ∧
      Awaited registry t root depth c s₁ done₁ s₂ ∧ Declared s₁ s₂ d name := by
  induction h with
  | nil =>
    obtain ⟨_, _, hs, hs'⟩ := hd
    cases hs.symm.trans hs'
  | @cons c rest s s₁ _ _ hvisit _ ih =>
    rcases hd.split hvisit.advances with hd | hd
    · exact ⟨[], c, rest, s, true, s₁, rfl, .nil s, hvisit, hd⟩
    · obtain ⟨front, c', back, s₂, done₂, s₃, rfl, hfront, hvisit', hd'⟩ := ih hd
      exact ⟨c :: front, c', back, s₂, done₂, s₃, rfl, .cons hvisit hfront, hvisit', hd'⟩
  | @stop c rest s s₁ hvisit => exact ⟨[], c, rest, s, false, s₁, rfl, .nil s, hvisit, hd⟩

/-- Where a visit declares: the visit to a child does, or the node is an assignment and its
operands have left the name unbound. -/
inductive Declares (registry : TypeRegistry) (t : Tree) (root : NodeId) (depth : Nat) (id : NodeId)
    (s : Filling) (d : NodeId) (name : String) : Prop where
  | here {value mid} : t.get? id = some (.binary d .assign value) →
      Each (Awaited registry t root depth) [d, value] s true mid → ¬ mid.scopes.isBound name →
      Declares registry t root depth id s d name
  | inside {node front c back mid ended last} : t.get? id = some node →
      node.visited = front ++ c :: back →
      Each (Awaited registry t root depth) front (s.enter node) true mid →
      Awaited registry t root depth c mid ended last → Declared mid last d name →
      Declares registry t root depth id s d name

theorem Awaited.declares (hroot : t.WellLinked root)
    (h : Awaited registry t root (depth + 1) id s done s') (hd : Declared s s' d name) :
    Declares registry t root depth id s d name := by
  obtain ⟨node, done₁, s₁, hn, he, hleave⟩ := h.enters hroot
  have inside : Declared (s.enter node) s₁ d name → Declares registry t root depth id s d name := by
    intro hd
    obtain ⟨front, c, back, s₂, done₂, s₃, hsplit, hfront, hvisit, hd⟩ := he.declared hd
    exact .inside hn hsplit hfront hvisit hd
  rcases hleave with ⟨-, hs', -⟩ | ⟨rfl, hf, hkept, hclose⟩
  · refine inside ?_
    rwa [Declared, enter_tree, ← hs']
  · rw [enter_eq s hf] at he inside
    rcases hd.split (he.awaited_advances h.1.shape) with hd | hd
    · exact inside hd
    · obtain ⟨hfree, right, rfl⟩ := hclose.declared hkept hd
      exact .here hn he hfree

theorem Awaited.declared_seen (hroot : t.WellLinked root)
    (h : Awaited registry t root depth id s done s') (hd : Declared s s' d name) :
    ∃ b right, t.Seen id b ∧ t.get? b = some (.binary d .assign right) := by
  induction depth generalizing id s done s' with
  | zero => exact (h.1.within id (List.mem_singleton_self id)).elim
  | succ depth ih =>
    cases h.declares hroot hd with
    | here hn => exact ⟨id, _, .refl, hn⟩
    | @inside node _ _ _ _ _ _ hn hsplit _ hvisit hd =>
      obtain ⟨b, right, hseen, hb⟩ := ih hvisit hd
      exact ⟨b, right, .head ⟨node, hn, by simp [hsplit]⟩ hseen, hb⟩

theorem Each.isBound {c : NodeId} (h : Each (Awaited registry t root depth) ids s true s')
    (hs : t.SameShape s.tree) (hc : c ∈ ids)
    (hv : ∀ s s', Awaited registry t root depth c s true s' → s'.scopes.isBound name) :
    s'.scopes.isBound name :=
  h.bound hs hc (fun _ _ _ _ _ _ hv => hv.advances) fun s s' _ h => hv s s' h

theorem Awaited.isBound (hroot : t.WellLinked root)
    (h : Awaited registry t root depth id s true s') (hl : t.Locally id x) (hx : t.Binds name x) :
    s'.scopes.isBound name := by
  induction depth generalizing id s s' with
  | zero => exact (h.1.within id (List.mem_singleton_self id)).elim
  | succ depth ih =>
    obtain ⟨ha, h⟩ := h
    have hid := List.mem_singleton_self id
    cases ends_visitTo.mp h with
    | function hn he =>
      have hknown := ha.get?_eq.symm.trans hn
      rcases hl.cases_down (.refl t) hknown with rfl | ⟨hf, -⟩
      · have hin := he.grows fun _ _ _ _ => visitTo_grows
        have hbound := isBound_enter s hknown rfl hx
        change (Scopes.pop _).isBound name
        rw [hin.pop_eq]
        exact Scopes.isBound_push.mp hbound
      · cases hf
    | close hn hf he hclose =>
      have hknown := ha.get?_eq.symm.trans hn
      have hclose := closes_of_ends hclose
      rcases hl.cases_down (.refl t) hknown with rfl | ⟨-, c, hc, hcx⟩
      · cases hx with
        | function hx => cases hknown.symm.trans hx; cases hf
        | declaration hx =>
          cases hknown.symm.trans hx
          cases hclose with
          | binds => exact Scopes.isBound_top (Scopes.top_bind ..)
          | nothing hclosed => cases hclosed
        | @assignment u _ _ hx hu =>
          cases hknown.symm.trans hx
          have hname : t.Names u name := by simp [Tree.Names, hu, Node.symbolName?]
          exact bound_of_assignment hroot (ha.reach id hid) hx hname ha.shape
            (visits_advance registry ha.shape (ha.within id hid) hn) he hclose
      · have heach := (ha.children hroot hknown).each he
        have hbound := heach.isBound ha.shape hc fun s s' h => ih h hcx
        exact hclose.grows.isBound hbound

theorem Awaited.not_declared (hroot : t.WellLinked root)
    (h : Awaited registry t root depth id s done s') (hahead : t.Ahead id x b)
    (hb : t.get? b = some (.binary u .assign right)) (hx : t.Binds name x) :
    ¬ Declared s s' u name := by
  induction depth generalizing id s done s' with
  | zero => exact (h.1.within id (List.mem_singleton_self id)).elim
  | succ depth ih =>
    intro hd
    have hid := h.1.reach id (List.mem_singleton_self id)
    have hrb := hid.trans hahead.seen.reach
    -- below the assignment itself nothing leads back to it
    have back : ∀ {node c}, t.get? id = some node → c ∈ node.visited → t.Seen c b → id ≠ b :=
      fun hn hc hcb => hroot.ne_of_below hid (Tree.child_of_visited hn hc) hcb.reach
    cases h.declares hroot hd with
    | here hn he hfree =>
      obtain rfl := hroot.holder_unique hid hrb hn hb
      cases hahead with
      | operand hl hne =>
        rcases hl.cases_down (.refl t) hn with he' | ⟨-, c, hc, hcx⟩
        · exact hne he'.symm
        · exact hfree (he.isBound h.1.shape hc fun s s' h => h.isBound hroot hcx hx)
      | enclosing hf =>
        obtain ⟨node, hn', hf⟩ := hf
        cases hn.symm.trans hn'
        cases hf
      | sibling hn' hsub _ hcb => exact back hn' (hsub.subset (by simp)) hcb rfl
      | inside hn' hc hahead => exact back hn' hc hahead.seen rfl
    | @inside node front c behind mid _ _ hn hsplit hfront hvisit hd =>
      have hc : c ∈ node.visited := by simp [hsplit]
      have hchild := Tree.child_of_visited hn hc
      obtain ⟨b', right', hseen, hb'⟩ := hvisit.declared_seen hroot hd
      obtain rfl := hroot.holder_unique hrb ((hid.tail hchild).trans hseen.reach) hb hb'
      have hfree := (hd.target hvisit.advances).1
      have hshape : t.SameShape (s.enter node).tree := enter_tree s node ▸ h.1.shape
      have same : ∀ {node' c'}, t.get? id = some node' → c' ∈ node'.visited → t.Seen c' b →
          c' = c := fun hn' hc' hseen' =>
        hroot.child_unique hid (Tree.child_of_visited hn' hc') hchild hseen'.reach hseen.reach
      cases hahead with
      | operand => exact back hn hc hseen rfl
      | enclosing hf =>
        obtain ⟨node', hn', hf⟩ := hf
        cases hn.symm.trans hn'
        have hbound := isBound_enter s hn hf hx
        exact hfree ((hfront.awaited_advances hshape).scopes.isBound hbound)
      | sibling hn' hsub hl hseen' =>
        obtain rfl := same hn' (hsub.subset (by simp)) hseen'
        cases hn.symm.trans hn'
        have hnodup := hroot.visited_nodup hid hn
        rw [hsplit] at hsub hnodup
        exact hfree (hfront.isBound hshape (mem_front_of_sublist hnodup hsub)
          fun s s' h => h.isBound hroot hl hx)
      | inside hn' hc' hahead =>
        obtain rfl := same hn' hc' hahead.seen
        exact ih hvisit hahead hd

end Visits

section Unbound

variable {depth : Nat} {ids : List NodeId} {name : String} {id x b u right d : NodeId}

theorem Closes.adds_binders {node : Node} (ha : Awaits t root (depth + 1) s.tree [id])
    (hn : t.get? id = some node) (hin : Advances t node.visited s s₁)
    (hclose : Closes registry id node s₁ done s') :
    s₁.scopes.Adds (t.BindsLocally id) s'.scopes := by
  cases hclose with
  | binds => exact .bind _ ⟨id, .refl, .declaration hn⟩
  | @declares _ left _ _ _ _ hl =>
    have htarget := hin.untyped hl
    have hleft : t.Reach id left := Tree.Reach.child .refl hn (by simp)
    rw [ha.fresh id (List.mem_singleton_self id) left hleft] at htarget
    exact .bind _ ⟨id, .refl, .assignment hn htarget⟩
  | types | untyped | bound | settled | nothing | fails => exact .refl ..

/-- What a visit binds, beyond the functions that it enters. -/
theorem Awaited.adds_binders (hroot : t.WellLinked root)
    (h : Awaited registry t root depth id s done s') :
    s.scopes.Adds (t.BindsLocally id) s'.scopes := by
  induction depth generalizing id s done s' with
  | zero => exact (h.1.within id (List.mem_singleton_self id)).elim
  | succ depth ih =>
    obtain ⟨ha, h⟩ := h
    have each : ∀ {node done s₁}, t.get? id = some node → node.isFunction = false →
        Each (Awaited registry t root depth) node.visited s done s₁ →
        s.scopes.Adds (t.BindsLocally id) s₁.scopes := by
      intro node done s₁ hn hf he
      refine he.adds ha.shape fun c hc s done s' hs hv => ⟨hs.trans hv.advances.sameShape, ?_⟩
      refine (ih hv).mono ?_
      rintro name ⟨x, hl, hx⟩
      exact ⟨x, .head ⟨node, hn, hf, hc⟩ hl, hx⟩
    cases ends_visitTo.mp h with
    | unknown => exact .refl ..
    | function hn he =>
      -- what the function has bound inside is gone with its scope
      have hin := he.grows fun _ _ _ _ => visitTo_grows
      change s.scopes.Adds _ (Scopes.pop _)
      rw [hin.pop_eq]
      exact .bind _ ⟨id, .refl, .function (ha.get?_eq.symm.trans hn)⟩
    | stop hn hf he =>
      have hknown := ha.get?_eq.symm.trans hn
      exact each hknown hf ((ha.children hroot hknown).each he)
    | close hn hf he hclose =>
      have hknown := ha.get?_eq.symm.trans hn
      have heach := (ha.children hroot hknown).each he
      exact (each hknown hf heach).trans
        ((closes_of_ends hclose).adds_binders ha hknown (heach.awaited_advances ha.shape))

theorem Each.isBound_or (hroot : t.WellLinked root)
    (h : Each (Awaited registry t root depth) ids s done s') (hs : t.SameShape s.tree)
    (hb : s'.scopes.isBound name) :
    s.scopes.isBound name ∨ ∃ c ∈ ids, t.BindsLocally c name := by
  have hadds : s.scopes.Adds (fun name => ∃ c ∈ ids, t.BindsLocally c name) s'.scopes := by
    refine h.adds hs fun c hc s done s' hs hv => ⟨hs.trans hv.advances.sameShape, ?_⟩
    exact (hv.adds_binders hroot).mono fun name hname => ⟨c, hc, hname⟩
  exact (h.awaited_advances hs).scopes.isBound_or hadds hb

theorem Each.bound_or_ahead {node : Node} {c : NodeId} {isConst : Bool} (hroot : t.WellLinked root)
    (h : Each (Awaited registry t root depth) node.visited s true s') (hs : t.SameShape s.tree)
    (hn : t.get? id = some node) (hc : c ∈ node.visited) (hcb : t.Seen c b)
    (hlast : s'.tree.get? u = some (.symbol name none isConst))
    (hv : ∀ s s', Awaited registry t root depth c s true s' →
      s'.tree.get? u = some (.symbol name none isConst) →
      s.scopes.isBound name ∨ ∃ x, t.Binds name x ∧ t.Ahead c x b) :
    s.scopes.isBound name ∨ ∃ x, t.Binds name x ∧ t.Ahead id x b := by
  obtain ⟨front, back, hsplit⟩ := List.append_of_mem hc
  rw [hsplit] at h
  rcases each_append.mp h with ⟨s₁, hfront, hback⟩ | ⟨hdone, -⟩
  · cases hback with
    | cons hvisit hrest =>
      have hshape := hs.trans (hfront.awaited_advances hs).sameShape
      have hthen := hrest.awaited_advances (hshape.trans hvisit.advances.sameShape)
      rcases hv _ _ hvisit (hthen.untyped hlast) with hbound | ⟨x, hx, hahead⟩
      · refine (hfront.isBound_or hroot hs hbound).imp_right ?_
        rintro ⟨c', hc', x, hl, hx⟩
        have hsub : [c', c].Sublist node.visited := by
          rw [hsplit]
          exact .append (List.singleton_sublist.mpr hc') (by simp)
        exact ⟨x, hx, .sibling hn hsub hl hcb⟩
      · exact Or.inr ⟨x, hx, .inside hn hc hahead⟩
  · cases hdone

/-- In a visit that goes through, a target that is left without a type was bound by something
ahead of the assignment, or before. -/
theorem Awaited.bound_or_ahead (hroot : t.WellLinked root)
    (h : Awaited registry t root depth id s true s') (hseen : t.Seen id b)
    (hb : t.get? b = some (.binary u .assign right)) {isConst : Bool}
    (hlast : s'.tree.get? u = some (.symbol name none isConst)) :
    s.scopes.isBound name ∨ ∃ x, t.Binds name x ∧ t.Ahead id x b := by
  induction depth generalizing id s s' with
  | zero => exact (h.1.within id (List.mem_singleton_self id)).elim
  | succ depth ih =>
    obtain ⟨node, done₁, s₁, hn, he, hleave⟩ := h.enters hroot
    have hshape : t.SameShape (s.enter node).tree := enter_tree s node ▸ h.1.shape
    rcases hleave with ⟨rfl, hs', hf⟩ | ⟨rfl, hf, hkept, hclose⟩
    · rcases hseen.cases_down hn with rfl | ⟨c, hc, hcb⟩
      · cases hn.symm.trans hb
        cases hf rfl
      · rcases he.bound_or_ahead hroot hshape hn hc hcb (hs' ▸ hlast) fun s s' h => ih h hcb
          with hbound | hahead
        · refine (isBound_of_enter hn hbound).imp_right ?_
          rintro ⟨hf, hx⟩
          exact ⟨id, hx, .enclosing ⟨node, hn, hf⟩ hseen⟩
        · exact Or.inr hahead
    · rw [enter_eq s hf] at he hshape
      have hin := he.awaited_advances hshape
      have htarget := (hclose.advances (hshape.trans hin.sameShape) hkept).untyped hlast
      rcases hseen.cases_down hn with rfl | ⟨c, hc, hcb⟩
      · cases hb.symm.trans hn
        cases hclose with
        | declares hl =>
          rw [Tree.get?_setNode_same _ hl] at hlast
          cases hlast
        | bound hl hbound =>
          cases htarget.symm.trans hl
          refine (he.isBound_or hroot hshape hbound).imp_right ?_
          rintro ⟨c, hc, x, hl, hx⟩
          have hne := hroot.ne_of_below (h.1.reach id (List.mem_singleton_self id))
            (Tree.child_of_visited hn hc) hl.reach
          exact ⟨x, hx, .operand (.head ⟨_, hn, rfl, hc⟩ hl) hne.symm⟩
        | settled hl hne =>
          cases htarget.symm.trans hl
          exact absurd rfl (hne name isConst)
        | nothing hclosed => cases hclosed
      · exact he.bound_or_ahead hroot hshape hn hc hcb htarget fun s s' h => ih h hcb

end Unbound

end Filling
end Arbor
