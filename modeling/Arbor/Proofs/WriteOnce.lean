import Arbor.Proofs.Visit

/-!
Filling in declarations writes a type only where there is none, on every tree.

Slots may lead back to a node that is being visited. Such a visit never goes through, since it
goes down until no levels are left. So a call whose arguments have been visited is none of the
nodes that were visited with them, and it has no type yet when it gets one.
-/
namespace Arbor

inductive Node.Typed : Node → Node → Prop where
  | symbol (name : String) (ty : CType) (isConst : Bool) :
      Typed (.symbol name none isConst) (.symbol name (some ty) isConst)
  | call (func : NodeId) (args : List NodeId) (ty : CType) :
      Typed (.call func args none) (.call func args (some ty))

theorem Node.Typed.last {n m k : Node} (h : n.Typed m) : ¬ m.Typed k := by
  cases h <;> rintro ⟨⟩

namespace Tree

def Leads (t : Tree) (p c : NodeId) : Prop := ∃ node, t.get? p = some node ∧ c ∈ node.visited

/-- Visits from the id end in fewer than `depth` levels. -/
def Descends (t : Tree) : (depth : Nat) → NodeId → Prop
  | 0, _ => False
  | depth + 1, id => ∀ c, t.Leads id c → t.Descends depth c

theorem Descends.no_return {t : Tree} {depth : Nat} {id : NodeId} (h : t.Descends depth id) :
    ¬ Relation.TransGen t.Leads id id := by
  induction depth generalizing id with
  | zero => exact h.elim
  | succ depth ih =>
    intro hcycle
    obtain ⟨c, hic, hci⟩ := Relation.TransGen.head'_iff.mp hcycle
    exact ih (h c hic) (Relation.TransGen.tail' hci hic)

theorem SameShape.leads {t t' : Tree} (h : t.SameShape t') {p c : NodeId} {node : Node}
    (hn : t'.get? p = some node) (hc : c ∈ node.visited) : t.Leads p c := by
  obtain ⟨node', hn', he⟩ := h.symm.get?_some hn
  exact ⟨node', hn', Node.blind_visited.eq he ▸ hc⟩

theorem SameShape.visited_of_leads {t t' : Tree} (h : t.SameShape t') {p c : NodeId} {node : Node}
    (hn : t'.get? p = some node) (hc : t.Leads p c) : c ∈ node.visited := by
  obtain ⟨node', hn', hm⟩ := hc
  obtain ⟨node'', hn'', he⟩ := h.get?_some hn'
  obtain rfl : node'' = node := Option.some.inj (hn''.symm.trans hn)
  exact Node.blind_visited.eq he ▸ hm

/-- Between two trees, nodes that the ids lead to may get a type, and nothing else changes. -/
structure WritesOnce (t : Tree) (ids : List NodeId) (s s' : Tree) : Prop where
  size_eq : s'.size = s.size
  parent_eq : ∀ id, s'.parent? id = s.parent? id
  node : ∀ x, s'.get? x = s.get? x ∨ ∃ id ∈ ids, Relation.ReflTransGen t.Leads id x ∧
    ∃ n m, s.get? x = some n ∧ s'.get? x = some m ∧ n.Typed m

namespace WritesOnce

variable {t s s₁ s' : Tree} {ids ids' : List NodeId}

theorem refl (t : Tree) (ids : List NodeId) (s : Tree) : WritesOnce t ids s s :=
  ⟨rfl, fun _ => rfl, fun _ => Or.inl rfl⟩

theorem trans (h : WritesOnce t ids s s₁) (k : WritesOnce t ids s₁ s') : WritesOnce t ids s s' := by
  refine ⟨k.size_eq.trans h.size_eq, fun id => (k.parent_eq id).trans (h.parent_eq id), fun x => ?_⟩
  rcases h.node x with he | ⟨id, hid, hx, n, m, hn, hm, hty⟩
  · rw [← he]
    exact k.node x
  · rcases k.node x with he' | ⟨_, _, _, n', m', hn', _, hty'⟩
    · exact Or.inr ⟨id, hid, hx, n, m, hn, he'.trans hm, hty⟩
    · cases hm.symm.trans hn'
      exact absurd hty' hty.last

theorem below (h : WritesOnce t ids s s')
    (hb : ∀ id ∈ ids, ∃ id' ∈ ids', Relation.ReflTransGen t.Leads id' id) :
    WritesOnce t ids' s s' := by
  refine ⟨h.size_eq, h.parent_eq, fun x => ?_⟩
  rcases h.node x with he | ⟨id, hid, hx, hty⟩
  · exact Or.inl he
  · obtain ⟨id', hid', hr⟩ := hb id hid
    exact Or.inr ⟨id', hid', hr.trans hx, hty⟩

theorem mono (h : WritesOnce t ids s s') (hsub : ids ⊆ ids') : WritesOnce t ids' s s' :=
  h.below fun id hid => ⟨id, hsub hid, .refl⟩

theorem sameShape (h : WritesOnce t ids s s') : s.SameShape s' := by
  refine ⟨h.size_eq, h.parent_eq, fun x => ?_⟩
  rcases h.node x with he | ⟨_, _, _, n, m, hn, hm, hty⟩
  · rw [he]
  · rw [hn, hm]
    cases hty <;> rfl

theorem setNode {id x : NodeId} {n m : Node} (hn : s.get? x = some n) (hty : n.Typed m)
    (hx : Relation.ReflTransGen t.Leads id x) : WritesOnce t [id] s (s.setNode x m) := by
  refine ⟨size_setNode .., fun c => parent?_setNode .., fun y => ?_⟩
  by_cases hy : y = x
  · subst hy
    exact Or.inr ⟨id, List.mem_singleton_self id, hx, n, m, hn, get?_setNode_same m hn, hty⟩
  · exact Or.inl (get?_setNode_other m hy)

end WritesOnce
end Tree

namespace Filling

open Tree

variable {registry : TypeRegistry} {t : Tree} {id : NodeId} {s s' : Filling} {done : Bool}

theorem Each.writesOnce {visits : Visits} {depth : Nat} {ids : List NodeId}
    (h : Each visits ids s done s') (hs : t.SameShape s.tree)
    (hv : ∀ c s done s', t.SameShape s.tree → visits c s done s' →
      WritesOnce t [c] s.tree s'.tree ∧ (done = true → t.Descends depth c)) :
    WritesOnce t ids s.tree s'.tree ∧ (done = true → ∀ c ∈ ids, t.Descends depth c) := by
  induction h with
  | nil s => exact ⟨.refl .., by simp⟩
  | cons hid _ ih =>
    obtain ⟨hhead, hdown⟩ := hv _ _ _ _ hs hid
    obtain ⟨hrest, hdowns⟩ := ih (hs.trans hhead.sameShape)
    refine ⟨(hhead.mono (by simp)).trans (hrest.mono (by simp)), fun hd => ?_⟩
    exact List.forall_mem_cons.mpr ⟨hdown rfl, hdowns hd⟩
  | stop hid => exact ⟨(hv _ _ _ _ hs hid).1.mono (by simp), nofun⟩

theorem Closes.writesOnce {node : Node} (h : Closes registry id node s done s')
    (hs : t.SameShape s.tree) (hn : s.tree.get? id = some node) :
    WritesOnce t [id] s.tree s'.tree := by
  cases h with
  | @types _ func args ty tree _ ht =>
    obtain rfl := setType_call_eq hn ht
    exact .setNode hn (.call func args ty) .refl
  | @declares _ left right name isConst ty hl hb =>
    have hleads : t.Leads id left := hs.leads hn (by simp [Node.visited])
    exact .setNode hl (.symbol name ty isConst) (.single hleads)
  | binds | untyped | bound | settled | nothing | fails => exact .refl ..

/-- By induction on the levels. A visit that goes through ends above the bottom, so nothing below
the node leads back to it. -/
theorem visitTo_writesOnce {depth : Nat} (hs : t.SameShape s.tree)
    (h : Ends (visitTo registry depth id) s done s') :
    WritesOnce t [id] s.tree s'.tree ∧ (done = true → t.Descends depth id) := by
  induction depth generalizing id s done s' with
  | zero =>
    obtain ⟨rfl, rfl⟩ := h
    exact ⟨.refl .., nofun⟩
  | succ depth ih =>
    have hv : ∀ c s done s', t.SameShape s.tree → Ends (visitTo registry depth c) s done s' →
        WritesOnce t [c] s.tree s'.tree ∧ (done = true → t.Descends depth c) :=
      fun c s done s' hs h => ih hs h
    have up : ∀ {node}, s.tree.get? id = some node → ∀ c ∈ node.visited,
        ∃ p ∈ [id], Relation.ReflTransGen t.Leads p c :=
      fun hn c hc => ⟨id, List.mem_singleton_self id, .single (hs.leads hn hc)⟩
    have down : ∀ {node}, s.tree.get? id = some node →
        (∀ c ∈ node.visited, t.Descends depth c) → t.Descends (depth + 1) id :=
      fun hn hdowns c hc => hdowns c (hs.visited_of_leads hn hc)
    cases ends_visitTo.mp h with
    | unknown => exact ⟨.refl .., nofun⟩
    | @function returnType name params defn isStatic isInline _ s₁ hn he =>
      have hvisited : (Node.function returnType name params defn isStatic isInline).visited =
          params ++ defn.toList := Node.children_function ..
      rw [← hvisited] at he
      obtain ⟨hin, hdowns⟩ := he.writesOnce hs hv
      exact ⟨hin.below (up hn), fun hd => down hn (hdowns hd)⟩
    | @stop node _ hn _ he =>
      exact ⟨(he.writesOnce hs hv).1.below (up hn), nofun⟩
    | @close node s₁ _ _ hn _ he hclose =>
      obtain ⟨hin, hdowns⟩ := he.writesOnce hs hv
      have hdown := down hn (hdowns rfl)
      have hkept : s₁.tree.get? id = some node := by
        rcases hin.node id with hsame | ⟨c, hc, hback, -⟩
        · exact hsame.trans hn
        · exact absurd (Relation.TransGen.head' (hs.leads hn hc) hback) hdown.no_return
      have hout := (closes_of_ends hclose).writesOnce (hs.trans hin.sameShape) hkept
      exact ⟨(hin.below (up hn)).trans hout, fun _ => hdown⟩

theorem fill_writesOnce {root : NodeId} (h : Ends (fill registry root) s done s') :
    WritesOnce s.tree [root] s.tree s'.tree :=
  (visitTo_writesOnce (.refl _) h).1

end Filling
end Arbor
