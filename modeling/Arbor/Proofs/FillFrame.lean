import Arbor.Proofs.DeclarationOrder
import Arbor.Proofs.Recompile

/-!
What a fill leaves behind, whether it goes through or breaks off.

In the tree it leaves annotations only. In the scopes it leaves names of the region that no
function encloses: the scope of a function is left on the way out of it, also when an error is on
that way, and nothing but the innermost scope is ever written. To the tree of a fill that went
through, a second one adds no more than types of calls, which are not part of the text.
-/
namespace Arbor

namespace Scopes

/-- The innermost scope keeps its bindings, and its new names are among those of `P`. -/
structure Adds (P : String → Prop) (s s' : Scopes) : Prop where
  kept : ∀ name ty, s.top.get? name = some ty → s'.top.get? name = some ty
  new : ∀ name, s'.top.contains name → s.top.contains name ∨ P name

namespace Adds

variable {P Q : String → Prop} {s s' s'' : Scopes}

theorem refl (P : String → Prop) (s : Scopes) : s.Adds P s := ⟨fun _ _ h => h, fun _ h => Or.inl h⟩

theorem trans (h : s.Adds P s') (k : s'.Adds P s'') : s.Adds P s'' := by
  refine ⟨fun name ty hn => k.kept name ty (h.kept name ty hn), fun name hn => ?_⟩
  rcases k.new name hn with hn | hp
  · exact h.new name hn
  · exact Or.inr hp

theorem mono (h : s.Adds P s') (hpq : ∀ name, P name → Q name) : s.Adds Q s' :=
  ⟨h.kept, fun name hn => (h.new name hn).imp_right (hpq name)⟩

theorem bind {name : String} (ty : CType) (hp : P name) : s.Adds P (s.bind name ty).1 := by
  have set : ∀ table : Table String CType, table.contains name = false →
      (∀ n ty', table.get? n = some ty' → (table.set name ty).get? n = some ty') ∧
      ∀ n, (table.set name ty).contains n → table.contains n ∨ P n := by
    intro table hfree
    constructor
    · intro n ty' hn
      have hne : n ≠ name := by
        rintro rfl
        simp [Table.contains, hn] at hfree
      rw [Table.get?_set_other table ty hne]
      exact hn
    · intro n hn
      rcases (Table.contains_set ..).mp hn with hn | rfl
      · exact Or.inl hn
      · exact Or.inr hp
  unfold Scopes.bind
  split
  · next hi =>
    split
    · exact refl P s
    · next hfree =>
      obtain ⟨hkept, hnew⟩ := set s.outermost (by simpa using hfree)
      constructor <;> simpa only [top, hi, List.headD_nil]
  · next scope rest hi =>
    split
    · exact refl P s
    · next hfree =>
      obtain ⟨hkept, hnew⟩ := set scope (by simpa using hfree)
      constructor <;> simpa only [top, hi, List.headD_cons]

end Adds

variable {P : String → Prop} {s s' : Scopes}

/-- One scope for one scope, each with the bindings that it had. -/
def Preserves (s s' : Scopes) : Prop :=
  List.Forall₂ (fun scope scope' : Table String CType =>
    ∀ name ty, scope.get? name = some ty → scope'.get? name = some ty) s.all s'.all

theorem Grows.preserves (hg : s.Grows s') (ha : s.Adds P s') : s.Preserves s' := by
  obtain ⟨rest, hall, hall'⟩ := hg.all_eq
  rw [Preserves, hall, hall']
  exact .cons ha.kept (List.forall₂_same.mpr fun _ _ _ _ h => h)

theorem Grows.isBound_or (hg : s.Grows s') (ha : s.Adds P s') {name : String}
    (h : s'.isBound name) : s.isBound name ∨ P name := by
  obtain ⟨rest, hall, hall'⟩ := hg.all_eq
  obtain ⟨scope, hm, hc⟩ := isBound_iff.mp h
  rw [hall'] at hm
  rcases List.mem_cons.mp hm with rfl | hm
  · exact (ha.new name hc).imp_left isBound_top
  · exact Or.inl (isBound_iff.mpr ⟨scope, hall ▸ List.mem_cons_of_mem _ hm, hc⟩)

theorem Preserves.lookup? (h : s.Preserves s') (hs : s.inner = []) {name : String} {ty : CType}
    (hn : s.lookup? name = some ty) : s'.lookup? name = some ty := by
  unfold Preserves all at h
  rw [hs, List.nil_append] at h
  unfold Scopes.lookup? all at hn ⊢
  rw [hs] at hn
  cases hall : s'.inner ++ [s'.outermost] with
  | nil => simp at hall
  | cons scope rest =>
    rw [hall] at h
    cases h with
    | cons hkept hrest =>
      cases hrest
      have hn' : s.outermost.get? name = some ty := by simpa using hn
      simp [hkept name ty hn']

end Scopes

namespace Tree

/-- The name of a symbol or of a function that is visited from `root` without entering a
function. -/
def Introduces (t : Tree) (root : NodeId) (name : String) : Prop :=
  ∃ x, t.Locally root x ∧ ((∃ ty isConst, t.get? x = some (.symbol name ty isConst)) ∨
    ∃ returnType params defn isStatic isInline,
      t.get? x = some (.function returnType name params defn isStatic isInline))

variable {t t' : Tree} {id c : NodeId} {node : Node} {name : String}

theorem SameShape.locally_child (h : t.SameShape t') (hn : t'.get? id = some node)
    (hf : node.isFunction = false) (hc : c ∈ node.visited) : t.Locally id c := by
  obtain ⟨known, hk, he⟩ := h.symm.get?_some hn
  refine .single ⟨known, hk, ?_, ?_⟩
  · rw [Node.blind_isFunction.eq he]
    exact hf
  · rw [Node.blind_visited.eq he]
    exact hc

theorem Introduces.up (h : t.Introduces c name) (hc : t.Locally id c) : t.Introduces id name := by
  obtain ⟨x, hx, hkind⟩ := h
  exact ⟨x, hc.trans hx, hkind⟩

theorem SameShape.introduces_symbol (h : t.SameShape t') {ty : Option CType} {isConst : Bool}
    (hn : t'.get? id = some (.symbol name ty isConst)) : t.Introduces id name := by
  refine ⟨id, .refl, Or.inl (h.symm.names ?_)⟩
  simp [Names, hn, Node.symbolName?]

end Tree

namespace Filling

variable {registry : TypeRegistry} {t : Tree} {id root : NodeId} {s s' : Filling} {done : Bool}

theorem Each.grows {visits : Visits} {ids : List NodeId} (h : Each visits ids s done s')
    (hv : ∀ id s done s', visits id s done s' → s.scopes.Grows s'.scopes) :
    s.scopes.Grows s'.scopes :=
  h.related (fun s => .refl s.scopes) (fun _ _ _ => .trans) hv

theorem visitTo_grows {depth : Nat} (h : Ends (visitTo registry depth id) s done s') :
    s.scopes.Grows s'.scopes := by
  induction depth generalizing id s done s' with
  | zero =>
    obtain ⟨-, rfl⟩ := h
    exact .refl _
  | succ depth ih =>
    cases ends_visitTo.mp h with
    | unknown => exact .refl _
    | function _ he =>
      have hin := he.grows fun _ _ _ _ => ih
      change s.scopes.Grows (Scopes.pop _)
      rw [hin.pop_eq]
      exact .bind ..
    | stop _ _ he => exact he.grows fun _ _ _ _ => ih
    | close _ _ he hclose =>
      exact (he.grows fun _ _ _ _ => ih).trans (closes_of_ends hclose).grows

theorem Each.adds {visits : Visits} {ids : List NodeId} {P : String → Prop}
    (h : Each visits ids s done s') (hs : t.SameShape s.tree)
    (hv : ∀ id ∈ ids, ∀ s done s', t.SameShape s.tree → visits id s done s' →
      t.SameShape s'.tree ∧ s.scopes.Adds P s'.scopes) : s.scopes.Adds P s'.scopes := by
  induction h with
  | nil s => exact .refl ..
  | cons hid _ ih =>
    obtain ⟨hs', hhead⟩ := hv _ (by simp) _ _ _ hs hid
    exact hhead.trans (ih hs' fun c hc => hv c (by simp [hc]))
  | stop hid => exact (hv _ (by simp) _ _ _ hs hid).2

theorem Closes.adds {node : Node} (h : Closes registry id node s done s')
    (hs : t.SameShape s.tree) (hn : s.tree.get? id = some node) :
    s.scopes.Adds (t.Introduces id) s'.scopes := by
  cases h with
  | binds => exact .bind _ (hs.introduces_symbol hn)
  | declares hl _ _ =>
    exact .bind _ ((hs.introduces_symbol hl).up (hs.locally_child hn rfl (by simp [Node.visited])))
  | types | untyped | bound | settled | nothing | fails => exact .refl ..

theorem visitTo_adds {depth : Nat} (hs : t.SameShape s.tree) (hw : t.Within depth id)
    (h : Ends (visitTo registry depth id) s done s') :
    s.scopes.Adds (t.Introduces id) s'.scopes := by
  induction depth generalizing id s done s' with
  | zero => exact hw.elim
  | succ depth ih =>
    have each : ∀ {node done s₁}, s.tree.get? id = some node → node.isFunction = false →
        Each (fun c => Ends (visitTo registry depth c)) node.visited s done s₁ →
        s.scopes.Adds (t.Introduces id) s₁.scopes := by
      intro node done s₁ hn hf he
      refine he.adds hs fun c hc s done s' hs' hv => ?_
      have hadv := visits_advance registry hs hw hn c hc s done s' hs' hv
      refine ⟨hs'.trans hadv.sameShape, (ih hs' ?_ hv).mono fun name hname => ?_⟩
      · exact (hs.child_within hw hn (node.visited_sublist.subset hc)).2
      · exact hname.up (hs.locally_child hn hf hc)
    cases ends_visitTo.mp h with
    | unknown => exact .refl ..
    | function hn he =>
      -- what the function has bound inside is gone with its scope
      have hin := he.grows fun _ _ _ _ => visitTo_grows
      change s.scopes.Adds _ (Scopes.pop _)
      rw [hin.pop_eq]
      exact .bind _ ⟨id, .refl, Or.inr ⟨_, _, _, _, _, hs.symm.get?_function hn⟩⟩
    | stop hn hf he => exact each hn hf he
    | close hn hf he hclose =>
      have hin := he.advances hs (visits_advance registry hs hw hn)
      have hkept := hin.get?_visited hs hw hn
      exact (each hn hf he).trans
        ((closes_of_ends hclose).adds (hs.trans hin.sameShape) hkept)

/-- What is bound in a filler that is new, and after each root it was given: of whatever tree, and
with whatever end. -/
inductive Filler (registry : TypeRegistry) : Scopes → Prop where
  | new : Filler registry .empty
  | used {t root scopes done s} : Filler registry scopes →
      Ends (fill registry root) ⟨t, scopes⟩ done s → Filler registry s.scopes

theorem Filler.inner_eq_nil {scopes : Scopes} (h : Filler registry scopes) : scopes.inner = [] := by
  induction h with
  | new => rfl
  | used _ hends ih =>
    have hdepth := (visitTo_grows hends).depth
    rw [ih, List.length_nil] at hdepth
    exact List.length_eq_zero_iff.mp hdepth

/-- Whether a fill of an accepted root goes through or fails, it adds annotations to calls and to
targets of assignments that had none, and there are as many scopes as before, each with its
bindings. A name that is new is one of the region outside of all functions. Between two fills
there is one scope only, so that no binding is hidden by a later one. -/
theorem fill_adds_annotations_only (hv : s.tree.validate root = .ok ())
    (h : Ends (fill registry root) s done s') :
    s'.tree.size = s.tree.size ∧ (∀ x, s'.tree.parent? x = s.tree.parent? x) ∧
    (∀ x, Annotates s.tree [root] s s' x) ∧
    s'.scopes.depth = s.scopes.depth ∧ s.scopes.Preserves s'.scopes ∧
    (Filler registry s.scopes → ∀ name ty, s.scopes.lookup? name = some ty →
      s'.scopes.lookup? name = some ty) ∧
    ∀ name, s'.scopes.isBound name → ¬ s.scopes.isBound name → s.tree.Introduces root name := by
  have hw := ((Tree.wellFormed_of_validate hv).region.within .refl).succ
  have hadv := visitTo_advances (.refl s.tree) hw h
  have hadds := visitTo_adds (.refl s.tree) hw h
  have hkept := hadv.scopes.preserves hadds
  refine ⟨hadv.size_eq, hadv.parent_eq, hadv.node, ?_, hkept, ?_, ?_⟩
  · rw [Scopes.depth, hadv.scopes.depth, Scopes.depth]
  · exact fun hfiller name ty hn => hkept.lookup? hfiller.inner_eq_nil hn
  · exact fun name hn hfree => (hadv.scopes.isBound_or hadds hn).resolve_left hfree

/-- `long f(int p) { y = 2; z = w; }`. The pass gets as far as the second assignment. -/
def halfway : Tree :=
  ⟨#[⟨.file "u" [1], none⟩, ⟨.function (.scalar .long) "f" [2] (some 3) false false, some 0⟩,
    ⟨.symbol "p" (some (.scalar .int)) false, some 1⟩, ⟨.block [4, 7], some 1⟩,
    ⟨.binary 5 .assign 6, some 3⟩, ⟨.symbol "y" none false, some 4⟩, ⟨.constant (.int 2), some 4⟩,
    ⟨.binary 8 .assign 9, some 3⟩, ⟨.symbol "z" none false, some 7⟩,
    ⟨.symbol "w" none false, some 7⟩], 0⟩

def opening : Tree :=
  ⟨#[⟨.binary 1 .assign 2, none⟩, ⟨.symbol "x" none false, some 0⟩, ⟨.constant (.int 1), some 0⟩], 0⟩

def afterOpening : Scopes := ⟨[], [("x", .scalar .long)]⟩

theorem halfway_adds_annotations_only :
    Filler .builtin afterOpening ∧ halfway.validate 0 = .ok () ∧
    ∃ s, Ends (fill .builtin 0) ⟨halfway, afterOpening⟩ false s ∧
      s.tree.get? 5 = some (.symbol "y" (some (.scalar .long)) false) ∧
      s.tree.size = halfway.size ∧ s.scopes.depth = 1 ∧
      s.scopes.lookup? "x" = some (.scalar .long) ∧
      s.scopes.isBound "f" ∧ halfway.Introduces 0 "f" ∧
      ¬ s.scopes.isBound "p" ∧ ¬ s.scopes.isBound "y" := by
  have hv : halfway.validate 0 = .ok () := by decide +kernel
  have hopening : ∃ s, Ends (fill .builtin 0) (start opening) true s ∧ s.scopes = afterOpening :=
    ⟨_, by exact ⟨rfl, rfl⟩, by rfl⟩
  have hfiller : Filler .builtin afterOpening := by
    obtain ⟨s, hends, hscopes⟩ := hopening
    rw [← hscopes]
    exact .used .new hends
  have hends : ∃ s, Ends (fill .builtin 0) ⟨halfway, afterOpening⟩ false s ∧
      s.tree.get? 5 = some (.symbol "y" (some (.scalar .long)) false) ∧
      s.scopes.isBound "f" ∧ ¬ s.scopes.isBound "p" ∧ ¬ s.scopes.isBound "y" :=
    ⟨_, by exact ⟨rfl, rfl⟩, by rfl, by decide, by decide, by decide⟩
  obtain ⟨s, hends, htyped, hbound, hp, hy⟩ := hends
  obtain ⟨hsize, -, -, hdepth, -, hkept, hnew⟩ := fill_adds_annotations_only hv hends
  exact ⟨hfiller, hv, s, hends, htyped, hsize, hdepth, hkept hfiller "x" _ rfl, hbound,
    hnew "f" hbound (by decide), hp, hy⟩

/-- A fill that went through goes through again on the tree that came out of it. The second time
only calls may get types, so that the tree is written as the same text. -/
theorem filling_twice_is_filling_once (hv : t.validate root = .ok ())
    (h : fill registry root (.start t) = .ok () s) :
    ∃ r, fill registry root (.start s.tree) = .ok () r ∧ s.tree.Recalls r.tree ∧
      ∀ spelling rules, Renderer.render ⟨r.tree, spelling, rules⟩ root =
        Renderer.render ⟨s.tree, spelling, rules⟩ root := by
  have hl := (Tree.wellFormed_of_validate hv).region
  have hreach : ∀ file ∈ [root], t.Reach root file := by
    intro file hm
    rw [List.mem_singleton.mp hm]
    exact .refl
  rw [← Project.fillFiles_singleton] at h
  obtain ⟨-, r, hagain, hrecalls⟩ :=
    Project.fillFiles_again hl hreach (List.pairwise_singleton ..) h
  rw [Project.fillFiles_singleton] at hagain
  refine ⟨r, hagain, hrecalls, fun spelling rules => ?_⟩
  have halike : Renderer.Alike ⟨s.tree, spelling, rules⟩ ⟨r.tree, spelling, rules⟩ :=
    ⟨rfl, rfl, hrecalls⟩
  exact halike.render root

/-- `x = x() ? 1 : 2`. The callee is bound before the call in the second pass only. -/
def ownCallee : Tree :=
  ⟨#[⟨.binary 1 .assign 2, none⟩, ⟨.symbol "x" none false, some 0⟩, ⟨.ternary 3 5 6, some 0⟩,
    ⟨.call 4 [] none, some 2⟩, ⟨.symbol "x" none false, some 3⟩, ⟨.constant (.int 1), some 2⟩,
    ⟨.constant (.int 2), some 2⟩], 0⟩

theorem ownCallee_filled_twice :
    ownCallee.validate 0 = .ok () ∧
    ∃ s r, fill .builtin 0 (.start ownCallee) = .ok () s ∧
      s.tree.get? 1 = some (.symbol "x" (some (.scalar .long)) false) ∧
      s.tree.get? 3 = some (.call 4 [] none) ∧
      fill .builtin 0 (.start s.tree) = .ok () r ∧
      r.tree.get? 3 = some (.call 4 [] (some (.scalar .long))) ∧
      Renderer.render ⟨r.tree, .builtin, .empty⟩ 0 =
        Renderer.render ⟨s.tree, .builtin, .empty⟩ 0 := by
  have hv : ownCallee.validate 0 = .ok () := by decide +kernel
  have hfill : ∃ s, fill .builtin 0 (.start ownCallee) = .ok () s ∧
      s.tree.get? 1 = some (.symbol "x" (some (.scalar .long)) false) ∧
      s.tree.get? 3 = some (.call 4 [] none) ∧
      ∃ r, fill .builtin 0 (.start s.tree) = .ok () r ∧
        r.tree.get? 3 = some (.call 4 [] (some (.scalar .long))) :=
    ⟨_, by rfl, by rfl, by rfl, _, by rfl, by rfl⟩
  obtain ⟨s, hfirst, hsymbol, hcall, r', hsecond, hcall'⟩ := hfill
  obtain ⟨r, hagain, -, htext⟩ := filling_twice_is_filling_once hv hfirst
  cases hsecond.symm.trans hagain
  exact ⟨hv, s, r', hfirst, hsymbol, hcall, hsecond, hcall', htext .builtin .empty⟩

end Filling
end Arbor
