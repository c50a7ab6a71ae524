import Arbor.Proofs.Search
import Arbor.Proofs.Slots

/-!
Terms: what stands below an id, with the ids taken out.

A term stands at an id of the arena and takes up certain ids, its footprint. Where the footprint
repeats no id, the term is read from those entries alone: any other tree that has the same nodes
and links there has the same term there, whatever an edit did elsewhere.
-/
namespace Arbor
namespace Node

/-- The node with no ids in it: what is written at it, and how many children each slot has. -/
def form (n : Node) : Node := n.mapChildren fun _ => 0

theorem children_mapChildren (f : NodeId → NodeId) (n : Node) :
    (n.mapChildren f).children = n.children.map f := by
  cases n <;> simp [mapChildren, withSlots, children, slots, Slot.map, Slot.ids, Option.toList_map]

theorem form_mapChildren (f : NodeId → NodeId) (n : Node) : (n.mapChildren f).form = n.form := by
  cases n <;> simp [form, mapChildren, withSlots, slots, Slot.map, Function.comp_def]

theorem eq_binary_of_form {n : Node} {l r : NodeId} {op : Operator} (h : n.form = .binary l op r) :
    ∃ left right, n = .binary left op right := by
  cases n with
  | binary left op' right =>
    cases h
    exact ⟨left, right, rfl⟩
  | _ => cases h

theorem form_withSlots (n : Node) (ss : List Slot)
    (h : List.Forall₂ (fun s s' => Slot.map (fun _ => 0) s = Slot.map (fun _ => 0) s')
      n.contents ss) : (n.withSlots ss).form = n.form := by
  cases n <;> simp only [contents, slots, List.map_cons, List.map_nil, List.forall₂_cons_left_iff,
    List.forall₂_nil_left_iff] at h
  case project | file | ret | block | unary | cast | custom =>
    obtain ⟨s, _, hs, rfl, rfl⟩ := h
    cases s <;> simp_all [Slot.map, form, mapChildren, withSlots, slots]
  case whileLoop | doWhile | function | binary | augAssign | call =>
    obtain ⟨s, _, hs, ⟨u, _, hu, rfl, rfl⟩, rfl⟩ := h
    cases s <;> cases u <;> simp_all [Slot.map, form, mapChildren, withSlots, slots]
  case branch | ternary | arrayDef =>
    obtain ⟨s, _, hs, ⟨u, _, hu, ⟨v, _, hv, rfl, rfl⟩, rfl⟩, rfl⟩ := h
    cases s <;> cases u <;> cases v <;> simp_all [Slot.map, form, mapChildren, withSlots, slots]
  case forLoop =>
    obtain ⟨s, _, hs, ⟨u, _, hu, ⟨v, _, hv, ⟨w, _, hw, rfl, rfl⟩, rfl⟩, rfl⟩, rfl⟩ := h
    cases s <;> cases u <;> cases v <;> cases w <;>
      simp_all [Slot.map, form, mapChildren, withSlots, slots]
  all_goals
    subst h
    rfl

theorem form_setSlot {n : Node} {place : Nat} {old new : Slot}
    (h : n.contents[place]? = some old)
    (hs : Slot.map (fun _ => 0) old = Slot.map (fun _ => 0) new) :
    (n.setSlot place new).form = n.form :=
  form_withSlots n _ (forall₂_set (fun _ => rfl) h hs)

end Node

inductive Term where
  | mk (node : Node) (children : List Term)

theorem Term.induct {P : Term → Prop} (h : ∀ node es, (∀ e ∈ es, P e) → P (.mk node es)) : ∀ e, P e
  | .mk node es => h node es (all es)
where
  all : ∀ es : List Term, ∀ e ∈ es, P e
    | [] => nofun
    | e :: es => List.forall_mem_cons.mpr ⟨induct h e, all es⟩

inductive Term.Part (whole : Term) : Term → Prop where
  | itself : Part whole whole
  | child {node : Node} {es : List Term} {e : Term} : Part whole (.mk node es) → e ∈ es → Part whole e

namespace Tree

/-- The term at an id, if all that is below it resolves on fewer than `depth` levels. -/
def termTo (t : Tree) : (depth : Nat) → NodeId → Option Term
  | 0, _ => none
  | depth + 1, id => do
    let node ← t.get? id
    let children ← node.children.mapM (t.termTo depth)
    return .mk node.form children

def term? (t : Tree) (id : NodeId) : Option Term := t.termTo (t.size + 1) id

/-- Terms stand at the ids of a list, one after the other, and so do their footprints. -/
inductive Abreast (stands : NodeId → Term → List NodeId → Prop) :
    List NodeId → List Term → List NodeId → Prop where
  | nil : Abreast stands [] [] []
  | cons {c e ids cs es rest} : stands c e ids → Abreast stands cs es rest →
      Abreast stands (c :: cs) (e :: es) (ids ++ rest)

/-- The term `e` stands at `id`, held by `holder`, on the ids `ids` in pre-order. -/
def Stands (t : Tree) : (depth : Nat) → NodeId → Option NodeId → Term → List NodeId → Prop
  | 0, _, _, _, _ => False
  | depth + 1, id, holder, e, ids => ∃ node es below, t.get? id = some node ∧
      t.parent? id = holder ∧
      Abreast (fun c => t.Stands depth c (some id)) node.children es below ∧
      e = .mk node.form es ∧ ids = id :: below

namespace Abreast

variable {R R' : NodeId → Term → List NodeId → Prop} {cs : List NodeId} {es : List Term}
  {below : List NodeId}

theorem imp (h : Abreast R cs es below)
    (himp : ∀ c e ids, c ∈ cs → ids.Sublist below → R c e ids → R' c e ids) :
    Abreast R' cs es below := by
  induction h with
  | nil => exact .nil
  | @cons c e ids cs es rest hc _ ih =>
    refine .cons (himp c e ids (by simp) (List.sublist_append_left ids rest) hc) (ih ?_)
    intro c' e' ids' hm hsub
    exact himp c' e' ids' (List.mem_cons_of_mem c hm)
      (hsub.trans (List.sublist_append_right ids rest))

theorem forall₂ {S : NodeId → Term → Prop} (h : Abreast R cs es below)
    (himp : ∀ c e ids, c ∈ cs → R c e ids → S c e) : List.Forall₂ S cs es := by
  induction h with
  | nil => exact .nil
  | @cons c e ids cs es rest hc _ ih =>
    refine .cons (himp c e ids List.mem_cons_self hc) (ih ?_)
    exact fun c' e' ids' hm => himp c' e' ids' (List.mem_cons_of_mem c hm)

theorem pair {left right : NodeId} (h : Abreast R [left, right] es below) :
    ∃ l r idl idr, es = [l, r] ∧ R left l idl ∧ R right r idr := by
  cases h with
  | cons hl h =>
    cases h with
    | cons hr h =>
      cases h
      exact ⟨_, _, _, _, rfl, hl, hr⟩

theorem of_mem (h : Abreast R cs es below) {c : NodeId} (hc : c ∈ cs) :
    ∃ e ids, e ∈ es ∧ ids.Sublist below ∧ R c e ids := by
  induction h with
  | nil => cases hc
  | @cons c' e ids cs es rest hr _ ih =>
    rcases List.mem_cons.mp hc with rfl | hc
    · exact ⟨e, ids, by simp, List.sublist_append_left ids rest, hr⟩
    · obtain ⟨e', ids', he, hsub, hr'⟩ := ih hc
      exact ⟨e', ids', List.mem_cons_of_mem e he,
        hsub.trans (List.sublist_append_right ids rest), hr'⟩

theorem owner (h : Abreast R cs es below) {y : NodeId} (hy : y ∈ below) :
    ∃ c e ids, c ∈ cs ∧ y ∈ ids ∧ R c e ids := by
  induction h with
  | nil => cases hy
  | @cons c e ids cs es rest hr _ ih =>
    rcases List.mem_append.mp hy with hy | hy
    · exact ⟨c, e, ids, by simp, hy, hr⟩
    · obtain ⟨c', e', ids', hc, hy', hr'⟩ := ih hy
      exact ⟨c', e', ids', List.mem_cons_of_mem c hc, hy', hr'⟩

theorem forall_iff {P : Term → Prop} {Q : NodeId → Prop} (h : Abreast R cs es below)
    (hpq : ∀ c e ids, c ∈ cs → R c e ids → (P e ↔ Q c)) : (∀ e ∈ es, P e) ↔ ∀ c ∈ cs, Q c := by
  induction h with
  | nil => simp
  | cons hr _ ih =>
    rw [List.forall_mem_cons, List.forall_mem_cons, hpq _ _ _ (by simp) hr,
      ih fun c e ids hc => hpq c e ids (List.mem_cons_of_mem _ hc)]

theorem take (h : Abreast R cs es below) (k : Nat) :
    ∃ below', Abreast R (cs.take k) (es.take k) below' := by
  induction h generalizing k with
  | nil => exact ⟨[], by simpa using .nil⟩
  | cons hr _ ih =>
    cases k with
    | zero => exact ⟨[], .nil⟩
    | succ k =>
      obtain ⟨below', hrest⟩ := ih k
      exact ⟨_, .cons hr hrest⟩

theorem append {cs' below' : List NodeId} {es' : List Term} (h : Abreast R cs es below)
    (h' : Abreast R cs' es' below') : Abreast R (cs ++ cs') (es ++ es') (below ++ below') := by
  induction h with
  | nil => exact h'
  | cons hr _ ih =>
    rw [List.append_assoc]
    exact .cons hr ih

theorem around {front back : List NodeId} {c : NodeId} (h : Abreast R (front ++ c :: back) es below) :
    ∃ es₁ e es₂ below₁ ids below₂, es = es₁ ++ e :: es₂ ∧ below = below₁ ++ (ids ++ below₂) ∧
      Abreast R front es₁ below₁ ∧ R c e ids ∧ Abreast R back es₂ below₂ := by
  induction front generalizing es below with
  | nil =>
    cases h with
    | cons hr hrest => exact ⟨[], _, _, [], _, _, rfl, rfl, .nil, hr, hrest⟩
  | cons first front ih =>
    cases h with
    | cons hr hrest =>
      obtain ⟨es₁, e, es₂, below₁, ids, below₂, rfl, rfl, hfront, hc, hback⟩ := ih hrest
      exact ⟨_ :: es₁, e, es₂, _ ++ below₁, ids, below₂, rfl, by simp, .cons hr hfront, hc, hback⟩

theorem zip {R₁ : NodeId → Term → List NodeId → Prop} {cs₁ below₁ : List NodeId}
    (h : Abreast R cs es below) (h₁ : Abreast R₁ cs₁ es below₁)
    (hzip : ∀ c c₁ e ids ids₁, R c e ids → R₁ c₁ e ids₁ → R' c e ids) :
    Abreast R' cs es below := by
  induction h generalizing cs₁ below₁ with
  | nil => exact .nil
  | cons hr _ ih =>
    cases h₁ with
    | cons hr₁ hrest₁ => exact .cons (hzip _ _ _ _ _ hr hr₁) (ih hrest₁)

end Abreast

namespace Stands

variable {t : Tree} {depth : Nat} {id : NodeId} {holder : Option NodeId} {e : Term}
  {ids : List NodeId}

theorem top (h : t.Stands depth id holder e ids) : ∃ n node es below, t.get? id = some node ∧
    t.parent? id = holder ∧ Abreast (fun c => t.Stands n c (some id)) node.children es below ∧
    e = .mk node.form es ∧ ids = id :: below := by
  cases depth with
  | zero => exact h.elim
  | succ depth => exact ⟨depth, h⟩

theorem parent (h : t.Stands depth id holder e ids) : t.parent? id = holder := by
  obtain ⟨_, _, _, _, -, hp, -⟩ := h.top
  exact hp

theorem mem (h : t.Stands depth id holder e ids) : id ∈ ids := by
  obtain ⟨_, _, _, _, -, -, -, -, rfl⟩ := h.top
  exact List.mem_cons_self

theorem lt_size (h : t.Stands depth id holder e ids) : ∀ y ∈ ids, y < t.size := by
  induction depth generalizing id holder e ids with
  | zero => exact h.elim
  | succ depth ih =>
    obtain ⟨node, es, below, hn, -, hb, -, rfl⟩ := h
    refine List.forall_mem_cons.mpr ⟨lt_size_of_get? hn, fun y hy => ?_⟩
    obtain ⟨c, e', ids', -, hy', hc⟩ := hb.owner hy
    exact ih hc y hy'

theorem within (h : t.Stands depth id holder e ids) : t.Within depth id := by
  induction depth generalizing id holder e ids with
  | zero => exact h.elim
  | succ depth ih =>
    obtain ⟨node, es, below, hn, -, hb, -, -⟩ := h
    refine ⟨node, hn, fun c hc => ?_⟩
    obtain ⟨_, _, -, -, hstands⟩ := hb.of_mem hc
    exact ih hstands

theorem succ (h : t.Stands depth id holder e ids) : t.Stands (depth + 1) id holder e ids := by
  induction depth generalizing id holder e ids with
  | zero => exact h.elim
  | succ depth ih =>
    obtain ⟨node, es, below, hn, hp, hb, he, hids⟩ := h
    exact ⟨node, es, below, hn, hp, hb.imp fun _ _ _ _ _ hc => ih hc, he, hids⟩

theorem mono {n : Nat} (h : t.Stands depth id holder e ids) (hle : depth ≤ n) :
    t.Stands n id holder e ids := by
  induction n, hle using Nat.le_induction with
  | base => exact h
  | succ n _ ih => exact ih.succ

theorem of_within {n : Nat} (h : t.Stands depth id holder e ids) (hw : t.Within n id) :
    t.Stands n id holder e ids := by
  induction n generalizing depth id holder e ids with
  | zero => exact hw.elim
  | succ n ih =>
    cases depth with
    | zero => exact h.elim
    | succ depth =>
      obtain ⟨node, es, below, hn, hp, hb, he, hids⟩ := h
      obtain ⟨_, hn', hc⟩ := hw
      cases hn.symm.trans hn'
      exact ⟨node, es, below, hn, hp, hb.imp fun c _ _ hm _ hs => ih hs (hc c hm), he, hids⟩

/-- A part of the term stands at every id that is reached, on a part of the footprint. -/
theorem of_reach {x : NodeId} (h : t.Stands depth id holder e ids) (hx : t.Reach id x) :
    ∃ n p e' ids', t.Stands n x p e' ids' ∧ ids'.Sublist ids ∧ e.Part e' := by
  induction hx with
  | refl => exact ⟨depth, holder, e, ids, h, .refl ids, .itself⟩
  | @tail y c _ hc ih =>
    obtain ⟨n, p, e', ids', hs, hsub, hpart⟩ := ih
    obtain ⟨n, node, es, below, hn, -, hb, rfl, rfl⟩ := hs.top
    rw [Child, childrenOf_eq hn] at hc
    obtain ⟨e', ids', hmem, hsub', hs'⟩ := hb.of_mem hc
    exact ⟨n, some y, e', ids', hs', (hsub'.trans (List.sublist_cons_self y below)).trans hsub,
      hpart.child hmem⟩

/-- How deep a term is does not depend on where it stands. -/
theorem as_deep {t₁ : Tree} {n : Nat} {id₁ : NodeId} {holder₁ : Option NodeId}
    {ids₁ : List NodeId} (h : t.Stands n id holder e ids)
    (h₁ : t₁.Stands depth id₁ holder₁ e ids₁) : t.Stands depth id holder e ids := by
  induction depth generalizing n id holder e ids id₁ holder₁ ids₁ with
  | zero => exact h₁.elim
  | succ depth ih =>
    cases n with
    | zero => exact h.elim
    | succ n =>
      obtain ⟨node, es, below, hn, hp, hb, rfl, hids⟩ := h
      obtain ⟨_, _, _, -, -, hb₁, he, -⟩ := h₁
      obtain ⟨-, rfl⟩ := Term.mk.inj he
      exact ⟨node, es, below, hn, hp, hb.zip hb₁ fun _ _ _ _ _ hs hs₁ => ih hs hs₁, rfl, hids⟩

/-- The term is read from its footprint, and only the link of its topmost id may change. -/
theorem transfer {t' : Tree} {holder' : Option NodeId} (h : t.Stands depth id holder e ids)
    (hn : ids.Nodup) (hget : ∀ y ∈ ids, t'.get? y = t.get? y)
    (hparent : ∀ y ∈ ids, y ≠ id → t'.parent? y = t.parent? y)
    (htop : t'.parent? id = holder') : t'.Stands depth id holder' e ids := by
  induction depth generalizing id holder holder' e ids with
  | zero => exact h.elim
  | succ depth ih =>
    obtain ⟨node, es, below, hnode, -, hb, he, rfl⟩ := h
    obtain ⟨hfresh, hbelow⟩ := List.nodup_cons.mp hn
    obtain ⟨hid, hget⟩ := List.forall_mem_cons.mp hget
    refine ⟨node, es, below, hid.trans hnode, htop, hb.imp ?_, he, rfl⟩
    intro c e' ids' hc hsub hstands
    have apart : ∀ y ∈ ids', y ≠ id := by
      rintro y hy rfl
      exact hfresh (hsub.subset hy)
    have link : ∀ y ∈ ids', t'.parent? y = t.parent? y := fun y hy =>
      hparent y (List.mem_cons_of_mem id (hsub.subset hy)) (apart y hy)
    exact ih hstands (hbelow.sublist hsub) (fun y hy => hget y (hsub.subset hy))
      (fun y hy _ => link y hy) ((link c hstands.mem).trans hstands.parent)

theorem termTo_eq (h : t.Stands depth id holder e ids) : t.termTo depth id = some e := by
  induction depth generalizing id holder e ids with
  | zero => exact h.elim
  | succ depth ih =>
    obtain ⟨node, es, below, hn, -, hb, rfl, -⟩ := h
    have each : ∀ {cs es below}, Abreast (fun c => t.Stands depth c (some id)) cs es below →
        cs.mapM (t.termTo depth) = some es := by
      intro cs es below hb
      induction hb with
      | nil => rfl
      | cons hc _ ihs => simp [List.mapM_cons, ih hc, ihs]
    simp [termTo, hn, each hb]

theorem term?_eq (h : t.Stands depth id holder e ids) : t.term? id = some e :=
  (h.of_within h.within.within_size.succ).termTo_eq

theorem preorderTo_eq (h : t.Stands depth id holder e ids) : t.preorderTo depth id = ids := by
  induction depth generalizing id holder e ids with
  | zero => exact h.elim
  | succ depth ih =>
    obtain ⟨node, es, below, hn, -, hb, -, rfl⟩ := h
    have each : ∀ {cs es below}, Abreast (fun c => t.Stands depth c (some id)) cs es below →
        cs.flatMap (t.preorderTo depth) = below := by
      intro cs es below hb
      induction hb with
      | nil => rfl
      | cons hc _ ihs => rw [List.flatMap_cons, ih hc, ihs]
    simp only [preorderTo, hn, each hb]

theorem walk_eq (h : t.Stands depth id holder e ids) : t.walk id = ids :=
  h.within.walk_eq.trans h.preorderTo_eq

end Stands

namespace Abreast

variable {t t' : Tree} {depth : Nat} {holder holder' : Option NodeId} {cs : List NodeId}
  {es : List Term} {below : List NodeId}

theorem subset (h : Abreast (fun c => t.Stands depth c holder) cs es below) :
    ∀ c ∈ cs, c ∈ below := by
  intro c hc
  obtain ⟨_, _, -, hsub, hstands⟩ := h.of_mem hc
  exact hsub.subset hstands.mem

theorem lt_size (h : Abreast (fun c => t.Stands depth c holder) cs es below) :
    ∀ y ∈ below, y < t.size := by
  intro y hy
  obtain ⟨_, _, _, -, hy, hstands⟩ := h.owner hy
  exact hstands.lt_size y hy

theorem nodup (h : Abreast (fun c => t.Stands depth c holder) cs es below) (hn : below.Nodup) :
    cs.Nodup := by
  induction h with
  | nil => exact List.nodup_nil
  | cons hc hrest ih =>
    obtain ⟨-, hr, hapart⟩ := List.nodup_append.mp hn
    refine List.nodup_cons.mpr ⟨fun hm => ?_, ih hr⟩
    exact hapart _ hc.mem _ (hrest.subset _ hm) rfl

theorem transfer (h : Abreast (fun c => t.Stands depth c holder) cs es below)
    (hn : below.Nodup) (hget : ∀ y ∈ below, t'.get? y = t.get? y)
    (hparent : ∀ y ∈ below, y ∉ cs → t'.parent? y = t.parent? y)
    (htop : ∀ c ∈ cs, t'.parent? c = holder') :
    Abreast (fun c => t'.Stands depth c holder') cs es below := by
  induction h with
  | nil => exact .nil
  | @cons c e ids cs es rest hc hrest ih =>
    obtain ⟨hi, hr, hapart⟩ := List.nodup_append.mp hn
    obtain ⟨htopc, htop⟩ := List.forall_mem_cons.mp htop
    rw [List.forall_mem_append] at hget hparent
    refine .cons (hc.transfer hi hget.1 (fun y hy hne => hparent.1 y hy ?_) htopc)
      (ih hr hget.2 (fun y hy hne => hparent.2 y hy ?_) htop)
    · rw [List.mem_cons]
      rintro (rfl | hm)
      · exact hne rfl
      · exact hapart y hy y (hrest.subset y hm) rfl
    · rw [List.mem_cons]
      rintro (rfl | hm)
      · exact hapart y hc.mem y hy rfl
      · exact hne hm

end Abreast

/-- Where every id is reached along one path, a term stands at every id, and its footprint
repeats none. -/
theorem WellLinked.stands {t : Tree} {root id : NodeId} {depth : Nat} (h : t.WellLinked root)
    (hi : t.Reach root id) (hw : t.Within depth id) :
    ∃ e, t.Stands depth id (t.parent? id) e (t.preorderTo depth id) := by
  induction depth generalizing id with
  | zero => exact hw.elim
  | succ depth ih =>
    obtain ⟨node, hn, hc⟩ := hw
    have each : ∀ cs : List NodeId, (∀ c ∈ cs, c ∈ node.children) →
        ∃ es, Abreast (fun c => t.Stands depth c (some id)) cs es
          (cs.flatMap (t.preorderTo depth)) := by
      intro cs hsub
      induction cs with
      | nil => exact ⟨[], .nil⟩
      | cons c cs ihs =>
        obtain ⟨hm, hsub⟩ := List.forall_mem_cons.mp hsub
        obtain ⟨hreach, hparent⟩ := h.node_of_reach hi hn hm
        obtain ⟨e, he⟩ := ih hreach (hc c hm)
        obtain ⟨es, hes⟩ := ihs hsub
        rw [hparent] at he
        exact ⟨e :: es, .cons he hes⟩
    obtain ⟨es, hes⟩ := each node.children fun _ hm => hm
    exact ⟨.mk node.form es, node, es, _, hn, rfl, hes, rfl, by simp only [preorderTo, hn]⟩

theorem WellLinked.preorderTo_nodup {t : Tree} {root id : NodeId} {depth : Nat}
    (h : t.WellLinked root) (hi : t.Reach root id) (hw : t.Within depth id) :
    (t.preorderTo depth id).Nodup := by
  induction depth generalizing id with
  | zero => exact hw.elim
  | succ depth ih =>
    have hwhole := hw
    obtain ⟨node, hn, hc⟩ := hw
    simp only [preorderTo, hn, List.nodup_cons, List.mem_flatMap, List.nodup_flatMap, not_exists,
      not_and]
    have child : ∀ c ∈ node.children, t.Child id c := by
      intro c hm
      rw [Child, childrenOf_eq hn]
      exact hm
    refine ⟨fun c hm hx => ?_, fun c hm => ih (hi.tail (child c hm)) (hc c hm), ?_⟩
    · exact hwhole.no_return (.head' (child c hm) ((mem_preorderTo (hc c hm)).mp hx))
    · have hapart := h.children_apart hi
      rw [childrenOf_eq hn] at hapart
      refine hapart.imp_of_mem fun ha hb hab y hy hy' => ?_
      exact hab y ((mem_preorderTo (hc _ ha)).mp hy) ((mem_preorderTo (hc _ hb)).mp hy')

end Tree
end Arbor
