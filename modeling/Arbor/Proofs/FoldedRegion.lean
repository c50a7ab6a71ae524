import Arbor.Proofs.Folding
import Arbor.Proofs.SoundTerm

/-!
Folding keeps trees well formed.

What folding puts in the place of an operation is an expression, and it leaves every other kind of
node as it is, so that a sound term folds to a sound one. Below a root it is one child of one
holder that is exchanged: the terms above it stand as before, but for that child, and the id that
the fold gives back is found in the slot and at the position where the folded id was.
-/
namespace Arbor

namespace Node

theorem withSlots_form (n : Node) : n.form.withSlots n.contents = n := by
  cases n <;> rfl

theorem contents_mapChildren (f : NodeId → NodeId) (n : Node) :
    (n.mapChildren f).contents = n.contents.map (Slot.map f) := by
  cases n <;> rfl

theorem slots_mapChildren (f : NodeId → NodeId) (n : Node) :
    (n.mapChildren f).slots = n.slots.map fun slot => (slot.1, slot.2.map f) := by
  cases n <;> rfl

end Node

theorem Slot.ids_map (f : NodeId → NodeId) (s : Slot) : (s.map f).ids = s.ids.map f := by
  cases s <;> simp [Slot.map, Slot.ids, Option.toList_map]

theorem Slot.eq_of_ids {s s' : Slot} (hs : s.map (fun _ => 0) = s'.map (fun _ => 0))
    (hi : s.ids = s'.ids) : s = s' := by
  cases s <;> cases s' <;> simp_all [Slot.map, Slot.ids]
  rename_i c c'
  cases c <;> cases c' <;> simp_all

theorem Slot.eq_of_flatMap_ids {ss ss' : List Slot}
    (hs : ss.map (Slot.map fun _ => 0) = ss'.map (Slot.map fun _ => 0))
    (hi : ss.flatMap Slot.ids = ss'.flatMap Slot.ids) : ss = ss' := by
  induction ss generalizing ss' with
  | nil => exact (List.map_eq_nil_iff.mp hs.symm).symm
  | cons s ss ih =>
    obtain ⟨s', rest, rfl, hshape, hrest⟩ := List.map_eq_cons_iff.mp hs.symm
    have hlen : s.ids.length = s'.ids.length := by
      have hsame := congrArg (fun slot => (Slot.ids slot).length) hshape
      simpa [Slot.ids_map] using hsame.symm
    obtain ⟨hfirst, hothers⟩ := List.append_inj hi hlen
    rw [Slot.eq_of_ids hshape.symm hfirst, ih hrest.symm hothers]

theorem Node.eq_of_form {n m : Node} (hf : n.form = m.form) (hc : n.children = m.children) :
    n = m := by
  have hcontents : n.contents = m.contents := by
    refine Slot.eq_of_flatMap_ids ?_ ?_
    · rw [← Node.contents_mapChildren, ← Node.contents_mapChildren]
      exact congrArg Node.contents hf
    · rw [← Node.children_eq, ← Node.children_eq]
      exact hc
  rw [← n.withSlots_form, hf, hcontents, m.withSlots_form]

def swapped (old new c : NodeId) : NodeId := if c = old then new else c

theorem Node.Exchanges.eq_mapChildren {n n' : Node} {old new : NodeId} (h : n.Exchanges old new n')
    (hn : n.children.Nodup) : n' = n.mapChildren (swapped old new) := by
  obtain ⟨hform, front, back, hbefore, hafter⟩ := h
  refine Node.eq_of_form (hform.trans (n.form_mapChildren _).symm) ?_
  rw [hbefore] at hn
  obtain ⟨-, hback, hapart⟩ := List.nodup_append.mp hn
  have kept : ∀ cs : List NodeId, old ∉ cs → cs.map (swapped old new) = cs := by
    intro cs hm
    calc cs.map (swapped old new) = cs.map id :=
          List.map_congr_left fun c hc => if_neg fun he : c = old => hm (he ▸ hc)
      _ = cs := List.map_id cs
  rw [Node.children_mapChildren, hbefore, hafter, List.map_append, List.map_cons, kept front, kept back]
  · simp [swapped]
  · exact (List.nodup_cons.mp hback).1
  · exact fun hm => hapart old hm old List.mem_cons_self rfl

namespace Term

theorem accepts_binary {left right : NodeId} {op : Operator} {m m' : Node} :
    (Node.binary left op right).Accepts [m, m'] ↔ op.isBinary ∧ m.isOperand ∧ m'.isOperand := by
  constructor
  · intro h
    exact ⟨h.operator, h.operand m (by simp [Node.operands]), h.operand m' (by simp [Node.operands])⟩
  · rintro ⟨hop, hm, hm'⟩
    have hplace := Node.not_isFile_of_isOperand hm
    have hplace' := Node.not_isFile_of_isOperand hm'
    exact ⟨hop, by simp [Node.operands, hm, hm'], by simp [Node.parameters], by simp [Node.files],
      by simp_all⟩

theorem sound_constant (value : Value) : (constant value).Sound :=
  .mk ⟨trivial, by simp, by simp, by simp, by simp⟩ (by simp)

theorem sound_negated {e : Term} (he : e.Sound) (hh : e.head.isOperand) : (negated e).Sound := by
  have hplace := Node.not_isFile_of_isOperand hh
  refine .mk ⟨rfl, ?_, by simp [Node.parameters], by simp [Node.files], by simp_all⟩ ?_
  · simpa [Node.operands] using hh
  · simpa using he

theorem Sound.combine {l r : Term} {op : Operator} (hop : op.isBinary) (hl : l.Sound)
    (hlh : l.head.isOperand) (hr : r.Sound) (hrh : r.head.isOperand) :
    (l.combine op r).Sound ∧ (l.combine op r).head.isOperand := by
  have hrule := combines l op r
  generalize l.combine op r = e at hrule
  cases hrule with
  | kept =>
    refine ⟨.mk (accepts_binary.mpr ⟨hop, hlh, hrh⟩) ?_, rfl⟩
    simpa using ⟨hl, hr⟩
  | literals => exact ⟨sound_constant _, rfl⟩
  | zeroSub => exact ⟨sound_negated hr hrh, rfl⟩
  | zeroAdd | oneMul | mulZero => exact ⟨hr, hrh⟩
  | addZero | subZero | mulOne | zeroMul => exact ⟨hl, hlh⟩

theorem Sound.folded {e : Term} (h : e.Sound) : e.folded.Sound ∧ e.head.Yields e.folded.head := by
  induction e using Term.induct with
  | h node es ih =>
    cases h with
    | mk haccepts hbelow =>
      have hchild : ∀ e ∈ es, e.folded.Sound ∧ e.head.Yields e.folded.head := fun e he =>
        ih e he (hbelow e he)
      have hrow : List.Forall₂ Node.Yields (es.map head) ((es.map Term.folded).map head) := by
        rw [List.map_map, List.forall₂_map_left_iff, List.forall₂_map_right_iff, List.forall₂_same]
        exact fun e he => (hchild e he).2
      have hnow := haccepts.yields hrow
      by_cases hkind : ∃ left op right l r, node = .binary left op right ∧ es = [l, r]
      · obtain ⟨left, op, right, l, r, rfl, rfl⟩ := hkind
        obtain ⟨hop, hlh, hrh⟩ := accepts_binary.mp hnow
        rw [folded_binary]
        obtain ⟨hsound, hhead⟩ :=
          Sound.combine hop (hchild l (by simp)).1 hlh (hchild r (by simp)).1 hrh
        exact ⟨hsound, Or.inr ⟨⟨left, op, right, rfl⟩, hhead⟩⟩
      · rw [folded_other fun left op right l r he => hkind ⟨left, op, right, l, r, he⟩]
        refine ⟨.mk hnow ?_, .refl node⟩
        rw [List.forall_mem_map]
        exact fun e he => (hchild e he).1

end Term

namespace Tree

theorem Stands.mem_iff {t : Tree} {depth : Nat} {id x : NodeId} {holder : Option NodeId} {e : Term}
    {ids : List NodeId} (h : t.Stands depth id holder e ids) : x ∈ ids ↔ t.Reach id x := by
  rw [← h.preorderTo_eq, mem_preorderTo h.within]

/-- Where the term `old` stood on the ids `ids`, a term as good as it stands now at the id. -/
def Renews (t t' : Tree) (old : Term) (ids : List NodeId) (holder : Option NodeId) (id : NodeId) :
    Prop :=
  ∃ depth new ids', t'.Stands depth id holder new ids' ∧ ids'.Nodup ∧
    (∀ y ∈ ids', y ∈ ids ∨ t.size ≤ y) ∧ (old.Sound → new.Sound ∧ old.head.Yields new.head)

section Regrafting

variable {t t' : Tree} {depth n : Nat} {id c c' : NodeId} {holder edited : Option NodeId}
  {front back below ids ids' touched : List NodeId} {e old new : Term}

/-- One child of a row is exchanged. What is touched lies below it, so that the others stand. -/
theorem Spares.exchange_row {es : List Term} {m : Nat} (hspares : t.Spares t' touched edited)
    (hb : Abreast (fun c => t.Stands depth c (some id)) (front ++ c :: back) es below)
    (hn : below.Nodup) (hc : t.Stands n c (some id) old ids)
    (hout : ∀ y ∈ below, y ∉ ids → y ∉ touched ∧ some y ≠ edited)
    (hs : t'.Stands m c' (some id) new ids') (hn' : ids'.Nodup)
    (hsub : ∀ y ∈ ids', y ∈ ids ∨ t.size ≤ y) :
    ∃ k es₁ es₂ below', es = es₁ ++ old :: es₂ ∧
      Abreast (fun c => t'.Stands k c (some id)) (front ++ c' :: back) (es₁ ++ new :: es₂) below' ∧
      below'.Nodup ∧ ∀ y ∈ below', y ∈ below ∨ t.size ≤ y := by
  have hlt := hb.lt_size
  obtain ⟨es₁, e, es₂, below₁, known, below₂, rfl, rfl, hfront, hstands, hback⟩ := hb.around
  obtain rfl : e = old := Option.some.inj (hstands.term?_eq.symm.trans hc.term?_eq)
  obtain rfl : known = ids := hstands.walk_eq.symm.trans hc.walk_eq
  obtain ⟨hn₁, hrest, hapart₁⟩ := List.nodup_append.mp hn
  obtain ⟨-, hn₂, hapart₂⟩ := List.nodup_append.mp hrest
  have hfront' := hspares.abreast hfront hn₁ fun y hy =>
    hout y (by simp [hy]) fun hm => hapart₁ y hy y (List.mem_append_left _ hm) rfl
  have hback' := hspares.abreast hback hn₂ fun y hy =>
    hout y (by simp [hy]) fun hm => hapart₂ y hm y hy rfl
  have deeper : ∀ {cs es below}, Abreast (fun c => t'.Stands depth c (some id)) cs es below →
      Abreast (fun c => t'.Stands (max depth m) c (some id)) cs es below := fun hrow =>
    hrow.imp fun _ _ _ _ _ h => h.mono (Nat.le_max_left depth m)
  -- an id of the new child is new or was below the old one, so that no other child has it
  have hclear : ∀ y ∈ ids', y ∉ below₁ ∧ y ∉ below₂ := by
    intro y hy
    rcases hsub y hy with hm | hle
    · exact ⟨fun hm' => hapart₁ y hm' y (List.mem_append_left _ hm) rfl,
        fun hm' => hapart₂ y hm y hm' rfl⟩
    · exact ⟨fun hm' => Nat.not_le_of_lt (hlt y (by simp [hm'])) hle,
        fun hm' => Nat.not_le_of_lt (hlt y (by simp [hm'])) hle⟩
  refine ⟨max depth m, es₁, es₂, below₁ ++ (ids' ++ below₂), rfl, ?_, ?_, ?_⟩
  · exact (deeper hfront').append (.cons (hs.mono (Nat.le_max_right depth m)) (deeper hback'))
  · refine List.nodup_append.mpr ⟨hn₁, List.nodup_append.mpr ⟨hn', hn₂, ?_⟩, ?_⟩
    · rintro y hy _ hy' rfl
      exact (hclear y hy).2 hy'
    · rintro y hy _ hy' rfl
      rcases List.mem_append.mp hy' with hm | hm
      · exact (hclear y hm).1 hy
      · exact hapart₁ y hy y (List.mem_append_right _ hm) rfl
  · intro y hy
    rcases List.mem_append.mp hy with hm | hm
    · exact Or.inl (by simp [hm])
    · rcases List.mem_append.mp hm with hm | hm
      · exact (hsub y hm).imp_left fun hm => by simp [hm]
      · exact Or.inl (by simp [hm])

theorem Stands.renews {here here' : Node} (h : t.Stands depth id holder e below)
    (hn : below.Nodup) (hspares : t.Spares t' touched edited) (hhere : t.get? id = some here)
    (hget : t'.get? id = some here') (hexch : here.Exchanges c c' here')
    (hp : t'.parent? id = holder) (hc : t.Stands n c (some id) old ids)
    (hout : ∀ y ∈ below, y ≠ id → y ∉ ids → y ∉ touched ∧ some y ≠ edited)
    (hnew : t.Renews t' old ids (some id) c') : t.Renews t' e below holder id := by
  have hlt : id < t.size := lt_size_of_get? hhere
  obtain ⟨_, _, es, rest, hhere', -, hb, rfl, rfl⟩ := h.top
  cases hhere.symm.trans hhere'
  obtain ⟨hfresh, hrest⟩ := List.nodup_cons.mp hn
  obtain ⟨hform, front, back, hbefore, hafter⟩ := hexch
  obtain ⟨m, new, ids', hs, hn', hsub, hgood⟩ := hnew
  have hapart : ∀ y ∈ rest, y ∉ ids → y ∉ touched ∧ some y ≠ edited := by
    intro y hy
    refine hout y (List.mem_cons_of_mem id hy) ?_
    rintro rfl
    exact hfresh hy
  rw [hbefore] at hb
  obtain ⟨k, es₁, es₂, rest', rfl, hrow, hnodup, hsub'⟩ :=
    hspares.exchange_row hb hrest hc hapart hs hn' hsub
  rw [← hafter] at hrow
  refine ⟨k + 1, .mk here.form (es₁ ++ new :: es₂), id :: rest', ?_, ?_, ?_, fun hall => ?_⟩
  · exact ⟨here', _, rest', hget, hp, hrow, by rw [hform], rfl⟩
  · refine List.nodup_cons.mpr ⟨fun hm => ?_, hnodup⟩
    rcases hsub' id hm with hm | hle
    · exact hfresh hm
    · exact Nat.not_le_of_lt hlt hle
  · refine List.forall_mem_cons.mpr ⟨Or.inl List.mem_cons_self, fun y hy => ?_⟩
    exact (hsub' y hy).imp_left (List.mem_cons_of_mem id)
  · have hold : old.Sound := by
      cases hall with
      | mk _ hbelow => exact hbelow old (by simp)
    obtain ⟨hsound, hyields⟩ := hgood hold
    exact ⟨hall.exchange hyields hsound, .refl _⟩

theorem Stands.regraft {q x s : NodeId} {node node' : Node} (hx : t.Stands n x (some q) old ids)
    (hq : q ∉ ids) (hspares : t.Spares t' ids (some q)) (hnode : t.get? q = some node)
    (hnode' : t'.get? q = some node') (hexch : node.Exchanges x s node')
    (hnew : t.Renews t' old ids (some q) s) (h : t.Stands depth id holder e below)
    (hn : below.Nodup) (hm : q ∈ below) : t.Renews t' e below holder id := by
  induction depth generalizing id holder e below with
  | zero => exact h.elim
  | succ depth ih =>
    have hreach : t.Reach id q := h.mem_iff.mp hm
    have hid : id ∉ ids := fun hm => hq (hx.mem_iff.mpr ((hx.mem_iff.mp hm).trans hreach))
    have hlt : id < t.size := h.lt_size id h.mem
    have hp : t'.parent? id = holder := (hspares.parent id hlt hid).trans h.parent
    by_cases he : id = q
    · subst he
      refine h.renews hn hspares hnode hnode' hexch hp hx (fun y _ hne hout => ⟨hout, ?_⟩) hnew
      exact fun he => hne (Option.some.inj he)
    · have hwhole := h
      obtain ⟨here, es, rest, hhere, -, hb, rfl, rfl⟩ := h
      have hqrest : q ∈ rest := (List.mem_cons.mp hm).resolve_left (Ne.symm he)
      obtain ⟨c, was, known, hc, hmem, hstands⟩ := hb.owner hqrest
      have hknown : known.Nodup := by
        obtain ⟨_, _, -, hsublist, hstands'⟩ := hb.of_mem hc
        rw [← hstands.walk_eq, hstands'.walk_eq]
        exact (List.nodup_cons.mp hn).2.sublist hsublist
      have hget : t'.get? id = some here :=
        (hspares.node id hlt hid fun h => he (Option.some.inj h)).trans hhere
      -- what was below `x` is below the holder of `x`, and so below `c`
      have hdown : ∀ y ∈ ids, y ∈ known := by
        intro y hy
        obtain ⟨-, front, back, hbefore, -⟩ := hexch
        have hchild : t.Child q x := by
          rw [Child, childrenOf_eq hnode, hbefore]
          simp
        exact hstands.mem_iff.mpr
          ((hstands.mem_iff.mp hmem).trans (.head hchild (hx.mem_iff.mp hy)))
      refine hwhole.renews hn hspares hhere hget (.refl hc) hp hstands (fun y _ _ hout => ?_)
        (ih hstands hknown hmem)
      refine ⟨fun hy => hout (hdown y hy), ?_⟩
      rintro ⟨rfl⟩
      exact hout hmem

end Regrafting

section Locating

variable {id parent : NodeId} {f : NodeId → NodeId}

theorem findIdx?_map_eq {cs : List NodeId} (h : ∀ c ∈ cs, f c = f id ↔ c = id) :
    (cs.map f).findIdx? (· == f id) = cs.findIdx? (· == id) := by
  induction cs with
  | nil => rfl
  | cons c cs ih =>
    obtain ⟨hc, hcs⟩ := List.forall_mem_cons.mp h
    have hfirst : (f c == f id) = (c == id) := by
      rw [Bool.eq_iff_iff, beq_iff_eq, beq_iff_eq, hc]
    rw [List.map_cons, List.findIdx?_cons, List.findIdx?_cons, ih hcs, hfirst]

theorem locateIn_map {slots : List (String × Slot)} {place : Nat}
    (hf : ∀ slot ∈ slots, ∀ c ∈ slot.2.ids, f c = f id → c = id) :
    locateIn (f id) parent (slots.map fun slot => (slot.1, slot.2.map f)) place =
      (locateIn id parent slots place).map fun l => { l with slot := l.slot.map f } := by
  induction slots generalizing place with
  | nil => rfl
  | cons entry rest ih =>
    obtain ⟨name, slot⟩ := entry
    obtain ⟨hslot, hrest⟩ := List.forall_mem_cons.mp hf
    have same : ∀ c ∈ slot.ids, f c = f id ↔ c = id := fun c hc =>
      ⟨hslot c hc, fun he => congrArg f he⟩
    cases slot with
    | required c =>
      change locateIn (f id) parent ((name, .required (f c)) :: rest.map _) place = _
      simp only [locateIn, same c (by simp [Slot.ids]), ih hrest]
      split <;> rfl
    | optional c =>
      have hsame : c.map f = some (f id) ↔ c = some id := by
        cases c with
        | none => simp
        | some c => simpa using same c (by simp [Slot.ids])
      change locateIn (f id) parent ((name, .optional (c.map f)) :: rest.map _) place = _
      simp only [locateIn, hsame, ih hrest]
      split <;> rfl
    | list cs =>
      have hsame : (cs.map f).findIdx? (· == f id) = cs.findIdx? (· == id) := findIdx?_map_eq same
      change locateIn (f id) parent ((name, .list (cs.map f)) :: rest.map _) place = _
      simp only [locateIn, hsame, ih hrest]
      split <;> rfl

theorem locate_exchanged {t t' : Tree} {q x s : NodeId} {node node' : Node}
    (hx : ∃ n, t.get? x = some n) (hp : t.parent? x = some q) (hq : t.get? q = some node)
    (hs : ∃ n, t'.get? s = some n) (hp' : t'.parent? s = some q) (hq' : t'.get? q = some node')
    (hexch : node.Exchanges x s node') (hn : node.children.Nodup) (hn' : node'.children.Nodup) :
    ∃ l, t.locate x = .ok l ∧
      t'.locate s = .ok { l with slot := l.slot.map (swapped x s) } := by
  obtain ⟨front, back, hbefore, hafter⟩ := hexch.children
  obtain ⟨xnode, hx⟩ := hx
  obtain ⟨snode, hs⟩ := hs
  obtain ⟨l, hl⟩ := exists_locate hx hp hq (by simp [hbefore])
  have apart : ∀ slot ∈ node.slots, ∀ c ∈ slot.2.ids, swapped x s c = swapped x s x → c = x := by
    intro slot hslot c hc he
    by_contra hne
    have hm : c ∈ node.children := List.mem_flatMap.mpr ⟨slot, hslot, hc⟩
    -- another child of that id would stand beside it after the exchange, too
    rw [swapped, if_neg hne, swapped, if_pos rfl] at he
    subst he
    rw [hafter] at hn'
    rw [hbefore] at hm
    obtain ⟨-, hback, hapart⟩ := List.nodup_append.mp hn'
    rcases List.mem_append.mp hm with hm | hm
    · exact hapart c hm c List.mem_cons_self rfl
    · exact (List.nodup_cons.mp hback).1 ((List.mem_cons.mp hm).resolve_left hne)
  have hfound : locateIn x q node.slots 0 = some l := by
    obtain ⟨_, -, hl⟩ := bind_eq_ok.mp hl
    rw [hp] at hl
    obtain ⟨_, hh, hl⟩ := bind_eq_ok.mp hl
    cases hq.symm.trans (node_eq_ok.mp hh)
    split at hl
    · next hin =>
      cases hl
      exact hin
    · cases hl
  refine ⟨l, hl, bind_eq_ok.mpr ⟨snode, node_eq_ok.mpr hs, ?_⟩⟩
  rw [hp']
  refine bind_eq_ok.mpr ⟨node', node_eq_ok.mpr hq', ?_⟩
  have hmoved : locateIn (swapped x s x) q _ 0 = (locateIn x q node.slots 0).map _ :=
    locateIn_map apart
  rw [hfound, swapped, if_pos rfl, ← Node.slots_mapChildren, ← hexch.eq_mapChildren hn] at hmoved
  rw [hmoved]
  rfl

end Locating

section Folding

variable {t : Tree} {root id : NodeId}

theorem WellFormed.fold_renews (hw : t.WellFormed root) (hp : t.parent? root = none)
    (hi : t.Reach root id) : ∃ r t' e, Fold.fold id t = .ok r t' ∧
      t.Stands t.size id (t.parent? id) e (t.walk id) ∧
      t.Renews t' e (t.walk id) (t.parent? id) r ∧ t.Spares t' (t.walk id) (t.parent? id) ∧
      ∀ q node, t.parent? id = some q → t.get? q = some node →
        ∃ node', t'.get? q = some node' ∧ node.Exchanges id r node' := by
  obtain ⟨e, he, r, t', ids, hrun, hs, hn, hsub, hspares, hexch⟩ := Fold.fold_settles hw.region hp hi
  exact ⟨r, t', e, hrun, he, ⟨t.size + 1, e.folded, ids, hs, hn, hsub, Term.Sound.folded⟩, hspares,
    hexch⟩

theorem WellFormed.fold_child {q : NodeId} (hw : t.WellFormed root) (hp : t.parent? root = none)
    (hq : t.Reach root q) (hchild : t.Child q id) : ∃ r t' node node', Fold.fold id t = .ok r t' ∧
      (∀ a, t.Reach root a → t.Reach a q → t'.WellFormed a) ∧
      (∃ n, t'.get? r = some n) ∧ t'.parent? r = some q ∧
      t.get? q = some node ∧ t'.get? q = some node' ∧ node.Exchanges id r node' := by
  obtain ⟨node, hnode⟩ := hw.region.resolves q hq
  have hlink := hw.region.linked q id hq hchild
  obtain ⟨r, t', e, hrun, he, hnew, hspares, hexch⟩ := hw.fold_renews hp (hq.tail hchild)
  obtain ⟨node', hnode', hexch⟩ := hexch q node hlink hnode
  rw [hlink] at he hnew hspares
  have hbelow : q ∉ t.walk id := fun hm => hw.region.acyclic hq (.head' hchild (he.mem_iff.mp hm))
  refine ⟨r, t', node, node', hrun, fun a ha haq => ?_, ?_, ?_, hnode, hnode', hexch⟩
  · -- the term at `a` is renewed with the one below it
    have hwithin := hw.region.within ha
    obtain ⟨whole, hwhole⟩ := hw.region.stands ha hwithin
    obtain ⟨depth, new, ids, hs, hn, -, hsound⟩ :=
      he.regraft hbelow hspares hnode hnode' hexch hnew hwhole
        (hw.region.preorderTo_nodup ha hwithin) (hwhole.mem_iff.mpr haq)
    exact hs.wellFormed hn (hsound (hw.sound ha hwhole)).1
  · obtain ⟨depth, new, ids, hs, -⟩ := hnew
    exact hs.within.resolves
  · obtain ⟨depth, new, ids, hs, -⟩ := hnew
    exact hs.parent

/-- Folding an accepted root that nobody holds gives one. Folding below it leaves it accepted, with
the id that is given back in the very place of the folded one. -/
theorem fold_keeps_valid (hv : t.validate root = .ok ()) (hp : t.parent? root = none) :
    (∃ r t', Fold.fold root t = .ok r t' ∧ t'.parent? r = none ∧ t'.validate r = .ok ()) ∧
    ∀ id, t.Reach root id → id ≠ root → ∃ r t' l, Fold.fold id t = .ok r t' ∧
      t'.validate root = .ok () ∧ t.locate id = .ok l ∧
      t'.locate r = .ok { l with slot := l.slot.map (swapped id r) } := by
  have hw := wellFormed_of_validate hv
  refine ⟨?_, fun id hi hne => ?_⟩
  · obtain ⟨r, t', e, hrun, he, ⟨depth, new, ids, hs, hn, -, hsound⟩, -, -⟩ :=
      hw.fold_renews hp .refl
    refine ⟨r, t', hrun, hs.parent.trans hp, ?_⟩
    exact (hs.wellFormed hn (hsound (hw.sound .refl he)).1).validate_ok
  · obtain ⟨q, hq, hchild⟩ := (Relation.ReflTransGen.cases_tail hi).resolve_left hne
    obtain ⟨r, t', node, node', hrun, hwell, hr, hlink, hnode, hnode', hexch⟩ :=
      hw.fold_child hp hq hchild
    have hn := hw.region.children_nodup hq
    have hn' := (hwell q hq .refl).region.children_nodup .refl
    rw [childrenOf_eq hnode] at hn
    rw [childrenOf_eq hnode'] at hn'
    obtain ⟨l, hl, hl'⟩ := locate_exchanged (hw.region.resolves id hi)
      (hw.region.linked q id hq hchild) hnode hr hlink hnode' hexch hn hn'
    exact ⟨r, t', l, hrun, (hwell root .refl hq).validate_ok, hl, hl'⟩

end Folding

/-- `f(a, 0 - x) * 1`. -/
def scaledCall : Tree :=
  .ofNodes [.binary 1 .mul 2, .call 3 [4, 5] none, .constant (.int 1), .symbol "f" none false,
    .symbol "a" none false, .binary 6 .sub 7, .constant (.int 0), .symbol "x" none false] 0

/-- The call is copied, with the negation that its argument has become. -/
def scaledCallFolded : Tree :=
  ⟨#[⟨.binary 1 .mul 2, none⟩, ⟨.call 3 [4, 8] none, some 0⟩, ⟨.constant (.int 1), some 0⟩,
    ⟨.symbol "f" none false, some 1⟩, ⟨.symbol "a" none false, some 1⟩, ⟨.binary 6 .sub 7, none⟩,
    ⟨.constant (.int 0), some 5⟩, ⟨.symbol "x" none false, some 8⟩, ⟨.unary .neg 7, some 1⟩,
    ⟨.symbol "f" none false, some 13⟩, ⟨.symbol "a" none false, some 13⟩,
    ⟨.symbol "x" none false, some 12⟩, ⟨.unary .neg 11, some 13⟩, ⟨.call 9 [10, 12] none, none⟩], 0⟩

def scaledCallArgumentFolded : Tree :=
  ⟨scaledCallFolded.entries.take 9, 0⟩

theorem scaledCall_kept_valid :
    scaledCall.validate 0 = .ok () ∧ scaledCall.parent? 0 = none ∧ scaledCall.Reach 0 5 ∧
    Fold.fold 0 scaledCall = .ok 13 scaledCallFolded ∧ scaledCallFolded.validate 13 = .ok () ∧
    Fold.fold 5 scaledCall = .ok 8 scaledCallArgumentFolded ∧
    scaledCallArgumentFolded.validate 0 = .ok () ∧
    scaledCall.locate 5 = .ok ⟨1, 1, .list [4, 5], some 1⟩ ∧
    scaledCallArgumentFolded.locate 8 = .ok ⟨1, 1, .list [4, 8], some 1⟩ := by
  have hv : scaledCall.validate 0 = .ok () := by decide +kernel
  have hp : scaledCall.parent? 0 = none := by decide +kernel
  have hreach : scaledCall.Reach 0 5 :=
    .head (show 1 ∈ scaledCall.childrenOf 0 by decide +kernel) (.single (by decide +kernel))
  have hroot : Fold.fold 0 scaledCall = .ok 13 scaledCallFolded := by with_unfolding_all rfl
  have hbelow : Fold.fold 5 scaledCall = .ok 8 scaledCallArgumentFolded := by with_unfolding_all rfl
  have hlocate : scaledCall.locate 5 = .ok ⟨1, 1, .list [4, 5], some 1⟩ := by decide +kernel
  obtain ⟨⟨r, t₁, hrun, -, hvalid⟩, hothers⟩ := fold_keeps_valid hv hp
  cases hroot.symm.trans hrun
  obtain ⟨r, t₂, l, hrun₂, hvalid₂, hl, hl'⟩ := hothers 5 hreach (by decide)
  cases hbelow.symm.trans hrun₂
  cases hlocate.symm.trans hl
  exact ⟨hv, hp, hreach, hroot, hvalid, hbelow, hvalid₂, hlocate, hl'⟩

end Tree
end Arbor
