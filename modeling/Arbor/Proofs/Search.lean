import Arbor.Proofs.Region
import Arbor.Tree.Walk
import Mathlib.Algebra.Group.Nat.Defs

/-!
Walking and searching a region to its end.

A walk goes by a stack of ids and is bounded by a number of steps. Over a region without cycles
the bound is never what ends it: an id with `depth` levels below it costs at most
`(breadth + 1) ^ depth` steps, and each step costs less than what it takes off the stack. There a
walk is the pre-order by recursion, whether ids resolve or not, and a search has seen all when it
finds nothing.
-/
namespace Arbor
namespace Tree

variable {t : Tree}

theorem children_length_le_breadth {id : NodeId} {node : Node} (hn : t.get? id = some node) :
    node.children.length ≤ t.breadth := by
  obtain ⟨e, hmem, rfl⟩ := entry_of_get? hn
  rw [breadth, ← Array.foldl_toList]
  -- the running maximum only grows, and takes in every entry
  have grows : ∀ (es : List Entry) (start : Nat),
      start ≤ es.foldl (fun widest e => max widest e.node.children.length) start := by
    intro es
    induction es with
    | nil => exact fun _ => Nat.le_refl _
    | cons e es ih => exact fun start => Nat.le_trans (Nat.le_max_left _ _) (ih _)
  have reaches : ∀ (es : List Entry) (start : Nat), e ∈ es →
      e.node.children.length ≤
        es.foldl (fun widest e => max widest e.node.children.length) start := by
    intro es
    induction es with
    | nil => exact fun _ hm => nomatch hm
    | cons e' es ih =>
      intro start hm
      rcases List.mem_cons.mp hm with rfl | hm
      · exact Nat.le_trans (Nat.le_max_right _ _) (grows es _)
      · exact ih _ hm
  exact reaches _ 0 hmem

/-- What is on the stack can be walked in `cost` steps. -/
inductive Affords (t : Tree) : Nat → List NodeId → Prop where
  | nil : Affords t 0 []
  | cons {id rest depth cost} : t.Within depth id → Affords t cost rest →
      Affords t ((t.breadth + 1) ^ depth + cost) (id :: rest)

theorem Affords.append {depth cost : Nat} {ids rest : List NodeId}
    (h : ∀ id ∈ ids, t.Within depth id) (hr : t.Affords cost rest) :
    t.Affords (ids.length * (t.breadth + 1) ^ depth + cost) (ids ++ rest) := by
  induction ids with
  | nil => simpa using hr
  | cons id ids ih =>
    obtain ⟨hid, hids⟩ := List.forall_mem_cons.mp h
    have := Affords.cons hid (ih hids)
    rwa [← Nat.add_assoc, Nat.add_comm ((t.breadth + 1) ^ depth), ← Nat.succ_mul] at this

theorem Affords.step {cost : Nat} {id : NodeId} {rest : List NodeId}
    (h : t.Affords cost (id :: rest)) :
    ∃ node less, t.get? id = some node ∧ less < cost ∧ t.Affords less (node.children ++ rest) := by
  cases h with
  | @cons _ _ depth cost hw hr =>
    cases depth with
    | zero => exact hw.elim
    | succ depth =>
      obtain ⟨node, hn, hc⟩ := hw
      refine ⟨node, _, hn, ?_, Affords.append hc hr⟩
      have hpos : 0 < (t.breadth + 1) ^ depth := Nat.pow_pos (Nat.succ_pos _)
      have hle := Nat.mul_le_mul_right ((t.breadth + 1) ^ depth) (children_length_le_breadth hn)
      rw [Nat.pow_succ, Nat.mul_succ, Nat.mul_comm ((t.breadth + 1) ^ depth)]
      omega

theorem Affords.eq_nil {stack : List NodeId} (h : t.Affords 0 stack) : stack = [] := by
  cases stack with
  | nil => rfl
  | cons id rest =>
    obtain ⟨_, less, _, hlt, _⟩ := h.step
    exact absurd hlt (Nat.not_lt_zero less)

inductive Walks (t : Tree) : (stack ids : List NodeId) → Prop where
  | finished {stack} : t.nextOf stack = none → Walks t stack []
  | next {stack rest id ids} : t.nextOf stack = some (id, rest) → Walks t rest ids →
      Walks t stack (id :: ids)

namespace Walks

variable {stack ids ids' rest : List NodeId} {id : NodeId}

theorem unique (h : t.Walks stack ids) (h' : t.Walks stack ids') : ids = ids' := by
  induction h generalizing ids' with
  | finished hnone =>
    cases h' with
    | finished => rfl
    | next hnext => cases hnone.symm.trans hnext
  | next hnext _ ih =>
    cases h' with
    | finished hnone => cases hnone.symm.trans hnext
    | next hnext' h' =>
      cases hnext.symm.trans hnext'
      rw [ih h']

theorem walkUpTo_eq {count : Nat} (h : t.Walks stack ids) (hc : ids.length ≤ count) :
    t.walkUpTo count stack = ids := by
  induction h generalizing count with
  | finished hnone =>
    cases count with
    | zero => rfl
    | succ count => simp only [walkUpTo, hnone]
  | next hnext _ ih =>
    rw [List.length_cons] at hc
    cases count with
    | zero => omega
    | succ count => simp only [walkUpTo, hnext, ih (by omega : _ ≤ count)]

theorem skip (hn : t.get? id = none) (h : t.Walks rest ids) : t.Walks (id :: rest) ids := by
  have hnext : t.nextOf (id :: rest) = t.nextOf rest := by simp only [nextOf, hn]
  cases h with
  | finished hnone => exact .finished (hnext.trans hnone)
  | next hstep h => exact .next (hnext.trans hstep) h

/-- A walk is through with the pre-order of the topmost id before it comes to the next one. -/
theorem preorderTo {depth : Nat} (he : t.LevelsEnd depth id) (h : t.Walks rest ids) :
    t.Walks (id :: rest) (t.preorderTo depth id ++ ids) := by
  induction depth generalizing id rest ids with
  | zero => exact skip he h
  | succ depth ih =>
    cases hn : t.get? id with
    | none =>
      simp only [Tree.preorderTo, hn]
      exact skip hn h
    | some node =>
      have each : ∀ cs : List NodeId, (∀ c ∈ cs, t.LevelsEnd depth c) →
          t.Walks (cs ++ rest) (cs.flatMap (t.preorderTo depth) ++ ids) := by
        intro cs hcs
        induction cs with
        | nil => exact h
        | cons c cs ihs =>
          obtain ⟨hc, hcs⟩ := List.forall_mem_cons.mp hcs
          rw [List.flatMap_cons, List.append_assoc]
          exact ih hc (ihs hcs)
      have hstep : t.nextOf (id :: rest) = some (id, node.children ++ rest) := by
        simp only [nextOf, hn]
      simp only [Tree.preorderTo, hn]
      exact .next hstep (each node.children fun c hc => he c (by rwa [childrenOf_eq hn]))

end Walks

theorem LevelsEnd.walks {depth : Nat} {id : NodeId} (h : t.LevelsEnd depth id) :
    t.Walks [id] (t.preorderTo depth id) := by
  have hempty : t.Walks [] [] := .finished rfl
  have hall := Walks.preorderTo h hempty
  rwa [List.append_nil] at hall

/-- No level has more ids than `breadth` for each id of the level above. -/
theorem length_preorderTo_le (t : Tree) (depth : Nat) (id : NodeId) :
    (t.preorderTo depth id).length ≤ (t.breadth + 1) ^ depth := by
  induction depth generalizing id with
  | zero => exact Nat.zero_le _
  | succ depth ih =>
    have each : ∀ cs : List NodeId,
        (cs.flatMap (t.preorderTo depth)).length ≤ cs.length * (t.breadth + 1) ^ depth := by
      intro cs
      induction cs with
      | nil => exact Nat.zero_le _
      | cons c cs ihs =>
        rw [List.flatMap_cons, List.length_append, List.length_cons, Nat.succ_mul]
        have := ih c
        omega
    cases hn : t.get? id with
    | none => simp [preorderTo, hn]
    | some node =>
      have hpos : 0 < (t.breadth + 1) ^ depth := Nat.pow_pos (Nat.succ_pos _)
      have hle := Nat.mul_le_mul_right ((t.breadth + 1) ^ depth) (children_length_le_breadth hn)
      have hbelow := each node.children
      simp only [preorderTo, hn, List.length_cons]
      rw [Nat.pow_succ, Nat.mul_succ, Nat.mul_comm ((t.breadth + 1) ^ depth)]
      omega

theorem LevelsEnd.walkUpTo_eq {depth count : Nat} {id : NodeId} (h : t.LevelsEnd depth id)
    (hd : depth ≤ t.size + 1) (hc : t.walkBound ≤ count) :
    t.walkUpTo count [id] = t.preorderTo depth id := by
  refine h.walks.walkUpTo_eq (Nat.le_trans ?_ hc)
  calc (t.preorderTo depth id).length
      ≤ (t.breadth + 1) ^ depth := t.length_preorderTo_le depth id
    _ ≤ (t.breadth + 1) ^ (t.size + 1) := Nat.pow_le_pow_right (Nat.succ_pos _) hd

theorem LevelsEnd.walk_eq {depth : Nat} {id : NodeId} (h : t.LevelsEnd depth id)
    (hd : depth ≤ t.size + 1) : t.walk id = t.preorderTo depth id :=
  h.walkUpTo_eq hd (Nat.le_refl _)

theorem Within.walkUpTo_eq {id : NodeId} {count : Nat} (h : t.Within t.size id)
    (hc : t.walkBound ≤ count) : t.walkUpTo count [id] = t.walk id := by
  rw [h.levelsEnd.walk_eq (Nat.le_succ _)]
  exact h.levelsEnd.walkUpTo_eq (Nat.le_succ _) hc

theorem Within.walk_eq {depth : Nat} {id : NodeId} (h : t.Within depth id) :
    t.walk id = t.preorderTo depth id := by
  have hsame := h.levelsEnd.walks.unique h.within_size.levelsEnd.walks
  rw [hsame]
  exact h.within_size.levelsEnd.walk_eq (Nat.le_succ _)

theorem Within.walk_cons {depth : Nat} {id : NodeId} (h : t.Within depth id) :
    t.walk id = id :: (t.childrenOf id).flatMap t.walk := by
  cases depth with
  | zero => exact h.elim
  | succ depth =>
    rw [h.walk_eq]
    obtain ⟨node, hn, hc⟩ := h
    rw [childrenOf_eq hn]
    simp only [preorderTo, hn]
    congr 1
    refine List.flatMap_congr fun c hm => ?_
    exact (hc c hm).walk_eq.symm

theorem mem_preorderTo {depth : Nat} {id x : NodeId} (hw : t.Within depth id) :
    x ∈ t.preorderTo depth id ↔ t.Reach id x := by
  induction depth generalizing id with
  | zero => exact hw.elim
  | succ depth ih =>
    obtain ⟨node, hn, hc⟩ := hw
    simp only [preorderTo, hn, List.mem_cons, List.mem_flatMap]
    constructor
    · rintro (rfl | ⟨c, hm, hx⟩)
      · exact .refl
      · refine .head ?_ ((ih (hc c hm)).mp hx)
        rw [Child, childrenOf_eq hn]
        exact hm
    · intro hr
      rcases Relation.ReflTransGen.cases_head hr with rfl | ⟨c, hic, hcx⟩
      · exact Or.inl rfl
      · rw [Child, childrenOf_eq hn] at hic
        exact Or.inr ⟨c, hic, (ih (hc c hic)).mpr hcx⟩

theorem nextOf_some {stack rest : List NodeId} {id : NodeId}
    (h : t.nextOf stack = some (id, rest)) :
    id ∈ stack ∧ ∀ c ∈ rest, t.Child id c ∨ c ∈ stack := by
  induction stack with
  | nil => cases h
  | cons top below ih =>
    cases hn : t.get? top with
    | none =>
      simp only [nextOf, hn] at h
      obtain ⟨hid, hrest⟩ := ih h
      refine ⟨List.mem_cons_of_mem _ hid, fun c hc => ?_⟩
      exact (hrest c hc).imp_right (List.mem_cons_of_mem _)
    | some node =>
      simp only [nextOf, hn, Option.some.injEq, Prod.mk.injEq] at h
      obtain ⟨rfl, rfl⟩ := h
      refine ⟨List.mem_cons_self, fun c hc => ?_⟩
      rcases List.mem_append.mp hc with hc | hc
      · exact .inl (by simpa [Child, childrenOf_eq hn] using hc)
      · exact .inr (List.mem_cons_of_mem _ hc)

theorem findUpTo_sound {p : NodeId → Bool} {steps limit : Nat} {stack : List NodeId} {x : NodeId}
    (hx : x ∈ t.findUpTo p steps limit stack) : p x ∧ ∃ id ∈ stack, t.Reach id x := by
  induction steps generalizing limit stack with
  | zero => simp [findUpTo] at hx
  | succ steps ih =>
    cases limit with
    | zero => simp [findUpTo] at hx
    | succ limit =>
      cases hnext : t.nextOf stack with
      | none => simp [findUpTo, hnext] at hx
      | some next =>
        obtain ⟨id, rest⟩ := next
        obtain ⟨hid, hrest⟩ := nextOf_some hnext
        have later : ∀ limit, x ∈ t.findUpTo p steps limit rest →
            p x ∧ ∃ id ∈ stack, t.Reach id x := by
          intro limit hm
          obtain ⟨hp, c, hc, hreach⟩ := ih hm
          rcases hrest c hc with hchild | hmem
          · exact ⟨hp, id, hid, .head hchild hreach⟩
          · exact ⟨hp, c, hmem, hreach⟩
        simp only [findUpTo, hnext] at hx
        split at hx
        · next hp =>
          rcases List.mem_cons.mp hx with rfl | hx
          · exact ⟨hp, x, hid, .refl⟩
          · exact later _ hx
        · exact later _ hx

theorem findUpTo_exhausts {p : NodeId → Bool} {steps cost limit : Nat} {stack : List NodeId}
    (hs : t.Affords cost stack) (hle : cost ≤ steps)
    (hnone : t.findUpTo p steps (limit + 1) stack = []) :
    ∀ id ∈ stack, ∀ x, t.Reach id x → p x = false := by
  induction steps generalizing cost stack with
  | zero =>
    obtain rfl := Nat.le_zero.mp hle
    obtain rfl := hs.eq_nil
    exact fun _ hm => nomatch hm
  | succ steps ih =>
    cases stack with
    | nil => exact fun _ hm => nomatch hm
    | cons top rest =>
      obtain ⟨node, less, hn, hlt, hs'⟩ := hs.step
      simp only [findUpTo, nextOf, hn] at hnone
      split at hnone
      · cases hnone
      · next hp =>
        have later := ih hs' (by omega) hnone
        intro id hid x hx
        rcases List.mem_cons.mp hid with rfl | hid
        · rcases hx.cases_head with rfl | ⟨c, hc, hx⟩
          · exact Bool.eq_false_iff.mpr hp
          · rw [Child, childrenOf_eq hn] at hc
            exact later c (List.mem_append_left _ hc) x hx
        · exact later id (List.mem_append_right _ hid) x hx

/-- A search that finds nothing has seen the whole region. -/
theorem WellLinked.first?_eq_none_iff {root id : NodeId} (h : t.WellLinked root)
    (hi : t.Reach root id) (p : NodeId → Bool) :
    t.first? id p = none ↔ ∀ x, t.Reach id x → p x = false := by
  have hcost : t.Affords t.walkBound [id] := .cons (h.within hi).succ .nil
  rw [first?, List.head?_eq_none_iff]
  constructor
  · intro hnone
    exact findUpTo_exhausts hcost (by omega) hnone id (List.mem_singleton_self id)
  · intro hall
    refine List.eq_nil_iff_forall_not_mem.mpr fun x hx => ?_
    obtain ⟨hp, _, hmem, hreach⟩ := findUpTo_sound hx
    rw [List.mem_singleton.mp hmem] at hreach
    simp [hall x hreach] at hp

end Tree
end Arbor
