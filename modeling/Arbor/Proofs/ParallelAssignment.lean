import Arbor.Proofs.FoldedValue
import Arbor.Tree.Builder

/-!
A parallel assignment by way of temporaries.

All values go to temporaries before any target is assigned. A value that reads no temporary is
therefore read in the state before the assignment, whatever the targets are; a target that comes
more than once shares its temporary, which keeps the last of its values. Expressions are evaluated
by whatever gives them a value that depends on variables only.
-/
namespace Arbor

/-- What the variables hold. -/
abbrev Variables (V : Type) := String → V

/-- A way to evaluate expressions that leaves the variables alone and looks at no others than those
it says it reads. An expression may have no value. -/
structure Evaluation (V : Type) where
  value? : Term → Variables V → Option V
  reads : Term → List String
  value?_symbol : ∀ name isConst s, value? (.mk (.symbol name none isConst) []) s = some (s name)
  value?_congr : ∀ e s s', (∀ x ∈ reads e, s x = s' x) → value? e s = value? e s'

namespace Term

mutual

def names : Term → List String
  | .mk (.symbol name none _) _ => [name]
  | .mk _ es => namesOf es

def namesOf : List Term → List String
  | [] => []
  | e :: es => e.names ++ namesOf es

end

theorem mem_namesOf {es : List Term} {e : Term} (he : e ∈ es) {x : String} (hx : x ∈ e.names) :
    x ∈ namesOf es := by
  induction es with
  | nil => cases he
  | cons e' es ih =>
    rw [namesOf, List.mem_append]
    rcases List.mem_cons.mp he with rfl | he
    · exact Or.inl hx
    · exact Or.inr (ih he)

theorem value?_congr {shift : Operator → Int64 → Int64 → Option Int64} {read read' : String → Int64}
    (e : Term) (h : ∀ x ∈ e.names, read x = read' x) :
    e.value? ⟨read, shift⟩ = e.value? ⟨read', shift⟩ := by
  induction e using Term.induct with
  | h node es ih =>
    have below : (∀ x ∈ namesOf es, read x = read' x) →
        ∀ e ∈ es, e.value? ⟨read, shift⟩ = e.value? ⟨read', shift⟩ := by
      intro h e he
      exact ih e he fun x hx => h x (mem_namesOf he hx)
    cases node
    case symbol name ty isConst =>
      cases ty with
      | none => exact congrArg some (h name List.mem_cons_self)
      | some ty => rfl
    case constant v => cases v <;> rfl
    case unary op arg =>
      rcases es with _ | ⟨e, _ | ⟨e', es⟩⟩ <;> try rfl
      rw [value?, value?, below h e (by simp)]
    case binary left op right =>
      rcases es with _ | ⟨l, _ | ⟨r, _ | ⟨e, es⟩⟩⟩ <;> try rfl
      rw [value?, value?, below h l (by simp), below h r (by simp)]
      rfl
    case ternary cond thenValue elseValue =>
      rcases es with _ | ⟨c, _ | ⟨e, _ | ⟨e', _ | ⟨e'', es⟩⟩⟩⟩ <;> try rfl
      rw [value?, value?, below h c (by simp), below h e (by simp), below h e' (by simp)]
    all_goals rfl

end Term

def Evaluation.words (shift : Operator → Int64 → Int64 → Option Int64) : Evaluation Int64 where
  value? e s := e.value? ⟨s, shift⟩
  reads := Term.names
  value?_symbol _ _ _ := rfl
  value?_congr e _ _ h := e.value?_congr h

section Writing

variable {V : Type}

/-- Writes one after another. -/
def writeAll (writes : List (String × V)) (s : Variables V) : Variables V :=
  writes.foldl (fun s w => Function.update s w.1 w.2) s

theorem writeAll_other {x : String} (writes : List (String × V)) (s : Variables V)
    (h : x ∉ writes.map Prod.fst) : writeAll writes s x = s x := by
  induction writes generalizing s with
  | nil => rfl
  | cons w writes ih =>
    obtain ⟨hne, h⟩ := not_or.mp (List.mem_cons.not.mp h)
    exact (ih (Function.update s w.1 w.2) h).trans (Function.update_of_ne hne _ _)

theorem writeAll_last {x : String} {v : V} (before after : List (String × V)) (s : Variables V)
    (h : x ∉ after.map Prod.fst) : writeAll (before ++ (x, v) :: after) s x = v := by
  rw [writeAll, List.foldl_append, List.foldl_cons]
  exact (writeAll_other after _ h).trans (Function.update_self _ _ _)

end Writing

namespace Evaluation

variable {V : Type} (ev : Evaluation V)

def execute? (s : Variables V) : Term → Option (Variables V)
  | .mk (.binary _ .assign _) [.mk (.symbol name none _) [], e] =>
    (ev.value? e s).map (Function.update s name)
  | _ => none

def executeAll? (s : Variables V) (statements : List Term) : Option (Variables V) :=
  statements.foldlM ev.execute? s

end Evaluation

namespace Builder

/-- The names that only temporaries have. -/
def IsTemporary (name : String) : Prop := tempStem.toList <+: name.toList

instance (name : String) : Decidable (IsTemporary name) :=
  inferInstanceAs (Decidable (tempStem.toList <+: name.toList))

theorem isTemporary_temp (x : String) : IsTemporary (tempStem ++ x) := by
  simp [IsTemporary]

theorem temp_injective {x y : String} (h : tempStem ++ x = tempStem ++ y) : x = y := by
  have hchars := congrArg String.toList h
  rw [String.toList_append, String.toList_append] at hchars
  exact String.toList_injective (List.append_cancel_left hchars)

def assignment (target : String) (e : Term) : Term :=
  .binary (.mk (.symbol target none false) []) .assign e

def store (a : String × Term) : Term := assignment (tempStem ++ a.1) a.2

def load (x : String) : Term := assignment x (.mk (.symbol (tempStem ++ x) none false) [])

section Running

variable {V : Type} {ev : Evaluation V}

/-- The stores go through when all values are there, and write them to the temporaries. `before` is
the state in which the values are read; the stores so far have changed temporaries only. -/
theorem run_stores (pairs : List (String × Term)) {before s : Variables V}
    (hreads : ∀ a ∈ pairs, ∀ x ∈ ev.reads a.2, ¬ IsTemporary x)
    (hs : ∀ x, ¬ IsTemporary x → s x = before x) :
    ev.executeAll? s (pairs.map store) =
      (pairs.mapM fun a => (ev.value? a.2 before).map fun v => (tempStem ++ a.1, v)).map
        fun writes => writeAll writes s := by
  induction pairs generalizing s with
  | nil => rfl
  | cons a pairs ih =>
    obtain ⟨ha, hreads⟩ := List.forall_mem_cons.mp hreads
    have hvalue : ev.value? a.2 s = ev.value? a.2 before :=
      ev.value?_congr _ _ _ fun x hx => hs x (ha x hx)
    have hstep : ev.execute? s (store a) =
        (ev.value? a.2 before).map (Function.update s (tempStem ++ a.1)) := by
      rw [← hvalue]
      rfl
    rw [Evaluation.executeAll?, List.map_cons, List.foldlM_cons, hstep, List.mapM_cons]
    cases ev.value? a.2 before with
    | none => rfl
    | some v =>
      have hkept : ∀ x, ¬ IsTemporary x →
          Function.update s (tempStem ++ a.1) v x = before x := by
        intro x hx
        rw [Function.update_of_ne, hs x hx]
        rintro rfl
        exact hx (isTemporary_temp a.1)
      refine (ih hreads hkept).trans ?_
      cases pairs.mapM fun a => (ev.value? a.2 before).map fun v => (tempStem ++ a.1, v) <;> rfl

/-- The loads always go through. `stored` is the state in which they begin; the loads so far have
changed no temporary. -/
theorem run_loads (targets : List String) {stored s : Variables V}
    (htargets : ∀ x ∈ targets, ¬ IsTemporary x)
    (hs : ∀ x, IsTemporary x → s x = stored x) :
    ev.executeAll? s (targets.map load) =
      some (writeAll (targets.map fun x => (x, stored (tempStem ++ x))) s) := by
  induction targets generalizing s with
  | nil => rfl
  | cons x targets ih =>
    obtain ⟨hx, htargets⟩ := List.forall_mem_cons.mp htargets
    have hstep : ev.execute? s (load x) =
        some (Function.update s x (stored (tempStem ++ x))) := by
      rw [← hs _ (isTemporary_temp x)]
      change (ev.value? _ s).map _ = _
      rw [ev.value?_symbol]
      rfl
    have hkept : ∀ y, IsTemporary y →
        Function.update s x (stored (tempStem ++ x)) y = stored y := by
      intro y hy
      rw [Function.update_of_ne, hs y hy]
      rintro rfl
      exact hx hy
    rw [Evaluation.executeAll?, List.map_cons, List.foldlM_cons, hstep]
    exact ih htargets hkept

variable {pairs : List (String × Term)} {s : Variables V}

theorem written_names {writes : List (String × V)}
    (h : List.Forall₂ (fun a w => w.1 = tempStem ++ a.1 ∧ ev.value? a.2 s = some w.2)
      pairs writes) : writes.map Prod.fst = pairs.map fun a => tempStem ++ a.1 := by
  induction h with
  | nil => rfl
  | cons hw _ ih => rw [List.map_cons, List.map_cons, hw.1, ih]

variable (htargets : ∀ a ∈ pairs, ¬ IsTemporary a.1)
  (hreads : ∀ a ∈ pairs, ∀ x ∈ ev.reads a.2, ¬ IsTemporary x)

include htargets hreads

theorem run_rotation : ev.executeAll? s (pairs.map store ++ (pairs.map Prod.fst).map load) =
    (pairs.mapM fun a => (ev.value? a.2 s).map fun v => (tempStem ++ a.1, v)).map fun writes =>
      writeAll ((pairs.map Prod.fst).map fun x => (x, writeAll writes s (tempStem ++ x)))
        (writeAll writes s) := by
  have hstores := run_stores pairs (s := s) hreads fun x _ => rfl
  rw [Evaluation.executeAll?] at hstores
  rw [Evaluation.executeAll?, List.foldlM_append, hstores]
  cases pairs.mapM fun a => (ev.value? a.2 s).map fun v => (tempStem ++ a.1, v) with
  | none => rfl
  | some writes => exact run_loads _ (List.forall_mem_map.mpr htargets) fun x _ => rfl

theorem run_rotation_eq_none :
    ev.executeAll? s (pairs.map store ++ (pairs.map Prod.fst).map load) = none ↔
      ∃ a ∈ pairs, ev.value? a.2 s = none := by
  rw [run_rotation htargets hreads, Option.map_eq_none_iff, mapM_eq_none_iff]
  simp only [Option.map_eq_none_iff]

variable {s' : Variables V}
  (hrun : ev.executeAll? s (pairs.map store ++ (pairs.map Prod.fst).map load) = some s')

include hrun

theorem exists_writes : ∃ writes,
    List.Forall₂ (fun a w => w.1 = tempStem ++ a.1 ∧ ev.value? a.2 s = some w.2) pairs writes ∧
    s' = writeAll ((pairs.map Prod.fst).map fun x => (x, writeAll writes s (tempStem ++ x)))
      (writeAll writes s) := by
  rw [run_rotation htargets hreads, Option.map_eq_some_iff] at hrun
  obtain ⟨writes, hwrites, rfl⟩ := hrun
  refine ⟨writes, (mapM_eq_some_iff.mp hwrites).imp ?_, rfl⟩
  intro a w hw
  obtain ⟨v, hv, rfl⟩ := Option.map_eq_some_iff.mp hw
  exact ⟨rfl, hv⟩

theorem rotation_other {x : String} (hx : x ∉ pairs.map Prod.fst) (hplain : ¬ IsTemporary x) :
    s' x = s x := by
  obtain ⟨writes, hwrites, rfl⟩ := exists_writes htargets hreads hrun
  have hloads : x ∉ ((pairs.map Prod.fst).map fun x =>
      (x, writeAll writes s (tempStem ++ x))).map Prod.fst := by
    rw [List.map_map]
    simpa using hx
  have hstores : x ∉ writes.map Prod.fst := by
    rw [written_names hwrites]
    intro hmem
    obtain ⟨a, -, rfl⟩ := List.mem_map.mp hmem
    exact hplain (isTemporary_temp a.1)
  rw [writeAll_other _ _ hloads, writeAll_other _ _ hstores]

/-- Each target gets the value of its last pair, from the temporary that its pairs share. -/
theorem rotation_last {x : String} {e : Term} {before after : List (String × Term)}
    (hsplit : pairs = before ++ (x, e) :: after) (hlast : x ∉ after.map Prod.fst) :
    ev.value? e s = some (s' x) := by
  obtain ⟨writes, hwrites, rfl⟩ := exists_writes htargets hreads hrun
  subst hsplit
  obtain ⟨stored, w, rest, rfl, -, ⟨hname, hvalue⟩, hrest⟩ := forall₂_split hwrites
  obtain ⟨name, v⟩ := w
  obtain rfl : name = tempStem ++ x := hname
  -- no later pair writes the temporary either
  have hlast' : tempStem ++ x ∉ rest.map Prod.fst := by
    rw [written_names hrest]
    intro hmem
    obtain ⟨a, ha, hsame⟩ := List.mem_map.mp hmem
    exact hlast (temp_injective hsame ▸ List.mem_map_of_mem ha)
  have hloads : x ∉ ((after.map Prod.fst).map fun y =>
      (y, writeAll (stored ++ (tempStem ++ x, v) :: rest) s (tempStem ++ y))).map Prod.fst := by
    simpa using hlast
  rw [List.map_append, List.map_append, List.map_cons, List.map_cons, writeAll_last _ _ _ hloads,
    writeAll_last _ _ _ hlast', hvalue]

end Running

end Builder

namespace Tree

/-- All nodes are kept; there may be more, and other links. -/
def Extends (t t' : Tree) : Prop := ∀ id node, t.get? id = some node → t'.get? id = some node

theorem Extends.trans {t t' t'' : Tree} (h : t.Extends t') (h' : t'.Extends t'') : t.Extends t'' :=
  fun id node hn => h' id node (h id node hn)

theorem extends_add (t : Tree) (node : Node) : t.Extends (t.add node).1 := by
  intro id other hn
  rw [get?_add, if_neg (Nat.ne_of_lt (lt_size_of_get? hn)), hn]

theorem get?_add_self (t : Tree) (node : Node) : (t.add node).1.get? t.size = some node := by
  rw [get?_add, if_pos rfl]

section Terms

variable {t t' : Tree} {depth n : Nat} {id : NodeId} {e : Term}

theorem termTo_succ_eq_some : t.termTo (depth + 1) id = some e ↔
    ∃ node es, t.get? id = some node ∧
      List.Forall₂ (fun c e => t.termTo depth c = some e) node.children es ∧
      e = .mk node.form es := by
  simp only [termTo, Option.bind_eq_bind, Option.bind_eq_some_iff, Option.pure_def,
    Option.some.injEq, mapM_eq_some_iff]
  constructor
  · rintro ⟨node, hn, es, hes, rfl⟩
    exact ⟨node, es, hn, hes, rfl⟩
  · rintro ⟨node, es, hn, hes, rfl⟩
    exact ⟨node, hn, es, hes, rfl⟩

theorem Extends.termTo (h : t.Extends t') (he : t.termTo depth id = some e) :
    t'.termTo depth id = some e := by
  induction depth generalizing id e with
  | zero => cases he
  | succ depth ih =>
    obtain ⟨node, es, hn, hes, rfl⟩ := termTo_succ_eq_some.mp he
    refine termTo_succ_eq_some.mpr ⟨node, es, h id node hn, ?_, rfl⟩
    exact hes.imp fun c e hc => ih hc

theorem within_of_termTo (he : t.termTo depth id = some e) : t.Within depth id := by
  induction depth generalizing id e with
  | zero => cases he
  | succ depth ih =>
    obtain ⟨node, es, hn, hes, rfl⟩ := termTo_succ_eq_some.mp he
    have hall := hes.imp fun c e hc => (⟨ih hc, hc⟩ : t.Within depth c ∧ _)
    exact ⟨node, hn, ((List.forall₂_and_left _ _).mp hall).1⟩

/-- How many levels were allowed for makes no difference to a term that is found. -/
theorem termTo_of_within (he : t.termTo depth id = some e) (hw : t.Within n id) :
    t.termTo n id = some e := by
  induction n generalizing depth id e with
  | zero => exact hw.elim
  | succ n ih =>
    cases depth with
    | zero => cases he
    | succ depth =>
      obtain ⟨node, es, hn, hes, rfl⟩ := termTo_succ_eq_some.mp he
      obtain ⟨_, hn', hc⟩ := hw
      cases hn.symm.trans hn'
      refine termTo_succ_eq_some.mpr ⟨node, es, hn, ?_, rfl⟩
      exact ((List.forall₂_and_left _ _).mpr ⟨hc, hes⟩).imp fun c e h => ih h.2 h.1

theorem term?_of_termTo (he : t.termTo depth id = some e) : t.term? id = some e :=
  termTo_of_within he (within_of_termTo he).within_size.succ

theorem Extends.term? (h : t.Extends t') (he : t.term? id = some e) : t'.term? id = some e :=
  term?_of_termTo (h.termTo he)

theorem term?_add_symbol (t : Tree) (name : String) :
    (t.add (.symbol name none false)).1.term? t.size = some (.mk (.symbol name none false) []) :=
  termTo_succ_eq_some.mpr ⟨_, [], get?_add_self t _, .nil, rfl⟩

theorem term?_add_binary {l r : NodeId} {el er : Term} (op : Operator) (hl : t.term? l = some el)
    (hr : t.term? r = some er) :
    (t.add (.binary l op r)).1.term? t.size = some (.binary el op er) := by
  have hkept := extends_add t (.binary l op r)
  have hnode := get?_add_self t (.binary l op r)
  apply term?_of_termTo
  exact termTo_succ_eq_some.mpr
    ⟨_, [el, er], hnode, .cons (hkept.term? hl) (.cons (hkept.term? hr) .nil), rfl⟩

end Terms

variable {V : Type}

def valueIn? (t : Tree) (ev : Evaluation V) (s : Variables V) (id : NodeId) : Option V :=
  (t.term? id).bind fun e => ev.value? e s

def execute? (t : Tree) (ev : Evaluation V) (s : Variables V) (ids : List NodeId) :
    Option (Variables V) :=
  ids.foldlM (fun s id => (t.term? id).bind (ev.execute? s)) s

theorem execute?_eq {t : Tree} {ev : Evaluation V} {ids : List NodeId} {es : List Term}
    (h : List.Forall₂ (fun id e => t.term? id = some e) ids es) (s : Variables V) :
    t.execute? ev s ids = ev.executeAll? s es := by
  induction h generalizing s with
  | nil => rfl
  | @cons id e ids es he _ ih =>
    rw [execute?, List.foldlM_cons, he, Option.bind_some, Evaluation.executeAll?, List.foldlM_cons]
    congr 1
    funext s'
    exact ih s'

end Tree

namespace Builder

open Tree

theorem rotations_cons {t : Tree} {value : NodeId} {e : Term} (x : String)
    (pairs : List (String × NodeId)) (he : t.term? value = some e) :
    ∃ t' stored loaded, t.Extends t' ∧ t'.term? stored = some (store (x, e)) ∧
      t'.term? loaded = some (load x) ∧
      rotations ((x, value) :: pairs) t =
        ((stored :: (rotations pairs t').1.1, loaded :: (rotations pairs t').1.2),
          (rotations pairs t').2) := by
  let t₁ := (t.add (.symbol (tempStem ++ x) none false)).1
  let t₂ := (t₁.add (.binary t.size .assign value)).1
  let t₃ := (t₂.add (.symbol x none false)).1
  let t₄ := (t₃.add (.symbol (tempStem ++ x) none false)).1
  let t₅ := (t₄.add (.binary t₂.size .assign t₃.size)).1
  have h₁ : t.Extends t₁ := extends_add t _
  have h₃ : t₂.Extends t₃ := extends_add t₂ _
  have h₄ : t₃.Extends t₄ := extends_add t₃ _
  have h₂₅ : t₂.Extends t₅ := (h₃.trans h₄).trans (extends_add t₄ _)
  have hstore : t₂.term? t₁.size = some (store (x, e)) :=
    term?_add_binary .assign (term?_add_symbol t _) (h₁.term? he)
  have hload : t₅.term? t₄.size = some (load x) :=
    term?_add_binary .assign (h₄.term? (term?_add_symbol t₂ x)) (term?_add_symbol t₃ _)
  exact ⟨t₅, t₁.size, t₄.size, (h₁.trans (extends_add t₁ _)).trans h₂₅, h₂₅.term? hstore, hload, rfl⟩

theorem rotations_terms (pairs : List (String × NodeId)) (t : Tree) {as : List (String × Term)}
    (h : List.Forall₂ (fun p a => p.1 = a.1 ∧ t.term? p.2 = some a.2) pairs as) :
    t.Extends (rotations pairs t).2 ∧
    List.Forall₂ (fun id e => (rotations pairs t).2.term? id = some e)
      (rotations pairs t).1.1 (as.map store) ∧
    List.Forall₂ (fun id e => (rotations pairs t).2.term? id = some e)
      (rotations pairs t).1.2 ((as.map Prod.fst).map load) := by
  induction pairs generalizing t as with
  | nil =>
    cases h
    exact ⟨fun _ _ hn => hn, .nil, .nil⟩
  | cons p pairs ih =>
    cases h with
    | @cons _ a _ as ha h =>
      obtain ⟨x, value⟩ := p
      obtain ⟨_, e⟩ := a
      obtain ⟨rfl, he⟩ := ha
      obtain ⟨t', stored, loaded, hkept, hstore, hload, hrun⟩ := rotations_cons x pairs he
      have h' : List.Forall₂ (fun p a => p.1 = a.1 ∧ t'.term? p.2 = some a.2) pairs as :=
        h.imp fun p a ha => ⟨ha.1, hkept.term? ha.2⟩
      obtain ⟨hrest, hstores, hloads⟩ := ih t' h'
      rw [hrun]
      exact ⟨hkept.trans hrest, .cons (hrest.term? hstore) hstores, .cons (hrest.term? hload) hloads⟩

/-- Executed in order, the statements assign all targets at once: every value is the one that it has
in the state before. -/
theorem multiAssign_is_parallel {V : Type} (ev : Evaluation V) (t : Tree)
    (pairs : List (String × NodeId)) (s : Variables V)
    (htargets : ∀ p ∈ pairs, ¬ IsTemporary p.1)
    (hvalues : ∀ p ∈ pairs, ∃ e, t.term? p.2 = some e ∧ ∀ x ∈ ev.reads e, ¬ IsTemporary x) :
    ∃ statements t', multiAssign pairs t = (statements, t') ∧
      (t'.execute? ev s statements = none ↔ ∃ p ∈ pairs, t.valueIn? ev s p.2 = none) ∧
      ∀ s', t'.execute? ev s statements = some s' →
        (∀ before x value after, pairs = before ++ (x, value) :: after →
          x ∉ after.map Prod.fst → t.valueIn? ev s value = some (s' x)) ∧
        ∀ x, x ∉ pairs.map Prod.fst → ¬ IsTemporary x → s' x = s x := by
  have : Nonempty Term := ⟨.mk .pass []⟩
  choose! term hterm hplain using hvalues
  let as := pairs.map fun p => (p.1, term p)
  have hrow : List.Forall₂ (fun p a => p.1 = a.1 ∧ t.term? p.2 = some a.2) pairs as :=
    List.forall₂_map_right_iff.mpr (List.forall₂_same.mpr fun p hp => ⟨rfl, hterm p hp⟩)
  have htargets' : ∀ a ∈ as, ¬ IsTemporary a.1 := List.forall_mem_map.mpr htargets
  have hreads : ∀ a ∈ as, ∀ x ∈ ev.reads a.2, ¬ IsTemporary x := List.forall_mem_map.mpr hplain
  have hvalue : ∀ p ∈ pairs, t.valueIn? ev s p.2 = ev.value? (term p) s := by
    intro p hp
    rw [valueIn?, hterm p hp, Option.bind_some]
  obtain ⟨-, hstores, hloads⟩ := rotations_terms pairs t hrow
  have hrun : (rotations pairs t).2.execute? ev s _ = ev.executeAll? s _ :=
    execute?_eq (List.rel_append hstores hloads) s
  refine ⟨_, _, rfl, ?_, ?_⟩
  · refine (iff_of_eq (congrArg (· = none) hrun)).trans ?_
    rw [run_rotation_eq_none htargets' hreads]
    simp only [as, List.mem_map, exists_exists_and_eq_and]
    exact exists_congr fun p => and_congr_right fun hp => by rw [hvalue p hp]
  · intro s' hs'
    replace hs' := hrun.symm.trans hs'
    constructor
    · intro before x value after hsplit hlast
      have hsplit' : as = before.map (fun p => (p.1, term p)) ++
          (x, term (x, value)) :: after.map fun p => (p.1, term p) := by
        simp only [as, hsplit, List.map_append, List.map_cons]
      rw [hvalue (x, value) (by simp [hsplit])]
      exact rotation_last htargets' hreads hs' hsplit' (by simpa using hlast)
    · intro x hx
      exact rotation_other htargets' hreads hs' (by simpa [as] using hx)

/-- The values of `a, b, a = b, a + b, b - a`. -/
def crossing : Tree :=
  .ofNodes [.symbol "b" none false, .binary 2 .add 3, .symbol "a" none false,
    .symbol "b" none false, .binary 5 .sub 6, .symbol "b" none false, .symbol "a" none false] 0

/-- From `a = 3` and `b = 5`, the last of the values of `a` counts, and no value sees an assignment
of the others. -/
theorem crossing_assigned :
    let ev := Evaluation.words fun _ _ _ => none
    let s : Variables Int64 := fun x => if x = "a" then 3 else if x = "b" then 5 else 7
    ∃ statements t' s', multiAssign [("a", 0), ("b", 1), ("a", 4)] crossing = (statements, t') ∧
      t'.execute? ev s statements = some s' ∧ s' "a" = 2 ∧ s' "b" = 8 ∧ s' "c" = 7 := by
  intro ev s
  have htargets : ∀ p ∈ [("a", 0), ("b", 1), ("a", 4)], ¬ IsTemporary p.1 := by decide +kernel
  have hvalues : ∀ p ∈ [("a", 0), ("b", 1), ("a", 4)],
      ∃ e ∈ crossing.term? p.2, ∀ x ∈ ev.reads e, ¬ IsTemporary x := by decide +kernel
  have ha : crossing.valueIn? ev s 4 = some 2 := by decide +kernel
  have hb : crossing.valueIn? ev s 1 = some 8 := by decide +kernel
  have hall : ¬ ∃ p ∈ [("a", 0), ("b", 1), ("a", 4)], crossing.valueIn? ev s p.2 = none := by
    decide +kernel
  obtain ⟨statements, t', hbuilt, hnone, hassigned⟩ :=
    multiAssign_is_parallel ev crossing _ s htargets hvalues
  obtain ⟨s', hs'⟩ := Option.ne_none_iff_exists'.mp (hnone.not.mpr hall)
  obtain ⟨hlast, hother⟩ := hassigned s' hs'
  have hsa := hlast [("a", 0), ("b", 1)] "a" 4 [] rfl (by simp)
  have hsb := hlast [("a", 0)] "b" 1 [("a", 4)] rfl (by simp)
  have hsc := hother "c" (by simp) (by decide +kernel)
  rw [ha] at hsa
  rw [hb] at hsb
  exact ⟨statements, t', s', hbuilt, hs', (Option.some.inj hsa).symm, (Option.some.inj hsb).symm, hsc⟩

end Builder

end Arbor
