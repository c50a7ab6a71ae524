import Arbor.Proofs.Region
import Arbor.Tree.WellFormed

/-!
The check of a tree decides well-formedness.

`Scans` is the loop of the check without a bound on its turns; a derivation is a run that ends.
Every run does, because an id is visited once and visited ids resolve. What the loop accepts is
exactly a well-linked region whose nodes satisfy the local conditions.
-/
namespace Arbor

namespace Node

def OperatorSuits : Node → Prop
  | .unary op _ => op.isUnary
  | .binary _ op _ => op.isBinary
  | .augAssign _ op _ => op.isAugmentable
  | _ => True

/-- The children that must be expressions. -/
def operands : Node → List NodeId
  | .unary _ arg => [arg]
  | .binary left _ right => [left, right]
  | .augAssign target _ value => [target, value]
  | .ternary cond thenValue elseValue => [cond, thenValue, elseValue]
  | .cast _ value => [value]
  | .call func args _ => func :: args
  | _ => []

def parameters : Node → List NodeId
  | .function _ _ params _ _ _ => params
  | _ => []

def files : Node → List NodeId
  | .project files => files
  | _ => []

end Node

namespace Tree

/-- The id resolves to a node of this kind. -/
def Is (t : Tree) (id : NodeId) (kind : Node → Bool) : Prop := ∃ node, t.get? id = some node ∧ kind node

structure WellFormed (t : Tree) (root : NodeId) : Prop where
  region : t.WellLinked root
  operator : ∀ id node, t.Reach root id → t.get? id = some node → node.OperatorSuits
  operand : ∀ id node, t.Reach root id → t.get? id = some node →
    ∀ c ∈ node.operands, t.Is c fun n => n.isExpression || n.isCustom
  parameter : ∀ id node, t.Reach root id → t.get? id = some node →
    ∀ c ∈ node.parameters, t.Is c Node.isSymbol
  file : ∀ id node, t.Reach root id → t.get? id = some node →
    ∀ c ∈ node.files, t.Is c Node.isFile
  project_place : ∀ id, t.Reach root id → t.Is id Node.isProject → id = root
  file_place : ∀ id, t.Reach root id → t.Is id Node.isFile →
    id = root ∨ ∃ p, t.Reach root p ∧ t.Is p Node.isProject ∧ t.Child p id

def inspect (t : Tree) (root id : NodeId) : Except TreeError Node := do
  let node ← t.node id
  t.checkNode root id node
  checkEach (t.checkChild id) node.children
  return node

/-- The loop of the check, from the ids seen and the ids to visit to its answer. -/
inductive Scans (t : Tree) (root : NodeId) :
    (seen stack : List NodeId) → Except TreeError Unit → Prop where
  | done (seen) : Scans t root seen [] (.ok ())
  | again {seen id stack} : id ∈ seen →
      Scans t root seen (id :: stack) (.error (.shared (t.kind id) id))
  | refuse {seen id stack e} : id ∉ seen → t.inspect root id = .error e →
      Scans t root seen (id :: stack) (.error e)
  | visit {seen id stack node r} : id ∉ seen → t.inspect root id = .ok node →
      Scans t root (id :: seen) (node.children.reverse ++ stack) r →
      Scans t root seen (id :: stack) r

theorem get?_of_inspect {t : Tree} {root id : NodeId} {node : Node}
    (h : t.inspect root id = .ok node) : t.get? id = some node := by
  obtain ⟨n, hn, h⟩ := bind_eq_ok.mp h
  obtain ⟨_, _, h⟩ := bind_eq_ok.mp h
  obtain ⟨_, _, h⟩ := bind_eq_ok.mp h
  cases h
  exact node_eq_ok.mp hn

theorem checkReachable_succ (t : Tree) (root : NodeId) (count : Nat) (seen : List NodeId)
    (id : NodeId) (stack : List NodeId) :
    t.checkReachable root (count + 1) seen (id :: stack) =
      if id ∈ seen then .error (.shared (t.kind id) id)
      else t.inspect root id >>= fun node =>
        t.checkReachable root count (id :: seen) (node.children.reverse ++ stack) := by
  simp only [checkReachable, List.contains_eq_mem, decide_eq_true_eq, inspect, bind_assoc,
    pure_bind]

/-- Distinct ids that resolve were seen, one in each turn, so the count outlasts them. -/
theorem checkReachable_scans (t : Tree) (root : NodeId) (count : Nat) (seen stack : List NodeId)
    (hn : seen.Nodup) (hs : ∀ id ∈ seen, id < t.size) (hc : t.size < seen.length + count) :
    t.Scans root seen stack (t.checkReachable root count seen stack) := by
  induction count generalizing seen stack with
  | zero =>
    have := length_le_size hn hs
    omega
  | succ count ih =>
    cases stack with
    | nil => exact .done seen
    | cons id stack =>
      rw [checkReachable_succ]
      by_cases hm : id ∈ seen
      · rw [if_pos hm]
        exact .again hm
      rw [if_neg hm]
      cases hi : t.inspect root id with
      | error e => exact .refuse hm hi
      | ok node =>
        refine .visit hm hi (ih _ _ (List.nodup_cons.mpr ⟨hm, hn⟩) ?_ (by simp; omega))
        intro x hx
        rcases List.mem_cons.mp hx with rfl | hx
        · exact lt_size_of_get? (get?_of_inspect hi)
        · exact hs x hx

theorem validate_scans (t : Tree) (root : NodeId) :
    t.Scans root [] [root] (t.validate root) := by
  have h := checkReachable_scans t root (t.size + 1) [] [root] List.nodup_nil (by simp) (by simp)
  unfold validate
  cases hr : t.node root with
  | error e =>
    refine .refuse (by simp) ?_
    simp only [inspect, hr]
    rfl
  | ok node => exact h

theorem checkEach_eq_ok {check : NodeId → Except TreeError Unit} {ids : List NodeId} :
    checkEach check ids = .ok () ↔ ∀ id ∈ ids, check id = .ok () := by
  induction ids with
  | nil => simp [checkEach]
  | cons id rest ih => simp [checkEach, seq_eq_ok, ih]

theorem ite_eq_ok {c : Prop} [Decidable c] {e : TreeError} :
    (if c then .ok () else .error e : Except TreeError Unit) = .ok () ↔ c := by
  split <;> simp_all

theorem expectExpression_eq_ok {t : Tree} {id : NodeId} :
    t.expectExpression id = .ok () ↔ t.Is id fun n => n.isExpression || n.isCustom := by
  simp only [expectExpression, bind_eq_ok, node_eq_ok, ite_eq_ok, Is]

theorem expectFile_eq_ok {t : Tree} {id : NodeId} :
    t.expectFile id = .ok () ↔ t.Is id Node.isFile := by
  simp only [expectFile, bind_eq_ok, node_eq_ok, ite_eq_ok, Is]

theorem expectSymbol_eq_ok {t : Tree} {id : NodeId} :
    t.expectSymbol id = .ok () ↔ t.Is id Node.isSymbol := by
  simp only [expectSymbol, bind_eq_ok, node_eq_ok, ite_eq_ok, Is]

theorem expectNoProject_eq_ok {t : Tree} {id : NodeId} :
    t.expectNoProject id = .ok () ↔ ¬ t.Is id Node.isProject := by
  unfold expectNoProject Is
  split
  · next files hf => simp [hf, Node.isProject]
  · next hf =>
    simp only [true_iff, not_exists, not_and]
    intro node hn hp
    cases node <;> simp_all [Node.isProject]

theorem checkChild_eq_ok {t : Tree} {holder child : NodeId} :
    t.checkChild holder child = .ok () ↔
      (∃ node, t.get? child = some node) ∧ t.parent? child = some holder := by
  simp [checkChild, bind_eq_ok, node_eq_ok]

theorem underProject_iff {t : Tree} {id : NodeId} :
    t.underProject id ↔ ∃ p, t.parent? id = some p ∧ t.Is p Node.isProject := by
  unfold underProject Is
  cases t.parent? id with
  | none => simp
  | some p => cases hp : t.get? p <;> simp [hp]

theorem checkOperands_eq_ok {t : Tree} {id : NodeId} {node : Node} :
    t.checkOperands id node = .ok () ↔ node.OperatorSuits ∧
      (∀ c ∈ node.operands, t.Is c fun n => n.isExpression || n.isCustom) ∧
      ∀ c ∈ node.parameters, t.Is c Node.isSymbol := by
  cases node <;>
    simp [checkOperands, seq_eq_ok, checkEach_eq_ok, expectExpression_eq_ok,
      expectSymbol_eq_ok, Node.OperatorSuits, Node.operands, Node.parameters]

theorem checkNode_eq_ok {t : Tree} {root id : NodeId} {node : Node} :
    t.checkNode root id node = .ok () ↔ node.OperatorSuits ∧
      (∀ c ∈ node.operands, t.Is c fun n => n.isExpression || n.isCustom) ∧
      (∀ c ∈ node.parameters, t.Is c Node.isSymbol) ∧
      (∀ c ∈ node.files, t.Is c Node.isFile) ∧
      (node.isProject → id = root) ∧ (node.isFile → id = root ∨ t.underProject id) ∧
      (id = root ∨ ∀ c ∈ node.children, ¬ t.Is c Node.isProject) := by
  have hlast : (if id = root then (.ok () : Except TreeError Unit)
      else checkEach t.expectNoProject node.children) = .ok () ↔
      (id = root ∨ ∀ c ∈ node.children, ¬ t.Is c Node.isProject) := by
    split
    · next h => simp [h]
    · next h => simp [h, checkEach_eq_ok, expectNoProject_eq_ok]
  unfold checkNode
  cases node with
  | project files =>
    by_cases h : id = root
    · simp [h, seq_eq_ok, checkEach_eq_ok, expectFile_eq_ok, Node.OperatorSuits, Node.operands,
        Node.parameters, Node.files, Node.isFile]
    · simp [h, seq_eq_ok, Node.isProject]
  | file name body =>
    by_cases h : id = root
    · simp [h, seq_eq_ok, Node.OperatorSuits, Node.operands, Node.parameters, Node.files,
        Node.isProject]
    · by_cases hu : t.underProject id
      · simp [h, hu, seq_eq_ok, checkEach_eq_ok, expectNoProject_eq_ok, Node.OperatorSuits,
          Node.operands, Node.parameters, Node.files, Node.isProject]
      · simp [h, hu, seq_eq_ok, Node.isFile]
  | _ =>
    simp only [seq_eq_ok, hlast, checkOperands_eq_ok]
    simp [Node.files, Node.isProject, Node.isFile, and_assoc]

theorem inspect_eq_ok {t : Tree} {root id : NodeId} {node : Node} :
    t.inspect root id = .ok node ↔ t.get? id = some node ∧ t.checkNode root id node = .ok () ∧
      ∀ c ∈ node.children, (∃ n, t.get? c = some n) ∧ t.parent? c = some id := by
  have hchildren : checkEach (t.checkChild id) node.children = .ok () ↔
      ∀ c ∈ node.children, (∃ n, t.get? c = some n) ∧ t.parent? c = some id := by
    simp only [checkEach_eq_ok, checkChild_eq_ok]
  rw [← hchildren]
  constructor
  · intro h
    obtain ⟨n, hn, h⟩ := bind_eq_ok.mp h
    obtain ⟨hk, h⟩ := seq_eq_ok.mp h
    obtain ⟨hc, h⟩ := seq_eq_ok.mp h
    cases h
    exact ⟨node_eq_ok.mp hn, hk, hc⟩
  · rintro ⟨hn, hk, hc⟩
    refine bind_eq_ok.mpr ⟨node, node_eq_ok.mpr hn, ?_⟩
    exact seq_eq_ok.mpr ⟨hk, seq_eq_ok.mpr ⟨hc, rfl⟩⟩

/-- A loop that accepts has visited some ids once each, and pushed just these: the ids it started
from and the children of all it visited. -/
theorem Scans.visited {t : Tree} {root : NodeId} {seen stack : List NodeId}
    (h : t.Scans root seen stack (.ok ())) :
    ∃ visited : List NodeId, visited.Nodup ∧ (∀ id ∈ visited, id ∉ seen) ∧
      visited.Perm (stack ++ visited.flatMap t.childrenOf) ∧
      ∀ id ∈ visited, ∃ node, t.inspect root id = .ok node := by
  generalize hr : (Except.ok () : Except TreeError Unit) = r at h
  induction h with
  | done => exact ⟨[], by simp⟩
  | again => cases hr
  | refuse => cases hr
  | @visit seen id stack node r hm hi _ ih =>
    obtain ⟨visited, hn, hd, hp, hv⟩ := ih hr
    have hc := childrenOf_eq (get?_of_inspect hi)
    refine ⟨id :: visited, ?_, ?_, ?_, ?_⟩
    · exact List.nodup_cons.mpr ⟨fun hx => hd id hx (by simp), hn⟩
    · intro x hx
      rcases List.mem_cons.mp hx with rfl | hx
      · exact hm
      · exact fun hs => hd x hx (List.mem_cons_of_mem _ hs)
    · rw [List.flatMap_cons, hc, List.cons_append]
      refine List.Perm.cons id (hp.trans ?_)
      rw [← List.append_assoc stack]
      exact (((List.reverse_perm _).append_right _).trans List.perm_append_comm).append_right _
    · intro x hx
      rcases List.mem_cons.mp hx with rfl | hx
      · exact ⟨node, hi⟩
      · exact hv x hx

theorem Scans.inspected {t : Tree} {root : NodeId} (h : t.Scans root [] [root] (.ok ())) :
    t.WellLinked root ∧ ∀ id, t.Reach root id → ∃ node, t.inspect root id = .ok node := by
  obtain ⟨visited, hn, -, hp, hv⟩ := h.visited
  have closed : ∀ id, t.Reach root id → id ∈ visited := by
    intro id hr
    induction hr with
    | refl => exact hp.mem_iff.mpr (by simp)
    | tail _ hc ih =>
      refine hp.mem_iff.mpr (List.mem_append_right _ ?_)
      exact List.mem_flatMap.mpr ⟨_, ih, hc⟩
  have hnodup := hp.nodup_iff.mp hn
  rw [List.singleton_append, List.nodup_cons, List.nodup_flatMap] at hnodup
  obtain ⟨htop, hnodup, -⟩ := hnodup
  refine ⟨wellLinked_of_links ?_ ?_ ?_ ?_, fun id hr => hv id (closed id hr)⟩
  · intro id hr
    obtain ⟨node, hi⟩ := hv id (closed id hr)
    exact ⟨node, get?_of_inspect hi⟩
  · intro p c hr hc
    obtain ⟨node, hi⟩ := hv p (closed p hr)
    rw [Child, childrenOf_eq (get?_of_inspect hi)] at hc
    exact ((inspect_eq_ok.mp hi).2.2 c hc).2
  · exact fun p hr => hnodup p (closed p hr)
  · exact fun p hr hc => htop (List.mem_flatMap.mpr ⟨p, closed p hr, hc⟩)

/-- Over a well-linked region of nodes that pass inspection, nothing comes up twice: what was
pushed is the root or has its holder among the ids seen. -/
theorem Scans.accepts {t : Tree} {root : NodeId} (hl : t.WellLinked root)
    (hi : ∀ id, t.Reach root id → ∃ node, t.inspect root id = .ok node)
    {seen stack : List NodeId} {r : Except TreeError Unit} (h : t.Scans root seen stack r)
    (hn : (seen ++ stack).Nodup) (hr : ∀ id ∈ seen ++ stack, t.Reach root id)
    (ho : ∀ id ∈ seen ++ stack, id = root ∨ ∃ p ∈ seen, t.Child p id) : r = .ok () := by
  induction h with
  | done => rfl
  | again hm => exact absurd (List.nodup_append.mp hn).2.2 (fun hd => hd _ hm _ (by simp) rfl)
  | @refuse seen id stack e hm he =>
    obtain ⟨node, hok⟩ := hi id (hr id (by simp))
    rw [he] at hok
    cases hok
  | @visit seen id stack node r hm hok _ ih =>
    have hid := hr id (by simp)
    have hc := childrenOf_eq (get?_of_inspect hok)
    have hfresh : ∀ c ∈ node.children, c ∉ seen ++ id :: stack := by
      intro c hm' hx
      rw [← hc] at hm'
      rcases ho c hx with rfl | ⟨p, hp, hpc⟩
      · exact hl.root_not_child hid hm'
      · have h₁ := hl.linked p c (hr p (List.mem_append_left _ hp)) hpc
        have h₂ := hl.linked id c hid hm'
        rw [h₁] at h₂
        cases h₂
        exact hm hp
    have hsplit : (id :: seen ++ (node.children.reverse ++ stack)).Perm
        (node.children ++ (seen ++ id :: stack)) := by
      have h₁ : (id :: seen ++ (node.children.reverse ++ stack)).Perm
          (node.children.reverse ++ (id :: seen ++ stack)) := List.perm_append_comm_assoc _ _ _
      have h₂ : (id :: seen ++ stack).Perm (seen ++ id :: stack) := List.perm_middle.symm
      exact h₁.trans (((List.reverse_perm _).append_right _).trans (h₂.append_left _))
    refine ih ?_ ?_ ?_
    · rw [hsplit.nodup_iff, List.nodup_append]
      exact ⟨hc ▸ hl.children_nodup hid, hn, fun c hc' x hx he => hfresh c hc' (he ▸ hx)⟩
    · intro x hx
      rcases List.mem_append.mp (hsplit.mem_iff.mp hx) with hx | hx
      · exact hid.tail (by rw [Child, hc]; exact hx)
      · exact hr x hx
    · intro x hx
      rcases List.mem_append.mp (hsplit.mem_iff.mp hx) with hx | hx
      · exact Or.inr ⟨id, by simp, by rw [Child, hc]; exact hx⟩
      · rcases ho x hx with rfl | ⟨p, hp, hpx⟩
        · exact Or.inl rfl
        · exact Or.inr ⟨p, List.mem_cons_of_mem _ hp, hpx⟩

theorem validate_eq_ok_iff {t : Tree} {root : NodeId} :
    t.validate root = .ok () ↔ t.WellLinked root ∧
      ∀ id, t.Reach root id → ∃ node, t.inspect root id = .ok node := by
  have hs := validate_scans t root
  constructor
  · intro h
    rw [h] at hs
    exact hs.inspected
  · rintro ⟨hl, hi⟩
    refine hs.accepts hl hi (by simp) ?_ (by simp)
    intro id hm
    obtain rfl : id = root := by simpa using hm
    exact .refl

theorem wellFormed_of_inspected {t : Tree} {root : NodeId} (hl : t.WellLinked root)
    (hi : ∀ id, t.Reach root id → ∃ node, t.inspect root id = .ok node) : t.WellFormed root := by
  have checked : ∀ id node, t.Reach root id → t.get? id = some node →
      t.checkNode root id node = .ok () := by
    intro id node hr hn
    obtain ⟨n, hok⟩ := hi id hr
    obtain ⟨hn', hk, -⟩ := inspect_eq_ok.mp hok
    cases hn.symm.trans hn'
    exact hk
  refine ⟨hl, ?_, ?_, ?_, ?_, ?_, ?_⟩
  · intro id node hr hn
    exact (checkNode_eq_ok.mp (checked id node hr hn)).1
  · intro id node hr hn
    exact (checkNode_eq_ok.mp (checked id node hr hn)).2.1
  · intro id node hr hn
    exact (checkNode_eq_ok.mp (checked id node hr hn)).2.2.1
  · intro id node hr hn
    exact (checkNode_eq_ok.mp (checked id node hr hn)).2.2.2.1
  · rintro id hr ⟨node, hn, hp⟩
    exact (checkNode_eq_ok.mp (checked id node hr hn)).2.2.2.2.1 hp
  · rintro id hr ⟨node, hn, hf⟩
    rcases (checkNode_eq_ok.mp (checked id node hr hn)).2.2.2.2.2.1 hf with he | hu
    · exact Or.inl he
    -- the last step to the file comes from the project that its parent link names
    obtain ⟨p, hp, hpp⟩ := underProject_iff.mp hu
    rcases Relation.ReflTransGen.cases_tail hr with he | ⟨q, hq, hqi⟩
    · exact Or.inl he
    · have hlink := hl.linked q id hq hqi
      rw [hp] at hlink
      cases hlink
      exact Or.inr ⟨p, hq, hpp, hqi⟩

theorem WellFormed.inspected {t : Tree} {root : NodeId} (h : t.WellFormed root) {id : NodeId}
    (hr : t.Reach root id) : ∃ node, t.inspect root id = .ok node := by
  obtain ⟨node, hn⟩ := h.region.resolves id hr
  refine ⟨node, inspect_eq_ok.mpr ⟨hn, checkNode_eq_ok.mpr ?_, ?_⟩⟩
  · refine ⟨h.operator id node hr hn, h.operand id node hr hn, h.parameter id node hr hn,
      h.file id node hr hn, fun hp => h.project_place id hr ⟨node, hn, hp⟩, ?_, ?_⟩
    · intro hf
      rcases h.file_place id hr ⟨node, hn, hf⟩ with he | ⟨p, hp, hpp, hpi⟩
      · exact Or.inl he
      · exact Or.inr (underProject_iff.mpr ⟨p, h.region.linked p id hp hpi, hpp⟩)
    · refine Or.inr fun c hc hp => ?_
      obtain ⟨hrc, -⟩ := h.region.node_of_reach hr hn hc
      obtain rfl := h.project_place c hrc hp
      exact h.region.root_not_child hr (by rw [Child, childrenOf_eq hn]; exact hc)
  · intro c hc
    obtain ⟨hrc, hpc⟩ := h.region.node_of_reach hr hn hc
    exact ⟨h.region.resolves c hrc, hpc⟩

theorem wellFormed_of_validate {t : Tree} {root : NodeId} (h : t.validate root = .ok ()) :
    t.WellFormed root := by
  obtain ⟨hl, hi⟩ := validate_eq_ok_iff.mp h
  exact wellFormed_of_inspected hl hi

theorem WellFormed.validate_ok {t : Tree} {root : NodeId} (h : t.WellFormed root) :
    t.validate root = .ok () :=
  validate_eq_ok_iff.mpr ⟨h.region, fun _ hr => h.inspected hr⟩

/-- The check ends on every tree, also on one that shares nodes or leads back to itself, and
accepts exactly the well-formed ones. -/
theorem validate_decides_well_formedness (t : Tree) (root : NodeId) :
    t.Scans root [] [root] (t.validate root) ∧
    (t.validate root = .ok () ↔ t.WellFormed root) :=
  ⟨validate_scans t root, wellFormed_of_validate, WellFormed.validate_ok⟩

end Tree
end Arbor
