import Arbor.Proofs.Grammar.Statement
import Arbor.Proofs.ReadBack

/-!
Rendered statements read back.

`statement?` takes the statement under an id out of its arena. The renderer puts the bodies of
loops and branches in braces, whether they are blocks or not, and leaves an `if` in the place of an
`else` as it is; `Stmt.braced` does the same to a statement. A line of the text stands for its
statement whatever follows it (`Grammar.Standing`), and the lines of a block stand for its
statements with the braces added.
-/
namespace Arbor

open Grammar
open Precedence (rank)

namespace Stmt

def isBlock : Stmt → Bool
  | .block _ => true
  | _ => false

def isBranch : Stmt → Bool
  | .ifThen _ _ | .ifElse _ _ _ => true
  | _ => false

def inBlock (s : Stmt) : Stmt := if s.isBlock then s else .block [s]

/-- The statement behind an `else`. -/
def inElse (s : Stmt) : Stmt := if s.isBranch then s else s.inBlock

mutual
/-- The statement with a block around every body that is none, except for an `if` behind an
`else`. -/
def braced : Stmt → Stmt
  | .block items => .block (bracedAll items)
  | .ifThen cond thenBody => .ifThen cond thenBody.braced.inBlock
  | .ifElse cond thenBody elseBody => .ifElse cond thenBody.braced.inBlock elseBody.braced.inElse
  | .whileLoop cond body => .whileLoop cond body.braced.inBlock
  | .doWhile body cond => .doWhile body.braced.inBlock cond
  | .forLoop init test incr body => .forLoop init test incr body.braced.inBlock
  | .ret value => .ret value
  | .breakLoop => .breakLoop
  | .continueLoop => .continueLoop
  | .empty => .empty
  | .expression value => .expression value
def bracedAll : List Stmt → List Stmt
  | [] => []
  | s :: rest => s.braced :: bracedAll rest
end

theorem bracedAll_eq_map (ss : List Stmt) : bracedAll ss = ss.map braced := by
  induction ss with
  | nil => rfl
  | cons s ss ih => rw [bracedAll, ih, List.map_cons]

@[simp] theorem isBlock_braced (s : Stmt) : s.braced.isBlock = s.isBlock := by
  cases s <;> rfl

@[simp] theorem isBranch_braced (s : Stmt) : s.braced.isBranch = s.isBranch := by
  cases s <;> rfl

theorem endsOpen_inBlock (s : Stmt) : s.inBlock.endsOpen = false := by
  unfold inBlock
  split
  · next h => cases s <;> first | rfl | cases h
  · rfl

end Stmt

namespace Node

def isControl : Node → Bool
  | .block _ | .branch _ _ _ | .whileLoop _ _ | .doWhile _ _ | .forLoop _ _ _ _ | .ret _
  | .breakLoop | .continueLoop | .pass => true
  | _ => false

def isBlock : Node → Bool
  | .block _ => true
  | _ => false

/-- The children of a statement that are expressions: conditions, the clauses of a loop head and
values to return. -/
def clauses : Node → List NodeId
  | .branch cond _ _ => [cond]
  | .whileLoop cond _ => [cond]
  | .doWhile _ cond => [cond]
  | .forLoop init test incr _ => init.toList ++ test.toList ++ incr.toList
  | .ret value => value.toList
  | _ => []

theorem precedence?_of_isControl {node : Node} (h : node.isControl) : node.precedence? = none := by
  cases node <;> first | rfl | cases h

theorem encloses_of_isControl {node : Node} (h : node.isControl) (c : NodeId) (own : Precedence) :
    node.encloses c own = false := by
  cases node <;> first | rfl | cases h

end Node

namespace Tree

def statementTo (t : Tree) : (depth : Nat) → NodeId → Option Stmt
  | 0, _ => none
  | depth + 1, id =>
    match t.get? id with
    | some (.block ids) => do return .block (← ids.mapM (t.statementTo depth))
    | some (.branch cond thenBody none) => do
      return .ifThen (← t.expressionTo depth cond) (← t.statementTo depth thenBody)
    | some (.branch cond thenBody (some elseBody)) => do
      return .ifElse (← t.expressionTo depth cond) (← t.statementTo depth thenBody)
        (← t.statementTo depth elseBody)
    | some (.whileLoop cond body) => do
      return .whileLoop (← t.expressionTo depth cond) (← t.statementTo depth body)
    | some (.doWhile body cond) => do
      return .doWhile (← t.statementTo depth body) (← t.expressionTo depth cond)
    | some (.forLoop init test incr body) => do
      return .forLoop (← init.mapM (t.expressionTo depth)) (← test.mapM (t.expressionTo depth))
        (← incr.mapM (t.expressionTo depth)) (← t.statementTo depth body)
    | some (.ret value) => do return .ret (← value.mapM (t.expressionTo depth))
    | some .breakLoop => some .breakLoop
    | some .continueLoop => some .continueLoop
    | some .pass => some .empty
    | _ => do return .expression (← t.expressionTo (depth + 1) id)

/-- The statement under an id; the types that calls are annotated with are left out. -/
def statement? (t : Tree) (id : NodeId) : Option Stmt := t.statementTo (t.size + 1) id

/-- An accepted block of nothing but statements and readable expressions, in which the clauses of
statements are expressions. Whether it stands in another node does not matter. -/
structure ReadableBlock (t : Tree) (root : NodeId) (ids : List NodeId) : Prop where
  valid : t.validate root = .ok ()
  block : t.get? root = some (.block ids)
  node : ∀ id node, t.Reach root id → t.get? id = some node → node.isControl || node.isReadable
  clause : ∀ id node, t.Reach root id → t.get? id = some node →
    ∀ c ∈ node.clauses, t.Is c Node.isExpression
  member : ∀ id left op right, t.Reach root id → t.get? id = some (.binary left op right) →
    op.isMember → ∃ name, t.get? right = some (.symbol name none false)
  point : ∀ id left right v, t.Reach root id → t.get? id = some (.binary left .dot right) →
    t.get? left ≠ some (.constant v)

/-- With more levels an expression stays what it is. -/
theorem expressionTo_succ {t : Tree} {depth : Nat} {id : NodeId} {e : Expr}
    (h : t.expressionTo depth id = some e) : t.expressionTo (depth + 1) id = some e := by
  induction depth generalizing id e with
  | zero => cases h
  | succ depth ih =>
    rw [expressionTo] at h ⊢
    -- by the number of operands
    split at h
    case h_1 | h_2 => exact h
    case h_3 | h_7 =>
      obtain ⟨e₁, h₁, he⟩ := Option.bind_eq_some_iff.mp h
      exact Option.bind_eq_some_iff.mpr ⟨e₁, ih h₁, he⟩
    case h_4 | h_5 =>
      simp only [Option.bind_eq_bind, Option.bind_eq_some_iff] at h ⊢
      obtain ⟨e₁, h₁, e₂, h₂, he⟩ := h
      exact ⟨e₁, ih h₁, e₂, ih h₂, he⟩
    case h_6 =>
      simp only [Option.bind_eq_bind, Option.bind_eq_some_iff] at h ⊢
      obtain ⟨e₁, h₁, e₂, h₂, e₃, h₃, he⟩ := h
      exact ⟨e₁, ih h₁, e₂, ih h₂, e₃, ih h₃, he⟩
    case h_8 =>
      simp only [Option.bind_eq_bind, Option.bind_eq_some_iff] at h ⊢
      obtain ⟨e₁, h₁, es, hs, he⟩ := h
      exact ⟨e₁, ih h₁, es, mapM_of_le (fun _ _ => ih) hs, he⟩
    case h_9 => cases h

theorem expressionTo_mono {t : Tree} {n m : Nat} {id : NodeId} {e : Expr}
    (h : t.expressionTo n id = some e) (hle : n ≤ m) : t.expressionTo m id = some e := by
  induction m, hle using Nat.le_induction with
  | base => exact h
  | succ m _ ih => exact expressionTo_succ ih

end Tree

namespace Grammar

open Token

/-- Whatever follows, the text is this statement. -/
def Standing (text : String) (s : Stmt) : Prop :=
  ∃ ts, Spells (fun _ => True) text.toList ts ∧ Forms ts s

def StandingAll (text : String) (ss : List Stmt) : Prop :=
  ∃ items : List (List Token × Stmt), items.map Prod.snd = ss ∧ (∀ i ∈ items, Forms i.1 i.2) ∧
    Spells (fun _ => True) text.toList (items.map Prod.fst).flatten

def PlacedClause (text : String) (value : Option Expr) : Prop :=
  ∃ ts, Spells (· ∈ closers) text.toList ts ∧ Clause ts value

theorem spells_indentation {stop : Char → Prop} (level : Nat) :
    Spells stop (indentation level).toList [] := by
  intro rest _
  rw [indentation, String.toList_ofList]
  induction 4 * level with
  | zero => rfl
  | succ n ih => exact ih

theorem spells_openBrace : Spells (fun _ => True) ['\x7b'] [openBrace] :=
  spells_sealed (by decide) fun _ => rfl

theorem spells_closeBrace : Spells (fun _ => True) ['\x7d'] [closeBrace] :=
  spells_sealed (by decide) fun _ => rfl

theorem spells_semicolon : Spells (fun _ => True) [';'] [semicolon] :=
  spells_sealed (by decide) fun _ => rfl

theorem spells_head {word : String} {text : List Char}
    (h : ∀ rest, lex (text ++ rest) = [reserved word] ++ lexFrom (some openParen) rest) :
    Spells (fun _ => True) text [reserved word, openParen] :=
  .of_last h fun c _ => extend?_sealed (by decide) c

theorem spells_closeHead : Spells (fun _ => True) [')', ' '] [closeParen] := fun _ _ => rfl

theorem spells_conditional {word head c body : String} {ts us : List Token}
    (hh : Spells (fun _ => True) head.toList [reserved word, openParen])
    (hc : Spells (· ∈ closers) c.toList ts) (hb : Spells (fun _ => True) body.toList us) :
    Spells (fun _ => True) (head ++ c ++ ") " ++ body).toList
      (reserved word :: openParen :: (ts ++ closeParen :: us)) := by
  have hall := hh.append_any (hc.between spells_closeHead hb rfl (by decide))
  simpa using hall

theorem spells_if : Spells (fun _ => True) "if (".toList [reserved "if", openParen] :=
  spells_head fun _ => rfl

theorem PlacedClause.spaced {text : String} {value : Option Expr} (h : PlacedClause text value) :
    PlacedClause (Renderer.spaced text) value := by
  obtain ⟨ts, hspell, hclause⟩ := h
  unfold Renderer.spaced
  split
  · exact ⟨ts, hspell, hclause⟩
  · refine ⟨ts, ?_, hclause⟩
    have hall := Spells.blank.append_any hspell
    simpa using hall

section

variable {c line body elseText others lines i t n : String} {e : Expr} {s s' : Stmt}
  {ss : List Stmt} {value init test incr : Option Expr}

theorem standingAll_nil : StandingAll "" [] := ⟨[], rfl, nofun, .nil⟩

theorem standingAll_cons (indent : Nat) (h : Standing line s) (ho : StandingAll others ss) :
    StandingAll (indentation indent ++ line ++ "\n" ++ others) (s :: ss) := by
  obtain ⟨ts, hspell, hf⟩ := h
  obtain ⟨items, rfl, hforms, hrest⟩ := ho
  refine ⟨(ts, s) :: items, rfl, List.forall_mem_cons.mpr ⟨hf, hforms⟩, ?_⟩
  have hbreak : Spells (fun _ => True) ['\n'] [] := fun _ _ => rfl
  have hall := (spells_indentation indent).append_any (hspell.append_any (hbreak.append_any hrest))
  simpa using hall

theorem standing_noItems : Standing "\x7b\x7d" (.block []) :=
  ⟨_, spells_openBrace.append_any spells_closeBrace, @Forms.block [] nofun⟩

theorem standing_block (indent : Nat) (h : StandingAll lines ss) :
    Standing ("\x7b\n" ++ lines ++ indentation indent ++ "\x7d") (.block ss) := by
  obtain ⟨items, rfl, hforms, hspell⟩ := h
  refine ⟨_, ?_, .block hforms⟩
  have hbreak : Spells (fun _ => True) ['\n'] [] := fun _ _ => rfl
  have hall := spells_openBrace.append_any (hbreak.append_any (hspell.append_any
    ((spells_indentation indent).append_any spells_closeBrace)))
  simpa using hall

theorem standing_ifThen (hc : Placed (· ∈ closers) (rank .comma) c e) (hb : Standing body s) :
    Standing ("if (" ++ c ++ ") " ++ body) (.ifThen e s) := by
  obtain ⟨ts, hspell, hd⟩ := hc
  obtain ⟨us, hbody, hf⟩ := hb
  exact ⟨_, spells_conditional spells_if hspell hbody, .ifThen hd hf⟩

theorem standing_ifElse (hc : Placed (· ∈ closers) (rank .comma) c e) (hb : Standing body s)
    (ho : s.endsOpen = false) (he : Standing elseText s') :
    Standing ("if (" ++ c ++ ") " ++ body ++ (" else " ++ elseText)) (.ifElse e s s') := by
  obtain ⟨ts, hspell, hd⟩ := hc
  obtain ⟨us, hbody, hf⟩ := hb
  obtain ⟨vs, helse, hf'⟩ := he
  have hword : Spells (fun _ => True) " else ".toList [reserved "else"] := fun _ _ => rfl
  have hboth : Spells (fun _ => True) (body ++ (" else " ++ elseText)).toList
      (us ++ reserved "else" :: vs) := by
    have hall := hbody.append_any (hword.append_any helse)
    simpa using hall
  rw [String.append_assoc]
  exact ⟨_, spells_conditional spells_if hspell hboth, .ifElse hd hf ho hf'⟩

theorem standing_whileLoop (hc : Placed (· ∈ closers) (rank .comma) c e) (hb : Standing body s) :
    Standing ("while (" ++ c ++ ") " ++ body) (.whileLoop e s) := by
  obtain ⟨ts, hspell, hd⟩ := hc
  obtain ⟨us, hbody, hf⟩ := hb
  have hwhile : Spells (fun _ => True) "while (".toList [reserved "while", openParen] :=
    spells_head fun _ => rfl
  exact ⟨_, spells_conditional hwhile hspell hbody, .whileLoop hd hf⟩

theorem standing_doWhile (hb : Standing body s) (hc : Placed (· ∈ closers) (rank .comma) c e) :
    Standing ("do " ++ body ++ " while (" ++ c ++ ")" ++ ";") (.doWhile s e) := by
  obtain ⟨ts, hspell, hd⟩ := hc
  obtain ⟨us, hbody, hf⟩ := hb
  refine ⟨_, ?_, .doWhile hf hd⟩
  have hdo : Spells (fun _ => True) "do ".toList [reserved "do"] := fun _ _ => rfl
  have hwhile : Spells (fun _ => True) " while (".toList [reserved "while", openParen] :=
    spells_head fun _ => rfl
  have hall := hdo.append_any (hbody.append_any (hwhile.append_any
    (hspell.between spells_closeParen spells_semicolon rfl (by decide))))
  simpa using hall

theorem standing_forLoop (hi : PlacedClause i init) (ht : PlacedClause t test)
    (hn : PlacedClause n incr) (hb : Standing body s) :
    Standing ("for (" ++ i ++ ";" ++ Renderer.spaced t ++ ";" ++ Renderer.spaced n ++ ") " ++ body)
      (.forLoop init test incr s) := by
  obtain ⟨ts, hinit, hci⟩ := hi
  obtain ⟨us, htest, hct⟩ := ht.spaced
  obtain ⟨vs, hincr, hcn⟩ := hn.spaced
  obtain ⟨ws, hbody, hf⟩ := hb
  refine ⟨_, ?_, .forLoop hci hct hcn hf⟩
  have hfor : Spells (fun _ => True) "for (".toList [reserved "for", openParen] :=
    spells_head fun _ => rfl
  have hlast := hincr.between spells_closeHead hbody rfl (by decide)
  have hsecond := htest.between spells_semicolon hlast rfl (by decide)
  have hall := hfor.append_any (hinit.between spells_semicolon hsecond rfl (by decide))
  simpa using hall

theorem standing_ret (h : Placed (· ∈ closers) (rank .comma) c e) :
    Standing ("return " ++ c ++ ";") (.ret (some e)) := by
  obtain ⟨ts, hspell, hd⟩ := h
  refine ⟨_, ?_, .ret (.given hd)⟩
  have hreturn : Spells (fun _ => True) "return ".toList [reserved "return"] := fun _ _ => rfl
  have hall := hreturn.append_any (hspell.append spells_semicolon rfl (by decide))
  simpa using hall

theorem standing_word {word : String} (h : isName word.toList)
    (hf : Forms [reserved word, semicolon] s) : Standing (word ++ ";") s := by
  refine ⟨_, ?_, hf⟩
  have hall := (spells_word h).append spells_semicolon rfl (by decide)
  simpa [reserved] using hall

theorem standing_empty : Standing ("" ++ ";") .empty := ⟨_, spells_semicolon, .empty⟩

theorem standing_expression (h : Placed (· ∈ closers) (rank .comma) c e) :
    Standing (c ++ ";") (.expression e) := by
  obtain ⟨ts, hspell, hd⟩ := h
  refine ⟨_, ?_, .expression hd⟩
  have hall := hspell.append spells_semicolon rfl (by decide)
  simpa using hall

theorem StandingAll.reads (h : StandingAll lines ss) : ReadsStatements lines ss := by
  obtain ⟨items, hss, hforms, hspell⟩ := h
  exact ⟨items, hspell.lex_eq, hss, hforms⟩

end

end Grammar

namespace Renderer

variable {g : Renderer} {levels depth indent : Nat} {id : NodeId} {node : Node} {e : Expr}
  {s : Stmt}

def terminator (g : Renderer) (node : Node) : String := if g.isSelfTerminating node then "" else ";"

/-- An expression that stands in a statement, the same at every depth that is enough for it. -/
structure PrintsExpr (g : Renderer) (levels : Nat) (id : NodeId) (e : Expr) : Prop where
  expression : ∀ depth, levels ≤ depth → g.tree.expressionTo depth id = some e
  rendered : ∀ depth indent, levels ≤ depth → ∃ text, g.renderTo depth id indent = .ok text ∧
    Placed (· ∈ closers) (rank .comma) text e

structure PrintsClause (g : Renderer) (levels : Nat) (id : Option NodeId) (value : Option Expr) :
    Prop where
  expression : ∀ depth, levels ≤ depth → id.mapM (g.tree.expressionTo depth) = some value
  rendered : ∀ depth indent, levels ≤ depth → ∃ text,
    clause (g.renderTo depth) id indent = .ok text ∧ PlacedClause text value

/-- A statement, the same at every depth that is enough for it; its line stands for it with the
braces that the renderer adds. -/
structure PrintsStmt (g : Renderer) (levels : Nat) (id : NodeId) (node : Node) (s : Stmt) :
    Prop where
  found : g.tree.get? id = some node
  isBlock_eq : s.isBlock = node.isBlock
  isBranch_eq : s.isBranch = node.isBranch
  statement : ∀ depth, levels ≤ depth → g.tree.statementTo depth id = some s
  rendered : ∀ depth indent, levels ≤ depth → ∃ text, g.renderTo depth id indent = .ok text ∧
    Standing (text ++ g.terminator node) s.braced

structure PrintsAll (g : Renderer) (levels : Nat) (ids : List NodeId) (ss : List Stmt) : Prop where
  statements : ∀ depth, levels ≤ depth → ids.mapM (g.tree.statementTo depth) = some ss
  rendered : ∀ depth indent, levels ≤ depth → ∃ text,
    g.statementLines (g.renderTo depth) indent ids = .ok text ∧
      StandingAll text (ss.map Stmt.braced)

theorem node_eq_ok (h : g.tree.get? id = some node) : g.node id = .ok node := by
  simp only [Renderer.node, Tree.node_eq_ok.mpr h]

/-- Statements have no parentheses. -/
theorem renderTo_of_bare {text : String} (hn : g.tree.get? id = some node)
    (hc : node.precedence? = none) (h : g.bare (g.renderTo depth) id node indent = .ok text) :
    g.renderTo (depth + 1) id indent = .ok text := by
  have hparens : g.tree.needsParens id node = false := by simp [Tree.needsParens, hc]
  refine bind_eq_ok.mpr ⟨node, node_eq_ok hn, bind_eq_ok.mpr ⟨text, h, ?_⟩⟩
  simp [hparens, pure, Except.pure]

theorem printsAll_nil : g.PrintsAll levels [] [] :=
  ⟨fun _ _ => rfl, fun _ _ _ => ⟨"", rfl, standingAll_nil⟩⟩

theorem PrintsStmt.cons {ids : List NodeId} {ss : List Stmt} (h : g.PrintsStmt levels id node s)
    (hs : g.PrintsAll levels ids ss) : g.PrintsAll levels (id :: ids) (s :: ss) := by
  refine ⟨fun depth hd => ?_, fun depth indent hd => ?_⟩
  · simp [h.statement depth hd, hs.statements depth hd]
  · obtain ⟨text, hrender, hstanding⟩ := h.rendered depth indent hd
    obtain ⟨others, hlines, hall⟩ := hs.rendered depth indent hd
    refine ⟨_, bind_eq_ok.mpr ⟨text, hrender, bind_eq_ok.mpr ⟨node, node_eq_ok h.found,
      bind_eq_ok.mpr ⟨others, hlines, rfl⟩⟩⟩, ?_⟩
    have hcons := standingAll_cons indent hstanding hall
    simpa [String.append_assoc, terminator] using hcons

theorem printsAll_of_each {ids : List NodeId}
    (h : ∀ id ∈ ids, ∃ node s, g.PrintsStmt levels id node s) :
    ∃ ss, g.PrintsAll levels ids ss := by
  induction ids with
  | nil => exact ⟨[], printsAll_nil⟩
  | cons id ids ih =>
    obtain ⟨⟨node, s, hs⟩, hrest⟩ := List.forall_mem_cons.mp h
    obtain ⟨ss, hss⟩ := ih hrest
    exact ⟨s :: ss, hs.cons hss⟩

theorem PrintsAll.braced {ids : List NodeId} {ss : List Stmt} (h : g.PrintsAll levels ids ss)
    (indent : Nat) (hd : levels ≤ depth) : ∃ text,
      g.braced (g.renderTo depth) ids indent = .ok text ∧
        Standing text (.block (ss.map Stmt.braced)) := by
  cases ids with
  | nil =>
    obtain rfl := Option.some.inj (h.statements depth hd)
    exact ⟨_, rfl, standing_noItems⟩
  | cons id ids =>
    obtain ⟨lines, hlines, hall⟩ := h.rendered depth (indent + 1) hd
    exact ⟨_, bind_eq_ok.mpr ⟨lines, hlines, rfl⟩, standing_block indent hall⟩

theorem PrintsStmt.of_bare (hn : g.tree.get? id = some node) (hc : node.isControl)
    (hblock : s.isBlock = node.isBlock) (hbranch : s.isBranch = node.isBranch)
    (hs : ∀ depth, levels ≤ depth → g.tree.statementTo (depth + 1) id = some s)
    (h : ∀ depth indent, levels ≤ depth → ∃ text,
      g.bare (g.renderTo depth) id node indent = .ok text ∧
        Standing (text ++ g.terminator node) s.braced) :
    g.PrintsStmt (levels + 1) id node s := by
  refine ⟨hn, hblock, hbranch, fun depth hd => ?_, fun depth indent hd => ?_⟩ <;>
    obtain ⟨depth, rfl⟩ := Nat.exists_eq_succ_of_ne_zero (Nat.ne_zero_of_lt hd)
  · exact hs depth (Nat.le_of_succ_le_succ hd)
  · obtain ⟨text, hbare, hstanding⟩ := h depth indent (Nat.le_of_succ_le_succ hd)
    exact ⟨text, renderTo_of_bare hn (Node.precedence?_of_isControl hc) hbare, hstanding⟩

theorem renderTo_block {ids : List NodeId} (hn : g.tree.get? id = some (.block ids)) :
    g.renderTo (depth + 1) id indent = g.braced (g.renderTo depth) ids indent := by
  rw [renderTo, node_eq_ok hn]
  exact bind_pure (g.braced (g.renderTo depth) ids indent)

theorem PrintsStmt.body (h : g.PrintsStmt levels id node s) (indent : Nat) (hd : levels ≤ depth) :
    ∃ text, g.body (g.renderTo depth) id indent = .ok text ∧ Standing text s.braced.inBlock := by
  cases hb : node.isBlock with
  | true =>
    -- a block has its braces already, and one level more is as good
    obtain ⟨ids, rfl⟩ : ∃ ids, node = .block ids := by
      cases node <;> first | exact ⟨_, rfl⟩ | cases hb
    obtain ⟨text, hrender, hstanding⟩ := h.rendered (depth + 1) indent (Nat.le_succ_of_le hd)
    have hself : s.braced.inBlock = s.braced := by simp [Stmt.inBlock, h.isBlock_eq, hb]
    refine ⟨text, ?_, ?_⟩
    · rw [renderTo_block h.found] at hrender
      simp [Renderer.body, node_eq_ok h.found]
      exact hrender
    · rw [hself]
      simpa [terminator, isSelfTerminating] using hstanding
  | false =>
    obtain ⟨text, hrender, hstanding⟩ := (h.cons printsAll_nil).braced indent hd
    have hself : s.braced.inBlock = .block [s.braced] := by simp [Stmt.inBlock, h.isBlock_eq, hb]
    refine ⟨text, ?_, hself ▸ hstanding⟩
    simp [Renderer.body, node_eq_ok h.found]
    cases node <;> first | exact hrender | cases hb

/-- A statement behind an `else`; an `if` stands there without braces. -/
theorem PrintsStmt.elseBranch (h : g.PrintsStmt levels id node s) (indent : Nat)
    (hd : levels ≤ depth) : ∃ text, g.elseBranch (g.renderTo depth) (some id) indent =
      .ok (" else " ++ text) ∧ Standing text s.braced.inElse := by
  cases hb : node.isBranch with
  | true =>
    obtain ⟨text, hrender, hstanding⟩ := h.rendered depth indent hd
    have hself : s.braced.inElse = s.braced := by simp [Stmt.inElse, h.isBranch_eq, hb]
    have hnone : g.terminator node = "" := by cases node <;> first | rfl | cases hb
    refine ⟨text, bind_eq_ok.mpr ⟨node, node_eq_ok h.found, ?_⟩, ?_⟩
    · exact (if_pos hb).trans (bind_eq_ok.mpr ⟨text, hrender, rfl⟩)
    · simpa [hself, hnone] using hstanding
  | false =>
    obtain ⟨text, hrender, hstanding⟩ := h.body indent hd
    have hself : s.braced.inElse = s.braced.inBlock := by simp [Stmt.inElse, h.isBranch_eq, hb]
    refine ⟨text, bind_eq_ok.mpr ⟨node, node_eq_ok h.found, ?_⟩, hself ▸ hstanding⟩
    exact (if_neg (by simp [hb])).trans (bind_eq_ok.mpr ⟨text, hrender, rfl⟩)

theorem printsClause_of {id : Option NodeId} (h : ∀ c ∈ id.toList, ∃ e, g.PrintsExpr levels c e) :
    ∃ value, g.PrintsClause levels id value := by
  cases id with
  | none => exact ⟨none, fun _ _ => rfl, fun _ _ _ => ⟨"", rfl, [], .nil, .missing⟩⟩
  | some c =>
    obtain ⟨e, he⟩ := h c (List.mem_singleton_self c)
    refine ⟨some e, fun depth hd => ?_, fun depth indent hd => ?_⟩
    · simp [he.expression depth hd]
    · obtain ⟨text, hrender, ts, hspell, hderives⟩ := he.rendered depth indent hd
      exact ⟨text, hrender, ts, hspell, .given hderives⟩

theorem standing_closed {text : String} (hn : g.isSelfTerminating node) (h : Standing text s) :
    Standing (text ++ g.terminator node) s := by
  simpa [terminator, hn] using h

section

attribute [local simp] Tree.statementTo

variable {c b f : NodeId} {bodyNode elseNode : Node} {s' : Stmt}

theorem prints_block {ids : List NodeId} {ss : List Stmt} (hn : g.tree.get? id = some (.block ids))
    (h : g.PrintsAll levels ids ss) : g.PrintsStmt (levels + 1) id (.block ids) (.block ss) := by
  refine .of_bare hn rfl rfl rfl (fun depth hd => ?_) fun depth indent hd => ?_
  · simp [hn, h.statements depth hd]
  · obtain ⟨text, hrender, hstanding⟩ := h.braced indent hd
    refine ⟨text, hrender, ?_⟩
    rw [Stmt.braced, Stmt.bracedAll_eq_map]
    exact standing_closed rfl hstanding

theorem prints_ifThen (hn : g.tree.get? id = some (.branch c b none)) (hc : g.PrintsExpr levels c e)
    (hb : g.PrintsStmt levels b bodyNode s) :
    g.PrintsStmt (levels + 1) id (.branch c b none) (.ifThen e s) := by
  refine .of_bare hn rfl rfl rfl (fun depth hd => ?_) fun depth indent hd => ?_
  · simp [hn, hc.expression depth hd, hb.statement depth hd]
  · obtain ⟨cond, hcond, hplaced⟩ := hc.rendered depth indent hd
    obtain ⟨body, hbody, hstanding⟩ := hb.body indent hd
    have hall := standing_ifThen hplaced hstanding
    refine ⟨_, bind_eq_ok.mpr ⟨cond, hcond, bind_eq_ok.mpr ⟨body, hbody, ?_⟩⟩,
      standing_closed rfl hall⟩
    -- nothing is printed for the missing `else`
    exact bind_eq_ok.mpr ⟨"", rfl, congrArg Except.ok String.append_empty⟩

theorem prints_ifElse (hn : g.tree.get? id = some (.branch c b (some f)))
    (hc : g.PrintsExpr levels c e) (hb : g.PrintsStmt levels b bodyNode s)
    (hf : g.PrintsStmt levels f elseNode s') :
    g.PrintsStmt (levels + 1) id (.branch c b (some f)) (.ifElse e s s') := by
  refine .of_bare hn rfl rfl rfl (fun depth hd => ?_) fun depth indent hd => ?_
  · simp [hn, hc.expression depth hd, hb.statement depth hd, hf.statement depth hd]
  · obtain ⟨cond, hcond, hplaced⟩ := hc.rendered depth indent hd
    obtain ⟨body, hbody, hstanding⟩ := hb.body indent hd
    obtain ⟨text, htext, helse⟩ := hf.elseBranch indent hd
    refine ⟨_, bind_eq_ok.mpr ⟨cond, hcond, bind_eq_ok.mpr ⟨body, hbody,
      bind_eq_ok.mpr ⟨_, htext, rfl⟩⟩⟩, ?_⟩
    have hclosed : s.braced.inBlock.endsOpen = false := Stmt.endsOpen_inBlock _
    exact standing_closed rfl (standing_ifElse hplaced hstanding hclosed helse)

theorem prints_whileLoop (hn : g.tree.get? id = some (.whileLoop c b))
    (hc : g.PrintsExpr levels c e) (hb : g.PrintsStmt levels b bodyNode s) :
    g.PrintsStmt (levels + 1) id (.whileLoop c b) (.whileLoop e s) := by
  refine .of_bare hn rfl rfl rfl (fun depth hd => ?_) fun depth indent hd => ?_
  · simp [hn, hc.expression depth hd, hb.statement depth hd]
  · obtain ⟨cond, hcond, hplaced⟩ := hc.rendered depth indent hd
    obtain ⟨body, hbody, hstanding⟩ := hb.body indent hd
    refine ⟨_, bind_eq_ok.mpr ⟨cond, hcond, bind_eq_ok.mpr ⟨body, hbody, rfl⟩⟩, ?_⟩
    exact standing_closed rfl (standing_whileLoop hplaced hstanding)

theorem prints_doWhile (hn : g.tree.get? id = some (.doWhile b c)) (hc : g.PrintsExpr levels c e)
    (hb : g.PrintsStmt levels b bodyNode s) :
    g.PrintsStmt (levels + 1) id (.doWhile b c) (.doWhile s e) := by
  refine .of_bare hn rfl rfl rfl (fun depth hd => ?_) fun depth indent hd => ?_
  · simp [hn, hc.expression depth hd, hb.statement depth hd]
  · obtain ⟨body, hbody, hstanding⟩ := hb.body indent hd
    obtain ⟨cond, hcond, hplaced⟩ := hc.rendered depth indent hd
    exact ⟨_, bind_eq_ok.mpr ⟨body, hbody, bind_eq_ok.mpr ⟨cond, hcond, rfl⟩⟩,
      standing_doWhile hstanding hplaced⟩

theorem prints_forLoop {init test incr : Option NodeId} {i t n : Option Expr}
    (hn : g.tree.get? id = some (.forLoop init test incr b)) (hi : g.PrintsClause levels init i)
    (ht : g.PrintsClause levels test t) (hr : g.PrintsClause levels incr n)
    (hb : g.PrintsStmt levels b bodyNode s) :
    g.PrintsStmt (levels + 1) id (.forLoop init test incr b) (.forLoop i t n s) := by
  refine .of_bare hn rfl rfl rfl (fun depth hd => ?_) fun depth indent hd => ?_
  · simp [hn, hi.expression depth hd, ht.expression depth hd, hr.expression depth hd,
      hb.statement depth hd]
  · obtain ⟨first, hfirst, hplacedFirst⟩ := hi.rendered depth indent hd
    obtain ⟨second, hsecond, hplacedSecond⟩ := ht.rendered depth indent hd
    obtain ⟨third, hthird, hplacedThird⟩ := hr.rendered depth indent hd
    obtain ⟨body, hbody, hstanding⟩ := hb.body indent hd
    refine ⟨_, bind_eq_ok.mpr ⟨first, hfirst, bind_eq_ok.mpr ⟨second, hsecond,
      bind_eq_ok.mpr ⟨third, hthird, bind_eq_ok.mpr ⟨body, hbody, rfl⟩⟩⟩⟩, ?_⟩
    exact standing_closed rfl
      (standing_forLoop hplacedFirst hplacedSecond hplacedThird hstanding)

theorem prints_retNone (hn : g.tree.get? id = some (.ret none)) :
    g.PrintsStmt (levels + 1) id (.ret none) (.ret none) :=
  .of_bare hn rfl rfl rfl (fun _ _ => by simp [hn]) fun _ _ _ =>
    ⟨"return", rfl, standing_word (by decide) (.ret .missing)⟩

theorem prints_retSome (hn : g.tree.get? id = some (.ret (some c)))
    (hc : g.PrintsExpr levels c e) :
    g.PrintsStmt (levels + 1) id (.ret (some c)) (.ret (some e)) := by
  refine .of_bare hn rfl rfl rfl (fun depth hd => ?_) fun depth indent hd => ?_
  · simp [hn, hc.expression depth hd]
  · obtain ⟨value, hvalue, hplaced⟩ := hc.rendered depth indent hd
    exact ⟨_, bind_eq_ok.mpr ⟨value, hvalue, rfl⟩, standing_ret hplaced⟩

theorem prints_breakLoop (hn : g.tree.get? id = some .breakLoop) :
    g.PrintsStmt (levels + 1) id .breakLoop .breakLoop :=
  .of_bare hn rfl rfl rfl (fun _ _ => by simp [hn]) fun _ _ _ =>
    ⟨"break", rfl, standing_word (by decide) .breakLoop⟩

theorem prints_continueLoop (hn : g.tree.get? id = some .continueLoop) :
    g.PrintsStmt (levels + 1) id .continueLoop .continueLoop :=
  .of_bare hn rfl rfl rfl (fun _ _ => by simp [hn]) fun _ _ _ =>
    ⟨"continue", rfl, standing_word (by decide) .continueLoop⟩

theorem prints_pass (hn : g.tree.get? id = some .pass) :
    g.PrintsStmt (levels + 1) id .pass .empty :=
  .of_bare hn rfl rfl rfl (fun _ _ => by simp [hn]) fun _ _ _ => ⟨"", rfl, standing_empty⟩

end

theorem printsExpr_of_legible {P : NodeId → Prop} (hb : g.registry = .builtin)
    (h : g.tree.Legible P) (hi : P id) (hn : g.tree.get? id = some node)
    (hw : g.tree.Within levels id) (hparens : g.tree.needsParens id node = false) :
    ∃ e, g.PrintsExpr levels id e := by
  obtain ⟨e, _, hs⟩ : ∃ e text, g.Shows levels 0 id node e text := shows_of_legible hb h hi hn hw
  refine ⟨e, fun depth hd => Tree.expressionTo_mono hs.expression hd, fun depth indent hd => ?_⟩
  obtain ⟨e', text, hs'⟩ : ∃ e text, g.Shows depth indent id node e text :=
    shows_of_legible hb h hi hn (hw.mono hd)
  have hsame : e' = e :=
    Option.some.inj (hs'.expression.symm.trans (Tree.expressionTo_mono hs.expression hd))
  subst hsame
  refine ⟨text, by rw [hs'.rendered, hparens]; rfl, ?_⟩
  exact Placed.mono hs'.written (fun _ hc => .inl hc) (Nat.zero_le _)

theorem prints_expression (hn : g.tree.get? id = some node) (hr : node.isReadable)
    (h : g.PrintsExpr (levels + 1) id e) :
    g.PrintsStmt (levels + 1) id node (.expression e) := by
  refine ⟨hn, ?_, ?_, fun depth hd => ?_, fun depth indent hd => ?_⟩
  · cases node <;> first | rfl | cases hr
  · cases node <;> first | rfl | cases hr
  · have he := h.expression depth hd
    obtain ⟨depth, rfl⟩ := Nat.exists_eq_succ_of_ne_zero (Nat.ne_zero_of_lt hd)
    cases node <;> first | exact absurd hr Bool.false_ne_true | simp [Tree.statementTo, hn, he]
  · obtain ⟨text, hrender, hplaced⟩ := h.rendered depth indent hd
    have hterm : g.terminator node = ";" := by cases node <;> first | rfl | cases hr
    exact ⟨text, hrender, hterm ▸ standing_expression hplaced⟩

end Renderer

namespace Node

theorem children_of_isReadable {node : Node} (h : node.isReadable) :
    node.children = node.operands := by
  cases node <;> first
    | exact absurd h Bool.false_ne_true
    | simp [children, slots, Slot.ids, operands]

theorem clauses_subset (node : Node) : node.clauses ⊆ node.children := by
  cases node with
  | forLoop init test incr body =>
    intro c hc
    simp only [clauses, List.append_assoc, List.mem_append] at hc
    simp only [children, slots, Slot.ids, List.flatMap_cons, List.flatMap_nil, List.mem_append]
    exact hc.imp_right fun hc => hc.imp_right .inl
  | _ => simp [clauses, children, slots, Slot.ids]

end Node

namespace Tree

variable {t : Tree} {root : NodeId} {ids : List NodeId}

theorem ReadableBlock.is_readable (h : t.ReadableBlock root ids) {id : NodeId}
    (hi : t.Reach root id) (he : t.Is id fun n => n.isExpression || n.isCustom) :
    t.Is id Node.isReadable := by
  obtain ⟨node, hn, hexp⟩ := he
  have hkind := h.node id node hi hn
  refine ⟨node, hn, ?_⟩
  cases node <;> first | exact hkind | cases hexp

theorem ReadableBlock.legible (h : t.ReadableBlock root ids) :
    t.Legible fun id => t.Reach root id ∧ t.Is id Node.isReadable := by
  have hwell := wellFormed_of_validate h.valid
  have readable : ∀ id node, t.Is id Node.isReadable → t.get? id = some node → node.isReadable := by
    rintro id node ⟨node', hn', hr⟩ hn
    exact Option.some.inj (hn'.symm.trans hn) ▸ hr
  constructor
  case node => exact fun id node hi hn => readable id node hi.2 hn
  case operator => exact fun id node hi => hwell.operator id node hi.1
  case distinct =>
    intro id node hi hn
    exact childrenOf_eq hn ▸ hwell.region.children_nodup hi.1
  case child =>
    intro id node hi hn c hc
    obtain ⟨hreach, hparent⟩ := hwell.region.node_of_reach hi.1 hn hc
    rw [Node.children_of_isReadable (readable id node hi.2 hn)] at hc
    exact ⟨⟨hreach, h.is_readable hreach (hwell.operand id node hi.1 hn c hc)⟩, hparent⟩
  case member => exact fun id left op right hi => h.member id left op right hi.1
  case point => exact fun id left right v hi => h.point id left right v hi.1

theorem needsParens_of_isControl {p c : NodeId} {parent node : Node} (hp : t.parent? c = some p)
    (hn : t.get? p = some parent) (hc : parent.isControl) : t.needsParens c node = false := by
  simp only [needsParens, hp, Option.bind_some, hn]
  cases node.precedence? with
  | none => rfl
  | some own => exact Node.encloses_of_isControl hc c own

end Tree

namespace Renderer

variable {g : Renderer} {root : NodeId} {ids : List NodeId} {levels : Nat}

theorem prints_of_reach (hb : g.registry = .builtin) (h : g.tree.ReadableBlock root ids)
    {p id : NodeId} {parent node : Node} (hi : g.tree.Reach root id)
    (hn : g.tree.get? id = some node) (hp : g.tree.parent? id = some p)
    (hparent : g.tree.get? p = some parent) (hcontrol : parent.isControl)
    (hw : g.tree.Within levels id) : ∃ s, g.PrintsStmt levels id node s := by
  have hwell := Tree.wellFormed_of_validate h.valid
  -- by induction on the levels below, one case for each kind of statement
  induction levels generalizing p id parent node with
  | zero => exact hw.elim
  | succ levels ih =>
    cases hkind : node.isControl with
    | false =>
      have hread : node.isReadable := by simpa [hkind] using h.node id node hi hn
      obtain ⟨e, he⟩ := printsExpr_of_legible hb h.legible ⟨hi, node, hn, hread⟩ hn hw
        (Tree.needsParens_of_isControl hp hparent hcontrol)
      exact ⟨_, prints_expression hn hread he⟩
    | true =>
      obtain ⟨node', hn', hdeep⟩ := hw
      obtain rfl := Option.some.inj (hn.symm.trans hn')
      have stmt : ∀ c ∈ node.children, ∃ child s, g.PrintsStmt levels c child s := by
        intro c hc
        obtain ⟨hreach, hlink⟩ := hwell.region.node_of_reach hi hn hc
        obtain ⟨child, hchild⟩ := (hdeep c hc).resolves
        obtain ⟨s, hs⟩ := ih hreach hchild hlink hn hkind (hdeep c hc)
        exact ⟨child, s, hs⟩
      have expr : ∀ c ∈ node.clauses, ∃ e, g.PrintsExpr levels c e := by
        intro c hc
        obtain ⟨hreach, hlink⟩ := hwell.region.node_of_reach hi hn (node.clauses_subset hc)
        obtain ⟨child, hchild, hexp⟩ := h.clause id node hi hn c hc
        have hread := h.is_readable hreach ⟨child, hchild, by simp [hexp]⟩
        exact printsExpr_of_legible hb h.legible ⟨hreach, hread⟩ hchild
          (hdeep c (node.clauses_subset hc)) (Tree.needsParens_of_isControl hlink hn hkind)
      cases node with
      | block ids =>
        obtain ⟨ss, hss⟩ := printsAll_of_each fun c hc => stmt c (by
          simpa [Node.children, Node.slots, Slot.ids] using hc)
        exact ⟨_, prints_block hn hss⟩
      | branch cond thenBody elseBody =>
        obtain ⟨e, he⟩ := expr cond (by simp [Node.clauses])
        obtain ⟨_, s, hs⟩ := stmt thenBody (by simp [Node.children, Node.slots, Slot.ids])
        cases elseBody with
        | none => exact ⟨_, prints_ifThen hn he hs⟩
        | some elseBody =>
          obtain ⟨_, s', hs'⟩ := stmt elseBody (by simp [Node.children, Node.slots, Slot.ids])
          exact ⟨_, prints_ifElse hn he hs hs'⟩
      | whileLoop cond body =>
        obtain ⟨e, he⟩ := expr cond (by simp [Node.clauses])
        obtain ⟨_, s, hs⟩ := stmt body (by simp [Node.children, Node.slots, Slot.ids])
        exact ⟨_, prints_whileLoop hn he hs⟩
      | doWhile body cond =>
        obtain ⟨e, he⟩ := expr cond (by simp [Node.clauses])
        obtain ⟨_, s, hs⟩ := stmt body (by simp [Node.children, Node.slots, Slot.ids])
        exact ⟨_, prints_doWhile hn he hs⟩
      | forLoop init test incr body =>
        simp only [Node.clauses, List.mem_append, or_imp, forall_and] at expr
        obtain ⟨i, hi⟩ := printsClause_of expr.1.1
        obtain ⟨t, ht⟩ := printsClause_of expr.1.2
        obtain ⟨n, hr⟩ := printsClause_of expr.2
        obtain ⟨_, s, hs⟩ := stmt body (by simp [Node.children, Node.slots, Slot.ids])
        exact ⟨_, prints_forLoop hn hi ht hr hs⟩
      | ret value =>
        cases value with
        | none => exact ⟨_, prints_retNone hn⟩
        | some c =>
          obtain ⟨e, he⟩ := expr c (by simp [Node.clauses])
          exact ⟨_, prints_retSome hn he⟩
      | breakLoop => exact ⟨_, prints_breakLoop hn⟩
      | continueLoop => exact ⟨_, prints_continueLoop hn⟩
      | pass => exact ⟨_, prints_pass hn⟩
      | _ => cases hkind

end Renderer

namespace Tree

/-- The lines of a block are in the grammar, and its statements, with braces around every body, are
the only ones that they read as. -/
theorem rendered_statements_read_back {t : Tree} {root : NodeId} {ids : List NodeId}
    (h : t.ReadableBlock root ids) (rules : RenderRules) (indent : Nat) :
    ∃ text ss, Renderer.statements ⟨t, .builtin, rules⟩ ids indent = .ok text ∧
      ids.mapM t.statement? = some ss ∧ readStatements text = some (ss.map Stmt.braced) ∧
      ∀ ss', ReadsStatements text ss' ↔ ss' = ss.map Stmt.braced := by
  have hwell := wellFormed_of_validate h.valid
  have hprints : ∃ ss, Renderer.PrintsAll ⟨t, .builtin, rules⟩ t.size ids ss := by
    refine Renderer.printsAll_of_each fun id hid => ?_
    have hchild : id ∈ (Node.block ids).children := by
      simpa [Node.children, Node.slots, Slot.ids] using hid
    obtain ⟨hreach, hlink⟩ := hwell.region.node_of_reach .refl h.block hchild
    obtain ⟨node, hn⟩ := hwell.region.resolves id hreach
    exact ⟨node, Renderer.prints_of_reach rfl h hreach hn hlink h.block rfl
      (hwell.region.within hreach)⟩
  obtain ⟨ss, hss⟩ := hprints
  obtain ⟨text, hrender, hstanding⟩ := hss.rendered (t.size + 1) indent (Nat.le_succ _)
  have hreads := hstanding.reads
  refine ⟨text, ss, hrender, hss.statements _ (Nat.le_succ _), hreads.readStatements_eq,
    fun ss' => ⟨fun h' => h'.unique hreads, ?_⟩⟩
  rintro rfl
  exact hreads

/-- `if (a) if (b) x; else if (c) ; else {}` with the first `else` for the first `if`, then
`for (i = 0;; i ++) do break; while (d);`, then `while (1) { continue; return; }` and
`return - y;`, of which only two bodies are blocks. -/
def unbraced : Tree :=
  ⟨#[⟨.block [1, 10, 19, 24], none⟩, ⟨.branch 2 3 (some 6), some 0⟩,
    ⟨.symbol "a" none false, some 1⟩, ⟨.branch 4 5 none, some 1⟩, ⟨.symbol "b" none false, some 3⟩,
    ⟨.symbol "x" none false, some 3⟩, ⟨.branch 7 8 (some 9), some 1⟩,
    ⟨.symbol "c" none false, some 6⟩, ⟨.pass, some 6⟩, ⟨.block [], some 6⟩,
    ⟨.forLoop (some 11) none (some 12) 13, some 0⟩, ⟨.binary 14 .assign 15, some 10⟩,
    ⟨.unary .postInc 16, some 10⟩, ⟨.doWhile 17 18, some 10⟩, ⟨.symbol "i" none false, some 11⟩,
    ⟨.constant (.int 0), some 11⟩, ⟨.symbol "i" none false, some 12⟩, ⟨.breakLoop, some 13⟩,
    ⟨.symbol "d" none false, some 13⟩, ⟨.whileLoop 20 21, some 0⟩, ⟨.constant (.int 1), some 19⟩,
    ⟨.block [22, 23], some 19⟩, ⟨.continueLoop, some 21⟩, ⟨.ret none, some 21⟩,
    ⟨.ret (some 25), some 0⟩, ⟨.unary .neg 26, some 24⟩, ⟨.symbol "y" none false, some 25⟩], 0⟩

theorem unbraced_readableBlock : unbraced.ReadableBlock 0 [1, 10, 19, 24] := by
  refine ⟨by decide +kernel, rfl, ?_, ?_, ?_, ?_⟩
  · intro id node _ hn
    have hall : ∀ e ∈ unbraced.entries.toList, e.node.isControl || e.node.isReadable := by decide
    obtain ⟨e, he, rfl⟩ := entry_of_get? hn
    exact hall e he
  · intro id node _ hn c hc
    have hall : ∀ e ∈ unbraced.entries.toList, ∀ c ∈ e.node.clauses,
        (unbraced.get? c).any Node.isExpression := by decide
    obtain ⟨e, he, rfl⟩ := entry_of_get? hn
    exact Option.any_eq_true .. |>.mp (hall e he c hc)
  · intro id left op right _ hn hop
    obtain ⟨e, he, hnode⟩ := entry_of_get? hn
    fin_cases he <;> cases hnode
    cases hop
  · intro id left right v _ hn
    obtain ⟨e, he, hnode⟩ := entry_of_get? hn
    fin_cases he <;> cases hnode

theorem unbraced_reads_back :
    unbraced.ReadableBlock 0 [1, 10, 19, 24] ∧ ∃ text ss,
      text = String.join ["    if (a) \x7b\n", "        if (b) \x7b\n", "            x;\n",
        "        \x7d\n", "    \x7d else if (c) \x7b\n", "        ;\n", "    \x7d else \x7b\x7d\n",
        "    for (i = 0;; i ++) \x7b\n", "        do \x7b\n", "            break;\n",
        "        \x7d while (d);\n", "    \x7d\n", "    while (1) \x7b\n", "        continue;\n",
        "        return;\n", "    \x7d\n", "    return - y;\n"] ∧
      Renderer.statements ⟨unbraced, .builtin, .empty⟩ [1, 10, 19, 24] 1 = .ok text ∧
      [1, 10, 19, 24].mapM unbraced.statement? = some ss ∧
      readStatements text = some (ss.map Stmt.braced) ∧
      ∀ ss', ReadsStatements text ss' ↔ ss' = ss.map Stmt.braced := by
  obtain ⟨text, ss, hrender, hss, hread, hunique⟩ :=
    rendered_statements_read_back unbraced_readableBlock .empty 1
  refine ⟨unbraced_readableBlock, text, ss, ?_, hrender, hss, hread, hunique⟩
  refine Except.ok.inj (hrender.symm.trans ?_)
  decide +kernel

end Tree
end Arbor
