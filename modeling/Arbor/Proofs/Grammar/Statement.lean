import Arbor.Proofs.Grammar.Reader

/-!
The grammar of statements, and a reader that shows it to be unambiguous.

An `if` with an `else` takes no statement in between that could claim the `else` for an `if` of its
own, so that an `else` belongs to the nearest `if`. The reader tells the form of a statement by its
first token, since no expression begins with one of these, and takes an `else` wherever there is
one. On the tokens of a statement it finds that statement and leaves what follows
(`Forms.readsAs`).
-/
namespace Arbor

/-- Statements as such, without the ids of an arena. -/
inductive Stmt where
  | block (items : List Stmt)
  | ifThen (cond : Expr) (thenBody : Stmt)
  | ifElse (cond : Expr) (thenBody elseBody : Stmt)
  | whileLoop (cond : Expr) (body : Stmt)
  | doWhile (body : Stmt) (cond : Expr)
  | forLoop (init test incr : Option Expr) (body : Stmt)
  | ret (value : Option Expr)
  | breakLoop
  | continueLoop
  | empty
  | expression (value : Expr)
  deriving Repr

/-- Whether an `else` behind the statement belongs to an `if` at its end. -/
def Stmt.endsOpen : Stmt → Bool
  | .ifThen _ _ => true
  | .ifElse _ _ elseBody => elseBody.endsOpen
  | .whileLoop _ body => body.endsOpen
  | .forLoop _ _ _ body => body.endsOpen
  | _ => false

namespace Token

def openBrace : Token := .mark ['\x7b']

def closeBrace : Token := .mark ['\x7d']

def semicolon : Token := .mark [';']

def reserved (text : String) : Token := .word text.toList

end Token

namespace Grammar

open Token
open Precedence (rank)

inductive Clause : List Token → Option Expr → Prop where
  | missing : Clause [] none
  | given {ts e} : Derives (rank .comma) ts e → Clause ts (some e)

inductive Forms : List Token → Stmt → Prop where
  | block {items : List (List Token × Stmt)} : (∀ i ∈ items, Forms i.1 i.2) →
      Forms (openBrace :: ((items.map Prod.fst).flatten ++ [closeBrace]))
        (.block (items.map Prod.snd))
  | ifThen {ts us c s} : Derives (rank .comma) ts c → Forms us s →
      Forms (reserved "if" :: openParen :: (ts ++ closeParen :: us)) (.ifThen c s)
  | ifElse {ts us vs c s s'} : Derives (rank .comma) ts c → Forms us s → s.endsOpen = false →
      Forms vs s' →
      Forms (reserved "if" :: openParen :: (ts ++ closeParen :: (us ++ reserved "else" :: vs)))
        (.ifElse c s s')
  | whileLoop {ts us c s} : Derives (rank .comma) ts c → Forms us s →
      Forms (reserved "while" :: openParen :: (ts ++ closeParen :: us)) (.whileLoop c s)
  | doWhile {ts us c s} : Forms us s → Derives (rank .comma) ts c →
      Forms (reserved "do" :: (us ++ reserved "while" :: openParen ::
        (ts ++ [closeParen, semicolon]))) (.doWhile s c)
  | forLoop {ts us vs ws init test incr s} : Clause ts init → Clause us test → Clause vs incr →
      Forms ws s →
      Forms (reserved "for" :: openParen :: (ts ++ semicolon :: (us ++ semicolon ::
        (vs ++ closeParen :: ws)))) (.forLoop init test incr s)
  | ret {ts value} : Clause ts value → Forms (reserved "return" :: (ts ++ [semicolon])) (.ret value)
  | breakLoop : Forms [reserved "break", semicolon] .breakLoop
  | continueLoop : Forms [reserved "continue", semicolon] .continueLoop
  | empty : Forms [semicolon] .empty
  | expression {ts e} : Derives (rank .comma) ts e → Forms (ts ++ [semicolon]) (.expression e)

def ReadsStatements (text : String) (ss : List Stmt) : Prop :=
  ∃ items : List (List Token × Stmt), lex text.toList = (items.map Prod.fst).flatten ∧
    items.map Prod.snd = ss ∧ ∀ i ∈ items, Forms i.1 i.2

/-- What the first token of a statement tells, unless it begins an expression. -/
inductive Opener where
  | block
  | branch
  | whileLoop
  | doWhile
  | forLoop
  | ret
  | breakLoop
  | continueLoop
  | empty
  deriving DecidableEq, Repr

namespace Opener

def table : List (Token × Opener) :=
  [(openBrace, .block), (reserved "if", .branch), (reserved "while", .whileLoop),
    (reserved "do", .doWhile), (reserved "for", .forLoop), (reserved "return", .ret),
    (reserved "break", .breakLoop), (reserved "continue", .continueLoop), (semicolon, .empty)]

def ofToken? (t : Token) : Option Opener := table.lookup t

end Opener

def leading (ts : List Token) : Option (Expr × List Token) := parse (ts.length + 1) (rank .comma) ts

def condition (ts : List Token) : Option (Expr × List Token) := do
  let (e, rest) ← leading (← expect openParen ts)
  return (e, ← expect closeParen rest)

def clause (close : Token) (ts : List Token) : Option (Option Expr × List Token) :=
  match expect close ts with
  | some rest => some (none, rest)
  | none => do
    let (e, rest) ← leading ts
    return (some e, ← expect close rest)

def sequence (read : List Token → Option (Stmt × List Token)) :
    (count : Nat) → List Token → Option (List Stmt × List Token)
  | 0, _ => none
  | count + 1, ts =>
    match expect closeBrace ts with
    | some rest => some ([], rest)
    | none => do
      let (s, rest) ← read ts
      let (others, rest) ← sequence read count rest
      return (s :: others, rest)

def follow (read : List Token → Option (Stmt × List Token)) :
    Opener → List Token → Option (Stmt × List Token)
  | .block, ts => do
    let (items, rest) ← sequence read ts.length ts
    return (.block items, rest)
  | .branch, ts => do
    let (c, rest) ← condition ts
    let (s, rest) ← read rest
    match expect (reserved "else") rest with
    | some rest =>
      let (s', rest) ← read rest
      return (.ifElse c s s', rest)
    | none => return (.ifThen c s, rest)
  | .whileLoop, ts => do
    let (c, rest) ← condition ts
    let (s, rest) ← read rest
    return (.whileLoop c s, rest)
  | .doWhile, ts => do
    let (s, rest) ← read ts
    let (c, rest) ← condition (← expect (reserved "while") rest)
    return (.doWhile s c, ← expect semicolon rest)
  | .forLoop, ts => do
    let (init, rest) ← clause semicolon (← expect openParen ts)
    let (test, rest) ← clause semicolon rest
    let (incr, rest) ← clause closeParen rest
    let (s, rest) ← read rest
    return (.forLoop init test incr s, rest)
  | .ret, ts => do
    let (value, rest) ← clause semicolon ts
    return (.ret value, rest)
  | .breakLoop, ts => do return (.breakLoop, ← expect semicolon ts)
  | .continueLoop, ts => do return (.continueLoop, ← expect semicolon ts)
  | .empty, ts => some (.empty, ts)

def statement : (depth : Nat) → List Token → Option (Stmt × List Token)
  | 0, _ => none
  | _ + 1, [] => none
  | depth + 1, t :: rest =>
    match Opener.ofToken? t with
    | some opener => follow (statement depth) opener rest
    | none => do
      let (e, rest) ← leading (t :: rest)
      return (.expression e, ← expect semicolon rest)

/-- The statements that a text is, read like those before a closing brace. -/
def readStatements (text : String) : Option (List Stmt) :=
  let ts := lex text.toList ++ [closeBrace]
  match sequence (statement ts.length) ts.length ts with
  | some (ss, []) => some ss
  | _ => none

def structural : List Token :=
  [reserved "else", closeBrace, closeParen] ++ Opener.table.map Prod.fst

def isFixed : Token → Bool
  | .word text => !isIdentifier text
  | .mark _ => true
  | _ => false

theorem structural_fixed : structural.all isFixed := by decide

theorem Begins.not_structural {t : Token} (h : Begins t) : t ∉ structural := by
  cases h with
  | identifier hname =>
    intro hmem
    have hfixed := List.all_eq_true.mp structural_fixed _ hmem
    rw [isFixed, hname] at hfixed
    cases hfixed
  | number digits => exact fun hmem => nomatch List.all_eq_true.mp structural_fixed _ hmem
  | negative digits => exact fun hmem => nomatch List.all_eq_true.mp structural_fixed _ hmem
  | openParen => decide
  | @before op hop =>
    revert hop
    cases op <;> decide

theorem Derives.not_structural {k : Nat} {ts : List Token} {e : Expr} (h : Derives k ts e) :
    ∃ t tail, ts = t :: tail ∧ t ∉ structural := by
  obtain ⟨t, tail, rfl, hb⟩ := h.starts
  exact ⟨t, tail, rfl, hb.not_structural⟩

theorem Derives.expect_eq_none {k : Nat} {ts : List Token} {e : Expr} (h : Derives k ts e)
    {t : Token} (ht : t ∈ structural) (rest : List Token) : expect t (ts ++ rest) = none := by
  obtain ⟨u, tail, rfl, hu⟩ := h.not_structural
  have hne : u ≠ t := by
    rintro rfl
    exact hu ht
  exact if_neg hne

theorem ofToken?_eq_none {t : Token} (h : t ∉ structural) : Opener.ofToken? t = none := by
  rw [Opener.ofToken?, List.lookup_eq_none_iff]
  intro p hp
  rw [bne_iff_ne]
  rintro rfl
  exact h (List.mem_append_right _ (List.mem_map_of_mem hp))

section

variable {ts : List Token} {e : Expr} {close : Token}

theorem Derives.leading_eq (h : Derives (rank .comma) ts e)
    (hc : close = closeParen ∨ close = semicolon) (rest : List Token) :
    leading (ts ++ close :: rest) = some (e, close :: rest) := by
  have hjoint : Joint.ofToken? close = none := by rcases hc with rfl | rfl <;> rfl
  have hlen : ts.length < (ts ++ close :: rest).length + 1 := by
    rw [List.length_append]
    omega
  exact h.parses.whole _ hlen (Nat.le_refl _) (blocks_of_none _ hjoint)

theorem Derives.condition_eq (h : Derives (rank .comma) ts e) (rest : List Token) :
    condition (openParen :: (ts ++ closeParen :: rest)) = some (e, rest) := by
  simp [condition, h.leading_eq (.inl rfl)]

theorem Clause.clause_eq {value : Option Expr} (h : Clause ts value)
    (hc : close = closeParen ∨ close = semicolon) (rest : List Token) :
    clause close (ts ++ close :: rest) = some (value, rest) := by
  have hmem : close ∈ structural := by rcases hc with rfl | rfl <;> decide
  cases h with
  | missing => simp [clause]
  | given hd => simp [clause, hd.expect_eq_none hmem, hd.leading_eq hc]

end

/-- The reader finds the statement wherever no `else` follows that would go on with it. -/
def ReadsAs (read : List Token → Option (Stmt × List Token)) (ts : List Token) (s : Stmt) : Prop :=
  ∀ rest, (s.endsOpen → expect (reserved "else") rest = none) → read (ts ++ rest) = some (s, rest)

theorem Forms.begins {ts : List Token} {s : Stmt} (h : Forms ts s) :
    ∃ t tail, ts = t :: tail ∧ t ≠ closeBrace ∧ t ≠ reserved "else" := by
  cases h with
  | expression hd =>
    obtain ⟨t, tail, rfl, ht⟩ := hd.not_structural
    refine ⟨t, tail ++ [semicolon], rfl, ?_, ?_⟩ <;> rintro rfl <;> exact ht (by decide)
  | _ => exact ⟨_, _, rfl, by decide, by decide⟩

/-- Statements one behind the other; what begins the next one is no `else`. -/
theorem sequence_flatten {read : List Token → Option (Stmt × List Token)}
    {items : List (List Token × Stmt)} (rest : List Token) (hf : ∀ i ∈ items, Forms i.1 i.2)
    (h : ∀ i ∈ items, ReadsAs read i.1 i.2) {count : Nat} (hc : items.length < count) :
    sequence read count ((items.map Prod.fst).flatten ++ closeBrace :: rest) =
      some (items.map Prod.snd, rest) := by
  induction items generalizing count with
  | nil =>
    obtain ⟨count, rfl⟩ := Nat.exists_eq_succ_of_ne_zero (Nat.ne_zero_of_lt hc)
    simp [sequence]
  | cons first others ih =>
    obtain ⟨count, rfl⟩ := Nat.exists_eq_succ_of_ne_zero (Nat.ne_zero_of_lt hc)
    obtain ⟨hfirst, hothers⟩ := List.forall_mem_cons.mp h
    obtain ⟨hform, hforms⟩ := List.forall_mem_cons.mp hf
    have hrest := ih hforms hothers (Nat.lt_of_succ_lt_succ hc)
    have hnext : expect (reserved "else")
        ((others.map Prod.fst).flatten ++ closeBrace :: rest) = none := by
      cases others with
      | nil => rfl
      | cons second others =>
        obtain ⟨t, tail, hts, _, ht⟩ := (hforms second List.mem_cons_self).begins
        simp [hts, expect, ht]
    have hread := hfirst ((others.map Prod.fst).flatten ++ closeBrace :: rest) fun _ => hnext
    have hstart : expect closeBrace
        (first.1 ++ ((others.map Prod.fst).flatten ++ closeBrace :: rest)) = none := by
      obtain ⟨t, tail, hts, ht, _⟩ := hform.begins
      simp [hts, expect, ht]
    rw [List.map_cons, List.flatten_cons, List.append_assoc]
    simp only [sequence, hstart, hread, Option.bind_eq_bind, Option.bind_some, hrest]
    rfl

theorem length_le_flatten {items : List (List Token × Stmt)} (hf : ∀ i ∈ items, Forms i.1 i.2) :
    items.length ≤ (items.map Prod.fst).flatten.length := by
  induction items with
  | nil => simp
  | cons first others ih =>
    obtain ⟨hfirst, hothers⟩ := List.forall_mem_cons.mp hf
    obtain ⟨t, tail, hts, _⟩ := hfirst.begins
    have := ih hothers
    simp only [List.map_cons, List.flatten_cons, hts, List.length_append, List.length_cons]
    omega

/-- As many turns as there are tokens are enough, because every statement has one. -/
theorem sequence_length {read : List Token → Option (Stmt × List Token)}
    {items : List (List Token × Stmt)} (rest : List Token) (hf : ∀ i ∈ items, Forms i.1 i.2)
    (h : ∀ i ∈ items, ReadsAs read i.1 i.2) :
    sequence read ((items.map Prod.fst).flatten ++ closeBrace :: rest).length
      ((items.map Prod.fst).flatten ++ closeBrace :: rest) = some (items.map Prod.snd, rest) := by
  refine sequence_flatten rest hf h ?_
  have := length_le_flatten hf
  rw [List.length_append, List.length_cons]
  omega

theorem readsAs_of_items {items : List (List Token × Stmt)} {depth : Nat}
    (h : ∀ i ∈ items, ∀ depth, i.1.length ≤ depth → ReadsAs (statement depth) i.1 i.2)
    (hd : (items.map Prod.fst).flatten.length ≤ depth) :
    ∀ i ∈ items, ReadsAs (statement depth) i.1 i.2 := by
  intro i hi
  have hle := (List.sublist_flatten_of_mem (List.mem_map_of_mem (f := Prod.fst) hi)).length_le
  exact h i hi depth (Nat.le_trans hle hd)

theorem readsAs_of_follow (opener : Opener) {t : Token} {ts : List Token} {s : Stmt}
    (ht : Opener.ofToken? t = some opener)
    (h : ∀ depth, ts.length ≤ depth → ReadsAs (follow (statement depth) opener) ts s)
    (depth : Nat) (hd : (t :: ts).length ≤ depth) : ReadsAs (statement depth) (t :: ts) s := by
  obtain ⟨depth, rfl⟩ := Nat.exists_eq_succ_of_ne_zero (Nat.ne_zero_of_lt hd)
  intro rest hr
  simp only [List.cons_append, statement, ht]
  exact h depth (Nat.le_of_succ_le_succ hd) rest hr

theorem Forms.readsAs {ts : List Token} {s : Stmt} (h : Forms ts s) :
    ∀ depth, ts.length ≤ depth → ReadsAs (statement depth) ts s := by
  -- one case for each form; what stands inside is shorter, so that a lesser depth is enough for it
  induction h with
  | @block items hf ih =>
    refine readsAs_of_follow .block rfl fun depth hd rest _ => ?_
    rw [List.length_append] at hd
    have hread := readsAs_of_items ih (Nat.le_of_add_right_le hd)
    simp only [follow, List.append_assoc, List.singleton_append, sequence_length rest hf hread]
    rfl
  | @ifThen ts us c s hc _ ih =>
    refine readsAs_of_follow .branch rfl fun depth hd rest hr => ?_
    simp only [List.length_append, List.length_cons] at hd
    have hread := ih depth (by omega) rest fun _ => hr rfl
    simp [follow, hc.condition_eq, hread, hr rfl]
  | @ifElse ts us vs c s s' hc _ hs _ ih ih' =>
    refine readsAs_of_follow .branch rfl fun depth hd rest hr => ?_
    simp only [List.length_append, List.length_cons] at hd
    have hthen := ih depth (by omega) (reserved "else" :: (vs ++ rest)) (by simp [hs])
    have helse := ih' depth (by omega) rest hr
    simp [follow, hc.condition_eq, hthen, helse]
  | @whileLoop ts us c s hc _ ih =>
    refine readsAs_of_follow .whileLoop rfl fun depth hd rest hr => ?_
    simp only [List.length_append, List.length_cons] at hd
    have hread := ih depth (by omega) rest hr
    simp [follow, hc.condition_eq, hread]
  | @doWhile ts us c s _ hc ih =>
    refine readsAs_of_follow .doWhile rfl fun depth hd rest _ => ?_
    simp only [List.length_append, List.length_cons] at hd
    have hread := ih depth (by omega)
      (reserved "while" :: openParen :: (ts ++ closeParen :: semicolon :: rest)) fun _ => rfl
    simp [follow, hread, hc.condition_eq]
  | @forLoop ts us vs ws init test incr s hi ht hn _ ih =>
    refine readsAs_of_follow .forLoop rfl fun depth hd rest hr => ?_
    simp only [List.length_append, List.length_cons] at hd
    have hread := ih depth (by omega) rest hr
    simp [follow, hi.clause_eq (.inr rfl), ht.clause_eq (.inr rfl), hn.clause_eq (.inl rfl), hread]
  | ret hv =>
    refine readsAs_of_follow .ret rfl fun depth _ rest _ => ?_
    simp [follow, hv.clause_eq (.inr rfl)]
  | breakLoop => exact readsAs_of_follow .breakLoop rfl fun _ _ _ _ => rfl
  | continueLoop => exact readsAs_of_follow .continueLoop rfl fun _ _ _ _ => rfl
  | empty => exact readsAs_of_follow .empty rfl fun _ _ _ _ => rfl
  | @expression ts e hd =>
    intro depth hlen rest _
    obtain ⟨depth, rfl⟩ := Nat.exists_eq_succ_of_ne_zero (n := depth) (by simp at hlen; omega)
    have hread := hd.leading_eq (.inr rfl) rest
    obtain ⟨t, tail, rfl, ht⟩ := hd.not_structural
    rw [List.cons_append] at hread
    simp [statement, ofToken?_eq_none ht, hread]

theorem ReadsStatements.readStatements_eq {text : String} {ss : List Stmt}
    (h : ReadsStatements text ss) : readStatements text = some ss := by
  obtain ⟨items, hlex, rfl, hf⟩ := h
  have hdepth : (items.map Prod.fst).flatten.length ≤
      ((items.map Prod.fst).flatten ++ [closeBrace]).length := by simp
  have hread := readsAs_of_items (fun i hi => (hf i hi).readsAs) hdepth
  simp only [readStatements, hlex, sequence_length [] hf hread]

theorem ReadsStatements.unique {text : String} {ss ss' : List Stmt} (h : ReadsStatements text ss)
    (h' : ReadsStatements text ss') : ss = ss' :=
  Option.some.inj (h.readStatements_eq.symm.trans h'.readStatements_eq)

/-- An `else` goes with the nearest `if`. -/
example : readStatements "if (a) if (b) x; else y;" =
    some [.ifThen (.symbol "a") (.ifElse (.symbol "b") (.expression (.symbol "x"))
      (.expression (.symbol "y")))] := by
  rfl

end Grammar
end Arbor
