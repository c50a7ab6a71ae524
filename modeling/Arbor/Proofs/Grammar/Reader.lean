import Arbor.Proofs.Grammar.Expression

/-!
Reading expressions, and why the grammar is unambiguous.

The reader goes from left to right: an operand, then whatever joins it as long as it binds at
least as tightly as asked for. On the tokens of a derivation it finds the derived expression and
leaves what follows (`Derives.parses`), so two derivations of one text give one expression.
-/
namespace Arbor
namespace Grammar

open Token
open Precedence (rank primary)

variable {α : Type}

def expect (t : Token) : List Token → Option (List Token)
  | [] => none
  | u :: rest => if u = t then some rest else none

@[simp] theorem expect_cons (t : Token) (rest : List Token) : expect t (t :: rest) = some rest := by
  simp [expect]

@[simp] theorem expect_comma_closeParen (rest : List Token) :
    expect comma (closeParen :: rest) = none := rfl

/-- Items with commas between them up to a closing parenthesis, at most `count`. -/
def items (read : List Token → Option (α × List Token)) :
    (count : Nat) → List Token → Option (List α × List Token)
  | 0, _ => none
  | count + 1, ts => do
    let (a, rest) ← read ts
    match expect comma rest with
    | some rest =>
      let (others, rest) ← items read count rest
      return (a :: others, rest)
    | none => return ([a], ← expect closeParen rest)

def listed (read : List Token → Option (α × List Token)) (ts : List Token) :
    Option (List α × List Token) :=
  match expect closeParen ts with
  | some rest => some ([], rest)
  | none => items read ts.length ts

def ReadsItem (read : List Token → Option (α × List Token)) (item : List Token × α) : Prop :=
  ∀ t rest, t = comma ∨ t = closeParen → read (item.1 ++ t :: rest) = some (item.2, t :: rest)

theorem commas_cons_cons (ts us : List Token) (rest : List (List Token)) :
    commas (ts :: us :: rest) = ts ++ comma :: commas (us :: rest) := by
  simp [commas, List.intercalate]

theorem items_commas {read : List Token → Option (α × List Token)} {first : List Token × α}
    {others : List (List Token × α)} {count : Nat} (rest : List Token)
    (h : ∀ a ∈ first :: others, ReadsItem read a) (hc : others.length < count) :
    items read count (commas ((first :: others).map Prod.fst) ++ closeParen :: rest) =
      some ((first :: others).map Prod.snd, rest) := by
  induction others generalizing first count with
  | nil =>
    obtain ⟨count, rfl⟩ := Nat.exists_eq_succ_of_ne_zero (Nat.ne_zero_of_lt hc)
    have hread := h first (by simp) closeParen rest (.inr rfl)
    have hcommas : commas ([first].map Prod.fst) = first.1 := by simp [commas, List.intercalate]
    rw [hcommas, items, hread]
    simp
  | cons second others ih =>
    obtain ⟨count, rfl⟩ := Nat.exists_eq_succ_of_ne_zero (Nat.ne_zero_of_lt hc)
    obtain ⟨hfirst, hothers⟩ := List.forall_mem_cons.mp h
    have hrest : items read count
        (commas ((second :: others).map Prod.fst) ++ closeParen :: rest) =
          some ((second :: others).map Prod.snd, rest) := ih hothers (Nat.lt_of_succ_lt_succ hc)
    have hread := hfirst comma (commas ((second :: others).map Prod.fst) ++ closeParen :: rest)
      (.inl rfl)
    have hcommas : commas ((first :: second :: others).map Prod.fst) ++ closeParen :: rest =
        first.1 ++ comma :: (commas ((second :: others).map Prod.fst) ++ closeParen :: rest) := by
      simp [commas_cons_cons]
    rw [hcommas, items, hread]
    simp only [Option.bind_eq_bind, Option.bind_some, expect_cons, hrest]
    rfl

theorem length_le_commas (first : List Token) (others : List (List Token)) :
    others.length ≤ (commas (first :: others)).length := by
  induction others generalizing first with
  | nil => simp
  | cons second others ih =>
    have := ih second
    simp only [commas_cons_cons, List.length_append, List.length_cons] at this ⊢
    omega

theorem listed_commas {read : List Token → Option (α × List Token)}
    {pairs : List (List Token × α)} (rest : List Token) (h : ∀ a ∈ pairs, ReadsItem read a)
    (hs : ∀ a ∈ pairs, expect closeParen a.1 = none ∧ a.1 ≠ []) :
    listed read (commas (pairs.map Prod.fst) ++ closeParen :: rest) =
      some (pairs.map Prod.snd, rest) := by
  cases pairs with
  | nil => simp [commas, listed, List.intercalate]
  | cons first others =>
    have hstart : expect closeParen
        (commas ((first :: others).map Prod.fst) ++ closeParen :: rest) = none := by
      obtain ⟨hne, hnil⟩ := hs first List.mem_cons_self
      obtain ⟨t, ts, hts⟩ := List.exists_cons_of_ne_nil hnil
      cases others with
      | nil => simpa [commas, List.intercalate, hts, expect] using hne
      | cons second others => simpa [commas_cons_cons, hts, expect] using hne
    rw [listed, hstart]
    refine items_commas rest h ?_
    have := length_le_commas first.1 (others.map Prod.fst)
    simp only [List.length_map, List.map_cons, List.length_append, List.length_cons] at this ⊢
    omega

/-- A scalar at the head of the tokens; the longer name is tried first. -/
def scalar? (ts : List Token) : Option (Scalar × List Token) :=
  ((.longDouble :: Scalar.all).find? fun s => s.tokens.isPrefixOf ts).map fun s =>
    (s, ts.drop s.tokens.length)

def typeTail (read : List Token → Option (CType × List Token)) :
    (count : Nat) → CType → List Token → Option (CType × List Token)
  | 0, ty, ts => some (ty, ts)
  | count + 1, ty, ts =>
    match ts with
    | .mark ['*'] :: rest => typeTail read count (.pointer ty) rest
    | .mark ['('] :: .mark ['*'] :: .mark [')'] :: .mark ['('] :: rest => do
      let (params, rest) ← listed read rest
      typeTail read count (.function ty params) rest
    | _ => some (ty, ts)

def typeName : (depth : Nat) → List Token → Option (CType × List Token)
  | 0, _ => none
  | depth + 1, ts => do
    let (s, rest) ← scalar? ts
    typeTail (typeName depth) rest.length (.scalar s) rest

/-- No word follows, which could be one more keyword. -/
def WordFree (ts : List Token) : Prop := ∀ text, ts.head? ≠ some (.word text)

theorem scalar?_tokens (s : Scalar) {rest : List Token} (h : WordFree rest) :
    scalar? (s.tokens ++ rest) = some (s, rest) := by
  cases rest with
  | nil => cases s <;> rfl
  | cons t rest =>
    cases t with
    | word text => exact absurd rfl (h text)
    | number text => cases s <;> rfl
    | negative text => cases s <;> rfl
    | mark text => cases s <;> rfl

section

variable (read : List Token → Option (CType × List Token)) (count : Nat) (ty : CType)
  (rest : List Token)

theorem typeTail_star :
    typeTail read (count + 1) ty (star :: rest) = typeTail read count (.pointer ty) rest := rfl

theorem typeTail_params :
    typeTail read (count + 1) ty (openParen :: star :: closeParen :: openParen :: rest) =
      (listed read rest).bind fun (params, rest) =>
        typeTail read count (.function ty params) rest := rfl

end

theorem typeTail_stops {read : List Token → Option (CType × List Token)} {count : Nat} {ty : CType}
    {t : Token} {rest : List Token} (h : t = comma ∨ t = closeParen) :
    typeTail read count ty (t :: rest) = some (ty, t :: rest) := by
  cases count with
  | zero => rfl
  | succ count => rcases h with rfl | rfl <;> rfl

theorem length_le_commas_of_mem {item : List Token} {all : List (List Token)} (h : item ∈ all) :
    item.length ≤ (commas all).length := by
  induction all with
  | nil => cases h
  | cons first others ih =>
    cases others with
    | nil => simpa [commas, List.intercalate] using (List.mem_singleton.mp h ▸ Nat.le_refl _)
    | cons second others =>
      rw [commas_cons_cons, List.length_append, List.length_cons]
      rcases List.mem_cons.mp h with rfl | h
      · omega
      · have := ih h
        omega

theorem TypeName.begins_scalar {ts : List Token} {ty : CType} (h : TypeName ts ty) :
    ∃ s, Scalar.tokens s <+: ts := by
  induction h with
  | scalar s => exact ⟨s, List.prefix_rfl⟩
  | pointer _ ih =>
    obtain ⟨s, hs⟩ := ih
    exact ⟨s, hs.trans (List.prefix_append _ _)⟩
  | function _ _ ih _ =>
    obtain ⟨s, hs⟩ := ih
    refine ⟨s, hs.trans ?_⟩
    rw [List.append_assoc, List.append_assoc]
    exact List.prefix_append _ _

theorem TypeName.starts_item {ts : List Token} {ty : CType} (h : TypeName ts ty) :
    expect closeParen ts = none ∧ ts ≠ [] := by
  obtain ⟨s, tail, rfl⟩ := h.begins_scalar
  cases s <;> exact ⟨rfl, List.cons_ne_nil _ _⟩

theorem TypeName.typeName_eq {ts : List Token} {ty : CType} (h : TypeName ts ty) :
    ∀ depth, ts.length ≤ depth → ∀ rest, WordFree rest → ∃ count, rest.length ≤ count ∧
      typeName (depth + 1) (ts ++ rest) = typeTail (typeName depth) count ty rest := by
  induction h with
  | scalar s =>
    intro depth _ rest hr
    refine ⟨rest.length, Nat.le_refl _, ?_⟩
    rw [typeName, scalar?_tokens s hr]
    rfl
  | @pointer ts base _ ih =>
    intro depth hd rest hr
    rw [List.length_append] at hd
    obtain ⟨count, hcount, heq⟩ := ih depth (by omega) (star :: rest) fun _ h => nomatch h
    obtain ⟨count, rfl⟩ := Nat.exists_eq_succ_of_ne_zero (Nat.ne_zero_of_lt hcount)
    refine ⟨count, Nat.le_of_succ_le_succ hcount, ?_⟩
    rw [List.append_assoc, List.singleton_append, heq, typeTail_star]
  | @function ts result params _ hp ih ihp =>
    intro depth hd rest hr
    simp only [List.length_append, List.length_cons, List.length_nil] at hd
    obtain ⟨count, hcount, heq⟩ := ih depth (by omega)
      (openParen :: star :: closeParen :: openParen ::
        (commas (params.map Prod.fst) ++ closeParen :: rest)) fun _ h => nomatch h
    obtain ⟨count, rfl⟩ := Nat.exists_eq_succ_of_ne_zero (Nat.ne_zero_of_lt hcount)
    obtain ⟨depth, rfl⟩ := Nat.exists_eq_succ_of_ne_zero (n := depth) (by omega)
    have hread : ∀ p ∈ params, ReadsItem (typeName (depth + 1)) p := by
      intro p hmem t rest ht
      have hlen := length_le_commas_of_mem (List.mem_map_of_mem (f := Prod.fst) hmem)
      have hword : WordFree (t :: rest) := by
        rcases ht with rfl | rfl <;> exact fun _ h => nomatch h
      obtain ⟨count, _, hparam⟩ := ihp p hmem depth (by omega) (t :: rest) hword
      rw [hparam, typeTail_stops ht]
    refine ⟨count, ?_, ?_⟩
    · simp only [List.length_cons, List.length_append] at hcount
      omega
    · have hlist := listed_commas rest hread fun p hmem => (hp p hmem).starts_item
      simp only [List.append_assoc, List.cons_append, List.nil_append]
      rw [heq, typeTail_params, hlist]
      rfl

/-- What a token does that follows a complete operand. -/
inductive Joint where
  | after (op : Operator)
  | member (op : Operator)
  | index
  | call
  | level (op : Operator)
  | ternary
  | assign
  | augment (op : Operator)
  deriving DecidableEq, Repr

namespace Joint

def rank : Joint → Nat
  | .after _ | .member _ | .index | .call => Precedence.rank .suffix
  | .level op => op.precedence.rank
  | .ternary => Precedence.rank .ternary
  | .assign | .augment _ => Precedence.rank .assignment

def table : List (Token × Joint) :=
  [(openBracket, .index), (openParen, .call), (question, .ternary),
    (Operator.assign.token, .assign)] ++
  (Operator.all.filter (·.standsAfter)).map (fun op => (op.token, .after op)) ++
  (Operator.all.filter (·.isMember)).map (fun op => (op.token, .member op)) ++
  (Operator.all.filter (·.isLevel)).map (fun op => (op.token, .level op)) ++
  (Operator.all.filter (·.isAugmentable)).map fun op => (op.assigning, .augment op)

def ofToken? (t : Token) : Option Joint := table.lookup t

end Joint

def before? (t : Token) : Option Operator :=
  (Operator.all.filter (·.standsBefore)).find? fun op => op.token = t

def opensType (ts : List Token) : Bool := Scalar.all.any fun s => s.tokens.isPrefixOf ts

abbrev Reading := Nat → List Token → Option (Expr × List Token)

/-- An operand up to the first token that can join it. -/
def operand (read : Reading) : List Token → Option (Expr × List Token)
  | [] => none
  | t :: rest =>
    match before? t with
    | some op => do
      let (e, rest) ← read (rank .unary) rest
      return (.unary op e, rest)
    | none =>
      match t with
      | .word text => if isIdentifier text then some (.symbol (String.ofList text), rest) else none
      | .number digits =>
        if digits.all Char.isDigit then some (.literal (Nat.ofDigitChars 10 digits 0), rest) else none
      | .negative digits =>
        if digits.all Char.isDigit then some (.literal (-Nat.ofDigitChars 10 digits 0), rest) else none
      | .mark _ => do
        let inner ← expect openParen (t :: rest)
        if opensType inner then
          let (ty, rest) ← typeName (inner.length + 1) inner
          let (e, rest) ← read (rank .unary) (← expect closeParen rest)
          return (.cast ty e, rest)
        else
          let (e, rest) ← read (rank .comma) inner
          return (e, ← expect closeParen rest)

def join (read : Reading) (left : Expr) : Joint → List Token → Option (Expr × List Token)
  | .after op, rest => some (.unary op left, rest)
  | .member op, .word text :: rest =>
    if isIdentifier text then some (.binary left op (.symbol (String.ofList text)), rest) else none
  | .member _, _ => none
  | .index, rest => do
    let (i, rest) ← read (rank .comma) rest
    return (.binary left .index i, ← expect closeBracket rest)
  | .call, rest => do
    let (args, rest) ← listed (read (rank .assignment)) rest
    return (.call left args, rest)
  | .level op, rest => do
    let (right, rest) ← read (op.precedence.rank + 1) rest
    return (.binary left op right, rest)
  | .ternary, rest => do
    let (thenValue, rest) ← read (rank .comma) rest
    let (elseValue, rest) ← read (rank .ternary) (← expect colon rest)
    return (.ternary left thenValue elseValue, rest)
  | .assign, rest => do
    let (right, rest) ← read (rank .assignment) rest
    return (.binary left .assign right, rest)
  | .augment op, rest => do
    let (right, rest) ← read (rank .assignment) rest
    return (.augAssign left op right, rest)

/-- Joins what binds at least as tightly as `level`, at most `count` times. -/
def extend (read : Reading) (level : Nat) :
    (count : Nat) → Expr → List Token → Option (Expr × List Token)
  | 0, e, ts => some (e, ts)
  | _ + 1, e, [] => some (e, [])
  | count + 1, e, t :: rest =>
    match Joint.ofToken? t with
    | none => some (e, t :: rest)
    | some joint =>
      if joint.rank < level then some (e, t :: rest)
      else do
        let (e, rest) ← join read e joint rest
        extend read level count e rest

def parse : (depth : Nat) → Reading
  | 0, _, _ => none
  | depth + 1, level, ts => do
    let (e, rest) ← operand (parse depth) ts
    extend (parse depth) level rest.length e rest

def readExpr (text : String) : Option Expr :=
  let ts := lex text.toList
  match parse (ts.length + 1) (rank .comma) ts with
  | some (e, []) => some e
  | _ => none

/-- No joint of this level or a tighter one follows. -/
def Blocks (level : Nat) (rest : List Token) : Prop :=
  ∀ t ∈ rest.head?, ∀ joint, Joint.ofToken? t = some joint → joint.rank < level

theorem Blocks.mono {j k : Nat} {rest : List Token} (h : Blocks j rest) (hle : j ≤ k) :
    Blocks k rest :=
  fun t ht joint hj => Nat.lt_of_lt_of_le (h t ht joint hj) hle

theorem blocks_cons {k : Nat} {t : Token} {rest : List Token}
    (h : ∀ joint, Joint.ofToken? t = some joint → joint.rank < k) : Blocks k (t :: rest) := by
  intro u hu
  obtain rfl := Option.some.inj hu
  exact h

theorem blocks_of_none {t : Token} {rest : List Token} (k : Nat) (h : Joint.ofToken? t = none) :
    Blocks k (t :: rest) :=
  blocks_cons fun _ hj => nomatch h.symm.trans hj

/-- What may follow an expression of level `k` binds less tightly than this: a level that
associates to the left can go on, the others cannot. -/
def bound (k : Nat) : Nat :=
  if k = rank .assignment ∨ k = rank .ternary ∨ k = rank .unary then k else k + 1

theorem bound_le_succ (k : Nat) : bound k ≤ k + 1 := by
  unfold bound
  split <;> omega

theorem le_bound (k : Nat) : k ≤ bound k := by
  unfold bound
  split <;> omega

theorem extend_stops {read : Reading} {level count : Nat} {e : Expr} {rest : List Token}
    (h : Blocks level rest) : extend read level count e rest = some (e, rest) := by
  cases count with
  | zero => rfl
  | succ count =>
    cases rest with
    | nil => rfl
    | cons t rest =>
      cases hj : Joint.ofToken? t with
      | none => simp only [extend, hj]
      | some joint =>
        have hlt : joint.rank < level := h t rfl joint hj
        simp only [extend, hj, hlt, if_true]

theorem extend_join {read : Reading} {level count : Nat} {e e' : Expr} {t : Token}
    {joint : Joint} {rest rest' : List Token} (ht : Joint.ofToken? t = some joint)
    (hle : level ≤ joint.rank) (hj : join read e joint rest = some (e', rest')) :
    extend read level (count + 1) e (t :: rest) = extend read level count e' rest' := by
  simp only [extend, ht, Nat.not_lt.mpr hle, if_false, hj]
  rfl

/-- The reader finds the expression at the head of the tokens and goes on with what follows. -/
def Parses (k : Nat) (ts : List Token) (e : Expr) : Prop :=
  ∀ depth, ts.length ≤ depth → ∀ level, level ≤ k → ∀ rest, Blocks (bound k) rest →
    ∃ count, rest.length ≤ count ∧
      parse (depth + 1) level (ts ++ rest) = extend (parse depth) level count e rest

namespace Parses

variable {j k : Nat} {ts us : List Token} {e e' : Expr}

theorem of_operand (h : ∀ depth rest, ts.length ≤ depth → Blocks (bound k) rest →
    operand (parse depth) (ts ++ rest) = some (e, rest)) : Parses k ts e := by
  intro depth hd level _ rest hr
  refine ⟨rest.length, Nat.le_refl _, ?_⟩
  rw [parse, h depth rest hd hr]
  rfl

theorem joined (h : Parses k ts e) {t : Token} {joint : Joint} (hj : Joint.ofToken? t = some joint)
    (hlt : joint.rank < bound k) (hk : j ≤ k) (hle : j ≤ joint.rank)
    (hjoin : ∀ depth rest, us.length < depth → Blocks (bound j) rest →
      join (parse depth) e joint (us ++ rest) = some (e', rest)) : Parses j (ts ++ t :: us) e' := by
  intro depth hd level hl rest hr
  simp only [List.length_append, List.length_cons] at hd
  have hblocks : Blocks (bound k) (t :: (us ++ rest)) :=
    blocks_cons fun _ hj' => Option.some.inj (hj.symm.trans hj') ▸ hlt
  obtain ⟨count, hcount, heq⟩ := h depth (by omega) level (by omega) (t :: (us ++ rest)) hblocks
  obtain ⟨count, rfl⟩ := Nat.exists_eq_succ_of_ne_zero (Nat.ne_zero_of_lt hcount)
  simp only [List.length_append, List.length_cons] at hcount
  refine ⟨count, by omega, ?_⟩
  rw [List.append_assoc, List.cons_append, heq]
  exact extend_join hj (by omega) (hjoin depth rest (by omega) hr)

theorem whole (h : Parses k ts e) (depth : Nat) (hd : ts.length < depth) {level : Nat}
    (hl : level ≤ k) {rest : List Token} (hr : Blocks level rest) :
    parse depth level (ts ++ rest) = some (e, rest) := by
  obtain ⟨depth, rfl⟩ := Nat.exists_eq_succ_of_ne_zero (Nat.ne_zero_of_lt hd)
  have hb : Blocks (bound k) rest := hr.mono (Nat.le_trans hl (le_bound k))
  obtain ⟨count, _, heq⟩ := h depth (Nat.le_of_lt_succ hd) level hl rest hb
  rw [heq, extend_stops hr]

theorem readsItem (h : Parses (rank .assignment) ts e) {depth : Nat} (hd : ts.length < depth) :
    ReadsItem (parse depth (rank .assignment)) (ts, e) := by
  intro t rest ht
  have hnext : Blocks (rank .assignment) (t :: rest) := by
    rcases ht with rfl | rfl
    · exact blocks_cons fun joint hj => Option.some.inj hj ▸ by decide
    · exact blocks_of_none _ rfl
  exact h.whole depth hd (Nat.le_refl _) hnext

theorem tighter (h : Parses (k + 1) ts e) : Parses k ts e := by
  intro depth hd level hl rest hr
  refine h depth hd level (by omega) rest (hr.mono ?_)
  exact Nat.le_trans (bound_le_succ k) (le_bound (k + 1))

end Parses

/-- Neither a type nor the end of a list begins with the token. -/
def Opens (t : Token) : Prop := t ≠ closeParen ∧ ∀ rest, opensType (t :: rest) = false

theorem opens_number (digits : List Char) : Opens (.number digits) :=
  ⟨Token.noConfusion, fun _ => rfl⟩

theorem opens_negative (digits : List Char) : Opens (.negative digits) :=
  ⟨Token.noConfusion, fun _ => rfl⟩

theorem opens_openParen : Opens openParen := ⟨by decide, fun _ => rfl⟩

theorem opens_before {op : Operator} (h : op.standsBefore) : Opens op.token := by
  cases op <;> first | exact absurd h (by decide) | exact ⟨by decide, fun _ => rfl⟩

theorem scalar_reserved (s : Scalar) :
    ∃ text ts, s.tokens = .word text :: ts ∧ keywords.contains text := by
  cases s <;> exact ⟨_, _, rfl, by decide⟩

theorem opens_identifier {text : List Char} (h : isIdentifier text) : Opens (.word text) := by
  refine ⟨Token.noConfusion, fun rest => ?_⟩
  by_contra ht
  simp only [Bool.not_eq_false, opensType, List.any_eq_true, List.isPrefixOf_iff_prefix] at ht
  obtain ⟨s, -, more, hs⟩ := ht
  obtain ⟨reserved, ts, htokens, hkey⟩ := scalar_reserved s
  rw [htokens, List.cons_append] at hs
  obtain rfl := Token.word.inj (List.cons.inj hs).1
  simp [isIdentifier] at h
  exact h.2 (by simpa using hkey)

theorem before?_token {op : Operator} (h : op.standsBefore) : before? op.token = some op := by
  revert h
  cases op <;> decide

theorem before?_identifier {text : List Char} (h : isIdentifier text) :
    before? (.word text) = none := by
  rw [before?, List.find?_eq_none]
  intro op _ heq
  have hop : op.token = .word text := of_decide_eq_true heq
  have hsize : op = .sizeOf := by revert hop; cases op <;> first | exact fun _ => rfl | nofun
  subst hsize
  obtain rfl := Token.word.inj hop
  revert h
  decide

theorem ofToken?_of_mem {t : Token} {joint : Joint} (h : (t, joint) ∈ Joint.table) :
    Joint.ofToken? t = some joint := by
  have hall : ∀ entry ∈ Joint.table, Joint.ofToken? entry.1 = some entry.2 := by decide
  exact hall _ h

theorem mem_operators (op : Operator) : op ∈ Operator.all := by
  cases op <;> decide

theorem ofToken?_after {op : Operator} (h : op.standsAfter) :
    Joint.ofToken? op.token = some (.after op) :=
  ofToken?_of_mem (by simp [Joint.table, mem_operators, h])

theorem ofToken?_member {op : Operator} (h : op.isMember) :
    Joint.ofToken? op.token = some (.member op) :=
  ofToken?_of_mem (by simp [Joint.table, mem_operators, h])

theorem ofToken?_level {op : Operator} (h : op.isLevel) :
    Joint.ofToken? op.token = some (.level op) :=
  ofToken?_of_mem (by simp [Joint.table, mem_operators, h])

theorem ofToken?_augment {op : Operator} (h : op.isAugmentable) :
    Joint.ofToken? op.assigning = some (.augment op) :=
  ofToken?_of_mem (by simp [Joint.table, mem_operators, h])

theorem bound_level {op : Operator} (h : op.isLevel) :
    bound op.precedence.rank = op.precedence.rank + 1 := by
  revert h
  cases op <;> decide

inductive Begins : Token → Prop where
  | identifier {text : List Char} : isIdentifier text → Begins (.word text)
  | number (digits : List Char) : Begins (.number digits)
  | negative (digits : List Char) : Begins (.negative digits)
  | openParen : Begins openParen
  | before {op : Operator} : op.standsBefore → Begins op.token

theorem Begins.opens {t : Token} (h : Begins t) : Opens t := by
  cases h with
  | identifier hname => exact opens_identifier hname
  | number digits => exact opens_number digits
  | negative digits => exact opens_negative digits
  | openParen => exact opens_openParen
  | before hop => exact opens_before hop

def Starts (ts : List Token) : Prop := ∃ t tail, ts = t :: tail ∧ Begins t

theorem Starts.append {ts : List Token} (h : Starts ts) (us : List Token) : Starts (ts ++ us) := by
  obtain ⟨t, tail, rfl, ho⟩ := h
  exact ⟨t, tail ++ us, rfl, ho⟩

theorem Derives.starts {k : Nat} {ts : List Token} {e : Expr} (h : Derives k ts e) : Starts ts := by
  induction h with
  | symbol hname => exact ⟨_, _, rfl, .identifier hname⟩
  | number _ => exact ⟨_, _, rfl, .number _⟩
  | negative _ => exact ⟨_, _, rfl, .negative _⟩
  | parens _ _ => exact ⟨_, _, rfl, .openParen⟩
  | cast _ _ _ => exact ⟨_, _, rfl, .openParen⟩
  | before hop _ _ => exact ⟨_, _, rfl, .before hop⟩
  | tighter _ ih => exact ih
  | after _ _ ih => exact ih.append _
  | member _ _ _ ih => exact ih.append _
  | index _ _ ih _ => exact (ih.append _).append _
  | call _ _ ih _ => exact (ih.append _).append _
  | level _ _ _ ih _ => exact ih.append _
  | ternary _ _ _ ih _ _ => exact (ih.append _).append _
  | assign _ _ ih _ => exact ih.append _
  | augment _ _ _ ih _ => exact ih.append _

theorem Derives.not_opensType {k : Nat} {ts : List Token} {e : Expr} (h : Derives k ts e)
    (rest : List Token) : opensType (ts ++ rest) = false := by
  obtain ⟨t, tail, rfl, ho⟩ := h.starts
  exact ho.opens.2 _

theorem Derives.starts_item {k : Nat} {ts : List Token} {e : Expr} (h : Derives k ts e) :
    expect closeParen ts = none ∧ ts ≠ [] := by
  obtain ⟨t, tail, rfl, ho⟩ := h.starts
  simp [expect, ho.opens.1]

theorem TypeName.opensType {ts : List Token} {ty : CType} (h : TypeName ts ty)
    (rest : List Token) : opensType (ts ++ rest) = true := by
  obtain ⟨s, hs⟩ := h.begins_scalar
  refine List.any_eq_true.mpr ⟨s, by cases s <;> decide, ?_⟩
  exact List.isPrefixOf_iff_prefix.mpr (hs.trans (List.prefix_append _ _))

theorem operand_openParen (read : Reading) (inner : List Token) :
    operand read (openParen :: inner) =
      if opensType inner then do
        let (ty, rest) ← typeName (inner.length + 1) inner
        let (e, rest) ← read (rank .unary) (← expect closeParen rest)
        return (.cast ty e, rest)
      else do
        let (e, rest) ← read (rank .comma) inner
        return (e, ← expect closeParen rest) := rfl

theorem suffix_lt_bound : rank .suffix < bound (rank .suffix) := by decide

theorem assignment_lt_bound : rank .assignment < bound (rank .ternary) := by decide

theorem Derives.parses {k : Nat} {ts : List Token} {e : Expr} (h : Derives k ts e) :
    Parses k ts e := by
  -- one case for each rule: what opens an operand is read by `operand`, the rest by `join`
  induction h with
  | @symbol name hname =>
    refine .of_operand fun depth rest _ _ => ?_
    simp [operand, before?_identifier hname, hname]
  | @number digits hdigits =>
    refine .of_operand fun depth rest _ _ => ?_
    have hbefore : before? (.number digits) = none := rfl
    simp only [List.singleton_append, operand, hbefore, hdigits, if_true]
  | @negative digits hdigits =>
    refine .of_operand fun depth rest _ _ => ?_
    have hbefore : before? (.negative digits) = none := rfl
    simp only [List.singleton_append, operand, hbefore, hdigits, if_true]
  | @parens ts e hd ih =>
    refine .of_operand fun depth rest hlen _ => ?_
    simp only [List.length_append, List.length_cons, List.length_nil] at hlen
    -- what is in parentheses is no type, or the reader would take it for a cast
    have hclose : Blocks (rank .comma) (closeParen :: rest) := blocks_of_none _ rfl
    have hread := ih.whole depth (by omega) (Nat.le_refl _) hclose
    rw [List.cons_append, List.cons_append, List.append_assoc, List.singleton_append,
      operand_openParen, hd.not_opensType, hread]
    simp
  | @before ts e op hop _ ih =>
    refine .of_operand fun depth rest hlen hr => ?_
    have hread := ih.whole depth hlen (Nat.le_refl _) hr
    simp only [List.cons_append, operand, before?_token hop, hread]
    rfl
  | @cast ts us ty e hty _ ih =>
    refine .of_operand fun depth rest hlen hr => ?_
    simp only [List.length_append, List.length_cons] at hlen
    have hread := ih.whole depth (by omega) (Nat.le_refl _) hr
    obtain ⟨count, _, htype⟩ := hty.typeName_eq (ts ++ closeParen :: (us ++ rest)).length (by simp)
      (closeParen :: (us ++ rest)) fun _ h => nomatch h
    rw [typeTail_stops (.inr rfl)] at htype
    rw [List.append_assoc, List.cons_append, List.cons_append, operand_openParen,
      hty.opensType, htype]
    simp [hread]
  | after hop _ ih =>
    exact ih.joined (ofToken?_after hop) suffix_lt_bound (Nat.le_refl _) (Nat.le_refl _)
      fun depth rest _ _ => rfl
  | member hop hname _ ih =>
    refine ih.joined (ofToken?_member hop) suffix_lt_bound (Nat.le_refl _) (Nat.le_refl _) ?_
    intro depth rest _ _
    simp [join, hname]
  | @index ts us e i _ _ ih ihi =>
    rw [List.append_assoc, List.cons_append]
    refine ih.joined rfl suffix_lt_bound (Nat.le_refl _) (Nat.le_refl _) ?_
    intro depth rest hlen _
    rw [List.length_append] at hlen
    have hclose : Blocks (rank .comma) (closeBracket :: rest) := blocks_of_none _ rfl
    have hread := ihi.whole depth (by omega) (Nat.le_refl _) hclose
    simp only [join, List.append_assoc, List.singleton_append, hread]
    rfl
  | @call ts f args _ hargs ih iha =>
    rw [List.append_assoc, List.cons_append]
    refine ih.joined rfl suffix_lt_bound (Nat.le_refl _) (Nat.le_refl _) ?_
    intro depth rest hlen _
    rw [List.length_append] at hlen
    have hread : ∀ a ∈ args, ReadsItem (parse depth (rank .assignment)) a := by
      intro a hmem
      have hle := length_le_commas_of_mem (List.mem_map_of_mem (f := Prod.fst) hmem)
      exact (iha a hmem).readsItem (by omega)
    have hlist := listed_commas rest hread fun a hmem => (hargs a hmem).starts_item
    simp only [join, List.append_assoc, List.singleton_append, hlist]
    rfl
  | level hop _ _ ih ihr =>
    refine ih.joined (ofToken?_level hop) ?_ (Nat.le_refl _) (Nat.le_refl _) ?_
    · rw [bound_level hop]
      exact Nat.lt_succ_self _
    · intro depth rest hlen hr
      rw [bound_level hop] at hr
      have hread := ihr.whole depth hlen (Nat.le_refl _) hr
      simp only [join, hread]
      rfl
  | @ternary ts us vs c t e _ _ _ ih iht ihe =>
    rw [List.append_assoc, List.cons_append]
    have hjoint : Joint.ofToken? question = some .ternary := rfl
    refine ih.joined hjoint (by decide) (by decide) (Nat.le_refl _) ?_
    intro depth rest hlen hr
    simp only [List.length_append, List.length_cons] at hlen
    have hcolon : Blocks (rank .comma) (colon :: (vs ++ rest)) := blocks_of_none _ rfl
    have hthen := iht.whole depth (by omega) (Nat.le_refl _) hcolon
    have helse := ihe.whole depth (by omega) (Nat.le_refl _) hr
    simp only [join, List.append_assoc, List.cons_append, hthen, Option.bind_eq_bind,
      Option.bind_some, expect_cons, helse]
    rfl
  | assign _ _ ih ihr =>
    have hjoint : Joint.ofToken? Operator.assign.token = some .assign := rfl
    refine ih.joined hjoint assignment_lt_bound (by decide) (Nat.le_refl _) ?_
    intro depth rest hlen hr
    have hread := ihr.whole depth hlen (Nat.le_refl _) hr
    simp only [join, hread]
    rfl
  | augment hop _ _ ih ihr =>
    refine ih.joined (ofToken?_augment hop) assignment_lt_bound (by decide) (Nat.le_refl _) ?_
    intro depth rest hlen hr
    have hread := ihr.whole depth hlen (Nat.le_refl _) hr
    simp only [join, hread]
    rfl
  | tighter _ ih => exact ih.tighter

theorem Derives.parse_eq {ts : List Token} {e : Expr} (h : Derives (rank .comma) ts e) :
    parse (ts.length + 1) (rank .comma) ts = some (e, []) := by
  have hend : Blocks (rank .comma) [] := fun t ht => nomatch ht
  have hread := h.parses.whole (ts.length + 1) (Nat.lt_succ_self _) (Nat.le_refl _) hend
  rwa [List.append_nil] at hread

theorem Derives.unique {ts : List Token} {e e' : Expr} (h : Derives (rank .comma) ts e)
    (h' : Derives (rank .comma) ts e') : e = e' :=
  (Prod.mk.inj (Option.some.inj (h.parse_eq.symm.trans h'.parse_eq))).1

/-- The reader accepts every expression of the grammar. -/
theorem Reads.readExpr_eq {text : String} {e : Expr} (h : Reads text e) :
    readExpr text = some e := by
  simp only [readExpr, Derives.parse_eq h]

theorem Reads.unique {text : String} {e e' : Expr} (h : Reads text e) (h' : Reads text e') :
    e = e' :=
  Derives.unique h h'

end Grammar
end Arbor
