import Arbor.Proofs.Grammar.Brackets
import Arbor.Proofs.Grammar.Printed
import Arbor.Proofs.Sequences
import Mathlib.Data.List.Forall2

/-!
Expressions by their parts.

Every expression that is no leaf is written as its parts, with fixed text before the first and
behind each of them. `Expr.lead` and `Expr.parts` say so once for all kinds, with the place of each
part, so that what holds of expressions at large is shown without going through the kinds again.
`Shaped` collects what the fixed text is like, one lemma for each kind.
-/
namespace Arbor

open Precedence (rank primary)
open Grammar Token

namespace Operator

def between : Operator → String
  | .comma => ", "
  | .dot => "."
  | .arrow => "->"
  | op => " " ++ op.spelling ++ " "

theorem isParen_token (op : Operator) : isParen op.token = false := by
  cases op <;> decide

theorem isParen_assigning (op : Operator) : isParen op.assigning = false := by
  cases op <;> decide

theorem between_eq {op : Operator} (h : op ∉ [.comma, .dot, .arrow]) :
    op.between = " " ++ op.spelling ++ " " := by
  cases op <;> first | rfl | exact absurd h (by decide)

end Operator

namespace Expr

/-- A part of an expression, with what stands between it and the next, or behind the last. -/
structure Part where
  place : Place
  expr : Expr
  behind : String
  /-- The tokens of the text behind. -/
  glue : List Token

def Part.chars (p : Part) : List Char := p.behind.toList

/-- The level that the grammar has at a place. The operand of an operator that stands before it
may be of that same level, where parentheses are set all the same. -/
def Place.asks : Place → Nat
  | .operand .unary _ => rank .unary
  | place => place.level

def arguments : List Expr → List Part
  | [] => []
  | [arg] => [⟨.argument, arg, ")", [closeParen]⟩]
  | arg :: next :: rest => ⟨.argument, arg, ", ", [comma]⟩ :: arguments (next :: rest)

def lead : Expr → String
  | .symbol name => name
  | .literal value => toString value
  | .unary op _ => if op.standsAfter then "" else op.spelling ++ " "
  | .cast ty _ => "(" ++ ty.display ++ ") "
  | _ => ""

/-- The tokens before the first part; those of a leaf are not given by its text alone. -/
def leadTokens : Expr → List Token
  | .unary op _ => if op.standsAfter then [] else [op.token]
  | .cast ty _ => openParen :: lex ty.display.toList ++ [closeParen]
  | _ => []

def parts : Expr → List Part
  | .symbol _ | .literal _ => []
  | .unary op arg =>
    if op.standsAfter then [⟨.operand op.precedence true, arg, " " ++ op.spelling, [op.token]⟩]
    else [⟨.operand op.precedence true, arg, "", []⟩]
  | .binary left op right =>
    if op = .index then
      [⟨.operand .suffix true, left, "[", [openBracket]⟩, ⟨.shielded, right, "]", [closeBracket]⟩]
    else
      [⟨.operand op.precedence true, left, op.between, [op.token]⟩,
        ⟨.operand op.precedence false, right, "", []⟩]
  | .augAssign target op value =>
    [⟨.operand .assignment true, target, " " ++ op.spelling ++ "= ", [op.assigning]⟩,
      ⟨.operand .assignment false, value, "", []⟩]
  | .ternary cond thenValue elseValue =>
    [⟨.operand .ternary true, cond, " ? ", [question]⟩, ⟨.shielded, thenValue, " : ", [colon]⟩,
      ⟨.operand .ternary false, elseValue, "", []⟩]
  | .cast _ value => [⟨.operand .unary true, value, "", []⟩]
  | .call func [] => [⟨.callee, func, "()", [openParen, closeParen]⟩]
  | .call func (arg :: rest) => ⟨.callee, func, "(", [openParen]⟩ :: arguments (arg :: rest)

def suits : Expr → Bool
  | .unary op _ => op.isUnary
  | .binary _ op _ => op.isBinary
  | .augAssign _ op _ => op.isAugmentable
  | _ => true

mutual
/-- The number of tokens, parentheses not counted. -/
def weight : Expr → Nat
  | .symbol _ => 1
  | .literal _ => 1
  | .unary _ arg => arg.weight + 1
  | .binary left op right => left.weight + right.weight + (if op = .index then 2 else 1)
  | .augAssign target _ value => target.weight + value.weight + 1
  | .ternary cond thenValue elseValue => cond.weight + thenValue.weight + elseValue.weight + 2
  | .cast ty value => content (lex ty.display.toList) + value.weight
  | .call func args => func.weight + weightAll args + (args.length - 1)
def weightAll : List Expr → Nat
  | [] => 0
  | e :: es => e.weight + weightAll es
end

def skeleton (e : Expr) : List Token := e.leadTokens ++ e.parts.flatMap Part.glue

/-- A text that gives these tokens wherever it stands, and that ends what stands before it. -/
structure Seam (text : String) (ts : List Token) : Prop where
  spells : Spells (fun _ => True) text.toList ts
  ends : ∀ c ∈ text.toList.head?, c ∈ closers ∨ c = '.'

/-- Behind the part something follows, up to whose first token of content nothing closes. -/
structure Part.Opens (p : Part) : Prop where
  behind : p.behind ≠ ""
  leads : ∀ ts, Leads ts → Leads (p.glue ++ ts)

def Separated : List Part → Prop
  | [] | [_] => True
  | p :: q :: rest => p.Opens ∧ Separated (q :: rest)

/-- What the fixed text of an expression is like. -/
structure Shaped (e : Expr) : Prop where
  lead_spells : Spells (fun _ => True) e.lead.toList e.leadTokens
  seams : ∀ p ∈ e.parts, Seam p.behind p.glue
  separated : Separated e.parts
  balanced : Balanced e.skeleton
  weight_eq : e.weight = content e.skeleton + (e.parts.map (·.expr.weight)).sum
  begins : (Balanced e.leadTokens ∧ Leads e.leadTokens) ∨
    (e.leadTokens = [] ∧ ∃ p ps, e.parts = p :: ps ∧ p.glue ≠ [])

end Expr

namespace Grammar

section

variable {ts us : List Token}

theorem balanced_of_content (h : ∀ t ∈ ts, isParen t = false) : Balanced ts := by
  induction ts with
  | nil => rfl
  | cons t ts ih =>
    obtain ⟨ht, hts⟩ := List.forall_mem_cons.mp h
    rw [Balanced, height_other ht]
    exact ih hts

theorem content_eq_length (h : ∀ t ∈ ts, isParen t = false) : content ts = ts.length := by
  rw [content, List.countP_eq_length]
  intro t ht
  rw [h t ht]
  rfl

theorem Leads.of_first {t : Token} (h : isParen t = false) (ts : List Token) : Leads (t :: ts) :=
  ⟨0, t, ts, rfl, h⟩

theorem Balanced.append (hts : Balanced ts) (hus : Balanced us) : Balanced (ts ++ us) := by
  rw [Balanced, hts.height_append]
  exact hus

theorem balanced_commas {items : List (List Token)} (h : ∀ ts ∈ items, Balanced ts) :
    Balanced (commas items) := by
  induction items with
  | nil => rfl
  | cons ts items ih =>
    obtain ⟨hts, hitems⟩ := List.forall_mem_cons.mp h
    cases items with
    | nil => simpa [commas, List.intercalate] using hts
    | cons us items =>
      rw [commas_cons_cons]
      exact hts.append (Balanced.append (Balanced.single (t := comma) rfl) (ih hitems))

end

namespace TypeName

variable {ts us : List Token} {ty : CType}

theorem unique (h : TypeName ts ty) (k : TypeName us ty) : ts = us := by
  induction h generalizing us with
  | scalar s => cases k; rfl
  | pointer _ ih =>
    cases k with
    | pointer k => rw [ih k]
  | @function ts result params _ _ ih ihp =>
    generalize hty : CType.function result (params.map Prod.snd) = ty at k
    cases k with
    | scalar | pointer => cases hty
    | @function ts' result' params' k kp =>
      injection hty with hresult hparams
      subst hresult
      rw [ih k, fst_eq_of_snd_eq (R := TypeName) (fun p hp _ => ihp p hp) kp hparams]

theorem balanced (h : TypeName ts ty) : Balanced ts := by
  induction h with
  | scalar s => cases s <;> decide
  | pointer _ ih => exact ih.append (Balanced.single rfl)
  | @function ts result params _ _ ih ihp =>
    have hparams : Balanced (commas (params.map Prod.fst)) := by
      refine balanced_commas fun us hus => ?_
      obtain ⟨p, hp, rfl⟩ := List.mem_map.mp hus
      exact ihp p hp
    have hstar : Balanced [openParen, star, closeParen] := by decide
    have hall := (ih.append hstar).append hparams.parens
    simpa using hall

theorem leads (h : TypeName ts ty) : Leads ts := by
  induction h with
  | scalar s => cases s <;> exact Leads.of_first (by decide) _
  | pointer _ ih => exact ih.append _
  | function _ _ ih _ =>
    rw [List.append_assoc, List.append_assoc]
    exact ih.append _

theorem lex_display (h : TypeName ts ty) : lex ty.display.toList = ts := by
  obtain ⟨us, hspell, hus⟩ := spells_display ty
  rw [hspell.lex_eq, hus.unique h]

end TypeName

end Grammar

namespace Expr

variable {e f l r c t : Expr} {op : Operator} {ty : CType} {args : List Expr}

namespace Seam

theorem nothing : Seam "" [] := ⟨.nil, nofun⟩

theorem sign {text : String} {ts : List Token} (h : Spells (fun _ => True) text.toList ts)
    (hs : ∃ c, text.toList.head? = some c ∧ (c ∈ closers ∨ c = '.')) : Seam text ts := by
  obtain ⟨c, hc, hends⟩ := hs
  refine ⟨h, fun d hd => ?_⟩
  obtain rfl := Option.some.inj (hc.symm.trans hd)
  exact hends

theorem between (hop : op.isBinary) (hindex : op ≠ .index) : Seam op.between [op.token] := by
  by_cases hspecial : op ∈ [.comma, .dot, .arrow]
  · simp only [List.mem_cons, List.not_mem_nil, or_false] at hspecial
    rcases hspecial with rfl | rfl | rfl
    · exact .sign (fun _ _ => rfl) ⟨',', rfl, by decide⟩
    · exact .sign (spells_suffix (.inr (show Operator.dot.isMember from rfl))) ⟨'.', rfl, .inr rfl⟩
    · exact .sign (spells_suffix (.inr (show Operator.arrow.isMember from rfl)))
        ⟨'-', rfl, by decide⟩
  · have hsingle : op ∉ [.index, .cast, .conditional] := by
      revert hop hindex
      cases op <;> decide
    rw [Operator.between_eq hspecial]
    exact .sign (spells_infixed hsingle) ⟨' ', by simp, by decide⟩

theorem openBracket : Seam "[" [openBracket] := by
  have hmark : Spells (fun _ => True) ['['] [Token.openBracket] :=
    spells_sealed (by decide) fun _ => rfl
  exact .sign hmark ⟨'[', rfl, by decide⟩

theorem closeBracket : Seam "]" [closeBracket] := by
  have hmark : Spells (fun _ => True) [']'] [Token.closeBracket] :=
    spells_sealed (by decide) fun _ => rfl
  exact .sign hmark ⟨']', rfl, by decide⟩

theorem comma : Seam ", " [comma] := .sign (fun _ _ => rfl) ⟨',', rfl, by decide⟩

theorem openParen : Seam "(" [openParen] := .sign spells_openParen ⟨'(', rfl, by decide⟩

theorem closeParen : Seam ")" [closeParen] := .sign spells_closeParen ⟨')', rfl, by decide⟩

end Seam

theorem Part.opens_of_sign {p : Part} {t : Token} {ts : List Token} (h : Seam p.behind p.glue)
    (hglue : p.glue = t :: ts) (ht : isParen t = false) : p.Opens := by
  refine ⟨fun hnone => ?_, fun us _ => ?_⟩
  · have hlex := h.spells.lex_eq
    rw [hglue, hnone] at hlex
    cases hlex
  · rw [hglue]
    exact Leads.of_first ht _

theorem separated_of_signs {ps : List Part} (hseams : ∀ p ∈ ps, Seam p.behind p.glue)
    (hplain : ∀ t ∈ ps.flatMap Part.glue, isParen t = false)
    (hsep : ∀ p ∈ ps.dropLast, p.glue ≠ []) : Separated ps := by
  induction ps with
  | nil => trivial
  | cons p ps ih =>
    cases ps with
    | nil => trivial
    | cons q ps =>
      obtain ⟨hp, hps⟩ := List.forall_mem_cons.mp hseams
      rw [List.flatMap_cons, List.forall_mem_append] at hplain
      rw [List.dropLast_cons_cons, List.forall_mem_cons] at hsep
      obtain ⟨t, ts, hglue⟩ := List.exists_cons_of_ne_nil hsep.1
      have hfirst : isParen t = false := hplain.1 t (hglue ▸ List.mem_cons_self)
      exact ⟨Part.opens_of_sign hp hglue hfirst, ih hps hplain.2 hsep.2⟩

theorem shaped_of_signs (hlead : Spells (fun _ => True) e.lead.toList e.leadTokens)
    (hseams : ∀ p ∈ e.parts, Seam p.behind p.glue)
    (hplain : ∀ t ∈ e.skeleton, isParen t = false)
    (hweight : e.weight = e.skeleton.length + (e.parts.map (·.expr.weight)).sum)
    (hsep : ∀ p ∈ e.parts.dropLast, p.glue ≠ [])
    (hbegins : e.leadTokens ≠ [] ∨ ∃ p ps, e.parts = p :: ps ∧ p.glue ≠ []) : Shaped e := by
  obtain ⟨hplainLead, hplainParts⟩ := List.forall_mem_append.mp hplain
  refine ⟨hlead, hseams, separated_of_signs hseams hplainParts hsep, balanced_of_content hplain,
    ?_, ?_⟩
  · rw [content_eq_length hplain, hweight]
  · cases hls : e.leadTokens with
    | nil => exact .inr ⟨rfl, hbegins.resolve_left (not_not_intro hls)⟩
    | cons t us =>
      rw [hls] at hplainLead
      exact .inl ⟨balanced_of_content hplainLead,
        Leads.of_first (hplainLead t List.mem_cons_self) us⟩

theorem shaped_after (h : op.standsAfter) : Shaped (.unary op e) := by
  have hsign : Spells (fun _ => True) (" " ++ op.spelling).toList [op.token] := by
    simpa using Spells.blank.append_any (spells_suffix (.inl h))
  have hseam : Seam (" " ++ op.spelling) [op.token] := .sign hsign ⟨' ', by simp, by decide⟩
  apply shaped_of_signs <;> simp [skeleton, lead, leadTokens, parts, weight, h, hseam,
    op.isParen_token, Nat.add_comm, Spells.nil]

theorem shaped_before (h : op.standsBefore) : Shaped (.unary op e) := by
  have hafter : op.standsAfter = false := by
    revert h
    cases op <;> decide
  have hsingle : op ∉ [.index, .cast, .conditional] := by
    revert h
    cases op <;> decide
  apply shaped_of_signs <;> simp [skeleton, lead, leadTokens, parts, weight, hafter, Seam.nothing,
    op.isParen_token, Nat.add_comm, spells_operator hsingle]

theorem shaped_index : Shaped (.binary l .index r) := by
  have hplain : isParen openBracket = false ∧ isParen closeBracket = false := by decide
  apply shaped_of_signs <;> simp [skeleton, lead, leadTokens, parts, weight, Seam.openBracket,
    Seam.closeBracket, hplain, Nat.add_comm, Spells.nil]

theorem shaped_infix (hop : op.isBinary) (hindex : op ≠ .index) : Shaped (.binary l op r) := by
  apply shaped_of_signs <;> simp [skeleton, lead, leadTokens, parts, weight, hindex,
    Seam.between hop hindex, Seam.nothing, op.isParen_token, Nat.add_comm, Spells.nil]

theorem shaped_augAssign (hop : op.isAugmentable) : Shaped (.augAssign l op r) := by
  have hsign : Spells (fun _ => True) (" " ++ op.spelling ++ "= ").toList [op.assigning] := by
    simpa using Spells.blank.append_any (spells_assigning hop)
  have hseam : Seam (" " ++ op.spelling ++ "= ") [op.assigning] :=
    .sign hsign ⟨' ', by simp, by decide⟩
  apply shaped_of_signs <;> simp [skeleton, lead, leadTokens, parts, weight, hseam, Seam.nothing,
    op.isParen_assigning, Nat.add_comm, Spells.nil]

theorem shaped_ternary : Shaped (.ternary c t e) := by
  have hquestion : Seam " ? " [question] := .sign (fun _ _ => rfl) ⟨' ', rfl, by decide⟩
  have hcolon : Seam " : " [colon] := .sign (fun _ _ => rfl) ⟨' ', rfl, by decide⟩
  have hplain : isParen question = false ∧ isParen colon = false := by decide
  apply shaped_of_signs <;> simp [skeleton, lead, leadTokens, parts, weight, hquestion, hcolon,
    Seam.nothing, hplain, Nat.add_comm, Nat.add_left_comm, Spells.nil]

theorem shaped_cast : Shaped (.cast ty e) := by
  obtain ⟨ts, hspell, hty⟩ := spells_display ty
  have hlead : (Expr.cast ty e).leadTokens = openParen :: ts ++ [closeParen] := by
    rw [leadTokens, hty.lex_display]
  have hskeleton : (Expr.cast ty e).skeleton = openParen :: ts ++ [closeParen] := by
    rw [skeleton, hlead]
    simp [parts]
  have hclose : Spells (fun _ => True) [')', ' '] [closeParen] := fun _ _ => rfl
  refine ⟨?_, by simp [parts, Seam.nothing], trivial, ?_, ?_, .inl ⟨?_, ?_⟩⟩
  · have hall := spells_openParen.append_any (hspell.append hclose rfl (by decide))
    rw [hlead]
    simpa [lead] using hall
  · rw [hskeleton]
    exact hty.balanced.parens
  · rw [hskeleton, content_parens]
    simp [parts, weight, hty.lex_display]
  · rw [hlead]
    exact hty.balanced.parens
  · rw [hlead]
    exact hty.leads.cons.append _

section

variable {args : List Expr}

theorem seams_arguments : ∀ p ∈ arguments args, Seam p.behind p.glue := by
  fun_induction arguments args with
  | case1 => exact fun _ hp => absurd hp List.not_mem_nil
  | case2 arg => exact List.forall_mem_singleton.mpr .closeParen
  | case3 arg next rest ih => exact List.forall_mem_cons.mpr ⟨.comma, ih⟩

theorem height_arguments (d : Nat) (h : args ≠ []) :
    height (d + 1) ((arguments args).flatMap Part.glue) = some d := by
  fun_induction arguments args with
  | case1 => exact absurd rfl h
  | case2 arg => exact height_closeParen
  | case3 arg next rest ih =>
    rw [List.flatMap_cons, List.singleton_append, height_other rfl]
    exact ih (List.cons_ne_nil _ _)

theorem content_arguments :
    content ((arguments args).flatMap Part.glue) = args.length - 1 := by
  fun_induction arguments args with
  | case1 => rfl
  | case2 arg => rfl
  | case3 arg next rest ih =>
    rw [List.flatMap_cons, content_append, ih, content_single rfl]
    simp [Nat.add_comm]

theorem weightAll_eq : weightAll args = ((arguments args).map (·.expr.weight)).sum := by
  fun_induction arguments args with
  | case1 => rfl
  | case2 arg => rfl
  | case3 arg next rest ih => rw [weightAll, ih, List.map_cons, List.sum_cons]

theorem separated_cons {p : Part} {ps : List Part} (hp : p.Opens) (h : Separated ps) :
    Separated (p :: ps) := by
  cases ps with
  | nil => trivial
  | cons q ps => exact ⟨hp, h⟩

theorem separated_arguments : Separated (arguments args) := by
  fun_induction arguments args with
  | case1 => trivial
  | case2 arg => trivial
  | case3 arg next rest ih => exact separated_cons (Part.opens_of_sign .comma rfl rfl) ih

end

theorem shaped_call_nil : Shaped (.call f []) := by
  have hpair : Seam "()" [openParen, closeParen] :=
    .sign (spells_openParen.append_any spells_closeParen) ⟨'(', rfl, by decide⟩
  have hskeleton : (Expr.call f []).skeleton = [openParen, closeParen] := rfl
  refine ⟨.nil, List.forall_mem_singleton.mpr hpair, trivial, hskeleton ▸ by decide, ?_,
    .inr ⟨rfl, _, _, rfl, List.cons_ne_nil _ _⟩⟩
  simp [hskeleton, parts, weight, weightAll, content, isParen]

theorem shaped_call_cons {a : Expr} {args : List Expr} : Shaped (.call f (a :: args)) := by
  have hopens : (Part.mk .callee f "(" [openParen]).Opens :=
    ⟨show "(" ≠ "" by decide, fun _ hts => hts.cons⟩
  have hskeleton : (Expr.call f (a :: args)).skeleton =
      openParen :: (arguments (a :: args)).flatMap Part.glue := rfl
  have hcontent : content (openParen :: (arguments (a :: args)).flatMap Part.glue) =
      args.length := by
    rw [← List.singleton_append, content_append, content_arguments]
    exact Nat.zero_add _
  refine ⟨.nil, List.forall_mem_cons.mpr ⟨.openParen, seams_arguments⟩,
    separated_cons hopens separated_arguments, ?_, ?_,
    .inr ⟨rfl, _, _, rfl, List.cons_ne_nil _ _⟩⟩
  · rw [hskeleton, Grammar.Balanced, height_openParen]
    exact height_arguments 0 (List.cons_ne_nil _ _)
  · rw [hskeleton, hcontent, weight, weightAll_eq, parts, List.map_cons, List.sum_cons]
    exact Nat.add_comm _ _

theorem shaped (hs : e.suits) (hp : e.parts ≠ []) : Shaped e := by
  cases e with
  | symbol | literal => exact absurd rfl hp
  | unary op =>
    cases hafter : op.standsAfter with
    | true => exact shaped_after hafter
    | false => exact shaped_before (by simpa [suits, Operator.isUnary, hafter] using hs)
  | binary l op r =>
    by_cases hindex : op = .index
    · subst hindex
      exact shaped_index
    · exact shaped_infix hs hindex
  | augAssign => exact shaped_augAssign hs
  | ternary => exact shaped_ternary
  | cast => exact shaped_cast
  | call f args =>
    cases args with
    | nil => exact shaped_call_nil
    | cons => exact shaped_call_cons

/-- What is enclosed is too loose for its place. -/
theorem Place.lt_asks {place : Place} {own : Precedence} (h : place.encloses own)
    (hother : own = .unary → ∀ side, place ≠ .operand .unary side) : own.rank < place.asks := by
  cases place with
  | shielded => cases h
  | argument =>
    obtain rfl := of_decide_eq_true h
    decide
  | callee => exact of_decide_eq_true h
  | operand outer side =>
    by_cases hunary : outer = .unary
    · subst hunary
      have hlt : own < .unary ∨ own = .unary := by
        simp only [encloses, Bool.or_eq_true, decide_eq_true_eq, Bool.and_eq_true] at h
        exact h.imp_right And.left
      exact hlt.resolve_right fun he => hother he side rfl
    · have hasks : (Place.operand outer side).asks = (Place.operand outer side).level := by
        cases outer <;> first | rfl | exact absurd rfl hunary
      rw [hasks, level]
      simp only [encloses, Bool.or_eq_true, decide_eq_true_eq, Bool.and_eq_true] at h
      rcases h with hlt | ⟨rfl, hside⟩
      · have hlt : own.rank < outer.rank := hlt
        split
        · exact Nat.lt_succ_of_lt hlt
        · exact hlt
      · rw [if_pos hside]
        exact Nat.lt_succ_self _

theorem leaf_of_parts (h : e.parts = []) : (∃ name, e = .symbol name) ∨ ∃ v, e = .literal v := by
  cases e with
  | symbol name => exact .inl ⟨name, rfl⟩
  | literal v => exact .inr ⟨v, rfl⟩
  | unary op => cases hafter : op.standsAfter <;> simp [parts, hafter] at h
  | binary l op r => by_cases hindex : op = .index <;> simp [parts, hindex] at h
  | call f args => cases args <;> simp [parts] at h
  | augAssign | ternary | cast => simp [parts] at h

theorem place_of_argument {p : Part} {args : List Expr} (h : p ∈ arguments args) :
    p.place = .argument := by
  fun_induction arguments args with
  | case1 => exact absurd h List.not_mem_nil
  | case2 arg => rw [List.mem_singleton.mp h]
  | case3 arg next rest ih =>
    rcases List.mem_cons.mp h with rfl | h
    · rfl
    · exact ih h

theorem precedence_of_operand {p : Part} {outer : Precedence} {side : Bool} (hp : p ∈ e.parts)
    (h : p.place = .operand outer side) : e.precedence? = some outer := by
  cases e with
  | symbol | literal => cases hp
  | unary op arg =>
    have hplace : p.place = .operand op.precedence true := by
      rw [parts] at hp
      split at hp <;> rw [List.mem_singleton.mp hp]
    cases hplace.symm.trans h
    rfl
  | binary l op r =>
    by_cases hindex : op = .index
    · subst hindex
      simp only [parts, if_true, List.mem_cons, List.not_mem_nil, or_false] at hp
      rcases hp with rfl | rfl <;> cases h
      rfl
    · simp only [parts, if_neg hindex, List.mem_cons, List.not_mem_nil, or_false] at hp
      rcases hp with rfl | rfl <;> cases h <;> rfl
  | augAssign | ternary | cast =>
    simp only [parts, List.mem_cons, List.not_mem_nil, or_false] at hp
    rcases hp with rfl | rfl | rfl <;> cases h <;> rfl
  | call f args =>
    cases args with
    | nil =>
      rw [List.mem_singleton.mp hp] at h
      cases h
    | cons a args =>
      rcases List.mem_cons.mp hp with rfl | hp
      · cases h
      · cases (place_of_argument hp).symm.trans h

end Expr
end Arbor
