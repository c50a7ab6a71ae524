import Arbor.Proofs.Grammar.Reader
import Arbor.Render.Source

/-!
Printed expressions are in the grammar.

`Written e text` says that `text`, printed without parentheses of its own, has tokens that derive
`e` at the level of its class. There is one lemma for each kind of expression. What stands in a
place of an enclosing expression is put in parentheses just where its class is looser than the
place allows (`Place.level_le`), so that it always has the level of the place.
-/
namespace Arbor

open Precedence (rank primary)

namespace Expr

/-- Where an expression stands in another: under the shield of brackets, among arguments, as
what is called, or as an operand of a class, which is the last operand or not. -/
inductive Place where
  | shielded
  | argument
  | callee
  | operand (outer : Precedence) (beforeLast : Bool)
  deriving DecidableEq, Repr

namespace Place

def encloses : Place → Precedence → Bool
  | .shielded, _ => false
  | .argument, own => own = .comma
  | .callee, own => own < .suffix
  | .operand outer beforeLast, own =>
    own < outer || (own = outer && outer.isLeftAssociative != beforeLast)

def level : Place → Nat
  | .shielded => rank .comma
  | .argument => rank .assignment
  | .callee => rank .suffix
  | .operand outer beforeLast =>
    if outer.isLeftAssociative != beforeLast then outer.rank + 1 else outer.rank

end Place

end Expr

theorem Precedence.rank_injective : Function.Injective rank := by
  have hleft : ∀ p : Precedence, [Precedence.comma, .assignment, .ternary, .logicalOr, .logicalAnd,
      .bitOr, .bitXor, .bitAnd, .equality, .relational, .shift, .additive, .multiplicative, .unary,
      .suffix][p.rank]? = some p := by
    intro p
    cases p <;> rfl
  intro p q h
  exact Option.some.inj ((hleft p).symm.trans (h ▸ hleft q))

namespace Expr

theorem Place.level_le {place : Place} {own : Precedence} (h : place.encloses own = false) :
    place.level ≤ own.rank := by
  cases place with
  | shielded => exact Nat.zero_le _
  | argument =>
    have hne : own.rank ≠ rank .comma := fun he => by
      simp [encloses, Precedence.rank_injective he] at h
    exact Nat.pos_of_ne_zero hne
  | callee => exact Nat.not_lt.mp (of_decide_eq_false h)
  | operand outer beforeLast =>
    simp only [encloses, Bool.or_eq_false_iff, decide_eq_false_iff_not, Bool.and_eq_false_imp,
      decide_eq_true_eq] at h
    have hle : outer.rank ≤ own.rank := Nat.not_lt.mp h.1
    by_cases hside : (outer.isLeftAssociative != beforeLast) = true
    · rw [level, if_pos hside]
      refine Nat.lt_of_le_of_ne hle fun he => ?_
      exact Bool.false_ne_true ((h.2 (Precedence.rank_injective he).symm).symm.trans hside)
    · rw [level, if_neg hside]
      exact hle

theorem Place.level_le_primary (place : Place) : place.level ≤ primary := by
  cases place with
  | shielded => decide
  | argument => decide
  | callee => decide
  | operand outer beforeLast => cases outer <;> cases beforeLast <;> decide

def Place.wrap (place : Place) (own : Option Precedence) (text : String) : String :=
  if own.any place.encloses then "(" ++ text ++ ")" else text

def precedence? : Expr → Option Precedence
  | .symbol _ => none
  | .literal value => if value < 0 then some .unary else none
  | .unary op _ => some op.precedence
  | .binary _ op _ => some op.precedence
  | .augAssign _ _ _ => some .assignment
  | .ternary _ _ _ => some .ternary
  | .cast _ _ => some .unary
  | .call _ _ => some .suffix

def level (e : Expr) : Nat := (e.precedence?.map rank).getD primary

/-- Whether a point behind the expression is a token of its own. -/
def takesPoint : Expr → Bool
  | .literal _ => false
  | e => e.precedence?.all (· = .suffix)

end Expr

namespace Grammar

open Token

/-- What can stand right behind an expression. -/
def closers : List Char := [' ', ')', ']', '[', '(', ',', '-', ';']

def typeClosers : List Char := [' ', ')', ',', '*']

/-- The text spells an expression of the level. -/
def Placed (stop : Char → Prop) (level : Nat) (text : String) (e : Expr) : Prop :=
  ∃ ts, Spells stop text.toList ts ∧ Derives level ts e

def Written (e : Expr) (text : String) : Prop :=
  Placed (fun c => c ∈ closers ∨ c = '.' ∧ e.takesPoint) e.level text e

theorem Placed.mono {stop stop' : Char → Prop} {j k : Nat} {text : String} {e : Expr}
    (h : Placed stop k text e) (hs : ∀ c, stop' c → stop c) (hle : j ≤ k) :
    Placed stop' j text e := by
  obtain ⟨ts, hspell, hd⟩ := h
  exact ⟨ts, hspell.mono hs, hd.looser hle⟩

theorem Placed.written_any {text : String} {e : Expr} {k : Nat}
    (h : Placed (fun _ => True) k text e) (hk : e.level = k) : Written e text :=
  h.mono (fun _ _ => trivial) (Nat.le_of_eq hk)

theorem Placed.written {text : String} {e : Expr} {k : Nat} (h : Placed (· ∈ closers) k text e)
    (hk : e.level = k) (hp : e.takesPoint = false) : Written e text :=
  h.mono (fun c hc => by simpa [hp] using hc) (Nat.le_of_eq hk)

theorem spells_openParen : Spells (fun _ => True) ['('] [openParen] :=
  spells_sealed (by decide) fun _ => rfl

theorem spells_closeParen : Spells (fun _ => True) [')'] [closeParen] :=
  spells_sealed (by decide) fun _ => rfl

/-- In parentheses an expression of any level is a primary, and nothing extends it. -/
theorem Placed.parens {stop : Char → Prop} {k : Nat} {text : String} {e : Expr}
    (h : Placed stop k text e) (hs : stop ')') :
    Placed (fun _ => True) primary ("(" ++ text ++ ")") e := by
  obtain ⟨ts, hspell, hd⟩ := h
  refine ⟨openParen :: ts ++ [closeParen], ?_, .parens (hd.looser (Nat.zero_le _))⟩
  have hall := spells_openParen.append_any (hspell.append spells_closeParen rfl hs)
  simpa using hall

theorem Written.place {e : Expr} {text : String} (h : Written e text) (place : Expr.Place)
    {stop : Char → Prop} (hs : e.precedence?.any place.encloses = false →
      ∀ c, stop c → c ∈ closers ∨ c = '.' ∧ e.takesPoint) :
    Placed stop place.level (place.wrap e.precedence? text) e := by
  unfold Expr.Place.wrap
  split
  · exact (Placed.parens h (.inl (by decide))).mono (fun _ _ => trivial) place.level_le_primary
  · next hp =>
    rw [Bool.not_eq_true] at hp
    refine Placed.mono h (hs hp) ?_
    unfold Expr.level
    cases hown : e.precedence? with
    | none => exact place.level_le_primary
    | some own =>
      rw [hown] at hp
      exact Expr.Place.level_le hp

theorem Written.placed {e : Expr} {text : String} (h : Written e text) (place : Expr.Place) :
    Placed (· ∈ closers) place.level (place.wrap e.precedence? text) e :=
  h.place place fun _ _ hc => .inl hc

/-- Left of a point stands a symbol, what has the class of suffixes, or parentheses. -/
theorem Written.before_point {e : Expr} {text : String} (h : Written e text)
    (hl : ∀ v, e ≠ .literal v) :
    Placed (fun c => c ∈ closers ∨ c = '.') (rank .suffix)
      ((Expr.Place.operand .suffix true).wrap e.precedence? text) e := by
  refine h.place (.operand .suffix true) fun hp c hc => hc.imp_right fun hc => ⟨hc, ?_⟩
  have hpoint : e.takesPoint = e.precedence?.all (· = .suffix) := by
    cases e <;> first | rfl | exact absurd rfl (hl _)
  rw [hpoint]
  cases hown : e.precedence? with
  | none => rfl
  | some own =>
    rw [hown] at hp
    cases own <;> first | rfl | cases hp

theorem spells_listed {α : Type} {R : List Token → α → Prop} {stop : Char → Prop}
    {texts : List String} {as : List α} (hs : stop ',')
    (h : List.Forall₂ (fun text a => ∃ ts, Spells stop text.toList ts ∧ R ts a) texts as) :
    ∃ pairs : List (List Token × α), pairs.map Prod.snd = as ∧ (∀ p ∈ pairs, R p.1 p.2) ∧
      Spells stop (", ".intercalate texts).toList (commas (pairs.map Prod.fst)) := by
  induction h with
  | nil => exact ⟨[], rfl, by simp, .nil⟩
  | @cons text a texts as hfirst hrest ih =>
    obtain ⟨ts, hspell, hr⟩ := hfirst
    obtain ⟨pairs, rfl, hall, hlist⟩ := ih
    refine ⟨(ts, a) :: pairs, rfl, List.forall_mem_cons.mpr ⟨hr, hall⟩, ?_⟩
    cases texts with
    | nil =>
      have hnone : pairs = [] := by
        cases pairs with
        | nil => rfl
        | cons p tail => cases hrest
      subst hnone
      simpa [commas, List.intercalate] using hspell
    | cons text' texts =>
      obtain ⟨p, pairs, rfl⟩ : ∃ p tail, pairs = p :: tail := by
        cases pairs with
        | nil => cases hrest
        | cons p tail => exact ⟨p, tail, rfl⟩
      have hcomma : Spells (fun _ => True) [',', ' '] [comma] := fun _ _ => rfl
      have hjoined := hspell.between hcomma hlist rfl hs
      simpa [commas_cons_cons, String.toList_intercalate, List.intercalate] using hjoined

theorem spells_identifier {name : List Char} (h : isIdentifier name) :
    Spells (fun c => c ∈ closers ∨ c = '.') name [.word name] := by
  have hname : isName name := by
    simp only [isIdentifier, Bool.and_eq_true] at h
    exact h.1
  have hall : ('.' :: closers).all fun c => !isNamePart c := by decide
  refine (spells_word hname).mono fun c hc => ?_
  have hmem : c ∈ '.' :: closers := by simpa [or_comm] using hc
  simpa using List.all_eq_true.mp hall c hmem

theorem written_symbol {name : String} (h : isIdentifier name.toList) :
    Written (.symbol name) name :=
  ⟨_, (spells_identifier h).mono fun _ hc => hc.imp_right And.left, .symbol h⟩

theorem closer_ends_number {c : Char} (h : c ∈ closers) : isNamePart c = false ∧ c ≠ '.' := by
  have hall : closers.all fun c => !isNamePart c && c ≠ '.' := by decide
  simpa using List.all_eq_true.mp hall c h

theorem written_literal (v : Int) : Written (.literal v) (toString v) := by
  cases v with
  | ofNat n =>
    have hs := spells_number (@Nat.toDigits_ne_nil n 10) Digits.isDigit_of_mem
    refine ⟨[.number (Nat.toDigits 10 n)], ?_, derives_digits n⟩
    rw [Digits.toList_ofNat]
    exact hs.mono fun c hc => closer_ends_number (by simpa [Expr.takesPoint] using hc)
  | negSucc n =>
    -- the sign belongs to the token, which has the level of operators before an operand
    have hd : Derives (rank .unary) [.negative (Nat.toDigits 10 (n + 1))] _ :=
      .negative (List.all_eq_true.mpr Digits.isDigit_of_mem)
    have hs := spells_negative (@Nat.toDigits_ne_nil (n + 1) 10) Digits.isDigit_of_mem
    rw [Nat.ofDigitChars_ten_toDigits] at hd
    refine ⟨[.negative (Nat.toDigits 10 (n + 1))], ?_, ?_⟩
    · rw [Digits.toList_negSucc]
      exact hs.mono fun c hc => closer_ends_number (by simpa [Expr.takesPoint] using hc)
    · have hlevel : (Expr.literal (Int.negSucc n)).level = rank .unary := by
        simp [Expr.level, Expr.precedence?, Int.negSucc_lt_zero]
      rw [hlevel]
      exact hd

section

variable {e f l r : Expr} {s t u : String} {op : Operator}

theorem precedence_of_standsAfter (h : op.standsAfter) : op.precedence = .suffix := by
  revert h
  cases op <;> decide

theorem precedence_of_standsBefore (h : op.standsBefore) : op.precedence = .unary := by
  revert h
  cases op <;> decide

theorem precedence_of_isMember (h : op.isMember) : op.precedence = .suffix := by
  revert h
  cases op <;> decide

theorem spells_operator (h : op ∉ [.index, .cast, .conditional]) :
    Spells (fun _ => True) (op.spelling.toList ++ [' ']) [op.token] := by
  cases op <;> first | exact fun _ _ => rfl | simp at h

theorem spells_assigning (h : op.isAugmentable) :
    Spells (fun _ => True) (op.spelling.toList ++ ['=', ' ']) [op.assigning] := by
  cases op <;> first | exact fun _ _ => rfl | cases h

theorem spells_suffix (h : op.standsAfter ∨ op.isMember) :
    Spells (fun _ => True) op.spelling.toList [op.token] := by
  cases op <;> first
    | exact spells_sealed (by decide) fun _ => rfl
    | simp [Operator.standsAfter, Operator.isMember] at h

theorem written_after (hop : op.standsAfter) (h : Placed (· ∈ closers) (rank .suffix) s e) :
    Written (.unary op e) (s ++ " " ++ op.spelling) := by
  obtain ⟨ts, hs, hd⟩ := h
  refine Placed.written_any ⟨_, ?_, .after hop hd⟩ (congrArg rank (precedence_of_standsAfter hop))
  have hall := hs.between .blank (spells_suffix (.inl hop)) rfl (by decide)
  simpa using hall

theorem written_before (hop : op.standsBefore) (h : Placed (· ∈ closers) (rank .unary) s e) :
    Written (.unary op e) (op.spelling ++ " " ++ s) := by
  obtain ⟨ts, hs, hd⟩ := h
  have hclass := precedence_of_standsBefore hop
  have hsingle : op ∉ [.index, .cast, .conditional] := by revert hop; cases op <;> decide
  refine Placed.written ⟨_, ?_, .before hop hd⟩ (congrArg rank hclass)
    (by simp [Expr.takesPoint, Expr.precedence?, hclass])
  simpa using (spells_operator hsingle).append_any hs

theorem written_member {name : String} {stop : Char → Prop} (hop : op.isMember)
    (hname : isIdentifier name.toList) (h : Placed stop (rank .suffix) s e) {c : Char}
    (hc : op.spelling.toList.head? = some c) (hs : stop c) :
    Written (.binary e op (.symbol name)) (s ++ op.spelling ++ name) := by
  obtain ⟨ts, hspell, hd⟩ := h
  have hall := hspell.between (spells_suffix (.inr hop)) (spells_identifier hname) hc hs
  have hlevel : (Expr.binary e op (.symbol name)).level = rank .suffix :=
    congrArg rank (precedence_of_isMember hop)
  have hplaced : Placed (fun c => c ∈ closers ∨ c = '.') (rank .suffix) (s ++ op.spelling ++ name)
      (.binary e op (.symbol name)) := ⟨_, by simpa using hall, .member hop hname hd⟩
  exact hplaced.mono (fun _ hc => hc.imp_right And.left) (Nat.le_of_eq hlevel)

theorem written_index (hl : Placed (· ∈ closers) (rank .suffix) s l)
    (hr : Placed (· ∈ closers) (rank .comma) t r) :
    Written (.binary l .index r) (s ++ "[" ++ t ++ "]") := by
  obtain ⟨ts, hs, hdl⟩ := hl
  obtain ⟨us, ht, hdr⟩ := hr
  have hopen : Spells (fun _ => True) ['['] [openBracket] := spells_sealed (by decide) fun _ => rfl
  have hclose : Spells (fun _ => True) [']'] [closeBracket] :=
    spells_sealed (by decide) fun _ => rfl
  have hall := hs.between hopen (ht.append hclose rfl (by decide)) rfl (by decide)
  refine Placed.written_any ⟨_, ?_, .index hdl hdr⟩ rfl
  simpa using hall

theorem written_call {texts : List String} {args : List Expr}
    (hf : Placed (· ∈ closers) (rank .suffix) s f)
    (ha : List.Forall₂ (Placed (· ∈ closers) (rank .assignment)) texts args) :
    Written (.call f args) (s ++ "(" ++ ", ".intercalate texts ++ ")") := by
  obtain ⟨ts, hs, hd⟩ := hf
  obtain ⟨pairs, rfl, hargs, hlist⟩ := spells_listed (by decide) ha
  have hall := hs.between spells_openParen (hlist.append spells_closeParen rfl (by decide)) rfl
    (by decide)
  refine Placed.written_any ⟨_, ?_, .call hd hargs⟩ rfl
  simpa using hall

theorem written_between {sign : String} {tok : Token} {j k : Nat}
    (hsign : Spells (fun _ => True) sign.toList [tok]) (c : Char)
    (hc : sign.toList.head? = some c) (hcloser : c ∈ closers)
    (hl : Placed (· ∈ closers) j s l) (hr : Placed (· ∈ closers) k t r)
    (hd : ∀ ts us, Derives j ts l → Derives k us r → Derives e.level (ts ++ tok :: us) e)
    (hp : e.takesPoint = false) : Written e (s ++ sign ++ t) := by
  obtain ⟨ts, hs, hdl⟩ := hl
  obtain ⟨us, ht, hdr⟩ := hr
  refine Placed.written ⟨_, ?_, hd ts us hdl hdr⟩ rfl hp
  have hall := hs.between hsign ht hc hcloser
  simpa using hall

theorem takesPoint_level (hop : op.isLevel) : (Expr.binary l op r).takesPoint = false := by
  revert hop
  cases op <;> first | exact fun _ => rfl | nofun

theorem written_comma (hl : Placed (· ∈ closers) (rank .comma) s l)
    (hr : Placed (· ∈ closers) (rank .assignment) t r) :
    Written (.binary l .comma r) (s ++ ", " ++ t) :=
  written_between (fun _ _ => rfl) ',' rfl (by decide) hl hr
    (fun _ _ hdl hdr => Derives.level (show Operator.comma.isLevel from rfl) hdl hdr) rfl

theorem spells_infixed (h : op ∉ [.index, .cast, .conditional]) :
    Spells (fun _ => True) (" " ++ op.spelling ++ " ").toList [op.token] := by
  simpa using Spells.blank.append_any (spells_operator h)

theorem written_level (hop : op.isLevel) (hl : Placed (· ∈ closers) op.precedence.rank s l)
    (hr : Placed (· ∈ closers) (op.precedence.rank + 1) t r) :
    Written (.binary l op r) (s ++ (" " ++ op.spelling ++ " ") ++ t) := by
  have hsingle : op ∉ [.index, .cast, .conditional] := by revert hop; cases op <;> decide
  exact written_between (spells_infixed hsingle) ' ' (by simp) (by decide) hl hr
    (fun _ _ hdl hdr => .level hop hdl hdr) (takesPoint_level hop)

theorem written_assign (hl : Placed (· ∈ closers) (rank .ternary) s l)
    (hr : Placed (· ∈ closers) (rank .assignment) t r) :
    Written (.binary l .assign r) (s ++ (" " ++ Operator.assign.spelling ++ " ") ++ t) :=
  written_between (spells_infixed (by decide)) ' ' (by simp) (by decide) hl hr
    (fun _ _ => .assign) rfl

theorem written_augAssign (hop : op.isAugmentable) (hl : Placed (· ∈ closers) (rank .ternary) s l)
    (hr : Placed (· ∈ closers) (rank .assignment) t r) :
    Written (.augAssign l op r) (s ++ (" " ++ op.spelling ++ "= ") ++ t) := by
  have hsign : Spells (fun _ => True) (" " ++ op.spelling ++ "= ").toList [op.assigning] := by
    simpa using Spells.blank.append_any (spells_assigning hop)
  exact written_between hsign ' ' (by simp) (by decide) hl hr (fun _ _ => .augment hop) rfl

theorem written_ternary (hc : Placed (· ∈ closers) (rank .logicalOr) s e)
    (ht : Placed (· ∈ closers) (rank .comma) t l) (he : Placed (· ∈ closers) (rank .ternary) u r) :
    Written (.ternary e l r) (s ++ " ? " ++ t ++ " : " ++ u) := by
  obtain ⟨ts, hs, hdc⟩ := hc
  obtain ⟨us, ht, hdt⟩ := ht
  obtain ⟨vs, hu, hde⟩ := he
  have hquestion : Spells (fun _ => True) [' ', '?', ' '] [question] := fun _ _ => rfl
  have hcolon : Spells (fun _ => True) [' ', ':', ' '] [colon] := fun _ _ => rfl
  have hall := hs.between hquestion (ht.between hcolon hu rfl (by decide)) rfl (by decide)
  refine Placed.written ⟨_, ?_, .ternary hdc hdt hde⟩ rfl rfl
  simpa using hall

theorem written_cast {ty : CType} {ts : List Token} (hty : TypeName ts ty)
    (hspell : Spells (· ∈ typeClosers) ty.display.toList ts)
    (h : Placed (· ∈ closers) (rank .unary) s e) :
    Written (.cast ty e) ("(" ++ ty.display ++ ") " ++ s) := by
  obtain ⟨us, hs, hd⟩ := h
  have hclose : Spells (fun _ => True) [')', ' '] [closeParen] := fun _ _ => rfl
  have hall := spells_openParen.append_any (hspell.between hclose hs rfl (by decide))
  refine Placed.written ⟨_, ?_, .cast hty hd⟩ rfl rfl
  simpa using hall

end

theorem spells_keyword {text : List Char} (h : isName text) :
    Spells (· ∈ typeClosers) text [.word text] := by
  have hall : typeClosers.all fun c => !isNamePart c := by decide
  exact (spells_word h).mono fun c hc => by simpa using List.all_eq_true.mp hall c hc

theorem spells_scalar (s : Scalar) : Spells (· ∈ typeClosers) s.keyword.toList s.tokens := by
  have hunsigned : Spells (fun _ => True) "unsigned ".toList [.word "unsigned".toList] :=
    fun _ _ => rfl
  have hlong : Spells (fun _ => True) "long ".toList [.word "long".toList] := fun _ _ => rfl
  cases s with
  | uchar => exact hunsigned.append_any (spells_keyword (by decide))
  | ushort => exact hunsigned.append_any (spells_keyword (by decide))
  | uint => exact hunsigned.append_any (spells_keyword (by decide))
  | ulong => exact hunsigned.append_any (spells_keyword (by decide))
  | longDouble => exact hlong.append_any (spells_keyword (by decide))
  | _ => exact spells_keyword (by decide)

theorem spells_star : Spells (· ∈ typeClosers) ['*'] [star] := by
  have hall : typeClosers.all fun c => star.extend? c = none := by decide
  exact .of_token (fun _ => rfl) fun c hc => of_decide_eq_true (List.all_eq_true.mp hall c hc)

theorem spells_paramsOpen : Spells (fun _ => True) [' ', '(', '*', ')', '(']
    ([openParen, star, closeParen] ++ [openParen]) :=
  .of_last (fun _ => rfl) fun c _ => extend?_sealed (by decide) c

mutual
theorem spells_display : (ty : CType) →
    ∃ ts, Spells (· ∈ typeClosers) ty.display.toList ts ∧ TypeName ts ty
  | .scalar s => ⟨s.tokens, spells_scalar s, .scalar s⟩
  | .pointer base => by
    obtain ⟨ts, hs, hty⟩ := spells_display base
    refine ⟨ts ++ [star], ?_, .pointer hty⟩
    have hall := hs.append spells_star rfl (by decide)
    simpa [CType.display] using hall
  | .function result params => by
    obtain ⟨ts, hs, hty⟩ := spells_display result
    obtain ⟨pairs, rfl, hparams, hlist⟩ := spells_listed (by decide) (spells_displayAll params)
    refine ⟨_, ?_, .function hty hparams⟩
    have hall := hs.between spells_paramsOpen (hlist.append spells_closeParen rfl (by decide)) rfl
      (by decide)
    simpa [CType.display] using hall.mono fun _ _ => trivial
theorem spells_displayAll : (tys : List CType) →
    List.Forall₂ (fun text ty => ∃ ts, Spells (· ∈ typeClosers) text.toList ts ∧ TypeName ts ty)
      (CType.displayAll tys) tys
  | [] => .nil
  | ty :: rest => .cons (spells_display ty) (spells_displayAll rest)
end

end Grammar
end Arbor
