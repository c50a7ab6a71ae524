import Arbor.Proofs.Grammar.Parts

/-!
Derivations by the parts of an expression.

`Derives.outline` turns the rules of the grammar into two cases: a row of tokens stands for an
expression either by its parts, each derived at the level of its place, or in parentheses. Rows
that fit the same parts are cut in the same way (`weave_injective`). Hence a row that lacks
parentheses around some part, looser than its place, is no row of the expression, however deep the
part stands (`Lacks.not_derives`).
-/
namespace Arbor.Grammar

open Precedence (rank primary)
open Token Expr

def weave {α β : Type} (behind : β → List α) : List β → List (List α) → List α
  | p :: ps, piece :: pieces => piece ++ (behind p ++ weave behind ps pieces)
  | _, _ => []

theorem weave_around {α β : Type} (behind : β → List α) {ps : List β} {before : List (List α)}
    (after : List (List α)) (h : before.length < ps.length) :
    ∃ pre post, ∀ piece,
      weave behind ps (before ++ piece :: after) = pre ++ (piece ++ post) := by
  induction before generalizing ps with
  | nil =>
    cases ps with
    | nil => exact absurd h (Nat.not_lt_zero _)
    | cons p ps => exact ⟨[], behind p ++ weave behind ps after, fun _ => rfl⟩
  | cons first before ih =>
    cases ps with
    | nil => exact absurd h (Nat.not_lt_zero _)
    | cons p ps =>
      obtain ⟨pre, post, hwoven⟩ := ih (Nat.lt_of_succ_lt_succ h)
      refine ⟨first ++ (behind p ++ pre), post, fun piece => ?_⟩
      rw [List.cons_append, weave, hwoven]
      simp

/-- The tokens agree with the expression in parentheses and in number. -/
structure Prints (ts : List Token) (e : Expr) : Prop where
  balanced : Balanced ts
  content_eq : content ts = e.weight
  leads : Leads ts

abbrev Fills (R : Nat → List Token → Expr → Prop) : List Part → List (List Token) → Prop :=
  List.Forall₂ fun p ts => R p.place.asks ts p.expr

/-- The tokens of an expression by its parts, without parentheses around the whole. -/
inductive Bare (R : Nat → List Token → Expr → Prop) : List Token → Expr → Prop where
  | leaf {t e} : e.parts = [] → isParen t = false → Bare R [t] e
  | form {e rows} : e.suits → e.parts ≠ [] → Fills R e.parts rows →
      Bare R (e.leadTokens ++ weave Part.glue e.parts rows) e

structure Derived (k : Nat) (ts : List Token) (e : Expr) : Prop where
  derives : Derives k ts e
  prints : Prints ts e

/-- The last rule of a derivation that does more than to change the level. -/
inductive Outline (k : Nat) : List Token → Expr → Prop where
  | bare {ts e} : k ≤ e.level → Bare Derived ts e → Outline k ts e
  | parens {ts e} : Derived (rank .comma) ts e → Outline k (openParen :: ts ++ [closeParen]) e

/-- Somewhere a part that is too loose for its place has no parentheses around it. -/
inductive Lacks : Nat → List Token → Expr → Prop where
  | here {k ts e} : e.level < k → Bare (fun _ => Prints) ts e → Lacks k ts e
  | parens {k ts e} : Lacks (rank .comma) ts e → Lacks k (openParen :: ts ++ [closeParen]) e
  | inside {k e rows p ts} : e.suits → Fills (fun _ => Prints) e.parts rows →
      (p, ts) ∈ e.parts.zip rows → Lacks p.place.asks ts p.expr →
      Lacks k (e.leadTokens ++ weave Part.glue e.parts rows) e

theorem Prints.parens {ts : List Token} {e : Expr} (h : Prints ts e) :
    Prints (openParen :: ts ++ [closeParen]) e :=
  ⟨h.balanced.parens, (content_parens ts).trans h.content_eq, h.leads.cons.append _⟩

section

variable {e : Expr} {ps : List Part} {rows : List (List Token)}

theorem height_weave (h : Fills (fun _ => Prints) ps rows) (d : Nat) :
    height d (weave Part.glue ps rows) = height d (ps.flatMap Part.glue) := by
  induction h generalizing d with
  | nil => rfl
  | @cons p ts ps rows hp _ ih =>
    rw [weave, hp.balanced.height_append, List.flatMap_cons, height_append, height_append]
    congr 1
    exact funext ih

theorem content_weave (h : Fills (fun _ => Prints) ps rows) :
    content (weave Part.glue ps rows) =
      content (ps.flatMap Part.glue) + (ps.map (·.expr.weight)).sum := by
  induction h with
  | nil => rfl
  | @cons p ts ps rows hp _ ih =>
    simp only [weave, content_append, List.flatMap_cons, List.map_cons, List.sum_cons,
      hp.content_eq, ih]
    omega

theorem leads_weave {p : Part} (h : Fills (fun _ => Prints) (p :: ps) rows) :
    Leads (weave Part.glue (p :: ps) rows) := by
  cases h with
  | cons hp _ => exact hp.leads.append _

theorem prints_weave (hs : Shaped e) (h : Fills (fun _ => Prints) e.parts rows) :
    Prints (e.leadTokens ++ weave Part.glue e.parts rows) e := by
  refine ⟨?_, ?_, ?_⟩
  · have hskeleton := hs.balanced
    rw [Balanced, skeleton, height_append] at hskeleton
    rw [Balanced, height_append, funext (height_weave h)]
    exact hskeleton
  · rw [content_append, content_weave h, hs.weight_eq, skeleton, content_append, Nat.add_assoc]
  · rcases hs.begins with ⟨-, hleads⟩ | ⟨hnone, p, ps, hparts, -⟩
    · exact hleads.append _
    · rw [hnone, hparts]
      exact leads_weave (hparts ▸ h)

theorem weave_ne_parens (hs : Shaped e) (hp : e.parts ≠ [])
    (h : Fills (fun _ => Prints) e.parts rows) {vs : List Token} (hvs : Balanced vs) :
    e.leadTokens ++ weave Part.glue e.parts rows ≠ openParen :: vs ++ [closeParen] := by
  rcases hs.begins with ⟨hlead, hleads⟩ | ⟨hnone, p, ps, hparts, hglue⟩
  · obtain ⟨p, ps, hparts⟩ := List.exists_cons_of_ne_nil hp
    rw [hparts] at h ⊢
    exact ne_parens_of_append hlead hleads.ne_nil (leads_weave h).ne_nil hvs
  · rw [hparts] at h ⊢
    cases h with
    | cons hfirst _ =>
      rw [hnone, List.nil_append, weave]
      exact ne_parens_of_append hfirst.balanced hfirst.leads.ne_nil
        (List.append_ne_nil_of_left_ne_nil hglue _) hvs

theorem weave_injective {rows' : List (List Token)} (hs : Separated ps)
    (h : Fills (fun _ => Prints) ps rows) (h' : Fills (fun _ => Prints) ps rows')
    (he : weave Part.glue ps rows = weave Part.glue ps rows') : rows = rows' := by
  induction h generalizing rows' with
  | nil =>
    cases h'
    rfl
  | @cons p ts ps rows hp hps ih =>
    cases h' with
    | @cons _ ts' _ rows' hp' hps' =>
      cases ps with
      | nil =>
        cases hps
        cases hps'
        rw [List.append_cancel_right he]
      | cons q ps =>
        obtain ⟨hopens, hrest⟩ := hs
        obtain ⟨rfl, htail⟩ := append_inj_of_leads he hp.balanced hp'.balanced
          (hp.content_eq.trans hp'.content_eq.symm) (hopens.leads _ (leads_weave hps))
          (hopens.leads _ (leads_weave hps'))
        rw [ih hrest hps' (List.append_cancel_left htail)]

end

namespace Bare

variable {R : Nat → List Token → Expr → Prop} {ts : List Token} {e : Expr}

theorem mono {S : Nat → List Token → Expr → Prop} (h : Bare R ts e)
    (hRS : ∀ k ts e, R k ts e → S k ts e) : Bare S ts e := by
  cases h with
  | leaf hp ht => exact .leaf hp ht
  | form hs hp hfill => exact .form hs hp (hfill.imp fun _ _ => hRS _ _ _)

theorem prints (h : Bare (fun _ => Prints) ts e) : Prints ts e := by
  cases h with
  | @leaf t e hp ht =>
    have hweight : e.weight = 1 := by
      rcases leaf_of_parts hp with ⟨name, rfl⟩ | ⟨v, rfl⟩ <;> rfl
    exact ⟨Balanced.single ht, (content_single ht).trans hweight.symm, Leads.single ht⟩
  | form hs hp hfill => exact prints_weave (shaped hs hp) hfill

theorem ne_parens (h : Bare (fun _ => Prints) ts e) {vs : List Token} (hvs : Balanced vs) :
    ts ≠ openParen :: vs ++ [closeParen] := by
  cases h with
  | leaf => simp
  | form hs hp hfill => exact weave_ne_parens (shaped hs hp) hp hfill hvs

end Bare

theorem Bare.rows {R : Nat → List Token → Expr → Prop} {ts : List Token} {e : Expr}
    (h : Bare R ts e) (hp : e.parts ≠ []) :
    ∃ rows, Fills R e.parts rows ∧ ts = e.leadTokens ++ weave Part.glue e.parts rows := by
  cases h with
  | leaf hnone => exact absurd hnone hp
  | form _ _ hfill => exact ⟨_, hfill, rfl⟩

theorem Outline.cases {k : Nat} {ts : List Token} {e : Expr} (h : Outline k ts e) :
    (k ≤ e.level ∧ Bare Derived ts e) ∨
      ∃ us, ts = openParen :: us ++ [closeParen] ∧ Derived (rank .comma) us e := by
  cases h with
  | bare hlevel h => exact .inl ⟨hlevel, h⟩
  | parens h => exact .inr ⟨_, rfl, h⟩

theorem Outline.prints {k : Nat} {ts : List Token} {e : Expr} (h : Outline k ts e) :
    Prints ts e := by
  cases h with
  | bare _ h => exact (h.mono fun _ _ _ => Derived.prints).prints
  | parens h => exact h.prints.parens

section

variable {k : Nat} {ts : List Token} {e : Expr}

theorem Outline.form (rows : List (List Token)) (hs : e.suits) (hp : e.parts ≠ [])
    (hlevel : k ≤ e.level) (hfill : Fills Derived e.parts rows)
    (hts : ts = e.leadTokens ++ weave Part.glue e.parts rows) : Outline k ts e :=
  hts ▸ .bare hlevel (.form hs hp hfill)

theorem asks_operand {op : Operator} (h : op.isLevel) :
    (Place.operand op.precedence true).asks = op.precedence.rank ∧
    (Place.operand op.precedence false).asks = op.precedence.rank + 1 := by
  revert h
  cases op <;> decide

theorem fills_arguments {args : List (List Token × Expr)}
    (h : ∀ a ∈ args, Derived (rank .assignment) a.1 a.2) :
    Fills Derived (arguments (args.map Prod.snd)) (args.map Prod.fst) := by
  induction args with
  | nil => exact .nil
  | cons a args ih =>
    obtain ⟨ha, hargs⟩ := List.forall_mem_cons.mp h
    cases args with
    | nil => exact .cons ha .nil
    | cons b args => exact .cons ha (ih hargs)

theorem weave_arguments (a : List Token × Expr) (args : List (List Token × Expr)) :
    weave Part.glue (arguments ((a :: args).map Prod.snd)) ((a :: args).map Prod.fst) =
      commas ((a :: args).map Prod.fst) ++ [closeParen] := by
  induction args generalizing a with
  | nil => simp [weave, arguments, commas, List.intercalate]
  | cons b args ih =>
    have hrest := ih b
    simp only [List.map_cons] at hrest ⊢
    rw [arguments, weave, hrest, commas_cons_cons]
    simp

theorem outline_call {us : List Token} {f : Expr} {args : List (List Token × Expr)}
    (hf : Derived (rank .suffix) us f) (hargs : ∀ a ∈ args, Derived (rank .assignment) a.1 a.2) :
    Outline (rank .suffix) (us ++ openParen :: commas (args.map Prod.fst) ++ [closeParen])
      (.call f (args.map Prod.snd)) := by
  cases args with
  | nil =>
    refine .form [us] rfl (List.cons_ne_nil _ _) (Nat.le_refl _) (.cons hf .nil) ?_
    simp [leadTokens, parts, weave, commas, List.intercalate]
  | cons a args =>
    refine .form (us :: (a :: args).map Prod.fst) rfl (List.cons_ne_nil _ _)
      (Nat.le_refl _) (.cons hf (fills_arguments hargs)) ?_
    have hrest := weave_arguments a args
    simp only [List.map_cons] at hrest ⊢
    simp [leadTokens, parts, weave, hrest]

theorem outline_binary {us vs : List Token} {l r : Expr} {op : Operator} (hop : op.isBinary)
    (hindex : op ≠ .index) (hlevel : k ≤ op.precedence.rank)
    (hl : Derived (Place.operand op.precedence true).asks us l)
    (hr : Derived (Place.operand op.precedence false).asks vs r) :
    Outline k (us ++ op.token :: vs) (.binary l op r) := by
  have hparts : (Expr.binary l op r).parts = [⟨.operand op.precedence true, l, op.between,
      [op.token]⟩, ⟨.operand op.precedence false, r, "", []⟩] := if_neg hindex
  refine .form [us, vs] hop (by simp [hparts]) hlevel ?_ ?_
  · rw [hparts]
    exact .cons hl (.cons hr .nil)
  · simp [leadTokens, hparts, weave]

/-- By induction on the derivation: each rule but those of levels and parentheses derives an
expression by its parts. -/
theorem Derives.outline (h : Derives k ts e) : Outline k ts e := by
  induction h with
  | symbol _ => exact .bare (Nat.le_refl _) (.leaf rfl rfl)
  | @number digits _ =>
    have hlevel : (Expr.literal (Nat.ofDigitChars 10 digits 0)).level = primary := by
      simp [Expr.level, Expr.precedence?, Int.not_lt.mpr (Int.natCast_nonneg _)]
    exact .bare (Nat.le_of_eq hlevel.symm) (.leaf rfl rfl)
  | @negative digits _ =>
    have hlevel : rank .unary ≤ (Expr.literal (-Nat.ofDigitChars 10 digits 0)).level := by
      simp only [Expr.level, Expr.precedence?]
      split <;> decide
    exact .bare hlevel (.leaf rfl rfl)
  | parens h ih => exact .parens ⟨h, ih.prints⟩
  | @after us e op hop h ih =>
    have hclass := precedence_of_standsAfter hop
    refine .form [us] (by simp [suits, Operator.isUnary, hop]) (by simp [parts, hop]) ?_ ?_ ?_
    · exact Nat.le_of_eq (congrArg rank hclass.symm)
    · simp only [parts, hop, if_true, hclass]
      exact .cons ⟨h, ih.prints⟩ .nil
    · simp [leadTokens, parts, hop, weave]
  | @member us e op name hop hname h ih =>
    have hclass := precedence_of_isMember hop
    have hbinary : op.isBinary ∧ op ≠ .index := by
      revert hop
      cases op <;> decide
    have hright : Outline primary [.word name.toList] (.symbol name) :=
      .bare (Nat.le_refl _) (.leaf rfl rfl)
    refine outline_binary hbinary.1 hbinary.2 (by rw [hclass]) ?_ ?_
    · rw [hclass]
      exact ⟨h, ih.prints⟩
    · rw [hclass]
      exact ⟨.symbol hname, hright.prints⟩
  | @index us vs l i hl hi ihl ihi =>
    refine .form [us, vs] rfl (List.cons_ne_nil _ _) (Nat.le_refl _)
      (.cons ⟨hl, ihl.prints⟩ (.cons ⟨hi, ihi.prints⟩ .nil)) ?_
    simp [leadTokens, parts, weave]
  | call hf hargs ihf ihargs =>
    exact outline_call ⟨hf, ihf.prints⟩ fun a ha => ⟨hargs a ha, (ihargs a ha).prints⟩
  | @before us e op hop h ih =>
    have hclass := precedence_of_standsBefore hop
    have hafter : op.standsAfter = false := by
      revert hop
      cases op <;> decide
    refine .form [us] (by simp [suits, Operator.isUnary, hop]) (by simp [parts, hafter]) ?_ ?_ ?_
    · exact Nat.le_of_eq (congrArg rank hclass.symm)
    · simp only [parts, hafter, Bool.false_eq_true, if_false, hclass]
      exact .cons ⟨h, ih.prints⟩ .nil
    · simp [leadTokens, parts, hafter, weave]
  | @cast us vs ty e hty h ih =>
    refine .form [vs] rfl (List.cons_ne_nil _ _) (Nat.le_refl _) (.cons ⟨h, ih.prints⟩ .nil) ?_
    simp [leadTokens, parts, weave, hty.lex_display]
  | @level us vs l r op hop hl hr ihl ihr =>
    have hbinary : op.isBinary ∧ op ≠ .index := by
      revert hop
      cases op <;> decide
    obtain ⟨hleft, hright⟩ := asks_operand hop
    refine outline_binary hbinary.1 hbinary.2 (Nat.le_refl _) ?_ ?_
    · rw [hleft]
      exact ⟨hl, ihl.prints⟩
    · rw [hright]
      exact ⟨hr, ihr.prints⟩
  | @ternary us vs ws c t e hc ht he ihc iht ihe =>
    refine .form [us, vs, ws] rfl (List.cons_ne_nil _ _) (Nat.le_refl _)
      (.cons ⟨hc, ihc.prints⟩ (.cons ⟨ht, iht.prints⟩ (.cons ⟨he, ihe.prints⟩ .nil))) ?_
    simp [leadTokens, parts, weave]
  | assign hl hr ihl ihr =>
    exact outline_binary rfl (by decide) (Nat.le_refl _) ⟨hl, ihl.prints⟩ ⟨hr, ihr.prints⟩
  | @augment us vs l r op hop hl hr ihl ihr =>
    refine .form [us, vs] hop (List.cons_ne_nil _ _) (Nat.le_refl _)
      (.cons ⟨hl, ihl.prints⟩ (.cons ⟨hr, ihr.prints⟩ .nil)) ?_
    simp [leadTokens, parts, weave]
  | tighter _ ih =>
    cases ih with
    | bare hlevel h => exact .bare (Nat.le_of_succ_le hlevel) h
    | parens h => exact .parens h

theorem Derives.prints (h : Derives k ts e) : Prints ts e := h.outline.prints

namespace Lacks

theorem prints (h : Lacks k ts e) : Prints ts e := by
  induction h with
  | here _ h => exact h.prints
  | parens _ ih => exact ih.parens
  | @inside k e rows p ts hs hfill hmem _ _ =>
    have hp : e.parts ≠ [] := List.ne_nil_of_mem (List.of_mem_zip hmem).1
    exact prints_weave (shaped hs hp) hfill

theorem not_derives (h : Lacks k ts e) : ¬ Derives k ts e := by
  induction h with
  | here hlevel h =>
    -- the level is too low, and there is no pair around the whole that would raise it
    intro hd
    rcases hd.outline.cases with ⟨hle, -⟩ | ⟨us, rfl, hus⟩
    · exact absurd hlevel (Nat.not_lt.mpr hle)
    · exact h.ne_parens hus.prints.balanced rfl
  | parens h ih =>
    intro hd
    rcases hd.outline.cases with ⟨-, hbare⟩ | ⟨us, heq, hus⟩
    · exact (hbare.mono fun _ _ _ => Derived.prints).ne_parens h.prints.balanced rfl
    · obtain ⟨-, heq⟩ := List.cons.inj heq
      rw [List.append_cancel_right heq] at ih
      exact ih hus.derives
  | @inside k e rows p ts hs hfill hmem _ ih =>
    intro hd
    have hp : e.parts ≠ [] := List.ne_nil_of_mem (List.of_mem_zip hmem).1
    rcases hd.outline.cases with ⟨-, hbare⟩ | ⟨us, heq, hus⟩
    · -- the derivation cuts the row at the same places, so it derives the part that lacks a pair
      obtain ⟨rows', hderived, heq⟩ := hbare.rows hp
      have hprints := hderived.imp fun _ _ => Derived.prints
      obtain rfl := weave_injective (shaped hs hp).separated hfill hprints
        (List.append_cancel_left heq)
      exact ih (List.forall₂_zip hderived hmem).derives
    · exact weave_ne_parens (shaped hs hp) hp hfill hus.prints.balanced heq

end Lacks

end

end Arbor.Grammar
