import Arbor.Proofs.Grammar.Outline

/-!
Texts with too few parentheses.

Pieces of text meet at the fixed text of an expression. Where a number comes to stand before a
point, the point becomes part of it, and no derivation has such a token (`Derives.not_spoilt`);
elsewhere the tokens of the pieces are those of the whole (`spells_weave`). `Faulty` covers both
ways in which a text fails to stand for an expression.
-/
namespace Arbor

namespace Token

def isSpoilt : Token → Bool
  | .number text | .negative text => '.' ∈ text
  | _ => false

theorem isSpoilt_extend {t u : Token} {c : Char} (ht : t.isSpoilt) (h : t.extend? c = some u) :
    u.isSpoilt := by
  cases t with
  | word | mark => cases ht
  | number text | negative text =>
    simp only [extend?, Option.ite_none_right_eq_some, Option.some.injEq] at h
    obtain ⟨-, rfl⟩ := h
    simp only [isSpoilt, decide_eq_true_eq] at ht ⊢
    exact List.mem_append_left _ ht

theorem isSpoilt_point {t u : Token} (h : t.extend? '.' = some u) : u.isSpoilt := by
  cases t with
  | word text => simp [extend?, isNamePart] at h
  | number text | negative text =>
    simp only [extend?, Option.ite_none_right_eq_some, Option.some.injEq] at h
    obtain ⟨-, rfl⟩ := h
    simp [isSpoilt]
  | mark text =>
    have hall : longMarks.all fun m => m.getLast? ≠ some '.' := by decide
    have hlong : text ++ ['.'] ∉ longMarks := fun hmem => by
      simpa using List.all_eq_true.mp hall _ hmem
    simp [extend?, hlong] at h

theorem spoilt_lexFrom {t : Token} (ht : t.isSpoilt) (rest : List Char) :
    (lexFrom (some t) rest).any isSpoilt := by
  induction rest generalizing t with
  | nil => simpa [lexFrom] using ht
  | cons c rest ih =>
    rw [lexFrom]
    split
    · next u hu => exact ih (isSpoilt_extend ht hu)
    · simp [ht]

theorem exists_lexFrom_append (t : Option Token) (cs : List Char) :
    ∃ done last, ∀ rest, lexFrom t (cs ++ rest) = done ++ lexFrom last rest := by
  induction cs generalizing t with
  | nil => exact ⟨[], t, fun _ => rfl⟩
  | cons c cs ih =>
    cases t with
    | none => exact ih (start? c)
    | some t =>
      cases hext : t.extend? c with
      | some u =>
        obtain ⟨done, last, h⟩ := ih (some u)
        exact ⟨done, last, fun rest => by simpa only [List.cons_append, lexFrom, hext] using h rest⟩
      | none =>
        obtain ⟨done, last, h⟩ := ih (start? c)
        refine ⟨t :: done, last, fun rest => ?_⟩
        simp only [List.cons_append, lexFrom, hext, h rest]

/-- Whatever follows, some number has a point in it. -/
def Spoilt (cs : List Char) : Prop := ∀ rest, (lex (cs ++ rest)).any isSpoilt

theorem Spoilt.append {cs : List Char} (h : Spoilt cs) (ds : List Char) : Spoilt (cs ++ ds) := by
  intro rest
  rw [List.append_assoc]
  exact h _

theorem Spells.spoilt_append {cs ds : List Char} {ts : List Token}
    (h : Spells (fun _ => True) cs ts) (hd : Spoilt ds) : Spoilt (cs ++ ds) := by
  intro rest
  rw [List.append_assoc, h _ fun _ _ => trivial, List.any_append, hd rest, Bool.or_true]

/-- A point ends a piece of text, or else it becomes part of a number. -/
theorem Spells.point {stop : Char → Prop} {cs : List Char} {ts : List Token}
    (h : Spells stop cs ts) : Spells (fun c => stop c ∨ c = '.') cs ts ∨ Spoilt (cs ++ ['.']) := by
  obtain ⟨done, last, hlex⟩ := exists_lexFrom_append none cs
  have hts : ts = done ++ last.toList := by
    have hend := hlex []
    rw [List.append_nil] at hend
    exact h.lex_eq.symm.trans (hend.trans (by cases last <;> rfl))
  cases hext : last.bind (extend? · '.') with
  | none =>
    refine .inl fun rest hrest => ?_
    by_cases hhead : rest.head? = some '.'
    · have hopen : lexFrom last rest = last.toList ++ lex rest := by
        cases last with
        | none => rfl
        | some t =>
          refine lexFrom_some fun c hc => ?_
          obtain rfl := Option.some.inj (hhead.symm.trans hc)
          exact hext
      exact (hlex rest).trans (by rw [hopen, hts, List.append_assoc])
    · refine h rest fun c hc => (hrest c hc).resolve_right ?_
      rintro rfl
      exact hhead hc
  | some u =>
    right
    intro rest
    obtain ⟨t, rfl, hu⟩ := Option.bind_eq_some_iff.mp hext
    have hall : lex (cs ++ ['.'] ++ rest) = done ++ lexFrom (some u) rest := by
      have hpoint := hlex ('.' :: rest)
      rw [lexFrom, hu] at hpoint
      rw [List.append_assoc]
      exact hpoint
    rw [hall, List.any_append, spoilt_lexFrom (isSpoilt_point hu), Bool.or_true]

end Token

namespace Grammar

open Precedence (rank primary)
open Token Expr

theorem isSpoilt_token (op : Operator) :
    op.token.isSpoilt = false ∧ op.assigning.isSpoilt = false := by
  cases op <;> exact ⟨rfl, rfl⟩

theorem any_commas {items : List (List Token)} (h : ∀ ts ∈ items, ts.any isSpoilt = false) :
    (commas items).any isSpoilt = false := by
  induction items with
  | nil => rfl
  | cons ts items ih =>
    obtain ⟨hts, hitems⟩ := List.forall_mem_cons.mp h
    cases items with
    | nil => simpa [commas, List.intercalate] using hts
    | cons us items =>
      rw [commas_cons_cons, List.any_append, List.any_cons, hts, ih hitems]
      rfl

theorem any_commas_fst {α : Type} {pairs : List (List Token × α)}
    (h : ∀ p ∈ pairs, p.1.any isSpoilt = false) :
    (commas (pairs.map Prod.fst)).any isSpoilt = false := by
  refine any_commas fun ts hts => ?_
  obtain ⟨p, hp, rfl⟩ := List.mem_map.mp hts
  exact h p hp

theorem TypeName.not_spoilt {ts : List Token} {ty : CType} (h : TypeName ts ty) :
    ts.any isSpoilt = false := by
  induction h with
  | scalar s => cases s <;> decide
  | pointer _ ih =>
    rw [List.any_append, ih]
    rfl
  | function _ _ ih ihp =>
    rw [List.any_append, List.any_append, List.any_append, ih, any_commas_fst ihp]
    rfl

theorem not_point_digits {digits : List Char} (h : digits.all Char.isDigit) : '.' ∉ digits :=
  fun hmem => absurd (List.all_eq_true.mp h _ hmem) (by decide)

theorem Derives.not_spoilt {k : Nat} {ts : List Token} {e : Expr} (h : Derives k ts e) :
    ts.any isSpoilt = false := by
  have hmarks : [openParen, closeParen, openBracket, closeBracket, question, colon].any isSpoilt =
    false := rfl
  simp only [List.any_cons, List.any_nil, Bool.or_eq_false_iff] at hmarks
  induction h with
  | symbol _ => rfl
  | number hd => simpa [isSpoilt] using not_point_digits hd
  | negative hd => simpa [isSpoilt] using not_point_digits hd
  | @member _ _ op name _ _ _ ih =>
    rw [List.any_append, ih, List.any_cons, (isSpoilt_token op).1]
    rfl
  | call _ _ ihf ihargs => simp [List.any_append, ihf, any_commas_fst ihargs, hmarks]
  | cast hty _ ih => simp [List.any_append, hty.not_spoilt, ih, hmarks]
  | parens | after | index | before | level | ternary | assign | augment | tighter =>
    simp [List.any_append, isSpoilt_token, *]

section

variable {cs : List Char} {ts us : List Token} {text : String}

/-- What stands behind a piece leaves its tokens as they are, but for a number before a point. -/
theorem spells_seam (h : Spells (· ∈ closers) cs ts) (hj : Seam text us) (hne : text ≠ "") :
    Spells (fun _ => True) (cs ++ text.toList) (ts ++ us) ∨ Spoilt (cs ++ text.toList) := by
  obtain ⟨c, tail, htext⟩ := List.exists_cons_of_ne_nil (mt String.toList_eq_nil_iff.mp hne)
  have hhead : text.toList.head? = some c := by rw [htext]; rfl
  rcases hj.ends c hhead with hc | rfl
  · exact .inl (h.append hj.spells hhead hc)
  · rcases h.point with hpoint | hspoilt
    · exact .inl (hpoint.append hj.spells hhead (.inr rfl))
    · right
      rw [htext, ← List.singleton_append, ← List.append_assoc]
      exact hspoilt.append tail

end

theorem spells_literal (v : Int) :
    ∃ t, Spells (· ∈ closers) (toString v).toList [t] ∧ isParen t = false := by
  cases v with
  | ofNat n =>
    have hs := spells_number (@Nat.toDigits_ne_nil n 10) Digits.isDigit_of_mem
    rw [Digits.toList_ofNat]
    exact ⟨_, hs.mono fun _ => closer_ends_number, rfl⟩
  | negSucc n =>
    have hs := spells_negative (@Nat.toDigits_ne_nil (n + 1) 10) Digits.isDigit_of_mem
    rw [Digits.toList_negSucc]
    exact ⟨_, hs.mono fun _ => closer_ends_number, rfl⟩

def Sounds (p : Part) (cs : List Char) : Prop :=
  ∃ ts, Spells (· ∈ closers) cs ts ∧ Prints ts p.expr

/-- The text is one of the expression with too few parentheses for the level, or else it breaks a
number. -/
def Faulty (k : Nat) (cs : List Char) (e : Expr) : Prop :=
  (∃ ts, Spells (· ∈ closers) cs ts ∧ Lacks k ts e) ∨ Spoilt cs

theorem separated_cons_iff {p : Part} {ps : List Part} (hne : ps ≠ []) :
    Separated (p :: ps) ↔ p.Opens ∧ Separated ps := by
  cases ps with
  | nil => exact absurd rfl hne
  | cons => rfl

section

variable {ps : List Part} {texts : List (List Char)} {rows : List (List Token)}

theorem exists_rows (h : List.Forall₂ Sounds ps texts) :
    ∃ rows, List.Forall₂ (Spells (· ∈ closers)) texts rows ∧ Fills (fun _ => Prints) ps rows := by
  induction h with
  | nil => exact ⟨[], .nil, .nil⟩
  | cons hp _ ih =>
    obtain ⟨ts, hspell, hprints⟩ := hp
    obtain ⟨rows, hspells, hfill⟩ := ih
    exact ⟨ts :: rows, .cons hspell hspells, .cons hprints hfill⟩

theorem spells_weave (hseams : ∀ p ∈ ps, Seam p.behind p.glue) (hsep : Separated ps)
    (h : List.Forall₂ (Spells (· ∈ closers)) texts rows) (hlen : ps.length = texts.length) :
    Spells (· ∈ closers) (weave Part.chars ps texts) (weave Part.glue ps rows) ∨
      Spoilt (weave Part.chars ps texts) := by
  induction h generalizing ps with
  | nil =>
    obtain rfl := List.length_eq_zero_iff.mp hlen
    exact .inl .nil
  | @cons cs ts texts rows hspell hrest ih =>
    obtain ⟨p, ps, rfl⟩ := List.exists_cons_of_length_eq_add_one hlen
    obtain ⟨hseam, hseams⟩ := List.forall_mem_cons.mp hseams
    have hlen : ps.length = texts.length := Nat.succ.inj hlen
    simp only [weave]
    by_cases hlast : ps = []
    · -- the last part: what is behind it may be nothing
      subst hlast
      obtain rfl := List.length_eq_zero_iff.mp hlen.symm
      cases hrest
      simp only [weave, List.append_nil]
      by_cases hnone : p.behind = ""
      · have hglue : p.glue = [] := by rw [← hseam.spells.lex_eq, hnone]; rfl
        have hchars : p.chars = [] := by rw [Part.chars, hnone]; rfl
        rw [hglue, hchars, List.append_nil, List.append_nil]
        exact .inl hspell
      · exact (spells_seam hspell hseam hnone).imp_left fun h => h.mono fun _ _ => trivial
    · obtain ⟨hopens, hsep⟩ := (separated_cons_iff hlast).mp hsep
      rw [← List.append_assoc, ← List.append_assoc]
      rcases spells_seam hspell hseam hopens.behind with hjoined | hspoilt
      · rcases ih hseams hsep hlen with htail | hspoilt
        · exact .inl (hjoined.append_any htail)
        · exact .inr (hjoined.spoilt_append hspoilt)
      · exact .inr (hspoilt.append _)

theorem spoilt_weave {p : Part} {qs : List Part} {cs : List Char} (after : List (List Char))
    (hseams : ∀ q ∈ ps ++ p :: qs, Seam q.behind q.glue) (hsep : Separated (ps ++ p :: qs))
    (h : List.Forall₂ Sounds ps texts) (hcs : Spoilt cs) :
    Spoilt (weave Part.chars (ps ++ p :: qs) (texts ++ cs :: after)) := by
  induction h with
  | nil => exact hcs.append _
  | @cons q ds ps texts hq _ ih =>
    obtain ⟨ts, hspell, -⟩ := hq
    obtain ⟨hseam, hseams⟩ := List.forall_mem_cons.mp hseams
    have hne : ps ++ p :: qs ≠ [] := by simp
    obtain ⟨hopens, hsep⟩ := (separated_cons_iff hne).mp hsep
    rw [List.cons_append, List.cons_append, weave, ← List.append_assoc]
    rcases spells_seam hspell hseam hopens.behind with hjoined | hspoilt
    · exact hjoined.spoilt_append (ih hseams hsep)
    · exact hspoilt.append _

end

namespace Faulty

variable {k : Nat} {e : Expr} {cs : List Char} {texts : List (List Char)}

theorem bare (hs : e.suits) (hp : e.parts ≠ []) (h : List.Forall₂ Sounds e.parts texts)
    (hlevel : e.level < k) : Faulty k (e.lead.toList ++ weave Part.chars e.parts texts) e := by
  have hshaped := shaped hs hp
  obtain ⟨rows, hspells, hfill⟩ := exists_rows h
  rcases spells_weave hshaped.seams hshaped.separated hspells h.length_eq with hall | hspoilt
  · exact .inl ⟨_, hshaped.lead_spells.append_any hall, .here hlevel (.form hs hp hfill)⟩
  · exact .inr (hshaped.lead_spells.spoilt_append hspoilt)

theorem leaf {t : Token} (hp : e.parts = []) (h : Spells (· ∈ closers) cs [t])
    (ht : isParen t = false) (hlevel : e.level < k) : Faulty k cs e :=
  .inl ⟨_, h, .here hlevel (.leaf hp ht)⟩

theorem parens (h : Faulty (rank .comma) cs e) : Faulty k ('(' :: cs ++ [')']) e := by
  rcases h with ⟨ts, hspell, hlacks⟩ | hspoilt
  · refine .inl ⟨openParen :: ts ++ [closeParen], ?_, .parens hlacks⟩
    have hclosed := hspell.append spells_closeParen rfl (by decide)
    exact spells_openParen.append_any (hclosed.mono fun _ _ => trivial)
  · exact .inr (spells_openParen.spoilt_append (hspoilt.append _))

theorem inside {p : Part} {ps qs : List Part} {before after : List (List Char)} (hs : e.suits)
    (hparts : e.parts = ps ++ p :: qs) (hps : List.Forall₂ Sounds ps before)
    (hqs : List.Forall₂ Sounds qs after) (h : Faulty p.place.asks cs p.expr) :
    Faulty k (e.lead.toList ++ weave Part.chars e.parts (before ++ cs :: after)) e := by
  have hshaped : Shaped e := shaped hs (by simp [hparts])
  have hseams := hshaped.seams
  have hsep := hshaped.separated
  rcases h with ⟨ts, hspell, hlacks⟩ | hspoilt
  · obtain ⟨rows, hspells, hfill⟩ := exists_rows hps
    obtain ⟨rows', hspells', hfill'⟩ := exists_rows hqs
    have hrows : List.Forall₂ (Spells (· ∈ closers)) (before ++ cs :: after)
        (rows ++ ts :: rows') := List.rel_append hspells (.cons hspell hspells')
    have hfills : Fills (fun _ => Prints) e.parts (rows ++ ts :: rows') :=
      hparts ▸ List.rel_append hfill (.cons hlacks.prints hfill')
    have hmem : (p, ts) ∈ e.parts.zip (rows ++ ts :: rows') := by
      rw [hparts, List.zip_append hfill.length_eq]
      simp
    rcases spells_weave hseams hsep hrows (hfills.length_eq.trans hrows.length_eq.symm) with
      hall | hspoilt
    · exact .inl ⟨_, hshaped.lead_spells.append_any hall, .inside hs hfills hmem hlacks⟩
    · exact .inr (hshaped.lead_spells.spoilt_append hspoilt)
  · right
    rw [hparts] at hseams hsep ⊢
    exact hshaped.lead_spells.spoilt_append (spoilt_weave after hseams hsep hps hspoilt)

theorem not_reads {text : String} (h : Faulty (rank .comma) text.toList e) : ¬ Reads text e := by
  intro hreads
  rcases h with ⟨ts, hspell, hlacks⟩ | hspoilt
  · rw [Reads, hspell.lex_eq] at hreads
    exact hlacks.not_derives hreads
  · have htokens := hspoilt []
    rw [List.append_nil, hreads.not_spoilt] at htokens
    cases htokens

end Faulty

end Grammar
end Arbor
