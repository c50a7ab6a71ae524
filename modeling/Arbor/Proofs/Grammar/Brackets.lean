import Arbor.Proofs.Grammar.Expression
import Mathlib.Data.List.Basic

/-!
Where a row of tokens falls into parts.

The part of an expression has balanced parentheses, and how many of its tokens are none is known
from the expression. If what follows does not begin with a closing parenthesis, there is one place
only where such a part can end (`append_inj_of_leads`). A row that a balanced part begins, and that
goes on, has no pair of parentheses around it as a whole (`ne_parens_of_append`).
-/
namespace Arbor.Grammar

open Token

def isParen (t : Token) : Bool := t = openParen || t = closeParen

/-- How deep in parentheses a row of tokens ends; nowhere if it closes one that is not open. -/
def height : Nat → List Token → Option Nat
  | d, [] => some d
  | d, t :: ts =>
    if t = openParen then height (d + 1) ts
    else if t = closeParen then
      match d with
      | 0 => none
      | d + 1 => height d ts
    else height d ts

def Balanced (ts : List Token) : Prop := height 0 ts = some 0

instance (ts : List Token) : Decidable (Balanced ts) :=
  inferInstanceAs (Decidable (height 0 ts = some 0))

/-- The number of tokens that are no parentheses. -/
def content (ts : List Token) : Nat := ts.countP fun t => !isParen t

/-- The first token that opens no parenthesis is none at all. -/
def Leads (ts : List Token) : Prop :=
  ∃ n t rest, ts = List.replicate n openParen ++ t :: rest ∧ isParen t = false

variable {d : Nat} {t : Token} {ts us vs : List Token}

theorem height_openParen : height d (openParen :: ts) = height (d + 1) ts := by
  simp [height]

theorem height_closeParen : height (d + 1) (closeParen :: ts) = height d ts := by
  simp [height, openParen, closeParen]

theorem height_other (h : isParen t = false) : height d (t :: ts) = height d ts := by
  simp only [isParen, Bool.or_eq_false_iff, decide_eq_false_iff_not] at h
  simp [height, h.1, h.2]

theorem height_append (d : Nat) (ts us : List Token) :
    height d (ts ++ us) = (height d ts).bind (height · us) := by
  induction ts generalizing d with
  | nil => rfl
  | cons t ts ih =>
    simp only [List.cons_append, height, ih]
    split
    · rfl
    · split
      · cases d with
        | zero => rfl
        | succ d => rfl
      · rfl

theorem height_add {d' : Nat} (k : Nat) (h : height d ts = some d') :
    height (d + k) ts = some (d' + k) := by
  induction ts generalizing d with
  | nil =>
    cases h
    rfl
  | cons t ts ih =>
    by_cases hopen : t = openParen
    · subst hopen
      rw [height_openParen] at h ⊢
      have := ih h
      rwa [Nat.add_right_comm] at this
    · by_cases hclose : t = closeParen
      · subst hclose
        cases d with
        | zero => simp [height, openParen, closeParen] at h
        | succ d =>
          rw [height_closeParen] at h
          rw [Nat.add_right_comm, height_closeParen]
          exact ih h
      · have hother : isParen t = false := by simp [isParen, hopen, hclose]
        rw [height_other hother] at h ⊢
        exact ih h

namespace Balanced

theorem height_eq (h : Balanced ts) (d : Nat) : height d ts = some d := by
  have := height_add d h
  rwa [Nat.zero_add] at this

theorem height_append (h : Balanced ts) (d : Nat) (us : List Token) :
    height d (ts ++ us) = height d us := by
  rw [Grammar.height_append, h.height_eq d]
  rfl

theorem parens (h : Balanced ts) : Balanced (openParen :: ts ++ [closeParen]) := by
  rw [Balanced, List.cons_append, height_openParen, h.height_append, height_closeParen]
  rfl

theorem single (h : isParen t = false) : Balanced [t] := height_other h

end Balanced

theorem content_append (ts us : List Token) : content (ts ++ us) = content ts + content us :=
  List.countP_append

theorem content_parens (ts : List Token) :
    content (openParen :: ts ++ [closeParen]) = content ts := by
  simp [content, isParen]

theorem content_single (h : isParen t = false) : content [t] = 1 := by
  simp [content, h]

namespace Leads

theorem single (h : isParen t = false) : Leads [t] := ⟨0, t, [], rfl, h⟩

theorem append (h : Leads ts) (us : List Token) : Leads (ts ++ us) := by
  obtain ⟨n, t, rest, rfl, ht⟩ := h
  exact ⟨n, t, rest ++ us, by simp, ht⟩

theorem cons (h : Leads ts) : Leads (openParen :: ts) := by
  obtain ⟨n, t, rest, rfl, ht⟩ := h
  exact ⟨n + 1, t, rest, by simp [List.replicate_succ], ht⟩

theorem ne_nil (h : Leads ts) : ts ≠ [] := by
  obtain ⟨n, t, rest, rfl, -⟩ := h
  simp

theorem eq_replicate (h : Leads (ts ++ us)) (hc : content ts = 0) :
    ∃ n, ts = List.replicate n openParen := by
  induction ts with
  | nil => exact ⟨0, rfl⟩
  | cons t ts ih =>
    have ht : isParen t = true := by
      by_contra hparen
      simp [content, Bool.eq_false_of_not_eq_true hparen] at hc
    obtain ⟨n, first, rest, he, hfirst⟩ := h
    cases n with
    | zero =>
      obtain ⟨rfl, -⟩ := List.cons.inj he
      cases ht.symm.trans hfirst
    | succ n =>
      rw [List.replicate_succ, List.cons_append, List.cons_append, List.cons.injEq] at he
      obtain ⟨rfl, he⟩ := he
      have hrest : content ts = 0 := by simpa [content, isParen] using hc
      obtain ⟨m, rfl⟩ := ih ⟨n, first, rest, he, hfirst⟩ hrest
      exact ⟨m + 1, rfl⟩

end Leads

theorem eq_nil_of_leads (hts : Balanced ts) (hall : Balanced (ts ++ us))
    (hc : content (ts ++ us) = content ts) (hl : Leads (us ++ vs)) : us = [] := by
  rw [content_append] at hc
  obtain ⟨n, rfl⟩ := hl.eq_replicate (by omega)
  have hheight : height 0 (List.replicate n openParen) = some 0 := by
    rw [← hts.height_append 0]
    exact hall
  have climb : ∀ n d, height d (List.replicate n openParen) = some (d + n) := by
    intro n
    induction n with
    | zero => exact fun _ => rfl
    | succ n ih =>
      intro d
      rw [List.replicate_succ, height_openParen, ih, Nat.add_right_comm, Nat.add_assoc]
  rw [climb] at hheight
  cases n with
  | zero => rfl
  | succ n => simp at hheight

theorem append_inj_of_leads {ts' us' : List Token} (h : ts ++ us = ts' ++ us')
    (hts : Balanced ts) (hts' : Balanced ts') (hc : content ts = content ts') (hus : Leads us)
    (hus' : Leads us') : ts = ts' ∧ us = us' := by
  rcases List.append_eq_append_iff.mp h with ⟨gap, rfl, rfl⟩ | ⟨gap, rfl, rfl⟩
  · obtain rfl := eq_nil_of_leads hts hts' hc.symm hus
    simp
  · obtain rfl := eq_nil_of_leads hts' hts hc hus'
    simp

theorem ne_parens_of_append (hts : Balanced ts) (hne : ts ≠ []) (hne' : us ≠ [])
    (hvs : Balanced vs) : ts ++ us ≠ openParen :: vs ++ [closeParen] := by
  intro h
  obtain ⟨rest, last, rfl⟩ := List.eq_nil_or_concat us |>.resolve_left hne'
  obtain ⟨first, ts, rfl⟩ := List.exists_cons_of_ne_nil hne
  rw [List.concat_eq_append, ← List.append_assoc] at h
  obtain ⟨h, -⟩ := List.append_inj' h rfl
  rw [List.cons_append, List.cons.injEq] at h
  obtain ⟨rfl, rfl⟩ := h
  rw [Balanced, height_openParen] at hts
  rw [Balanced, height_append] at hvs
  cases hheight : height 0 ts with
  | none => simp [hheight] at hvs
  | some d =>
    rw [height_add 1 hheight] at hts
    simp at hts

end Arbor.Grammar
