import Mathlib.Data.List.Forall2
import Mathlib.Data.List.Nodup

/-!
Sequences of steps and of items.

What is used of computations that fail, with or without a state, of rows of optional results, and
of lists whose items are looked at by position or in pairs.
-/
namespace Arbor

theorem bind_eq_ok {ε α β : Type} {x : Except ε α} {f : α → Except ε β} {b : β} :
    (x >>= f) = .ok b ↔ ∃ a, x = .ok a ∧ f a = .ok b := by
  cases x with
  | error e => simp [bind, Except.bind]
  | ok a => simp [bind, Except.bind]

theorem seq_eq_ok {ε β : Type} {x : Except ε Unit} {y : Except ε β} {b : β} :
    (x >>= fun _ => y) = .ok b ↔ x = .ok () ∧ y = .ok b := by
  cases x with
  | error e => simp [bind, Except.bind]
  | ok a => simp [bind, Except.bind]

section Sequences

variable {ε σ α β : Type} {m : EStateM ε σ α} {f : α → EStateM ε σ β} {s s' : σ}

theorem run_bind_ok {b : β} :
    (m >>= f) s = .ok b s' ↔ ∃ a s₁, m s = .ok a s₁ ∧ f a s₁ = .ok b s' := by
  simp only [bind, EStateM.bind]
  cases m s with
  | ok a s₁ => simp
  | error e s₁ => simp

theorem run_bind_error {e : ε} :
    (m >>= f) s = .error e s' ↔
      m s = .error e s' ∨ ∃ a s₁, m s = .ok a s₁ ∧ f a s₁ = .error e s' := by
  simp only [bind, EStateM.bind]
  cases m s with
  | ok a s₁ => simp
  | error e s₁ => simp

end Sequences

/-- A computation that fails, if at all, with an error of the kind `A`. -/
def FailsOnly {ε α : Type} (A : ε → Prop) (r : Except ε α) : Prop := ∀ e, r = .error e → A e

theorem failsOnly_ok {ε α : Type} {A : ε → Prop} (a : α) : FailsOnly A (.ok a) := nofun

theorem failsOnly_error {ε α : Type} {A : ε → Prop} {e : ε} (h : A e) :
    FailsOnly A (.error e : Except ε α) := by
  rintro _ ⟨rfl⟩
  exact h

theorem failsOnly_bind {ε α β : Type} {A : ε → Prop} {x : Except ε α} {f : α → Except ε β}
    (hx : FailsOnly A x) (hf : ∀ a, FailsOnly A (f a)) : FailsOnly A (x >>= f) := by
  cases x with
  | error e => exact failsOnly_error (hx e rfl)
  | ok a => exact hf a

theorem ok_of_failsOnly_false {ε α : Type} {r : Except ε α} (h : FailsOnly (fun _ => False) r) :
    ∃ a, r = .ok a := by
  cases r with
  | error e => exact (h e rfl).elim
  | ok a => exact ⟨a, rfl⟩

theorem bind_some_of {α β : Type} {x : Option α} {a : α} {f : α → Option β} {r : Option β}
    (hx : x = some a) (hf : f a = r) : x.bind f = r := by
  rw [hx, Option.bind_some, hf]

theorem mapM_eq_some_iff {α β : Type} {f : α → Option β} {as : List α} {bs : List β} :
    as.mapM f = some bs ↔ List.Forall₂ (fun a b => f a = some b) as bs := by
  induction as generalizing bs with
  | nil =>
    constructor
    · rintro ⟨⟩
      exact .nil
    · rintro ⟨⟩
      rfl
  | cons a as ih =>
    rw [List.mapM_cons]
    constructor
    · intro h
      obtain ⟨b, hb, h⟩ := Option.bind_eq_some_iff.mp h
      obtain ⟨rest, hrest, h⟩ := Option.bind_eq_some_iff.mp h
      cases h
      exact .cons hb (ih.mp hrest)
    · rintro (_ | ⟨hb, hrest⟩)
      exact Option.bind_eq_some_iff.mpr ⟨_, hb, Option.bind_eq_some_iff.mpr
        ⟨_, ih.mpr hrest, rfl⟩⟩

theorem mapM_map_eq_some {α β : Type} {read : β → Option α} {write : α → β} {as : List α}
    (h : ∀ a ∈ as, read (write a) = some a) : (as.map write).mapM read = some as :=
  mapM_eq_some_iff.mpr (List.forall₂_map_left_iff.mpr (List.forall₂_same.mpr h))

theorem mapM_of_le {α β : Type} {f g : α → Option β} (h : ∀ a b, f a = some b → g a = some b)
    {as : List α} {bs : List β} (hf : as.mapM f = some bs) : as.mapM g = some bs :=
  mapM_eq_some_iff.mpr ((mapM_eq_some_iff.mp hf).imp h)

theorem mapM_eq_none_iff {α β : Type} {f : α → Option β} {as : List α} :
    as.mapM f = none ↔ ∃ a ∈ as, f a = none := by
  induction as with
  | nil => simp
  | cons a as ih =>
    rw [List.mapM_cons, List.exists_mem_cons_iff, ← ih]
    cases f a <;> cases as.mapM f <;> simp

theorem forall₂_split {α β : Type} {R : α → β → Prop} {as as' : List α} {a : α} {bs : List β}
    (h : List.Forall₂ R (as ++ a :: as') bs) :
    ∃ cs c cs', bs = cs ++ c :: cs' ∧ List.Forall₂ R as cs ∧ R a c ∧ List.Forall₂ R as' cs' := by
  induction as generalizing bs with
  | nil =>
    obtain ⟨c, cs', hc, hrest, rfl⟩ := List.forall₂_cons_left_iff.mp h
    exact ⟨[], c, cs', rfl, .nil, hc, hrest⟩
  | cons first as ih =>
    obtain ⟨b, bs, hb, hrest, rfl⟩ := List.forall₂_cons_left_iff.mp h
    obtain ⟨cs, c, cs', rfl, hcs, hc, hcs'⟩ := ih hrest
    exact ⟨b :: cs, c, cs', rfl, .cons hb hcs, hc, hcs'⟩

section Positions

variable {α : Type} {items : List α} {i : Nat} {a : α}

theorem exists_around (h : items[i]? = some a) :
    ∃ start rest, items = start ++ a :: rest ∧ start.length = i := by
  obtain ⟨hlt, rfl⟩ := List.getElem?_eq_some_iff.mp h
  refine ⟨items.take i, items.drop (i + 1), ?_, ?_⟩
  · rw [List.getElem_cons_drop, List.take_append_drop]
  · rw [List.length_take]
    omega

theorem set_around (start rest : List α) (a b : α) :
    (start ++ a :: rest).set start.length b = start ++ b :: rest := by
  simp

/-- A list and the same with one item exchanged, side by side. -/
theorem forall₂_set {R : α → α → Prop} {b : α} (hrefl : ∀ a, R a a) (h : items[i]? = some a)
    (hab : R a b) : List.Forall₂ R items (items.set i b) := by
  refine List.forall₂_iff_get.mpr ⟨by simp, ?_⟩
  intro j hj hj'
  simp only [List.get_eq_getElem, List.getElem_set]
  split
  · next he =>
    subst he
    rw [List.getElem?_eq_getElem hj, Option.some.injEq] at h
    rw [h]
    exact hab
  · exact hrefl _

theorem insertIdx_around (start rest : List α) (b : α) :
    (start ++ rest).insertIdx start.length b = start ++ b :: rest := by
  induction start with
  | nil => simp
  | cons a start ih => simp [ih]

end Positions

theorem mem_front_of_sublist {α : Type} {a c : α} {front back : List α}
    (hnodup : (front ++ c :: back).Nodup) (h : [a, c].Sublist (front ++ c :: back)) :
    a ∈ front := by
  induction front with
  | nil =>
    have hc := (List.nodup_cons.mp hnodup).1
    cases h with
    | cons _ h => exact absurd (h.subset (by simp)) hc
    | cons_cons _ h => exact absurd (h.subset (by simp)) hc
  | cons f front ih =>
    cases h with
    | cons _ h => exact List.mem_cons_of_mem _ (ih (List.nodup_cons.mp hnodup).2 h)
    | cons_cons => exact List.mem_cons_self

theorem not_sublist_swap {α : Type} {a b : α} {l : List α} (hnodup : l.Nodup)
    (hab : [a, b].Sublist l) : ¬ [b, a].Sublist l := by
  intro hba
  obtain ⟨front, back, rfl⟩ := List.append_of_mem (hab.subset (List.mem_cons_self : a ∈ [a, b]))
  have hb := mem_front_of_sublist hnodup hba
  obtain ⟨before, between, rfl⟩ := List.append_of_mem hb
  simp only [List.append_assoc, List.cons_append] at hab hnodup
  have ha := mem_front_of_sublist hnodup hab
  exact (List.nodup_append.mp hnodup).2.2 a ha a (by simp) rfl

/-- Items that are determined by what they stand for. -/
theorem fst_eq_of_snd_eq {α β : Type} {R : α → β → Prop} {ps qs : List (α × β)}
    (hps : ∀ p ∈ ps, ∀ a, R a p.2 → p.1 = a) (hqs : ∀ q ∈ qs, R q.1 q.2)
    (h : ps.map Prod.snd = qs.map Prod.snd) : ps.map Prod.fst = qs.map Prod.fst := by
  induction ps generalizing qs with
  | nil =>
    cases qs with
    | nil => rfl
    | cons q qs => cases h
  | cons p ps ih =>
    cases qs with
    | nil => cases h
    | cons q qs =>
      obtain ⟨hp, hps⟩ := List.forall_mem_cons.mp hps
      obtain ⟨hq, hqs⟩ := List.forall_mem_cons.mp hqs
      obtain ⟨hsame, hrest⟩ := List.cons.inj h
      rw [List.map_cons, List.map_cons, hp q.1 (hsame ▸ hq), ih hps hqs hrest]

end Arbor
