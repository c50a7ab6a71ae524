import Arbor.Registry

/-!
Spelling a type runs the script of its speller, and the script's questions about other types run
the scripts of theirs.

What a bounded run comes to, every deeper one comes to, so that the spelling of a type is the
outcome of all runs that are deep enough, and a registry spells by its own spellings: `spell?` is
a fixed point. A type has no spelling at all if its speller comes back to it without end. The
spellers of the built-in registry ask for parts only and give every type the text that shows it.
-/
namespace Arbor

section Deeper

variable {spell spell' : TypeRegistry → CType → Option Spelling} {r : TypeRegistry}
  (hle : ∀ r ty outcome, spell r ty = some outcome → spell' r ty = some outcome)

include hle

theorem Question.answer?_mono {question : Question} {answer : question.Answer}
    (h : question.answer? spell r = some answer) : question.answer? spell' r = some answer := by
  cases question with
  | spell ty => exact hle r ty answer h
  | recognize v => exact h
  | hasRecognizer valueClass => exact h
  | hasSpelling key => exact h
  | describe => exact h

theorem Script.run_mono {script : Script} {outcome : Spelling}
    (h : script.run spell r = some outcome) : script.run spell' r = some outcome := by
  fun_induction Script.run spell r script with
  | case1 => exact h
  | case2 copy question next ih =>
    obtain ⟨answer, ha, hnext⟩ := Option.bind_eq_some_iff.mp h
    rw [Script.run, Question.answer?_mono hle ha]
    exact ih answer hnext

end Deeper

namespace TypeRegistry

variable {r : TypeRegistry} {ty : CType} {outcome : Spelling} {speller : Speller}

theorem spellTo_succ_of_none (depth : Nat) (h : r.spellerFor? ty = none) :
    r.spellTo (depth + 1) ty = some (.error (.unspelledType ty.debug)) := by
  rw [spellTo, h]

theorem spellTo_succ_of_speller (depth : Nat) (h : r.spellerFor? ty = some speller) :
    r.spellTo (depth + 1) ty = (speller ty).run (spellTo depth) r := by
  rw [spellTo, h]

theorem spellTo_mono {shallow deep : Nat} (hle : shallow ≤ deep)
    (h : r.spellTo shallow ty = some outcome) : r.spellTo deep ty = some outcome := by
  induction shallow generalizing deep r ty outcome with
  | zero => cases h
  | succ shallow ih =>
    obtain ⟨deep, rfl⟩ := Nat.exists_eq_add_of_le' (Nat.le_trans (Nat.le_add_left 1 _) hle)
    cases hs : r.spellerFor? ty with
    | none =>
      rw [spellTo_succ_of_none _ hs] at h ⊢
      exact h
    | some speller =>
      rw [spellTo_succ_of_speller _ hs] at h ⊢
      exact Script.run_mono (fun _ _ _ => ih (Nat.le_of_succ_le_succ hle)) h

theorem deepen_of_some {depth : Nat} (h : r.spellTo depth ty = some outcome) :
    ∃ found : r.Found ty, found.val = some outcome ∧ r.deepen ty depth = pure (.inr found) := by
  unfold deepen
  split
  case h_1 reached hr => exact ⟨_, hr.symm.trans h, rfl⟩
  case h_2 hr => cases hr.symm.trans h

theorem deepen_of_none {depth : Nat} (h : r.spellTo depth ty = none) :
    r.deepen ty depth = pure (.inl (depth + 1)) := by
  unfold deepen
  split
  case h_1 reached hr => cases h.symm.trans hr
  case h_2 => rfl

theorem spellFrom_of_some {depth : Nat} (h : r.spellTo depth ty = some outcome) :
    r.spellFrom ty depth = some outcome := by
  obtain ⟨found, hfound, hstep⟩ := deepen_of_some h
  rw [spellFrom, repeatM_eq_of_monadTail, repeatM.body, hstep]
  exact hfound

theorem spellFrom_of_none {depth : Nat} (h : r.spellTo depth ty = none) :
    r.spellFrom ty depth = r.spellFrom ty (depth + 1) := by
  rw [spellFrom, repeatM_eq_of_monadTail, repeatM.body, deepen_of_none h]
  rfl

theorem spellFrom_of_deeper {depth : Nat} (more : Nat)
    (h : r.spellTo (depth + more) ty = some outcome) : r.spellFrom ty depth = some outcome := by
  induction more generalizing depth with
  | zero => exact spellFrom_of_some h
  | succ more ih =>
    cases hd : r.spellTo depth ty with
    | some found =>
      have hfound : some found = some outcome :=
        (spellTo_mono (Nat.le_add_right _ _) hd).symm.trans h
      rw [spellFrom_of_some hd, hfound]
    | none =>
      rw [spellFrom_of_none hd]
      exact ih (by rwa [Nat.add_right_comm])

/-- Searching from any depth finds what some run comes to. An endless search finds nothing else,
by what `Found` carries. -/
theorem spellFrom_eq_some_iff {depth : Nat} :
    r.spellFrom ty depth = some outcome ↔ ∃ depth, r.spellTo depth ty = some outcome := by
  constructor
  · intro h
    exact (repeatM (r.deepen ty) depth).run.property outcome h
  · rintro ⟨deep, hdeep⟩
    exact spellFrom_of_deeper deep (spellTo_mono (Nat.le_add_left _ _) hdeep)

theorem spell?_eq_spellFrom : r.spell? ty = r.spellFrom ty (ty.height + 1) := by
  cases h : r.spellTo (ty.height + 1) ty with
  | some outcome => rw [spell?, h, spellFrom_of_some h]
  | none => rw [spell?, h, spellFrom_of_none h]

theorem spell?_eq_some_iff :
    r.spell? ty = some outcome ↔ ∃ depth, r.spellTo depth ty = some outcome := by
  rw [spell?_eq_spellFrom, spellFrom_eq_some_iff]

/-- A script that comes to an end asks finitely many questions, each answered at some depth. -/
theorem run_spell?_eq_some_iff {script : Script} :
    script.run spell? r = some outcome ↔ ∃ depth, script.run (spellTo depth) r = some outcome := by
  constructor
  · intro h
    fun_induction Script.run spell? r script with
    | case1 => exact ⟨0, h⟩
    | case2 copy question next ih =>
      obtain ⟨answer, ha, hnext⟩ := Option.bind_eq_some_iff.mp h
      have hasked :
          ∃ depth, question.answer? (spellTo depth) (r.registerAll copy).1 = some answer := by
        cases question with
        | spell ty => exact spell?_eq_some_iff.mp ha
        | recognize v => exact ⟨0, ha⟩
        | hasRecognizer valueClass => exact ⟨0, ha⟩
        | hasSpelling key => exact ⟨0, ha⟩
        | describe => exact ⟨0, ha⟩
      obtain ⟨asked, hasked⟩ := hasked
      obtain ⟨rest, hrest⟩ := ih answer hnext
      refine ⟨max asked rest, ?_⟩
      rw [Script.run,
        Question.answer?_mono (fun _ _ _ => spellTo_mono (Nat.le_max_left _ _)) hasked]
      exact Script.run_mono (fun _ _ _ => spellTo_mono (Nat.le_max_right _ _)) hrest
  · rintro ⟨depth, h⟩
    exact Script.run_mono (fun _ _ _ h => spell?_eq_some_iff.mpr ⟨depth, h⟩) h

theorem spell?_of_none (h : r.spellerFor? ty = none) :
    r.spell? ty = some (.error (.unspelledType ty.debug)) :=
  spell?_eq_some_iff.mpr ⟨1, spellTo_succ_of_none 0 h⟩

theorem spell?_of_speller (h : r.spellerFor? ty = some speller) :
    r.spell? ty = (speller ty).run spell? r := by
  ext outcome
  rw [spell?_eq_some_iff, run_spell?_eq_some_iff]
  constructor
  · rintro ⟨depth, hd⟩
    cases depth with
    | zero => cases hd
    | succ depth => exact ⟨depth, (spellTo_succ_of_speller depth h).symm.trans hd⟩
  · rintro ⟨depth, hd⟩
    exact ⟨depth + 1, (spellTo_succ_of_speller depth h).trans hd⟩

theorem spell_of_spell? (h : r.spell? ty = some outcome) : r.spell ty = outcome := by
  rw [spell, h, Option.getD_some]

theorem run_spelled {text : String} {next : String → Script} (h : r.spell? ty = some (.ok text)) :
    (Script.spelled ty next).run spell? r = (next text).run spell? r := by
  have ha : (Question.spell ty).answer? spell? r = some (.ok text) := h
  rw [Script.spelled, Script.run]
  exact congrArg (Option.bind · _) ha

section Builtin

theorem spellerFor?_scalar (s : Scalar) :
    builtin.spellerFor? (.scalar s) = some (.text s.keyword) := by
  cases s <;> rfl

theorem spellerFor?_pointer (base : CType) :
    builtin.spellerFor? (.pointer base) = some (.pointee "" "*") := rfl

theorem spellerFor?_function (result : CType) (params : List CType) :
    builtin.spellerFor? (.function result params) = some .signature := rfl

mutual
theorem spell?_builtin : (ty : CType) → builtin.spell? ty = some (.ok ty.display)
  | .scalar s => spell?_of_speller (spellerFor?_scalar s)
  | .pointer base => by
    rw [spell?_of_speller (spellerFor?_pointer base), Speller.pointee,
      run_spelled (spell?_builtin base), CType.display, String.empty_append]
    rfl
  | .function result params => by
    rw [spell?_of_speller (spellerFor?_function result params), Speller.signature,
      run_spelledAll_builtin params, run_spelled (spell?_builtin result), CType.display]
    rfl
theorem run_spelledAll_builtin : (tys : List CType) → (next : List String → Script) →
    (Script.spelledAll tys next).run spell? builtin =
      (next (CType.displayAll tys)).run spell? builtin
  | [], _ => rfl
  | ty :: rest, next => by
    rw [Script.spelledAll, run_spelled (spell?_builtin ty), run_spelledAll_builtin rest,
      CType.displayAll]
end

theorem spell_builtin (ty : CType) : builtin.spell ty = .ok ty.display :=
  spell_of_spell? (spell?_builtin ty)

theorem spellAll_builtin (tys : List CType) :
    builtin.spellAll tys = .ok (CType.displayAll tys) := by
  induction tys with
  | nil => rfl
  | cons ty rest ih =>
    rw [spellAll, spell_builtin, ih, CType.displayAll]
    rfl

end Builtin

end TypeRegistry
end Arbor
