import Arbor.Proofs.Spelling

/-!
A registry answers by its history.

Every call of a registration sets one key, and what a key stands for is what was registered for it
last. A value is recognized by the first of its classes for which anything was registered, however
early that was and whatever was registered for a base since. A type is spelled by what was
registered for it exactly, and by what was registered for its tag only if there is no such thing.
What a speller asks on the way is answered by the same history, or by a longer one if it asks a copy
with more registrations. The built-in registry is the empty one after its own calls, so that its
entries are replaced like all others.
-/
namespace Arbor

namespace Table

variable {α β : Type} {history : List (α × β)} {key : α} {value : β}

def Latest (history : List (α × β)) (key : α) (value : β) : Prop :=
  ∃ before after, history = before ++ (key, value) :: after ∧ ∀ e ∈ after, e.1 ≠ key

variable [DecidableEq α]

theorem get?_eq_none_iff {t : Table α β} : t.get? key = none ↔ ∀ e ∈ t, e.1 ≠ key := by
  induction t with
  | nil => simp
  | cons entry rest ih =>
    obtain ⟨k, v⟩ := entry
    by_cases h : k = key
    · simp [Table.get?, h]
    · simp [Table.get?, h, ih]

theorem get?_reverse_eq_none_iff :
    Table.get? history.reverse key = none ↔ ¬ ∃ e ∈ history, e.1 = key := by
  simp only [get?_eq_none_iff, List.mem_reverse, not_exists, not_and, ne_eq]

theorem get?_reverse_eq_some_iff :
    Table.get? history.reverse key = some value ↔ Latest history key value := by
  constructor
  · intro h
    induction history with
    | nil => cases h
    | cons entry rest ih =>
      rw [List.reverse_cons, Table.get?_append] at h
      cases hrest : Table.get? rest.reverse key with
      | some v =>
        rw [hrest, Option.some_or] at h
        obtain ⟨before, after, hsplit, hlast⟩ := ih (hrest.trans h)
        exact ⟨entry :: before, after, by rw [hsplit, List.cons_append], hlast⟩
      | none =>
        obtain ⟨k, v⟩ := entry
        rw [hrest, Option.none_or] at h
        by_cases hk : k = key
        · obtain rfl : v = value := by simpa [Table.get?, hk] using h
          refine ⟨[], rest, by rw [hk, List.nil_append], fun e he => ?_⟩
          exact get?_eq_none_iff.mp hrest e (List.mem_reverse.mpr he)
        · simp [Table.get?, hk] at h
  · rintro ⟨before, after, rfl, hlast⟩
    have hafter : Table.get? after.reverse key = none :=
      get?_eq_none_iff.mpr fun e he => hlast e (List.mem_reverse.mp he)
    rw [List.reverse_append, List.reverse_cons, Table.get?_append, Table.get?_append, hafter]
    simp [Table.get?]

end Table

/-- The registry that a history makes out of nothing. -/
def TypeRegistry.ofHistory (history : List Registration) : TypeRegistry :=
  (empty.registerAll history).1

namespace Registration

inductive Key where
  | valueClass (name : String)
  | spelling (key : SpellingKey)
  deriving DecidableEq, Repr

def key : Registration → Key
  | .recognizer valueClass _ => .valueClass valueClass.name
  | .spelling key _ => .spelling key

def recognizer? : Registration → Option (String × Recognizer)
  | .recognizer valueClass run => some (valueClass.name, run)
  | .spelling _ _ => none

def speller? : Registration → Option (SpellingKey × Speller)
  | .recognizer _ _ => none
  | .spelling key run => some (key, run)

def recognizersOf (history : List Registration) : List (String × Recognizer) :=
  history.filterMap recognizer?

def spellersOf (history : List Registration) : List (SpellingKey × Speller) :=
  history.filterMap speller?

/-- A history has something for a key. -/
def Has (history : List Registration) (key : Key) : Prop := ∃ call ∈ history, call.key = key

instance (history : List Registration) (key : Key) : Decidable (Has history key) :=
  inferInstanceAs (Decidable (∃ call ∈ history, call.key = key))

/-- The recognizer that was registered last for the first class that has any. -/
def Nearest (history : List Registration) (classes : List String) (recognizer : Recognizer) :
    Prop :=
  ∃ nearer name further, classes = nearer ++ name :: further ∧
    (∀ other ∈ nearer, ¬ Has history (.valueClass other)) ∧
    Table.Latest (recognizersOf history) name recognizer

/-- The speller that was registered last for exactly the type, or else for its tag. -/
def Spells (history : List Registration) (ty : CType) (speller : Speller) : Prop :=
  Table.Latest (spellersOf history) (.exact ty) speller ∨
    ¬ Has history (.spelling (.exact ty)) ∧ Table.Latest (spellersOf history) (.tag ty.tag) speller

/-- What becomes of a value. -/
inductive Recognized (history : List Registration) (v : HostValue) :
    Except RegistryError CType → Prop
  | nearest {run : Recognizer} (h : Nearest history v.valueClass.ancestry run) :
    Recognized history v (run v)
  | unrecognized (h : ∀ name ∈ v.valueClass.ancestry, ¬ Has history (.valueClass name)) :
    Recognized history v (.error (.unrecognizedValue v.valueClass.name v.describe))

/-- What becomes of a question, other than how a type is spelled. -/
inductive Answered (history : List Registration) : (question : Question) → question.Answer → Prop
  | recognize {v : HostValue} {outcome : Except RegistryError CType}
      (h : Recognized history v outcome) : Answered history (.recognize v) outcome
  | hasRecognizer (name : String) :
    Answered history (.hasRecognizer name) (decide (Has history (.valueClass name)))
  | hasSpelling (key : SpellingKey) :
    Answered history (.hasSpelling key) (decide (Has history (.spelling key)))
  | describe : Answered history .describe (TypeRegistry.ofHistory history).describe

/-- What a script comes to. The copies it asks have its own history and then theirs. -/
inductive Runs : List Registration → Script → Spelling → Prop
  | done {history : List Registration} (outcome : Spelling) : Runs history (.done outcome) outcome
  | spelled {history copy : List Registration} {ty : CType} {next : Spelling → Script}
      {speller : Speller} {answer outcome : Spelling} (h : Spells (history ++ copy) ty speller)
      (asked : Runs (history ++ copy) (speller ty) answer)
      (rest : Runs history (next answer) outcome) :
    Runs history (.ask copy (.spell ty) next) outcome
  | unspelled {history copy : List Registration} {ty : CType} {next : Spelling → Script}
      {outcome : Spelling} (hexact : ¬ Has (history ++ copy) (.spelling (.exact ty)))
      (htag : ¬ Has (history ++ copy) (.spelling (.tag ty.tag)))
      (rest : Runs history (next (.error (.unspelledType ty.debug))) outcome) :
    Runs history (.ask copy (.spell ty) next) outcome
  | answered {history copy : List Registration} {question : Question}
      {next : question.Answer → Script} {answer : question.Answer} {outcome : Spelling}
      (asked : Answered (history ++ copy) question answer)
      (rest : Runs history (next answer) outcome) : Runs history (.ask copy question next) outcome

/-- What becomes of a type. -/
inductive Spelled (history : List Registration) (ty : CType) : Spelling → Prop
  | registered {speller : Speller} {outcome : Spelling} (h : Spells history ty speller)
      (run : Runs history (speller ty) outcome) : Spelled history ty outcome
  | unspelled (hexact : ¬ Has history (.spelling (.exact ty)))
      (htag : ¬ Has history (.spelling (.tag ty.tag))) :
    Spelled history ty (.error (.unspelledType ty.debug))

variable {history : List Registration}

theorem has_iff {α β : Type} {view : Registration → Option (α × β)} {toKey : α → Key}
    (hview : ∀ call key, call.key = toKey key ↔ ∃ run, view call = some (key, run)) (key : α) :
    Has history (toKey key) ↔ ∃ e ∈ history.filterMap view, e.1 = key := by
  simp only [Has, List.mem_filterMap]
  constructor
  · rintro ⟨call, hmem, hkey⟩
    obtain ⟨run, hrun⟩ := (hview call key).mp hkey
    exact ⟨(key, run), ⟨call, hmem, hrun⟩, rfl⟩
  · rintro ⟨⟨key, run⟩, ⟨call, hmem, hrun⟩, rfl⟩
    exact ⟨call, hmem, (hview call key).mpr ⟨run, hrun⟩⟩

theorem has_valueClass_iff {name : String} :
    Has history (.valueClass name) ↔ ∃ e ∈ recognizersOf history, e.1 = name := by
  refine has_iff (fun call name => ?_) name
  cases call <;> simp [Registration.key, recognizer?]

theorem has_spelling_iff {key : SpellingKey} :
    Has history (.spelling key) ↔ ∃ e ∈ spellersOf history, e.1 = key := by
  refine has_iff (fun call key => ?_) key
  cases call <;> simp [Registration.key, speller?]

theorem nearest_nil {run : Recognizer} : ¬ Nearest history [] run := by
  rintro ⟨nearer, name, further, hsplit, -⟩
  simp at hsplit

theorem nearest_cons {name : String} {bases : List String} {run : Recognizer} :
    Nearest history (name :: bases) run ↔
      Table.Latest (recognizersOf history) name run ∨
        ¬ Has history (.valueClass name) ∧ Nearest history bases run := by
  constructor
  · rintro ⟨nearer, found, further, hsplit, hnearer, hlatest⟩
    cases nearer with
    | nil =>
      obtain ⟨rfl, -⟩ := List.cons.inj hsplit
      exact .inl hlatest
    | cons first nearer =>
      obtain ⟨rfl, hbases⟩ := List.cons.inj hsplit
      refine .inr ⟨hnearer _ List.mem_cons_self, nearer, found, further, hbases, ?_, hlatest⟩
      exact fun other hother => hnearer other (List.mem_cons_of_mem _ hother)
  · rintro (hlatest | ⟨hnone, nearer, found, further, rfl, hnearer, hlatest⟩)
    · exact ⟨[], name, bases, rfl, by simp, hlatest⟩
    · refine ⟨name :: nearer, found, further, rfl, fun other hother => ?_, hlatest⟩
      obtain rfl | hother := List.mem_cons.mp hother
      · exact hnone
      · exact hnearer other hother

theorem Runs.of_spells {ty : CType} {speller : Speller} {text : String}
    {next : String → Script} {outcome : Spelling} (h : Spells history ty speller)
    (asked : Runs history (speller ty) (.ok text)) (rest : Runs history (next text) outcome) :
    Runs history (.spelled ty next) outcome := by
  rw [← List.append_nil history] at h asked
  exact .spelled h asked rest

end Registration

namespace TypeRegistry

open Registration

def builtinCalls : List Registration :=
  [.recognizer .int (.always (.scalar .long)), .recognizer .uint (.always (.scalar .ulong)),
    .recognizer .float (.always (.scalar .double)), .recognizer .float32 (.always (.scalar .float)),
    .recognizer .char (.always (.scalar .char)),
    .recognizer .str (.always (.pointer (.scalar .char)))] ++
  Scalar.all.map (fun s => .spelling (.tag (.scalar s)) (.text s.keyword)) ++
  [.spelling (.tag .pointer) (.pointee "" "*"), .spelling (.tag .function) .signature]

theorem ofHistory_builtinCalls : ofHistory builtinCalls = builtin := rfl

inductive Start where
  | empty
  | builtin
  deriving DecidableEq, Repr

def Start.registry : Start → TypeRegistry
  | .empty => TypeRegistry.empty
  | .builtin => TypeRegistry.builtin

/-- The calls that have been made before the session. -/
def Start.calls : Start → List Registration
  | .empty => []
  | .builtin => builtinCalls

theorem Start.registry_eq (start : Start) : start.registry = ofHistory start.calls := by
  cases start with
  | empty => rfl
  | builtin => exact ofHistory_builtinCalls.symm

section Tables

variable {history : List Registration}

theorem registerAll_fst (r : TypeRegistry) (calls : List Registration) :
    (r.registerAll calls).1 =
      ⟨r.recognizers.setAll (recognizersOf calls), r.spellers.setAll (spellersOf calls)⟩ := by
  induction calls generalizing r with
  | nil => rfl
  | cons call rest ih =>
    cases call with
    | recognizer valueClass run => exact ih _
    | spelling key run => exact ih _

theorem registerAll_append (r : TypeRegistry) (first second : List Registration) :
    (r.registerAll (first ++ second)).1 = ((r.registerAll first).1.registerAll second).1 := by
  induction first generalizing r with
  | nil => rfl
  | cons call rest ih => exact ih _

theorem length_registerAll (r : TypeRegistry) (calls : List Registration) :
    (r.registerAll calls).2.length = calls.length := by
  induction calls generalizing r with
  | nil => rfl
  | cons call rest ih => exact congrArg (· + 1) (ih _)

/-- A flag is about the registry that the calls before it leave. -/
theorem getElem?_registerAll (r : TypeRegistry) (calls : List Registration) (i : Nat) :
    (r.registerAll calls).2[i]? =
      calls[i]?.map fun call => ((r.registerAll (calls.take i)).1.register call).2 := by
  induction calls generalizing r i with
  | nil => rfl
  | cons call rest ih =>
    cases i with
    | zero => rfl
    | succ i => exact ih _ i

theorem ofHistory_recognizers_get? (history : List Registration) (name : String) :
    (ofHistory history).recognizers.get? name =
      Table.get? (recognizersOf history).reverse name := by
  rw [ofHistory, registerAll_fst, Table.get?_setAll]
  exact Option.or_none

theorem ofHistory_spellers_get? (history : List Registration) (key : SpellingKey) :
    (ofHistory history).spellers.get? key = Table.get? (spellersOf history).reverse key := by
  rw [ofHistory, registerAll_fst, Table.get?_setAll]
  exact Option.or_none

theorem recognizers_get?_eq_some_iff {name : String} {run : Recognizer} :
    (ofHistory history).recognizers.get? name = some run ↔
      Table.Latest (recognizersOf history) name run := by
  rw [ofHistory_recognizers_get?, Table.get?_reverse_eq_some_iff]

theorem recognizers_get?_eq_none_iff {name : String} :
    (ofHistory history).recognizers.get? name = none ↔ ¬ Has history (.valueClass name) := by
  rw [ofHistory_recognizers_get?, Table.get?_reverse_eq_none_iff, has_valueClass_iff]

theorem spellers_get?_eq_some_iff {key : SpellingKey} {run : Speller} :
    (ofHistory history).spellers.get? key = some run ↔
      Table.Latest (spellersOf history) key run := by
  rw [ofHistory_spellers_get?, Table.get?_reverse_eq_some_iff]

theorem spellers_get?_eq_none_iff {key : SpellingKey} :
    (ofHistory history).spellers.get? key = none ↔ ¬ Has history (.spelling key) := by
  rw [ofHistory_spellers_get?, Table.get?_reverse_eq_none_iff, has_spelling_iff]

theorem contains_recognizer_iff {name : String} :
    (ofHistory history).recognizers.contains name = true ↔ Has history (.valueClass name) := by
  rw [Table.contains, Option.isSome_iff_ne_none, ne_eq, recognizers_get?_eq_none_iff,
    Decidable.not_not]

theorem contains_speller_iff {key : SpellingKey} :
    (ofHistory history).spellers.contains key = true ↔ Has history (.spelling key) := by
  rw [Table.contains, Option.isSome_iff_ne_none, ne_eq, spellers_get?_eq_none_iff,
    Decidable.not_not]

theorem register_replaces_iff (call : Registration) :
    ((ofHistory history).register call).2 = true ↔ Has history call.key := by
  cases call with
  | recognizer valueClass run => exact contains_recognizer_iff
  | spelling key run => exact contains_speller_iff

end Tables

section Recognition

variable {history : List Registration}

theorem recognizerFor?_eq_some_iff {classes : List String} {run : Recognizer} :
    (ofHistory history).recognizerFor? classes = some run ↔ Nearest history classes run := by
  induction classes with
  | nil => simp [recognizerFor?, nearest_nil]
  | cons name bases ih =>
    rw [nearest_cons, ← recognizers_get?_eq_some_iff, ← recognizers_get?_eq_none_iff, ← ih]
    cases h : (ofHistory history).recognizers.get? name with
    | none => simp [recognizerFor?, h]
    | some found => simp [recognizerFor?, h]

theorem recognizerFor?_eq_none_iff {classes : List String} :
    (ofHistory history).recognizerFor? classes = none ↔
      ∀ name ∈ classes, ¬ Has history (.valueClass name) := by
  induction classes with
  | nil => simp [recognizerFor?]
  | cons name bases ih =>
    rw [List.forall_mem_cons, ← recognizers_get?_eq_none_iff, ← ih]
    cases h : (ofHistory history).recognizers.get? name with
    | none => simp [recognizerFor?, h]
    | some found => simp [recognizerFor?, h]

theorem recognize_eq_iff (v : HostValue) (outcome : Except RegistryError CType) :
    (ofHistory history).recognize v = outcome ↔ Recognized history v outcome := by
  cases h : (ofHistory history).recognizerFor? v.valueClass.ancestry with
  | some run =>
    have hrun : (ofHistory history).recognize v = run v := by rw [recognize, h]
    rw [hrun]
    constructor
    · rintro rfl
      exact .nearest (recognizerFor?_eq_some_iff.mp h)
    · rintro (hnearest | hnone)
      · rw [recognizerFor?_eq_some_iff.mpr hnearest] at h
        rw [Option.some.inj h]
      · rw [recognizerFor?_eq_none_iff.mpr hnone] at h
        cases h
  | none =>
    have hrun : (ofHistory history).recognize v =
        .error (.unrecognizedValue v.valueClass.name v.describe) := by rw [recognize, h]
    rw [hrun]
    constructor
    · rintro rfl
      exact .unrecognized (recognizerFor?_eq_none_iff.mp h)
    · rintro (hnearest | -)
      · rw [recognizerFor?_eq_some_iff.mpr hnearest] at h
        cases h
      · rfl

/-- A value is unrecognized if none of its classes has a recognizer, or if the one that is run says
so itself. -/
theorem recognize_refuses_iff (v : HostValue) (shown : String) :
    (ofHistory history).recognize v = .error (.unrecognizedValue v.valueClass.name shown) ↔
      (∀ name ∈ v.valueClass.ancestry, ¬ Has history (.valueClass name)) ∧ shown = v.describe ∨
        ∃ run, Nearest history v.valueClass.ancestry run ∧
          run v = .error (.unrecognizedValue v.valueClass.name shown) := by
  rw [recognize_eq_iff]
  constructor
  · intro h
    generalize hout :
      Except.error (RegistryError.unrecognizedValue v.valueClass.name shown) = outcome at h
    cases h with
    | nearest hnearest => exact .inr ⟨_, hnearest, rfl⟩
    | unrecognized hnone =>
      cases hout
      exact .inl ⟨hnone, rfl⟩
  · rintro (⟨hnone, rfl⟩ | ⟨run, hnearest, hrun⟩)
    · exact .unrecognized hnone
    · exact hrun ▸ .nearest hnearest

end Recognition

section Spellings

variable {history : List Registration}

theorem spellerFor?_eq_some_iff {ty : CType} {run : Speller} :
    (ofHistory history).spellerFor? ty = some run ↔ Spells history ty run := by
  rw [Spells, ← spellers_get?_eq_some_iff, ← spellers_get?_eq_some_iff,
    ← spellers_get?_eq_none_iff]
  cases h : (ofHistory history).spellers.get? (.exact ty) with
  | none => simp [spellerFor?, h]
  | some found => simp [spellerFor?, h]

theorem spellerFor?_eq_none_iff {ty : CType} :
    (ofHistory history).spellerFor? ty = none ↔
      ¬ Has history (.spelling (.exact ty)) ∧ ¬ Has history (.spelling (.tag ty.tag)) := by
  rw [← spellers_get?_eq_none_iff, ← spellers_get?_eq_none_iff]
  cases h : (ofHistory history).spellers.get? (.exact ty) with
  | none => simp [spellerFor?, h]
  | some found => simp [spellerFor?, h]

theorem registerAll_ofHistory (history copy : List Registration) :
    ((ofHistory history).registerAll copy).1 = ofHistory (history ++ copy) :=
  (registerAll_append empty history copy).symm

theorem answer?_of_answered {spell : TypeRegistry → CType → Option Spelling} {question : Question}
    {answer : question.Answer} (h : Answered history question answer) :
    question.answer? spell (ofHistory history) = some answer := by
  cases h with
  | recognize h => exact congrArg some ((recognize_eq_iff _ _).mpr h)
  | hasRecognizer name =>
    refine congrArg some (Bool.eq_iff_iff.mpr ?_)
    exact contains_recognizer_iff.trans decide_eq_true_iff.symm
  | hasSpelling key =>
    refine congrArg some (Bool.eq_iff_iff.mpr ?_)
    exact contains_speller_iff.trans decide_eq_true_iff.symm
  | describe => rfl

theorem run_ask {spell : TypeRegistry → CType → Option Spelling} {copy : List Registration}
    {question : Question} {answer : question.Answer} {next : question.Answer → Script}
    (h : question.answer? spell (ofHistory (history ++ copy)) = some answer) :
    (Script.ask copy question next).run spell (ofHistory history) =
      (next answer).run spell (ofHistory history) := by
  rw [Script.run, registerAll_ofHistory, h, Option.bind_some]

theorem runs_of_run {spell : TypeRegistry → CType → Option Spelling} {script : Script}
    {outcome : Spelling}
    (hspell : ∀ history ty outcome, spell (ofHistory history) ty = some outcome →
      Spelled history ty outcome)
    (h : script.run spell (ofHistory history) = some outcome) : Runs history script outcome := by
  fun_induction Script.run spell (ofHistory history) script with
  | case1 =>
    cases h
    exact .done _
  | case2 copy question next ih =>
    obtain ⟨answer, ha, hnext⟩ := Option.bind_eq_some_iff.mp h
    have hrest := ih answer hnext
    rw [registerAll_ofHistory] at ha
    -- every question but the one about a type has one answer, which the history gives
    have hanswered (h : Answered (history ++ copy) question answer) :
        Runs history (.ask copy question next) outcome := .answered h hrest
    cases question with
    | spell ty =>
      cases hspell _ ty answer ha with
      | registered hspells hrun => exact .spelled hspells hrun hrest
      | unspelled hexact htag => exact .unspelled hexact htag hrest
    | recognize v => exact hanswered (.recognize ((recognize_eq_iff v _).mp (Option.some.inj ha)))
    | hasRecognizer name =>
      cases (answer?_of_answered (.hasRecognizer name)).symm.trans ha
      exact hanswered (.hasRecognizer name)
    | hasSpelling key =>
      cases (answer?_of_answered (.hasSpelling key)).symm.trans ha
      exact hanswered (.hasSpelling key)
    | describe =>
      cases ha
      exact hanswered .describe

theorem spelled_of_spellTo {depth : Nat} {ty : CType} {outcome : Spelling}
    (h : (ofHistory history).spellTo depth ty = some outcome) : Spelled history ty outcome := by
  induction depth generalizing history ty outcome with
  | zero => cases h
  | succ depth ih =>
    cases hs : (ofHistory history).spellerFor? ty with
    | some speller =>
      rw [spellTo_succ_of_speller _ hs] at h
      exact .registered (spellerFor?_eq_some_iff.mp hs) (runs_of_run (fun _ _ _ => ih) h)
    | none =>
      obtain ⟨hexact, htag⟩ := spellerFor?_eq_none_iff.mp hs
      rw [spellTo_succ_of_none _ hs] at h
      cases h
      exact .unspelled hexact htag

theorem run_of_runs {script : Script} {outcome : Spelling} (h : Runs history script outcome) :
    script.run spell? (ofHistory history) = some outcome := by
  induction h with
  | done outcome => rfl
  | spelled hspells _ _ ihasked ihrest =>
    refine (run_ask ?_).trans ihrest
    exact (spell?_of_speller (spellerFor?_eq_some_iff.mpr hspells)).trans ihasked
  | unspelled hexact htag _ ihrest =>
    refine (run_ask ?_).trans ihrest
    exact spell?_of_none (spellerFor?_eq_none_iff.mpr ⟨hexact, htag⟩)
  | answered hasked _ ihrest => exact (run_ask (answer?_of_answered hasked)).trans ihrest

theorem spell?_eq_iff (ty : CType) (outcome : Spelling) :
    (ofHistory history).spell? ty = some outcome ↔ Spelled history ty outcome := by
  constructor
  · intro h
    obtain ⟨depth, hdepth⟩ := spell?_eq_some_iff.mp h
    exact spelled_of_spellTo hdepth
  · intro h
    cases h with
    | registered hspells hrun =>
      rw [spell?_of_speller (spellerFor?_eq_some_iff.mpr hspells)]
      exact run_of_runs hrun
    | unspelled hexact htag =>
      exact spell?_of_none (spellerFor?_eq_none_iff.mpr ⟨hexact, htag⟩)

/-- A type is unspelled if neither it nor its tag has a speller, or if the one that is run says so
itself. -/
theorem spell_refuses_iff (ty : CType) (shown : String) :
    (ofHistory history).spell? ty = some (.error (.unspelledType shown)) ↔
      (¬ Has history (.spelling (.exact ty)) ∧ ¬ Has history (.spelling (.tag ty.tag))) ∧
          shown = ty.debug ∨
        ∃ speller, Spells history ty speller ∧
          Runs history (speller ty) (.error (.unspelledType shown)) := by
  rw [spell?_eq_iff]
  constructor
  · rintro (⟨hspells, hrun⟩ | ⟨hexact, htag⟩)
    · exact .inr ⟨_, hspells, hrun⟩
    · exact .inl ⟨⟨hexact, htag⟩, rfl⟩
  · rintro (⟨⟨hexact, htag⟩, rfl⟩ | ⟨speller, hspells, hrun⟩)
    · exact .unspelled hexact htag
    · exact .registered hspells hrun

end Spellings

theorem ofHistory_append (start : Start) (calls : List Registration) :
    (start.registry.registerAll calls).1 = ofHistory (start.calls ++ calls) := by
  rw [ofHistory, registerAll_append, start.registry_eq]
  rfl

/-- A call replaces something if and only if its key was registered before. A value and a type come
to what the history says. The registry itself refuses what nothing was registered for, and passes on
what the recognizer or the speller that it runs refuses. -/
theorem registry_answers_by_history (start : Start) (calls : List Registration) :
    ∃ r replaced, start.registry.registerAll calls = (r, replaced) ∧
      replaced.length = calls.length ∧
      (∀ i call, calls[i]? = some call →
        (replaced[i]? = some true ↔ Has (start.calls ++ calls.take i) call.key)) ∧
      (∀ v outcome, r.recognize v = outcome ↔ Recognized (start.calls ++ calls) v outcome) ∧
      (∀ v shown, r.recognize v = .error (.unrecognizedValue v.valueClass.name shown) ↔
        (∀ name ∈ v.valueClass.ancestry, ¬ Has (start.calls ++ calls) (.valueClass name)) ∧
            shown = v.describe ∨
          ∃ run, Nearest (start.calls ++ calls) v.valueClass.ancestry run ∧
            run v = .error (.unrecognizedValue v.valueClass.name shown)) ∧
      (∀ ty outcome, r.spell? ty = some outcome ↔ Spelled (start.calls ++ calls) ty outcome) ∧
      (∀ ty outcome, Spelled (start.calls ++ calls) ty outcome → r.spell ty = outcome) ∧
      (∀ ty shown, r.spell? ty = some (.error (.unspelledType shown)) ↔
        (¬ Has (start.calls ++ calls) (.spelling (.exact ty)) ∧
            ¬ Has (start.calls ++ calls) (.spelling (.tag ty.tag))) ∧ shown = ty.debug ∨
          ∃ speller, Spells (start.calls ++ calls) ty speller ∧
            Runs (start.calls ++ calls) (speller ty) (.error (.unspelledType shown))) := by
  refine ⟨_, _, rfl, length_registerAll _ _, ?_⟩
  rw [ofHistory_append]
  refine ⟨fun i call hcall => ?_, recognize_eq_iff, recognize_refuses_iff, spell?_eq_iff,
    fun ty outcome h => spell_of_spell? ((spell?_eq_iff ty outcome).mpr h), spell_refuses_iff⟩
  rw [getElem?_registerAll, hcall, ofHistory_append, ← register_replaces_iff]
  exact Option.some_inj

def withInt : Speller := fun _ =>
  .spelled (.scalar .int) fun text => .done (.ok ("long " ++ text))

/-- A class with a recognizer of its own, whose base gets others later, texts in place of pointers
to characters, and a type that is spelled by means of another one. -/
def gridCalls : List Registration :=
  [.recognizer (.derived "sparse_grid" (.root "grid")) (.always (.scalar .int)),
    .recognizer (.root "grid") (.always (.pointer (.scalar .double))),
    .recognizer (.root "grid") .refuse,
    .recognizer .int (.always (.scalar .int)),
    .spelling (.exact (.pointer (.scalar .char))) (.text "string"),
    .spelling (.tag .pointer) (.pointee "" " *"),
    .spelling (.tag (.scalar .long)) withInt]

def tinyGrid : HostValue :=
  .other (.derived "tiny_grid" (.derived "sparse_grid" (.root "grid"))) "TinyGrid"

/-- The later entries of the base do not reach past the entry of the class. -/
theorem gridCalls_answered :
    ∃ r replaced, Start.builtin.registry.registerAll gridCalls = (r, replaced) ∧
      replaced[1]? ≠ some true ∧ replaced[2]? = some true ∧ replaced[3]? = some true ∧
      replaced[6]? = some true ∧
      r.recognize tinyGrid = .ok (.scalar .int) ∧
      r.recognize (.other (.root "mesh") "Mesh") = .error (.unrecognizedValue "mesh" "Mesh") ∧
      r.spell (.pointer (.pointer (.scalar .char))) = .ok "string *" ∧
      r.spell (.pointer (.scalar .long)) = .ok "long int *" := by
  obtain ⟨r, replaced, hr, -, hreplaced, hrecognize, hrefuses, -, hspell, -⟩ :=
    registry_answers_by_history .builtin gridCalls
  have hsparse : Nearest (builtinCalls ++ gridCalls) tinyGrid.valueClass.ancestry
      (.always (.scalar .int)) :=
    ⟨["tiny_grid"], "sparse_grid", ["grid"], rfl, by decide +kernel,
      recognizersOf builtinCalls, recognizersOf (gridCalls.drop 1), rfl, by decide +kernel⟩
  have hstring : Spells (builtinCalls ++ gridCalls) (.pointer (.scalar .char)) (.text "string") :=
    .inl ⟨spellersOf builtinCalls, spellersOf (gridCalls.drop 5), rfl, by decide +kernel⟩
  have hpointer (base : CType)
      (hexact : ¬ Has (builtinCalls ++ gridCalls) (.spelling (.exact (.pointer base)))) :
      Spells (builtinCalls ++ gridCalls) (.pointer base) (.pointee "" " *") :=
    .inr ⟨hexact, spellersOf (builtinCalls ++ gridCalls.take 5), spellersOf (gridCalls.drop 6), rfl,
      show ∀ e ∈ spellersOf (gridCalls.drop 6), e.1 ≠ .tag .pointer by decide +kernel⟩
  have hlong : Spells (builtinCalls ++ gridCalls) (.scalar .long) withInt :=
    .inr ⟨by decide +kernel, spellersOf (builtinCalls ++ gridCalls.take 6), [], rfl, by simp⟩
  have hint : Spells (builtinCalls ++ gridCalls) (.scalar .int) (.text "int") :=
    .inr ⟨by decide +kernel, spellersOf (builtinCalls.take 11),
      spellersOf (builtinCalls.drop 12 ++ gridCalls), rfl, by decide +kernel⟩
  refine ⟨r, replaced, hr, ?_, ?_, ?_, ?_, (hrecognize _ _).mpr (.nearest hsparse), ?_, ?_, ?_⟩
  · exact mt (hreplaced 1 _ rfl).mp (by decide +kernel)
  · exact (hreplaced 2 _ rfl).mpr (by decide +kernel)
  · exact (hreplaced 3 _ rfl).mpr (by decide +kernel)
  · exact (hreplaced 6 _ rfl).mpr (by decide +kernel)
  · exact (hrefuses (.other (.root "mesh") "Mesh") "Mesh").mpr (.inl ⟨by decide +kernel, rfl⟩)
  · exact hspell _ _ (.registered (hpointer _ (by decide +kernel))
      (.of_spells hstring (.done _) (.done _)))
  · exact hspell _ _ (.registered (hpointer _ (by decide +kernel))
      (.of_spells hlong (.of_spells hint (.done _) (.done _)) (.done _)))

/-- The pointer has a speller and the class has a recognizer, and still they are refused: the
pointee has no speller, and the recognizer knows no type. -/
theorem registered_entries_may_refuse :
    let calls : List Registration :=
      [.spelling (.tag .pointer) (.pointee "" "*"), .recognizer (.root "grid") .refuse]
    let r := (Start.empty.registry.registerAll calls).1
    Spells calls (.pointer (.scalar .int)) (.pointee "" "*") ∧
    r.spell? (.pointer (.scalar .int)) = some (.error (.unspelledType "Int")) ∧
    r.spell (.pointer (.scalar .int)) = .error (.unspelledType "Int") ∧
    Nearest calls ["grid"] .refuse ∧
    r.recognize (.other (.root "grid") "Grid") = .error (.unrecognizedValue "grid" "refused") :=
  ⟨.inr ⟨by decide, [], [], rfl, by simp⟩, rfl, rfl,
    ⟨[], "grid", [], rfl, by simp, [], [], rfl, by simp⟩, rfl⟩

end TypeRegistry
end Arbor
