import Arbor.CType.Basic
import Arbor.Table
import Arbor.Value
/-!
The type registry: which type a host value has, and how a type is spelled.

Both tables are open. Registering a key that is present replaces its entry and reports so. A
value is recognized by the nearest of its classes that has an entry; a type is spelled by the
entry for exactly this type, else by the entry for its tag.
-/
namespace Arbor

inductive RegistryError where
  | unrecognizedValue (valueClass : String) (value : String)
  | unspelledType (ty : String)
  deriving DecidableEq, Repr

def RegistryError.message : RegistryError → String
  | .unrecognizedValue valueClass value =>
    "no type recognizer registered for value class `" ++ valueClass ++ "` (value: " ++ value ++ ")"
  | .unspelledType ty => "no spelling registered for type `" ++ ty ++ "`"

abbrev Recognizer := HostValue → Except RegistryError CType

def Recognizer.always (ty : CType) : Recognizer := fun _ => .ok ty

def Recognizer.refuse : Recognizer := fun v =>
  .error (.unrecognizedValue v.valueClass.name "refused")

abbrev Spelling := Except RegistryError String

inductive SpellingKey where
  | exact (ty : CType)
  | tag (tag : CType.Tag)
  deriving DecidableEq, Repr

/-- A call that registers something, whatever spells types. -/
inductive RegistrationOf (speller : Type) where
  | recognizer (valueClass : ValueClass) (run : Recognizer)
  | spelling (key : SpellingKey) (run : speller)

/-- What can be asked of a registry. Registering in a copy tells whether a spelling is there. -/
inductive Question where
  | spell (ty : CType)
  | recognize (v : HostValue)
  | hasRecognizer (valueClass : String)
  | hasSpelling (key : SpellingKey)
  | describe

abbrev Question.Answer : Question → Type
  | .spell _ => Spelling
  | .recognize _ => Except RegistryError CType
  | .hasRecognizer _ => Bool
  | .hasSpelling _ => Bool
  | .describe => String

/-- What a speller does about a type: it asks the registry, or a copy in which more is registered,
and goes on with the answer until it has an outcome. -/
inductive Script where
  | done (outcome : Spelling)
  | ask (copy : List (RegistrationOf (CType → Script))) (question : Question)
      (next : question.Answer → Script)

abbrev Speller := CType → Script

abbrev Registration := RegistrationOf Speller

namespace Script

def spelled (ty : CType) (next : String → Script) : Script :=
  .ask [] (.spell ty) fun
    | .ok text => next text
    | .error e => .done (.error e)

def spelledAll : List CType → (List String → Script) → Script
  | [], next => next []
  | ty :: rest, next => spelled ty fun first => spelledAll rest fun others => next (first :: others)

end Script

namespace Speller

def text (s : String) : Speller := fun _ => .done (.ok s)

def refuse : Speller := fun ty => .done (.error (.unspelledType ty.display))

def pointee (before after : String) : Speller
  | .pointer base => .spelled base fun text => .done (.ok (before ++ text ++ after))
  | ty => .done (.error (.unspelledType ty.display))

/-- `result (*)(params)`; fails on what is no function. The parameters are spelled before the
result, so that an unspelled parameter is reported first. -/
def signature : Speller
  | .function result params =>
    .spelledAll params fun params => .spelled result fun result =>
      .done (.ok (result ++ " (*)(" ++ ", ".intercalate params ++ ")"))
  | ty => .done (.error (.unspelledType ty.debug))

end Speller

structure TypeRegistry where
  recognizers : Table String Recognizer
  spellers : Table SpellingKey Speller

namespace TypeRegistry

def empty : TypeRegistry := ⟨[], []⟩

def registerRecognizer (r : TypeRegistry) (valueClass : String) (recognizer : Recognizer) :
    TypeRegistry × Bool :=
  ({ r with recognizers := r.recognizers.set valueClass recognizer },
    r.recognizers.contains valueClass)

def registerSpelling (r : TypeRegistry) (key : SpellingKey) (speller : Speller) :
    TypeRegistry × Bool :=
  ({ r with spellers := r.spellers.set key speller }, r.spellers.contains key)

def register (r : TypeRegistry) : Registration → TypeRegistry × Bool
  | .recognizer valueClass run => r.registerRecognizer valueClass.name run
  | .spelling key run => r.registerSpelling key run

def registerAll (r : TypeRegistry) : List Registration → TypeRegistry × List Bool
  | [] => (r, [])
  | call :: rest =>
    let next := r.register call
    let last := next.1.registerAll rest
    (last.1, next.2 :: last.2)

def builtinRecognizers : Table String Recognizer :=
  [("int", .always (.scalar .long)), ("uint", .always (.scalar .ulong)),
    ("float", .always (.scalar .double)), ("float32", .always (.scalar .float)),
    ("char", .always (.scalar .char)), ("str", .always (.pointer (.scalar .char)))]

def builtinSpellers : Table SpellingKey Speller :=
  Scalar.all.map (fun s => (.tag (.scalar s), .text s.keyword)) ++
    [(.tag .pointer, .pointee "" "*"), (.tag .function, .signature)]

def builtin : TypeRegistry := ⟨builtinRecognizers, builtinSpellers⟩

def hasRecognizer (r : TypeRegistry) (valueClass : String) : Bool :=
  r.recognizers.contains valueClass

def recognizerFor? (r : TypeRegistry) : List String → Option Recognizer
  | [] => none
  | name :: bases =>
    match r.recognizers.get? name with
    | some recognizer => some recognizer
    | none => r.recognizerFor? bases

def recognize (r : TypeRegistry) (v : HostValue) : Except RegistryError CType :=
  match r.recognizerFor? v.valueClass.ancestry with
  | some recognizer => recognizer v
  | none => .error (.unrecognizedValue v.valueClass.name v.describe)

def spellerFor? (r : TypeRegistry) (ty : CType) : Option Speller :=
  match r.spellers.get? (.exact ty) with
  | some speller => some speller
  | none => r.spellers.get? (.tag ty.tag)

def describe (r : TypeRegistry) : String :=
  "TypeRegistry \x7b recognizers: " ++
    Text.quotedList (r.recognizers.keys.mergeSort fun a b => a ≤ b) ++
    ", spellings: " ++ toString r.spellers.length ++ " \x7d"

end TypeRegistry

def Question.answer? (spell : TypeRegistry → CType → Option Spelling) (r : TypeRegistry) :
    (question : Question) → Option question.Answer
  | .spell ty => spell r ty
  | .recognize v => some (r.recognize v)
  | .hasRecognizer valueClass => some (r.hasRecognizer valueClass)
  | .hasSpelling key => some (r.spellers.contains key)
  | .describe => some r.describe

/-- The outcome of a script in a registry; none if it asks for a spelling and gets no answer. -/
def Script.run (spell : TypeRegistry → CType → Option Spelling) (r : TypeRegistry) :
    Script → Option Spelling
  | .done outcome => some outcome
  | .ask copy question next =>
    (question.answer? spell (r.registerAll copy).1).bind fun answer => (next answer).run spell r

namespace TypeRegistry

/-- The spelling of a type, if spellers ask for one another no deeper than this. -/
def spellTo : (depth : Nat) → TypeRegistry → CType → Option Spelling
  | 0, _, _ => none
  | depth + 1, r, ty =>
    match r.spellerFor? ty with
    | none => some (.error (.unspelledType ty.debug))
    | some speller => (speller ty).run (spellTo depth) r

/-- What a search for a spelling may come to: nothing, or what a bounded run comes to. -/
def Found (r : TypeRegistry) (ty : CType) :=
  { found : Option Spelling // ∀ outcome ∈ found, ∃ depth, r.spellTo depth ty = some outcome }

instance (r : TypeRegistry) (ty : CType) : Nonempty (r.Found ty) := ⟨none, nofun⟩

def deepen (r : TypeRegistry) (ty : CType) (depth : Nat) : Id (Nat ⊕ r.Found ty) :=
  match h : r.spellTo depth ty with
  | some outcome => pure (.inr ⟨some outcome, fun _ ho => ⟨depth, h.trans ho⟩⟩)
  | none => pure (.inl (depth + 1))

/-- Goes deeper until there is an outcome. Spellers that ask for one another without end have
none. -/
def spellFrom (r : TypeRegistry) (ty : CType) (depth : Nat) : Option Spelling :=
  (repeatM (r.deepen ty) depth).run.val

/-- Spellers that ask for parts of their type only come to an end at the height of the type. -/
def spell? (r : TypeRegistry) (ty : CType) : Option Spelling :=
  match r.spellTo (ty.height + 1) ty with
  | some outcome => some outcome
  | none => r.spellFrom ty (ty.height + 2)

/-- The spelling of a type. One that never comes to an end counts as none. -/
def spell (r : TypeRegistry) (ty : CType) : Spelling :=
  (r.spell? ty).getD (.error (.unspelledType ty.debug))

def spellAll (r : TypeRegistry) : List CType → Except RegistryError (List String)
  | [] => .ok []
  | ty :: rest => do
    let first ← r.spell ty
    let others ← r.spellAll rest
    return first :: others

end TypeRegistry
end Arbor
