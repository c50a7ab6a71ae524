import Arbor.Proofs.Cutting
import Arbor.Proofs.Declarator
import Arbor.Proofs.Grammar.Printed
import Arbor.Proofs.Grammar.Reader

/-!
A type can be read off its spelling.

The built-in registry spells a type as it is shown: a scalar, with stars and parameter lists behind
it. The words and signs of this text belong to one type only, so that types which differ are spelled
differently. The texts that types are rendered into keep them apart as well: a cast, the head of a
function, and a declaration, although a declaration puts its name into the middle of the spelling.
-/
namespace Arbor

namespace CType

/-- The type that a text names, if it names one and goes on with nothing. -/
def read? (text : String) : Option CType :=
  match Grammar.typeName ((Token.lex text.toList).length + 1) (Token.lex text.toList) with
  | some (ty, []) => some ty
  | _ => none

theorem read?_display (ty : CType) : read? ty.display = some ty := by
  obtain ⟨ts, hspells, hname⟩ := Grammar.spells_display ty
  obtain ⟨count, -, hread⟩ := hname.typeName_eq ts.length (Nat.le_refl _) [] nofun
  have hstops : Grammar.typeTail (Grammar.typeName ts.length) count ty [] = some (ty, []) := by
    cases count <;> rfl
  rw [List.append_nil, hstops] at hread
  rw [read?, hspells.lex_eq, hread]

theorem display_injective {a b : CType} (h : a.display = b.display) : a = b := by
  have hread := read?_display a
  rw [h, read?_display b] at hread
  exact (Option.some.inj hread).symm

/-- A name that does not look like a part of a declarator. -/
structure IsDeclarable (name : String) : Prop where
  nonempty : name ≠ ""
  noOpen : '(' ∉ name.toList
  noClose : ')' ∉ name.toList

/-- The declaration of a name. -/
def declaring (name : String) (ty : CType) : String :=
  if ty.isFunction then ty.naming name else ty.display ++ " " ++ name

variable {name : String} {a b : CType}

theorem leadsToFunction_of_isFunction (h : a.isFunction) : a.leadsToFunction := by
  cases a with
  | function => rfl
  | scalar | pointer => cases h

theorem naming_injective (ha : a.leadsToFunction) (hb : b.leadsToFunction)
    (h : a.naming name = b.naming name) : a = b := by
  obtain ⟨front, back, hfront, hplain, hnamed⟩ := display_around name a ha
  obtain ⟨front', back', hfront', hplain', hnamed'⟩ := display_around name b hb
  have hchars := congrArg String.toList h
  simp only [hnamed, hnamed', List.append_assoc, List.cons_append, List.nil_append] at hchars
  obtain ⟨rfl, hrest⟩ := Text.cut_at_first hfront hfront' hchars
  obtain rfl : back = back' := by simpa using hrest
  exact display_injective (String.toList_injective (hplain.trans hplain'.symm))

/-- The name follows the star of its own declarator at once. -/
theorem naming_ne_plain (hname : IsDeclarable name) (ha : a.leadsToFunction) :
    a.naming name ≠ b.display ++ " " ++ name := by
  intro h
  obtain ⟨front, back, hfront, -, hnamed⟩ := display_around name a ha
  have hchars := congrArg String.toList h
  simp only [hnamed, String.toList_append, List.append_assoc, List.cons_append,
    List.nil_append] at hchars
  by_cases hb : b.leadsToFunction
  · obtain ⟨front', back', hfront', hplain', -⟩ := display_around name b hb
    simp only [hplain', List.append_assoc, List.cons_append, List.nil_append] at hchars
    obtain ⟨-, hrest⟩ := Text.cut_at_first hfront hfront' hchars
    cases hcs : name.toList with
    | nil => exact hname.nonempty (String.toList_injective hcs)
    | cons c cs =>
      have hc : c = ')' := by
        rw [hcs] at hrest
        exact (List.cons.inj (List.cons.inj hrest).2).1
      exact hname.noClose (by simp [hcs, hc])
  · have hplain := no_paren_of_plain b (Bool.eq_false_iff.mpr hb)
    have hmem : '(' ∈ b.display.toList ++ (" ".toList ++ name.toList) := by
      rw [← hchars]
      simp
    simp [hplain, hname.noOpen] at hmem

theorem declaring_injective (hname : IsDeclarable name)
    (h : declaring name a = declaring name b) : a = b := by
  unfold declaring at h
  by_cases ha : a.isFunction
  · have ha' := leadsToFunction_of_isFunction ha
    by_cases hb : b.isFunction
    · simp only [ha, hb, if_true] at h
      exact naming_injective ha' (leadsToFunction_of_isFunction hb) h
    · simp only [ha, hb, if_true] at h
      exact absurd h (naming_ne_plain hname ha')
  · by_cases hb : b.isFunction
    · simp only [ha, hb, if_true] at h
      exact absurd h.symm (naming_ne_plain hname (leadsToFunction_of_isFunction hb))
    · simp only [ha, hb] at h
      refine display_injective (String.toList_injective ?_)
      have hchars := congrArg String.toList h
      simp only [Bool.false_eq_true, if_false, String.toList_append] at hchars
      exact List.append_cancel_right (List.append_cancel_right hchars)

end CType

/-- A node that a type is written at, with the type left open. -/
inductive TypePlace where
  | cast (value : NodeId)
  | function (name : String) (params : List NodeId) (defn : Option NodeId)
      (isStatic isInline : Bool)
  | symbol (name : String) (isConst : Bool)

namespace TypePlace

def node : TypePlace → CType → Node
  | .cast value, ty => .cast ty value
  | .function name params defn isStatic isInline, ty =>
    .function ty name params defn isStatic isInline
  | .symbol name isConst, ty => .symbol name (some ty) isConst

/-- How a type stands in the text of the node. -/
def written : TypePlace → CType → String
  | .symbol name _, ty => ty.declaring name
  | _, ty => ty.display

/-- A symbol has a name that declares it. -/
def IsDeclarable : TypePlace → Prop
  | .symbol name _ => CType.IsDeclarable name
  | _ => True

theorem written_injective {place : TypePlace} (hp : place.IsDeclarable) {a b : CType}
    (h : place.written a = place.written b) : a = b := by
  cases place with
  | cast | function => exact CType.display_injective h
  | symbol name isConst => exact CType.declaring_injective hp h

end TypePlace

namespace Renderer

variable {g : Renderer}

theorem spell_builtin (hb : g.registry = .builtin) (ty : CType) : g.spell ty = .ok ty.display := by
  rw [spell, hb, TypeRegistry.spell_builtin]

theorem declaration_builtin (hb : g.registry = .builtin) (ty : CType) (name : String) :
    g.declaration ty name = .ok (ty.declaring name) := by
  cases ty with
  | function result params => exact declaration_function hb result params name
  | scalar s => exact bind_eq_ok.mpr ⟨_, spell_builtin hb _, rfl⟩
  | pointer base => exact bind_eq_ok.mpr ⟨_, spell_builtin hb _, rfl⟩

/-- Around the type the text of a node does not depend on it. -/
theorem bare_around (hb : g.registry = .builtin) (place : TypePlace)
    {render : NodeId → Nat → Result} {id : NodeId} {indent : Nat} {ty : CType} {text : String}
    (h : g.bare render id (place.node ty) indent = .ok text) :
    ∃ front back : String, ∀ ty, g.bare render id (place.node ty) indent =
      .ok (front ++ place.written ty ++ back) := by
  cases place with
  | cast value =>
    obtain ⟨_, -, h⟩ := bind_eq_ok.mp h
    obtain ⟨inner, hinner, -⟩ := bind_eq_ok.mp h
    refine ⟨"(", ") " ++ inner, fun ty => ?_⟩
    refine bind_eq_ok.mpr ⟨_, spell_builtin hb ty, bind_eq_ok.mpr ⟨inner, hinner, ?_⟩⟩
    simp [TypePlace.written, String.append_assoc, pure, Except.pure]
  | function name params defn isStatic isInline =>
    obtain ⟨args, hargs, h⟩ := bind_eq_ok.mp h
    obtain ⟨_, -, h⟩ := bind_eq_ok.mp h
    let front := (if isStatic then "static " else "") ++ (if isInline then "inline " else "")
    cases defn with
    | none =>
      refine ⟨front, " " ++ name ++ "(" ++ args ++ ")", fun ty => ?_⟩
      refine bind_eq_ok.mpr ⟨args, hargs, bind_eq_ok.mpr ⟨_, spell_builtin hb ty, ?_⟩⟩
      simp [TypePlace.written, front, String.append_assoc, pure, Except.pure]
    | some defn =>
      obtain ⟨body, hbody, -⟩ := bind_eq_ok.mp h
      refine ⟨front, " " ++ name ++ "(" ++ args ++ ")" ++ " " ++ body, fun ty => ?_⟩
      refine bind_eq_ok.mpr ⟨args, hargs, bind_eq_ok.mpr ⟨_, spell_builtin hb ty, ?_⟩⟩
      refine bind_eq_ok.mpr ⟨body, hbody, ?_⟩
      simp [TypePlace.written, front, String.append_assoc, pure, Except.pure]
  | symbol name isConst =>
    refine ⟨if isConst then "const " else "", "", fun ty => ?_⟩
    refine bind_eq_ok.mpr ⟨_, declaration_builtin hb ty name, ?_⟩
    cases isConst <;> simp [TypePlace.written, pure, Except.pure]

theorem bare_ne (hb : g.registry = .builtin) {place : TypePlace} (hp : place.IsDeclarable)
    {a b : CType} (hne : a ≠ b) (render : NodeId → Nat → Result) (id : NodeId) (indent : Nat)
    {text : String} (h : g.bare render id (place.node a) indent = .ok text) :
    g.bare render id (place.node b) indent ≠ .ok text := by
  intro h'
  obtain ⟨front, back, haround⟩ := bare_around hb place h
  have htext : front ++ place.written a ++ back = front ++ place.written b ++ back :=
    Except.ok.inj (((haround a).symm.trans h).trans (h'.symm.trans (haround b)))
  refine hne (place.written_injective hp (String.toList_injective ?_))
  have hchars := congrArg String.toList htext
  simp only [String.toList_append] at hchars
  exact List.append_cancel_left (List.append_cancel_right hchars)

end Renderer

namespace TypeRegistry

/-- The built-in registry spells every type, as it is shown, and no two types alike. Nor is a node
that a type is written at rendered alike with two types. -/
theorem spelling_separates_types (a b : CType) :
    builtin.spell a = .ok a.display ∧
    (a ≠ b → builtin.spell a ≠ builtin.spell b) ∧
    (a ≠ b → ∀ (g : Renderer) (place : TypePlace), g.registry = .builtin → place.IsDeclarable →
      ∀ render id indent text, g.bare render id (place.node a) indent = .ok text →
        g.bare render id (place.node b) indent ≠ .ok text) := by
  refine ⟨spell_builtin a, fun hne heq => ?_, ?_⟩
  · rw [spell_builtin, spell_builtin] at heq
    exact hne (CType.display_injective (Except.ok.inj heq))
  · exact fun hne g place hb hp render id indent text h =>
      Renderer.bare_ne hb hp hne render id indent h

theorem function_pointer_spelled_apart :
    CType.pointer (.function (.scalar .int) []) ≠ .function (.pointer (.scalar .int)) [] ∧
    builtin.spell (.pointer (.function (.scalar .int) [])) = .ok "int (*)()*" ∧
    builtin.spell (.pointer (.function (.scalar .int) [])) ≠
      builtin.spell (.function (.pointer (.scalar .int)) []) ∧
    Renderer.bare ⟨.empty, .builtin, .empty⟩ (fun _ _ => .ok "") 0
      (.symbol "f" (some (.function (.pointer (.scalar .int)) [])) false) 0 ≠
        .ok "int (*)()* f" := by
  have hne : CType.pointer (.function (.scalar .int) []) ≠ .function (.pointer (.scalar .int)) [] :=
    nofun
  obtain ⟨hspell, hapart, hrendered⟩ := spelling_separates_types
    (.pointer (.function (.scalar .int) [])) (.function (.pointer (.scalar .int)) [])
  refine ⟨hne, hspell, hapart hne, ?_⟩
  have hname : CType.IsDeclarable "f" := ⟨by decide, by decide, by decide⟩
  exact hrendered hne ⟨.empty, .builtin, .empty⟩ (.symbol "f" false) rfl hname _ 0 0 _ rfl

end TypeRegistry
end Arbor
