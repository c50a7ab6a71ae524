import Arbor.Proofs.Rendering

/-!
Which declarator of a function type takes the name.

A declaration puts its name into the first `(*)` of the spelled type. The spelling of a function
type begins with that of its result, so that the first `(*)` is its own only where the result is
spelled without one. A result that is a function type, or points to one, has the name put into
itself instead, as far inside as results lead.
-/
namespace Arbor

section Replacing

variable {c : Char} {mark new front rest : List Char}

theorem replaceFirst?_skip (h : c ∉ front) :
    replaceFirst? (c :: mark) new (front ++ rest) =
      (replaceFirst? (c :: mark) new rest).map (front ++ ·) := by
  induction front with
  | nil => simp
  | cons d front ih =>
    obtain ⟨hne, h⟩ := not_or.mp (List.mem_cons.not.mp h)
    have hno : (c :: mark).isPrefixOf (d :: (front ++ rest)) = false := by
      simp [List.isPrefixOf, hne]
    rw [List.cons_append, replaceFirst?, hno, ih h]
    simp [Function.comp_def]

theorem replaceFirst?_here :
    replaceFirst? (c :: mark) new (c :: mark ++ rest) = some (new ++ rest) := by
  rw [List.cons_append, replaceFirst?, if_pos (by simp), ← List.cons_append, List.drop_left]

end Replacing

namespace CType

def leadsToFunction : CType → Bool
  | .scalar _ => false
  | .pointer base => base.leadsToFunction
  | .function _ _ => true

/-- The type with a name in the function type that is furthest inside its results. -/
def naming (name : String) : CType → String
  | .scalar s => s.keyword
  | .pointer base => base.naming name ++ "*"
  | .function result params =>
    if result.leadsToFunction then
      result.naming name ++ " (*)(" ++ ", ".intercalate (displayAll params) ++ ")"
    else
      result.display ++ " (*" ++ name ++ ")(" ++ ", ".intercalate (displayAll params) ++ ")"

theorem no_paren_of_plain : (ty : CType) → ty.leadsToFunction = false → '(' ∉ ty.display.toList
  | .scalar s, _ => by
    have hall : Scalar.all.all fun s => !s.keyword.toList.contains '(' := by decide
    have hs : s ∈ Scalar.all := by cases s <;> decide
    simpa [display] using List.all_eq_true.mp hall s hs
  | .pointer base, h => by
    simpa [display] using no_paren_of_plain base h

theorem display_around (name : String) : (ty : CType) → ty.leadsToFunction →
    ∃ front back, '(' ∉ front ∧ ty.display.toList = front ++ ['(', '*', ')'] ++ back ∧
      (ty.naming name).toList = front ++ ['(', '*'] ++ name.toList ++ [')'] ++ back
  | .pointer base, h => by
    obtain ⟨front, back, hfront, hplain, hnamed⟩ := display_around name base h
    refine ⟨front, back ++ ['*'], hfront, ?_, ?_⟩
    · simp [display, hplain]
    · simp [naming, hnamed]
  | .function result params, _ => by
    let behind := '(' :: (", ".intercalate (displayAll params)).toList ++ [')']
    by_cases hr : result.leadsToFunction
    · obtain ⟨front, back, hfront, hplain, hnamed⟩ := display_around name result hr
      refine ⟨front, back ++ " (*)".toList ++ behind, hfront, ?_, ?_⟩
      · simp [display, hplain, behind]
      · simp [naming, hr, hnamed, behind]
    · have hplain := no_paren_of_plain result (Bool.eq_false_iff.mpr hr)
      refine ⟨result.display.toList ++ [' '], behind, ?_, ?_, ?_⟩
      · simpa using hplain
      · simp [display, behind]
      · simp [naming, hr, behind]

/-- The name is seen to stand elsewhere: where it begins, the other text has the parenthesis that
closes `(*)`. -/
theorem naming_ne_own {result : CType} {name : String} (params : List CType)
    (hr : result.leadsToFunction) (hne : name ≠ "") (hname : ')' ∉ name.toList) :
    (function result params).naming name ≠
      result.display ++ " (*" ++ name ++ ")(" ++ ", ".intercalate (displayAll params) ++ ")" := by
  obtain ⟨front, back, -, hplain, hnamed⟩ := display_around name result hr
  intro heq
  cases hcs : name.toList with
  | nil => exact hne (String.toList_injective hcs)
  | cons c cs =>
    have hchars := congrArg String.toList heq
    simp only [naming, hr, if_true, String.toList_append, hplain, hnamed, hcs,
      List.append_assoc] at hchars
    have hrest := List.append_cancel_left hchars
    have hc : c = ')' := by
      simp only [List.cons_append, List.nil_append, List.cons.injEq, true_and] at hrest
      exact hrest.1
    rw [hcs, hc] at hname
    exact hname List.mem_cons_self

end CType

namespace Renderer

variable {g : Renderer}

theorem declaration_function (hb : g.registry = .builtin) (result : CType) (params : List CType)
    (name : String) :
    g.declaration (.function result params) name =
      .ok ((CType.function result params).naming name) := by
  obtain ⟨front, back, hfront, hplain, hnamed⟩ :=
    CType.display_around name (.function result params) rfl
  have hspelled : g.spell (.function result params) = .ok (CType.function result params).display := by
    rw [Renderer.spell, hb, TypeRegistry.spell_builtin]
  have hfound : replaceFirst? "(*)".toList ("(*" ++ name ++ ")").toList
      (CType.function result params).display.toList =
        some ((CType.function result params).naming name).toList := by
    have hmark : "(*)".toList = ['(', '*', ')'] := rfl
    rw [hplain, hnamed, hmark, List.append_assoc, replaceFirst?_skip hfront, replaceFirst?_here]
    simp
  refine bind_eq_ok.mpr ⟨_, hspelled, ?_⟩
  simp only [CType.isFunction, if_true, hfound, String.ofList_toList]

theorem renderAt_typed {id : NodeId} {name : String} {ty : CType} {isConst : Bool} {text : String}
    (hn : g.tree.get? id = some (.symbol name (some ty) isConst)) (indent : Nat)
    (hd : g.declaration ty name = .ok text) :
    g.renderAt id indent = .ok (if isConst then "const " ++ text else text) := by
  have hnode : g.node id = .ok (.symbol name (some ty) isConst) := by
    rw [Renderer.node, Tree.node_eq_ok.mpr hn]
  have hparens : g.tree.needsParens id (.symbol name (some ty) isConst) = false := rfl
  refine bind_eq_ok.mpr ⟨_, hnode, bind_eq_ok.mpr ⟨_, bind_eq_ok.mpr ⟨_, hd, rfl⟩, ?_⟩⟩
  rw [hparens]
  rfl

/-- A symbol of a function type is always rendered, with its name in the declarator that is
furthest inside. This is the declarator of the type itself if and only if its result is no function
type and points to none, as far as a name can tell them apart. -/
theorem function_declaration_names (hb : g.registry = .builtin) {id : NodeId} {name : String}
    {result : CType} {params : List CType} {isConst : Bool}
    (hn : g.tree.get? id = some (.symbol name (some (.function result params)) isConst))
    (indent : Nat) :
    ∃ spelled args text, g.registry.spell result = .ok spelled ∧
      g.registry.spellAll params = .ok args ∧
      g.renderAt id indent = .ok (if isConst then "const " ++ text else text) ∧
      text = (CType.function result params).naming name ∧
      (¬ result.leadsToFunction →
        text = spelled ++ " (*" ++ name ++ ")(" ++ ", ".intercalate args ++ ")") ∧
      (result.leadsToFunction → name ≠ "" → ')' ∉ name.toList →
        text ≠ spelled ++ " (*" ++ name ++ ")(" ++ ", ".intercalate args ++ ")") := by
  refine ⟨_, _, _, ?_, ?_, renderAt_typed hn indent (declaration_function hb result params name),
    rfl, ?_, CType.naming_ne_own params⟩
  · rw [hb, TypeRegistry.spell_builtin]
  · rw [hb, TypeRegistry.spellAll_builtin]
  · intro hplain
    rw [CType.naming, if_neg hplain]

def callback : Node :=
  .symbol "callback" (some (.function (.pointer (.scalar .long))
    [.function (.scalar .int) [.scalar .float], .scalar .char])) true

theorem callback_named :
    Renderer.renderAt ⟨⟨#[⟨callback, none⟩], 0⟩, .builtin, .empty⟩ 0 0 =
      .ok "const long* (*callback)(int (*)(float), char)" ∧
    ∃ spelled args text, TypeRegistry.builtin.spell (.pointer (.scalar .long)) = .ok spelled ∧
      TypeRegistry.builtin.spellAll [.function (.scalar .int) [.scalar .float], .scalar .char] =
        .ok args ∧
      Renderer.renderAt ⟨⟨#[⟨callback, none⟩], 0⟩, .builtin, .empty⟩ 0 0 = .ok ("const " ++ text) ∧
      text = spelled ++ " (*" ++ "callback" ++ ")(" ++ ", ".intercalate args ++ ")" := by
  let g : Renderer := ⟨⟨#[⟨callback, none⟩], 0⟩, .builtin, .empty⟩
  have hn : g.tree.get? 0 = some callback := rfl
  obtain ⟨spelled, args, text, hspelled, hargs, hrender, -, hown, -⟩ :=
    Renderer.function_declaration_names rfl hn 0
  exact ⟨by decide +kernel, spelled, args, text, hspelled, hargs, hrender, hown nofun⟩

def maker : Node :=
  .symbol "maker" (some (.function (.function (.scalar .int) [.scalar .float]) [.scalar .long])) false

/-- The result comes first in the spelling and takes the name of the whole. -/
theorem result_takes_the_name :
    TypeRegistry.builtin.spell (.function (.scalar .int) [.scalar .float]) = .ok "int (*)(float)" ∧
    TypeRegistry.builtin.spellAll [.scalar .long] = .ok ["long"] ∧
    Renderer.render ⟨⟨#[⟨maker, none⟩], 0⟩, .builtin, .empty⟩ 0 =
      .ok "int (*maker)(float) (*)(long)" ∧
    Renderer.render ⟨⟨#[⟨maker, none⟩], 0⟩, .builtin, .empty⟩ 0 ≠
      .ok ("int (*)(float)" ++ " (*" ++ "maker" ++ ")(" ++ ", ".intercalate ["long"] ++ ")") := by
  decide +kernel

end Renderer
end Arbor
