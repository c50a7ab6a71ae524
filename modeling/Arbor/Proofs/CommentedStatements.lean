import Arbor.Proofs.Grammar.Comments
import Arbor.Proofs.Sequences
import Arbor.Render.Source

/-!
Comments among statements.

Every line of a comment is set off by its own marks, so a comment gives nothing but spaces and
newlines, and the statements around it are read as they are without it. There is one exception:
where the last line of the comment ends in a backslash, the comment goes on with the statement
behind it.
-/
namespace Arbor

/-- Whether the last line of a comment ends in a backslash, white space aside. -/
def carriesOn (text : String) : Bool :=
  (Text.lines text).getLast?.any fun line => (Text.trimEnd line).toList.getLast? = some '\\'

/-- Where a comment leaves the reader. -/
def behindComment (text : String) : TextRegion := if carriesOn text then .line else .code

/-- The text behind the two marks on a line of a comment. -/
def commentBody (line : String) : List Char := Text.dropBlankEnd (' ' :: line.toList)

theorem newline_notMem_commentBody {text line : String} (h : line ∈ Text.lines text) :
    '\n' ∉ commentBody line := by
  intro hn
  rcases List.mem_cons.mp (Text.mem_of_mem_dropBlankEnd hn) with hspace | hline
  · exact absurd hspace (by decide)
  · exact Text.newline_notMem_of_mem_lines h hline

theorem behind_commentBody (line : String) :
    behind (commentBody line) =
      if (Text.trimEnd line).toList.getLast? = some '\\' then .line else .code := by
  rw [behind, commentBody, Text.dropBlankEnd_cons, Text.trimEnd, String.toList_ofList]
  cases hend : Text.dropBlankEnd line.toList with
  | nil => simp [show Text.isBlank ' ' = true by decide]
  | cons c cs => simp

theorem toList_commentLine (line : String) :
    (Text.trimEnd ("// " ++ line)).toList = '/' :: '/' :: commentBody line := by
  have hmark : Text.isBlank '/' = false := by decide
  have hchars : ("// " ++ line).toList = '/' :: '/' :: ' ' :: line.toList := by simp
  rw [Text.trimEnd, String.toList_ofList, hchars, Text.dropBlankEnd_cons, Text.dropBlankEnd_cons]
  simp [hmark, commentBody]

def commentText (text : String) (indent : Nat) : String :=
  indentation indent ++ Renderer.commentLines text indent ++ "\n"

theorem append_intercalate (start : List Char) (c : Char) {lines : List (List Char)}
    (h : lines ≠ []) :
    start ++ (c :: start).intercalate lines ++ [c] =
      lines.flatMap fun line => start ++ line ++ [c] := by
  induction lines with
  | nil => exact absurd rfl h
  | cons line lines ih =>
    cases lines with
    | nil => simp [List.intercalate]
    | cons next lines =>
      rw [List.flatMap_cons, ← ih (by simp)]
      simp [List.intercalate]

theorem toList_commentText (text : String) (indent : Nat) :
    (commentText text indent).toList =
      if Text.lines text = [] then List.replicate (4 * indent) ' ' ++ ['\n']
      else ((Text.lines text).map commentBody).flatMap (commentLine (4 * indent)) := by
  have hlines : ((Text.lines text).map fun line => Text.trimEnd ("// " ++ line)).map String.toList =
      (Text.lines text).map fun line => '/' :: '/' :: commentBody line := by
    simp [toList_commentLine]
  have hchars : (commentText text indent).toList =
      List.replicate (4 * indent) ' ' ++ ('\n' :: List.replicate (4 * indent) ' ').intercalate
        ((Text.lines text).map fun line => '/' :: '/' :: commentBody line) ++ ['\n'] := by
    rw [← hlines]
    simp [commentText, Renderer.commentLines, indentation, String.toList_intercalate]
  rw [hchars]
  split
  · next hnone => simp [hnone, List.intercalate]
  · next hsome =>
    rw [append_intercalate _ _ (by simpa using hsome), List.flatMap_map, List.flatMap_map]
    simp [commentLine]

theorem yields_commentText {r : TextRegion} (hr : r = .code ∨ r = .line) (text : String)
    (indent : Nat) :
    ∃ gap, IsGap gap ∧ r.Yields (commentText text indent).toList gap (behindComment text) := by
  rw [toList_commentText, behindComment, carriesOn]
  split
  · next hnone =>
    rw [hnone]
    exact yields_blankLine hr (4 * indent)
  · next hsome =>
    have hbodies : ∀ body ∈ (Text.lines text).map commentBody, '\n' ∉ body := by
      intro body hbody
      obtain ⟨line, hline, rfl⟩ := List.mem_map.mp hbody
      exact newline_notMem_commentBody hline
    obtain ⟨gap, hgap, hyields⟩ := yields_commentLines hr (4 * indent) hbodies
    refine ⟨gap, hgap, ?_⟩
    rw [List.getLast?_map] at hyields
    cases hlast : (Text.lines text).getLast? with
    | none => exact absurd (List.getLast?_eq_none_iff.mp hlast) hsome
    | some last =>
      rw [hlast] at hyields
      simpa [behind_commentBody] using hyields

namespace Renderer

variable {g : Renderer} {id : NodeId} {text : String}

theorem statements_append (before after : List NodeId) (indent : Nat) :
    g.statements (before ++ after) indent = (do
      let front ← g.statements before indent
      let back ← g.statements after indent
      return front ++ back) := by
  induction before with
  | nil =>
    change _ = g.statements after indent >>= fun back => pure ("" ++ back)
    simp
  | cons id before ih =>
    simp only [statements] at ih
    simp only [statements, List.cons_append, statementLines, ih, bind_assoc, pure_bind,
      String.append_assoc]

theorem getLast?_statements {ids : List NodeId} {indent : Nat}
    (h : g.statements ids indent = .ok text) : text.toList.getLast? ≠ some '\\' := by
  induction ids generalizing text with
  | nil => simp [← Except.ok.inj h]
  | cons id ids ih =>
    obtain ⟨own, -, h⟩ := bind_eq_ok.mp h
    obtain ⟨node, -, h⟩ := bind_eq_ok.mp h
    obtain ⟨others, hothers, h⟩ := bind_eq_ok.mp h
    have hrest := ih hothers
    rw [← Except.ok.inj h, String.toList_append, String.toList_append, List.getLast?_append]
    cases hlast : others.toList.getLast? with
    | none => simp
    | some c =>
      rw [hlast] at hrest
      exact hrest

theorem node_comment (hid : g.tree.get? id = some (.comment text)) :
    g.node id = .ok (.comment text) := by
  simp [node, Tree.node, hid]

theorem renderTo_comment (hid : g.tree.get? id = some (.comment text)) (depth indent : Nat) :
    g.renderTo (depth + 1) id indent = .ok (commentLines text indent) := by
  rw [renderTo, node_comment hid]
  rfl

theorem statements_comment (hid : g.tree.get? id = some (.comment text)) (after : List NodeId)
    (indent : Nat) :
    g.statements (id :: after) indent = (do
      let back ← g.statements after indent
      return commentText text indent ++ back) := by
  rw [statements, statementLines, depthBound, renderTo_comment hid, node_comment hid]
  change (g.statements after indent >>= fun back => pure (indentation indent ++
    commentLines text indent ++ "" ++ "\n" ++ back)) = _
  simp [commentText]

/-- A comment among statements. It fails no rendering. Behind statements that end with their line
or in a comment it adds no words of its own, and what comes behind it is read from code, or from
inside the comment where its last line ends in a backslash. The words are those of the statements
without the comment just when that makes no difference. -/
theorem comment_swallows_nothing_iff (hid : g.tree.get? id = some (.comment text))
    (before after : List NodeId) (indent : Nat) :
    (∀ e, g.statements (before ++ id :: after) indent = .error e ↔
      g.statements (before ++ after) indent = .error e) ∧
    ∀ front back, g.statements before indent = .ok front → g.statements after indent = .ok back →
      g.statements (before ++ after) indent = .ok (front ++ back) ∧
      ∃ whole, g.statements (before ++ id :: after) indent = .ok whole ∧
        ∀ r, EndsIn front.toList r →
          ∀ blank : Char → Bool, (∀ c, c = ' ' ∨ c = '\n' → blank c) →
            Text.wordsBy blank (program whole.toList) =
              Text.wordsBy blank (program front.toList) ++
                Text.wordsBy blank ((behindComment text).uncommented (splice back.toList)) ∧
            (Text.wordsBy blank (program whole.toList) =
                Text.wordsBy blank (program (front ++ back).toList) ↔
              Text.wordsBy blank ((behindComment text).uncommented (splice back.toList)) =
                Text.wordsBy blank (r.uncommented (splice back.toList))) := by
  rw [statements_append, statements_append, statements_comment hid]
  refine ⟨fun e => ?_, fun front back hfront hback => ?_⟩
  · cases g.statements before indent with
    | error e' => rfl
    | ok front =>
      cases g.statements after indent with
      | error e' => rfl
      | ok back => simp [bind, Except.bind, pure, Except.pure]
  · rw [hfront, hback]
    refine ⟨rfl, front ++ (commentText text indent ++ back), rfl, ?_⟩
    intro r hr blank hblank
    have hlast := getLast?_statements hfront
    obtain ⟨gap, hgap, hyields⟩ := yields_commentText hr.region text indent
    have hwhole := hr.words_insert hlast hgap hyields hblank back.toList
    rw [String.toList_append, String.toList_append, String.toList_append, hwhole]
    exact ⟨rfl, by rw [hr.words_append hlast hblank, List.append_cancel_left_eq]⟩

/-- A comment of two lines, the first with a backslash at its end and the second with marks that
would open another comment and a literal, between two jumps. -/
def jumps : Renderer :=
  ⟨⟨#[⟨.breakLoop, none⟩, ⟨.comment "up \\\n /* \"down", none⟩, ⟨.continueLoop, none⟩], 0⟩, .empty,
    .empty⟩

theorem wrapped_comment_swallows_nothing :
    jumps.statements [0, 1, 2] 0 = .ok "break;\n// up \\\n//  /* \"down\ncontinue;\n" ∧
      Text.wordsBy Text.isBlank
        (program "break;\n// up \\\n//  /* \"down\ncontinue;\n".toList) =
      Text.wordsBy Text.isBlank (program "break;\ncontinue;\n".toList) := by
  have hwhole : jumps.statements [0, 1, 2] 0 =
      .ok "break;\n// up \\\n//  /* \"down\ncontinue;\n" := by rfl
  have hfront : EndsIn "break;\n".toList .code :=
    ⟨by decide, .inl ⟨rfl, .inr ⟨"break;".toList, by decide, by decide⟩⟩⟩
  have hblank : ∀ c, c = ' ' ∨ c = '\n' → Text.isBlank c := by
    rintro c (rfl | rfl) <;> decide
  have hcomment : jumps.tree.get? 1 = some (.comment "up \\\n /* \"down") := by rfl
  obtain ⟨-, hwords⟩ := comment_swallows_nothing_iff hcomment [0] [2] 0
  obtain ⟨-, whole, hok, hwords⟩ := hwords "break;\n" "continue;\n" (by rfl) (by rfl)
  obtain rfl := Except.ok.inj (hok.symm.trans hwhole)
  exact ⟨hwhole, (hwords .code hfront _ hblank).2.mpr (by decide +kernel)⟩

/-- A comment that ends in a path, before a jump. -/
def pathNote : Renderer :=
  ⟨⟨#[⟨.comment "see C:\\", none⟩, ⟨.breakLoop, none⟩], 0⟩, .empty, .empty⟩

theorem comment_swallows_statement :
    pathNote.statements [0, 1] 0 = .ok "// see C:\\\nbreak;\n" ∧
      pathNote.statements [1] 0 = .ok "break;\n" ∧
      Text.wordsBy Text.isBlank (program "// see C:\\\nbreak;\n".toList) = [] ∧
      Text.wordsBy Text.isBlank (program "break;\n".toList) = ["break;".toList] := by
  decide +kernel

end Renderer

end Arbor
