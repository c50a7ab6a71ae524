import Arbor.Proofs.Cutting
import Mathlib.Data.List.Induction

/-!
Line splicing and comment removal in C text.

A backslash in front of a newline joins two lines. Then a text is read character by character, in
one of a few regions: code, a comment, a literal. A comment becomes one space, and the newline
behind a line comment stays. `TextRegion.Yields` says what a piece of text gives and where it
leaves the reader, whatever follows; pieces that fit are read one after the other. Newlines are
line feeds, and trigraphs are not read.
-/
namespace Arbor

/-- The text with every backslash in front of a newline removed, the newline with it. -/
def splice : List Char → List Char
  | [] => []
  | [c] => [c]
  | c :: d :: rest => if c = '\\' ∧ d = '\n' then splice rest else c :: splice (d :: rest)

/-- What the characters read so far have begun. -/
inductive TextRegion where
  | code
  /-- Behind a slash that may open a comment. -/
  | slash
  | line
  | block
  /-- In a block comment, behind a star that may close it. -/
  | star
  | literal (quote : Char)
  /-- In a literal, behind a backslash. -/
  | escape (quote : Char)
  deriving DecidableEq, Repr

namespace TextRegion

def next : TextRegion → Char → TextRegion
  | .code, c =>
    if c = '/' then .slash else if c = '"' ∨ c = '\'' then .literal c else .code
  | .slash, c =>
    if c = '/' then .line else if c = '*' then .block
    else if c = '"' ∨ c = '\'' then .literal c else .code
  | .line, c => if c = '\n' then .code else .line
  | .block, c => if c = '*' then .star else .block
  | .star, c => if c = '/' then .code else if c = '*' then .star else .block
  | .literal quote, c =>
    if c = quote ∨ c = '\n' then .code else if c = '\\' then .escape quote else .literal quote
  | .escape quote, c => if c = '\n' then .code else .literal quote

def emits : TextRegion → Char → List Char
  | .code, c => if c = '/' then [] else [c]
  | .slash, c => if c = '/' ∨ c = '*' then [' '] else ['/', c]
  | .line, c => if c = '\n' then [c] else []
  | .block, _ | .star, _ => []
  | .literal _, c | .escape _, c => [c]

/-- What is still to be added at the end of the text. -/
def held : TextRegion → List Char
  | .slash => ['/']
  | _ => []

def after (r : TextRegion) (cs : List Char) : TextRegion := cs.foldl next r

/-- What a text adds as long as its end is not the end of the whole. -/
def output : TextRegion → List Char → List Char
  | _, [] => []
  | r, c :: cs => r.emits c ++ output (r.next c) cs

/-- The text without its comments, read from `r` on. -/
def uncommented (r : TextRegion) (cs : List Char) : List Char := r.output cs ++ (r.after cs).held

@[simp] theorem after_nil (r : TextRegion) : r.after [] = r := rfl

@[simp] theorem after_cons (r : TextRegion) (c : Char) (cs : List Char) :
    r.after (c :: cs) = (r.next c).after cs := rfl

theorem after_append (r : TextRegion) (xs ys : List Char) :
    r.after (xs ++ ys) = (r.after xs).after ys :=
  List.foldl_append

theorem output_append (r : TextRegion) (xs ys : List Char) :
    r.output (xs ++ ys) = r.output xs ++ (r.after xs).output ys := by
  induction xs generalizing r with
  | nil => rfl
  | cons x xs ih => simp [output, ih]

theorem uncommented_append (r : TextRegion) (xs ys : List Char) :
    r.uncommented (xs ++ ys) = r.output xs ++ (r.after xs).uncommented ys := by
  simp [uncommented, output_append, after_append]

theorem emits_newline {r : TextRegion} (h : r.next '\n' = .code) :
    ∃ front, r.emits '\n' = front ++ ['\n'] := by
  cases r with
  | code => exact ⟨[], rfl⟩
  | slash => exact ⟨['/'], rfl⟩
  | line => exact ⟨[], rfl⟩
  | block => simp [next] at h
  | star => simp [next] at h
  | literal quote => exact ⟨[], rfl⟩
  | escape quote => exact ⟨[], rfl⟩

theorem after_line {cs : List Char} (h : '\n' ∉ cs) : TextRegion.line.after cs = .line := by
  induction cs with
  | nil => rfl
  | cons c cs ih =>
    simp only [List.mem_cons, not_or] at h
    rw [after_cons, next, if_neg (Ne.symm h.1), ih h.2]

theorem output_line {cs : List Char} (h : '\n' ∉ cs) : TextRegion.line.output cs = [] := by
  induction cs with
  | nil => rfl
  | cons c cs ih =>
    simp only [List.mem_cons, not_or] at h
    rw [output, emits, if_neg (Ne.symm h.1), next, if_neg (Ne.symm h.1), ih h.2]
    rfl

theorem after_spaces (width : Nat) (cs : List Char) :
    TextRegion.code.after (List.replicate width ' ' ++ cs) = TextRegion.code.after cs := by
  induction width with
  | zero => rfl
  | succ width ih => exact ih

theorem output_spaces (width : Nat) (cs : List Char) :
    TextRegion.code.output (List.replicate width ' ' ++ cs) =
      List.replicate width ' ' ++ TextRegion.code.output cs := by
  induction width with
  | zero => rfl
  | succ width ih => exact congrArg (' ' :: ·) ih

theorem next_eq_line {r : TextRegion} {c : Char} (h : r.next c = .line) :
    r.emits c = [' '] ∨ r = .line ∧ r.emits c = [] := by
  cases r with
  | slash =>
    left
    simp only [next] at h
    split at h
    · next hc => simp [emits, hc]
    · split at h
      · simp at h
      · split at h <;> simp at h
  | line =>
    right
    simp only [next] at h
    split at h
    · simp at h
    · next hc => simp [emits, hc]
  | _ =>
    simp only [next] at h
    repeat' split at h
    all_goals simp at h

theorem output_of_after_line {r : TextRegion} {cs : List Char} (hr : r ≠ .line)
    (h : r.after cs = .line) : ∃ front, r.output cs = front ++ [' '] := by
  induction cs using List.reverseRecOn with
  | nil => exact absurd h hr
  | append_singleton cs c ih =>
    rw [after_append] at h
    rw [output_append]
    have hlast : (r.after cs).output [c] = (r.after cs).emits c := List.append_nil _
    rw [hlast]
    rcases next_eq_line h with hspace | ⟨hline, hnone⟩
    · exact ⟨r.output cs, by rw [hspace]⟩
    · obtain ⟨front, hfront⟩ := ih hline
      exact ⟨front, by rw [hnone, hfront, List.append_nil]⟩

end TextRegion

theorem splice_append {xs : List Char} (h : xs.getLast? ≠ some '\\') (ys : List Char) :
    splice (xs ++ ys) = splice xs ++ splice ys := by
  fun_induction splice xs with
  | case1 => rfl
  | case2 c =>
    have hc : c ≠ '\\' := by simpa using h
    cases ys with
    | nil => simp [splice]
    | cons d ys => simp [splice, hc]
  | case3 c d rest hcd ih =>
    have hrest : rest.getLast? ≠ some '\\' := by
      cases rest with
      | nil => simp
      | cons e rest => simpa using h
    simp [splice, hcd, ih hrest]
  | case4 c d rest hcd ih =>
    have hrest : (d :: rest).getLast? ≠ some '\\' := by simpa using h
    simpa [splice, hcd] using ih hrest

theorem splice_cons_of_ne {d : Char} (h : d ≠ '\n') (c : Char) (rest : List Char) :
    splice (c :: d :: rest) = c :: splice (d :: rest) := by
  simp [splice, h]

theorem splice_eq_self {xs : List Char} (h : '\n' ∉ xs) : splice xs = xs := by
  induction xs with
  | nil => rfl
  | cons c xs ih =>
    simp only [List.mem_cons, not_or] at h
    cases xs with
    | nil => rfl
    | cons d xs =>
      have hd : d ≠ '\n' := fun hd => h.2 (hd ▸ List.mem_cons_self)
      rw [splice_cons_of_ne hd, ih h.2]

theorem splice_carried {xs : List Char} (h : '\n' ∉ xs) (rest : List Char) :
    splice (xs ++ '\\' :: '\n' :: rest) = xs ++ splice rest := by
  induction xs with
  | nil => simp [splice]
  | cons c xs ih =>
    simp only [List.mem_cons, not_or] at h
    cases xs with
    | nil => exact (splice_cons_of_ne (by decide) c _).trans (congrArg (c :: ·) (ih h.2))
    | cons d xs =>
      have hd : d ≠ '\n' := fun hd => h.2 (hd ▸ List.mem_cons_self)
      exact (splice_cons_of_ne hd c _).trans (congrArg (c :: ·) (ih h.2))

/-- The text as a compiler takes it up: lines joined, comments removed. -/
def program (text : List Char) : List Char := TextRegion.code.uncommented (splice text)

/-- Read from `r` on, the text gives `out` and leaves the reader in `r'`, whatever follows. -/
def TextRegion.Yields (r : TextRegion) (text out : List Char) (r' : TextRegion) : Prop :=
  ∀ rest, r.uncommented (splice (text ++ rest)) = out ++ r'.uncommented (splice rest)

namespace TextRegion.Yields

variable {r m r' : TextRegion} {xs ys out out' : List Char}

theorem nil : r.Yields [] [] r := fun _ => rfl

theorem append (hx : r.Yields xs out m) (hy : m.Yields ys out' r') :
    r.Yields (xs ++ ys) (out ++ out') r' := by
  intro rest
  rw [List.append_assoc, hx, hy, List.append_assoc]

theorem of_getLast? (h : xs.getLast? ≠ some '\\') (r : TextRegion) :
    r.Yields xs (r.output (splice xs)) (r.after (splice xs)) := by
  intro rest
  rw [splice_append h, TextRegion.uncommented_append]

theorem of_line (h : '\n' ∉ xs) (hlast : xs.getLast? ≠ some '\\') (r : TextRegion) :
    r.Yields (xs ++ ['\n']) (r.output xs ++ (r.after xs).emits '\n') ((r.after xs).next '\n') := by
  have hline : r.Yields xs (r.output xs) (r.after xs) := by
    simpa only [splice_eq_self h] using of_getLast? hlast r
  have hnewline : (r.after xs).Yields ['\n'] _ _ := of_getLast? (by decide) (r.after xs)
  simpa [splice, TextRegion.output, TextRegion.after] using hline.append hnewline

theorem of_carried (h : '\n' ∉ xs) (r : TextRegion) :
    r.Yields (xs ++ ['\\', '\n']) (r.output xs) (r.after xs) := by
  intro rest
  have hsplice := splice_carried h rest
  rw [List.append_assoc, List.cons_append, List.cons_append, List.nil_append, hsplice,
    TextRegion.uncommented_append]

end TextRegion.Yields

def IsGap (cs : List Char) : Prop := ∀ c ∈ cs, c = ' ' ∨ c = '\n'

theorem isGap_newline : IsGap ['\n'] := by simp [IsGap]

theorem isGap_spaces (width : Nat) : IsGap (List.replicate width ' ') :=
  fun _ hc => .inl (List.mem_replicate.mp hc).2

theorem IsGap.append {xs ys : List Char} (hx : IsGap xs) (hy : IsGap ys) : IsGap (xs ++ ys) :=
  List.forall_mem_append.mpr ⟨hx, hy⟩

def commentLine (width : Nat) (body : List Char) : List Char :=
  List.replicate width ' ' ++ '/' :: '/' :: body ++ ['\n']

/-- Where a comment with the given body leaves the reader: a backslash at its end takes the
newline away, and the comment goes on with the next line. -/
def behind (body : List Char) : TextRegion :=
  if body.getLast? = some '\\' then .line else .code

theorem behind_code_or_line (body : List Char) : behind body = .code ∨ behind body = .line := by
  unfold behind
  split
  · exact .inr rfl
  · exact .inl rfl

theorem newline_notMem_marked (width : Nat) {body : List Char} (h : '\n' ∉ body) :
    '\n' ∉ List.replicate width ' ' ++ '/' :: '/' :: body := by
  simp [List.mem_replicate, h]

theorem marked_gap {r : TextRegion} (hr : r = .code ∨ r = .line) (width : Nat) {body : List Char}
    (hbody : '\n' ∉ body) :
    r.after (List.replicate width ' ' ++ '/' :: '/' :: body) = .line ∧
      IsGap (r.output (List.replicate width ' ' ++ '/' :: '/' :: body)) := by
  rcases hr with rfl | rfl
  · rw [TextRegion.after_spaces, TextRegion.output_spaces]
    refine ⟨TextRegion.after_line hbody, ?_⟩
    have hmarks : TextRegion.code.output ('/' :: '/' :: body) = [' '] :=
      congrArg (' ' :: ·) (TextRegion.output_line hbody)
    rw [hmarks]
    exact (isGap_spaces width).append (isGap_spaces 1)
  · have hall := newline_notMem_marked width hbody
    rw [TextRegion.after_line hall, TextRegion.output_line hall]
    exact ⟨rfl, by simp [IsGap]⟩

theorem yields_commentLine {r : TextRegion} (hr : r = .code ∨ r = .line) (width : Nat)
    {body : List Char} (hbody : '\n' ∉ body) :
    ∃ gap, IsGap gap ∧ r.Yields (commentLine width body) gap (behind body) := by
  unfold behind commentLine
  by_cases hlast : body.getLast? = some '\\'
  · obtain ⟨front, rfl⟩ := List.getLast?_eq_some_iff.mp hlast
    have hfront : '\n' ∉ front := fun h => hbody (List.mem_append_left _ h)
    obtain ⟨hafter, hgap⟩ := marked_gap hr width hfront
    have hyields := TextRegion.Yields.of_carried (newline_notMem_marked width hfront) r
    rw [hafter] at hyields
    rw [if_pos hlast]
    exact ⟨_, hgap, by simpa using hyields⟩
  · obtain ⟨hafter, hgap⟩ := marked_gap hr width hbody
    have hend : (List.replicate width ' ' ++ '/' :: '/' :: body).getLast? ≠ some '\\' := by
      cases body <;> simp_all [List.getLast?_append, List.getLast?_cons]
    have hyields := TextRegion.Yields.of_line (newline_notMem_marked width hbody) hend r
    rw [hafter] at hyields
    rw [if_neg hlast]
    exact ⟨_, hgap.append isGap_newline, hyields⟩

theorem yields_commentLines {r : TextRegion} (hr : r = .code ∨ r = .line) (width : Nat)
    {bodies : List (List Char)} (h : ∀ body ∈ bodies, '\n' ∉ body) :
    ∃ gap, IsGap gap ∧
      r.Yields (bodies.flatMap (commentLine width)) gap ((bodies.getLast?.map behind).getD r) := by
  induction bodies generalizing r with
  | nil => exact ⟨[], by simp [IsGap], TextRegion.Yields.nil⟩
  | cons body bodies ih =>
    obtain ⟨hbody, hbodies⟩ := List.forall_mem_cons.mp h
    obtain ⟨gap, hgap, hyields⟩ := yields_commentLine hr width hbody
    obtain ⟨gap', hgap', hyields'⟩ := ih (behind_code_or_line body) hbodies
    refine ⟨gap ++ gap', hgap.append hgap', ?_⟩
    rw [List.flatMap_cons, List.getLast?_cons]
    cases hlast : bodies.getLast? with
    | none =>
      rw [hlast] at hyields'
      exact hyields.append hyields'
    | some last =>
      rw [hlast] at hyields'
      exact hyields.append hyields'

theorem yields_blankLine {r : TextRegion} (hr : r = .code ∨ r = .line) (width : Nat) :
    ∃ gap, IsGap gap ∧ r.Yields (List.replicate width ' ' ++ ['\n']) gap .code := by
  have hspaces : '\n' ∉ List.replicate width ' ' := by simp [List.mem_replicate]
  have hend : (List.replicate width ' ').getLast? ≠ some '\\' := by
    cases width <;> simp [List.getLast?_replicate]
  have hyields := TextRegion.Yields.of_line hspaces hend r
  rcases hr with rfl | rfl
  · have hafter : TextRegion.code.after (List.replicate width ' ') = .code := by
      simpa using TextRegion.after_spaces width []
    have houtput : TextRegion.code.output (List.replicate width ' ') = List.replicate width ' ' := by
      simpa [TextRegion.output] using TextRegion.output_spaces width []
    rw [hafter, houtput] at hyields
    exact ⟨_, (isGap_spaces width).append isGap_newline, hyields⟩
  · rw [TextRegion.after_line hspaces, TextRegion.output_line hspaces] at hyields
    exact ⟨['\n'], isGap_newline, hyields⟩

def EndsLine (cs : List Char) : Prop :=
  cs = [] ∨ ∃ line, cs = line ++ ['\n'] ∧ line.getLast? ≠ some '\\'

/-- A text that ends in code at the end of a line, or in a line comment that goes on behind it: no
token, literal or block comment reaches beyond its end. -/
structure EndsIn (front : List Char) (r : TextRegion) : Prop where
  after_eq : TextRegion.code.after (splice front) = r
  code_or_line : r = .code ∧ EndsLine front ∨ r = .line

namespace EndsIn

variable {front : List Char} {r : TextRegion}

theorem region (h : EndsIn front r) : r = .code ∨ r = .line :=
  h.code_or_line.imp_left And.left

theorem output_gap (h : EndsIn front r) :
    ∀ c ∈ (TextRegion.code.output (splice front)).getLast?, c = ' ' ∨ c = '\n' := by
  rcases h.code_or_line with ⟨rfl, rfl | ⟨line, rfl, hline⟩⟩ | rfl
  · simp [splice, TextRegion.output]
  · have hsplice : splice (line ++ ['\n']) = splice line ++ ['\n'] := splice_append hline _
    have hback := h.after_eq
    rw [hsplice, TextRegion.after_append] at hback
    obtain ⟨before, hnewline⟩ := TextRegion.emits_newline hback
    rw [hsplice, TextRegion.output_append]
    simp [TextRegion.output, hnewline]
  · obtain ⟨before, hspace⟩ := TextRegion.output_of_after_line (by decide) h.after_eq
    simp [hspace]

/-- The words of a longer text: those of the front, and those of the rest read from where the
front ends. -/
theorem words_append (h : EndsIn front r) (hlast : front.getLast? ≠ some '\\')
    {blank : Char → Bool} (hblank : ∀ c, c = ' ' ∨ c = '\n' → blank c) (back : List Char) :
    Text.wordsBy blank (program (front ++ back)) =
      Text.wordsBy blank (program front) ++ Text.wordsBy blank (r.uncommented (splice back)) := by
  have hheld : r.held = [] := by
    rcases h.region with rfl | rfl <;> rfl
  have hfront : program front = TextRegion.code.output (splice front) := by
    rw [program, TextRegion.uncommented, h.after_eq, hheld, List.append_nil]
  have hyields := TextRegion.Yields.of_getLast? hlast .code back
  rw [h.after_eq] at hyields
  rw [program, hyields, hfront]
  exact Text.wordsBy_append_of_getLast? (fun c hc => hblank c (h.output_gap c hc)) _

theorem words_insert {text gap : List Char} {r' : TextRegion} (h : EndsIn front r)
    (hlast : front.getLast? ≠ some '\\') (hgap : IsGap gap) (hyields : r.Yields text gap r')
    {blank : Char → Bool} (hblank : ∀ c, c = ' ' ∨ c = '\n' → blank c) (back : List Char) :
    Text.wordsBy blank (program (front ++ (text ++ back))) =
      Text.wordsBy blank (program front) ++ Text.wordsBy blank (r'.uncommented (splice back)) := by
  rw [h.words_append hlast hblank, hyields back,
    Text.wordsBy_separators_append fun c hc => hblank c (hgap c hc)]

end EndsIn

end Arbor
