import Arbor.Text.Blank
import Mathlib.Data.List.TakeWhile

/-!
Cutting and trimming of text.

A separator parts the pieces before it from those after it, so that further separators next to it
change no word. Trimming takes white space off the end and nothing else.
-/
namespace Arbor

namespace Text

variable {sep : Char → Bool}

theorem cutAt_ne_nil (cs : List Char) : cutAt sep cs ≠ [] := by
  cases cs with
  | nil => simp [cutAt]
  | cons c cs =>
    simp only [cutAt]
    split
    · simp
    · split <;> simp

theorem cutAt_append {c : Char} (hc : sep c) (xs ys : List Char) :
    cutAt sep (xs ++ c :: ys) = cutAt sep xs ++ cutAt sep ys := by
  induction xs with
  | nil => simp [cutAt, hc]
  | cons x xs ih =>
    simp only [List.cons_append, cutAt, ih]
    split
    · rfl
    · cases hx : cutAt sep xs with
      | nil => exact absurd hx (cutAt_ne_nil xs)
      | cons piece pieces => rfl

theorem cutAt_eq_single {cs : List Char} (h : ∀ c ∈ cs, sep c = false) : cutAt sep cs = [cs] := by
  induction cs with
  | nil => rfl
  | cons c cs ih =>
    obtain ⟨hc, hcs⟩ := List.forall_mem_cons.mp h
    simp [cutAt, hc, ih hcs]

/-- Two texts are cut alike at a sign that neither has before it. -/
theorem cut_at_first {c : Char} {xs xs' ys ys' : List Char} (hx : c ∉ xs) (hx' : c ∉ xs')
    (h : xs ++ c :: ys = xs' ++ c :: ys') : xs = xs' ∧ ys = ys' := by
  have front_eq : ∀ zs ws : List Char, c ∉ zs → (zs ++ c :: ws).takeWhile (· != c) = zs := by
    intro zs ws hz
    have hall : ∀ d ∈ zs, (d != c) = true := fun d hd => bne_iff_ne.mpr (ne_of_mem_of_not_mem hd hz)
    rw [List.takeWhile_append_of_pos hall]
    simp
  obtain rfl : xs = xs' := by rw [← front_eq xs ys hx, h, front_eq xs' ys' hx']
  exact ⟨rfl, by simpa using h⟩

theorem dropBlankEnd_append {xs ys : List Char} (hy : ∀ c ∈ ys, isBlank c) :
    dropBlankEnd (xs ++ ys) = dropBlankEnd xs := by
  unfold dropBlankEnd
  rw [List.reverse_append, List.dropWhile_append_of_pos]
  simpa using hy

theorem trim_append_blank {xs ys : List Char} (hy : ∀ c ∈ ys, isBlank c) :
    dropBlankEnd ((xs ++ ys).dropWhile isBlank) = dropBlankEnd (xs.dropWhile isBlank) := by
  rw [List.dropWhile_append]
  split
  · next hx => rw [List.dropWhile_eq_nil_iff.mpr hy, List.isEmpty_iff.mp hx]
  · exact dropBlankEnd_append hy

theorem append_blank_eq (cs : List Char) :
    ∃ ys, (∀ c ∈ ys, isBlank c) ∧ cs = dropBlankEnd cs ++ ys := by
  refine ⟨(cs.reverse.takeWhile isBlank).reverse, fun c hc => ?_, ?_⟩
  · exact List.mem_takeWhile_imp (List.mem_reverse.mp hc)
  · rw [dropBlankEnd, ← List.reverse_append, List.takeWhile_append_dropWhile, List.reverse_reverse]

theorem trim_of_no_blank {cs : List Char} (h : ∀ c ∈ cs, isBlank c = false) :
    dropBlankEnd (cs.dropWhile isBlank) = cs := by
  have keep : ∀ cs : List Char, (∀ c ∈ cs, isBlank c = false) → cs.dropWhile isBlank = cs := by
    intro cs h
    refine List.dropWhile_eq_self_iff.mpr fun hl => ?_
    simp [h _ (List.getElem_mem hl)]
  rw [keep cs h, dropBlankEnd, keep cs.reverse fun c hc => h c (List.mem_reverse.mp hc),
    List.reverse_reverse]

def wordsBy (sep : Char → Bool) (cs : List Char) : List (List Char) :=
  (cutAt sep cs).filter fun piece => !piece.isEmpty

theorem wordsBy_append {c : Char} (hc : sep c) (xs ys : List Char) :
    wordsBy sep (xs ++ c :: ys) = wordsBy sep xs ++ wordsBy sep ys := by
  rw [wordsBy, cutAt_append hc, List.filter_append]
  rfl

theorem wordsBy_separators_append {gap : List Char} (h : ∀ c ∈ gap, sep c) (cs : List Char) :
    wordsBy sep (gap ++ cs) = wordsBy sep cs := by
  induction gap with
  | nil => rfl
  | cons c gap ih =>
    obtain ⟨hc, hgap⟩ := List.forall_mem_cons.mp h
    rw [← ih hgap]
    exact wordsBy_append hc [] (gap ++ cs)

theorem wordsBy_append_of_getLast? {xs : List Char} (h : ∀ c ∈ xs.getLast?, sep c)
    (ys : List Char) : wordsBy sep (xs ++ ys) = wordsBy sep xs ++ wordsBy sep ys := by
  rcases List.eq_nil_or_concat xs with rfl | ⟨front, c, rfl⟩
  · rfl
  · have hc : sep c := h c (by simp)
    rw [List.concat_eq_append, List.append_assoc, List.singleton_append, wordsBy_append hc,
      wordsBy_append hc front []]
    simp [wordsBy, cutAt]

theorem not_sep_of_mem_cutAt {cs piece : List Char} (h : piece ∈ cutAt sep cs) {c : Char}
    (hc : c ∈ piece) : sep c = false := by
  induction cs generalizing piece with
  | nil => simp_all [cutAt]
  | cons d cs ih =>
    simp only [cutAt] at h
    split at h
    · rcases List.mem_cons.mp h with rfl | h
      · simp at hc
      · exact ih h hc
    · next hd =>
      cases hcut : cutAt sep cs with
      | nil => exact absurd hcut (cutAt_ne_nil cs)
      | cons first others =>
        rw [hcut] at h
        rcases List.mem_cons.mp h with rfl | h
        · rcases List.mem_cons.mp hc with rfl | hc
          · simpa using hd
          · exact ih (hcut ▸ List.mem_cons_self) hc
        · exact ih (hcut ▸ List.mem_cons_of_mem _ h) hc

theorem mem_cutAt_of_mem_lines {s line : String} (h : line ∈ lines s) :
    ∃ piece ∈ cutAt (· == '\n') s.toList, line.toList = piece ∨ line.toList = dropReturn piece := by
  unfold lines at h
  split at h
  · simp at h
  · next last earlier hrev =>
    have hmem : ∀ piece ∈ last :: earlier, piece ∈ cutAt (· == '\n') s.toList := by
      intro piece hp
      rw [← hrev] at hp
      exact List.mem_reverse.mp hp
    obtain ⟨cs, hcs, rfl⟩ := List.mem_map.mp h
    rw [String.toList_ofList]
    have hlast : cs = last ∨ ∃ piece ∈ earlier, dropReturn piece = cs := by
      split at hcs <;> simp_all [or_comm]
    rcases hlast with rfl | ⟨piece, hp, rfl⟩
    · exact ⟨cs, hmem cs List.mem_cons_self, .inl rfl⟩
    · exact ⟨piece, hmem piece (List.mem_cons_of_mem _ hp), .inr rfl⟩

theorem newline_notMem_of_mem_lines {s line : String} (h : line ∈ lines s) :
    '\n' ∉ line.toList := by
  obtain ⟨piece, hp, hline⟩ := mem_cutAt_of_mem_lines h
  have hpiece : '\n' ∉ piece := fun hn => by simpa using not_sep_of_mem_cutAt hp hn
  rcases hline with hline | hline
  · rwa [hline]
  · rw [hline, dropReturn]
    split
    · exact fun hn => hpiece (List.dropLast_subset piece hn)
    · exact hpiece

theorem mem_of_mem_dropBlankEnd {cs : List Char} {c : Char} (h : c ∈ dropBlankEnd cs) : c ∈ cs := by
  have := (List.dropWhile_sublist isBlank).mem (List.mem_reverse.mp h)
  exact List.mem_reverse.mp this

theorem dropBlankEnd_cons (c : Char) (cs : List Char) :
    dropBlankEnd (c :: cs) =
      if dropBlankEnd cs = [] ∧ isBlank c then [] else c :: dropBlankEnd cs := by
  simp only [dropBlankEnd, List.reverse_cons, List.dropWhile_append, List.isEmpty_iff,
    List.reverse_eq_nil_iff]
  split <;> cases hc : isBlank c <;> simp_all [List.dropWhile]

end Text

end Arbor
