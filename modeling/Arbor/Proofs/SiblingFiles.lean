import Arbor.Proofs.UnitFiles

/-!
Files beside one another.

The path of a file with another name in its place means a file of the same directory. The directory
is read off the path from the end, and what adds nothing to it is dropped on the way: slashes and
single dots. What is left is another text, but it means the same directory.
-/
namespace Arbor

namespace Path

theorem trimTail_eq_self {c : Char} (hslash : c ≠ '/') (hdot : c ≠ '.') (cs : List Char) :
    trimTail (c :: cs) = c :: cs := by
  unfold trimTail
  split
  · simp_all
  · simp_all
  · rfl

end Path

namespace Disk

variable {d d' : Disk} {directory file : String} {home place : Place}

theorem home_append_slash {xs : List Char} (hne : xs ≠ []) :
    d.Home (String.ofList (xs ++ ['/'])) home ↔ d.Home (String.ofList xs) home := by
  have hparts : parts (String.ofList (xs ++ ['/'])) = parts (String.ofList xs) ++ [""] := by
    simp only [parts, String.toList_ofList]
    rw [Text.cutAt_append (by rfl)]
    simp [Text.cutAt]
  have habs : Path.isAbsolute (String.ofList (xs ++ ['/'])) =
      Path.isAbsolute (String.ofList xs) := by
    obtain ⟨c, cs, rfl⟩ := List.exists_cons_of_ne_nil hne
    simp [Path.isAbsolute]
  rw [home_iff (Or.inr hparts), home_iff (Or.inl rfl), habs]

theorem home_append_dot (xs : List Char) :
    d.Home (String.ofList (xs ++ ['/', '.'])) home ↔ d.Home (String.ofList (xs ++ ['/'])) home := by
  have hparts : ∀ ys : List Char, (∀ c ∈ ys, (c == '/') = false) →
      parts (String.ofList (xs ++ '/' :: ys)) = parts (String.ofList xs) ++ [String.ofList ys] := by
    intro ys hys
    simp only [parts, String.toList_ofList]
    rw [Text.cutAt_append (by rfl), Text.cutAt_eq_single hys]
    simp
  have habs : Path.isAbsolute (String.ofList (xs ++ ['/', '.'])) =
      Path.isAbsolute (String.ofList (xs ++ ['/'])) := by
    cases xs <;> simp [Path.isAbsolute]
  have hstep : ∀ q, d.resolveFrom q ["."] = d.resolveFrom q [""] := by
    intro q
    simp [resolveFrom]
  have hdot := hparts ['.'] (by simp)
  have hslash := hparts [] (by simp)
  rw [home_iff (Or.inl hdot), home_iff (Or.inl hslash), habs, resolveFrom_append,
    resolveFrom_append]
  have hdots : String.ofList ['.'] = "." := rfl
  have hnone : String.ofList [] = "" := rfl
  simp only [hdots, hnone, hstep]

theorem home_trimTail (cs : List Char) :
    d.Home (String.ofList (Path.trimTail cs).reverse) home ↔
      d.Home (String.ofList cs.reverse) home := by
  fun_induction Path.trimTail cs with
  | case1 c rest ih =>
    rw [ih, ← home_append_slash (by simp), ← List.reverse_cons]
  | case2 rest ih =>
    rw [ih]
    simp only [List.reverse_cons, List.append_assoc, List.cons_append, List.nil_append]
    rw [home_append_dot]
  | case3 => rfl

/-- A path that names are put behind: it is empty, or a slash ends it. -/
theorem join_nothing (directory : String) :
    (Path.join directory "").toList = [] ∨ ∃ xs, (Path.join directory "").toList = xs ++ ['/'] := by
  have hempty : Path.isAbsolute "" = false := rfl
  simp only [Path.join, hempty, Bool.false_eq_true, if_false]
  split
  · next h =>
    rcases Bool.or_eq_true_iff.mp h with he | hslash
    · exact Or.inl (by simp [eq_empty_of_isEmpty he])
    · obtain ⟨xs, hxs⟩ := List.getLast?_eq_some_iff.mp (of_decide_eq_true hslash)
      exact Or.inr ⟨xs, by simp [hxs]⟩
  · exact Or.inr ⟨directory.toList, by simp⟩

theorem home_join_nothing : d.Home (Path.join directory "") home ↔ d.Home directory home := by
  have hempty : Path.isAbsolute "" = false := rfl
  simp only [Path.join, hempty, Bool.false_eq_true, if_false]
  split
  · simp
  · next h =>
    have hne : directory.toList ≠ [] := by
      intro hnil
      simp [String.toList_eq_nil_iff.mp hnil] at h
    have hslash : d.Home (String.ofList (directory.toList ++ ['/'])) home ↔
        d.Home directory home := by
      rw [home_append_slash hne, String.ofList_toList]
    rw [← hslash]
    have he : directory ++ "/" ++ "" = String.ofList (directory.toList ++ ['/']) := by
      apply String.toList_injective
      simp
    rw [he]

def stem (directory : String) : String :=
  String.ofList (Path.trimTail (Path.join directory "").toList.reverse).reverse

theorem home_stem : d.Home (stem directory) home ↔ d.Home directory home := by
  rw [stem, home_trimTail, List.reverse_reverse, String.ofList_toList, home_join_nothing]

section Siblings

variable {front : List Char} {last : Char} (hf : IsFileName file)
  (hlast : file.toList = front ++ [last]) (hdot : last ≠ '.')

include hf hlast hdot

theorem trimTail_join : Path.trimTail (Path.join directory file).toList.reverse =
    file.toList.reverse ++ (Path.join directory "").toList.reverse := by
  have hslash : last ≠ '/' := by
    have := hf.noSlash last (by simp [hlast])
    simpa using this
  rw [join_eq_append directory hf, String.toList_append, List.reverse_append, hlast,
    List.reverse_append, List.reverse_singleton, List.singleton_append, List.cons_append]
  exact Path.trimTail_eq_self hslash hdot _

theorem cutLast_join : Path.cutLast (Path.trimTail (Path.join directory file).toList.reverse) =
    (file.toList, (Path.join directory "").toList.reverse) := by
  have hname : ∀ c ∈ file.toList.reverse, (c != '/') = true := by
    intro c hc
    simpa using hf.noSlash c (List.mem_reverse.mp hc)
  rw [trimTail_join hf hlast hdot, Path.cutLast, List.takeWhile_append_of_pos hname,
    List.dropWhile_append_of_pos hname]
  rcases join_nothing directory with he | ⟨xs, he⟩ <;> simp [he]

theorem fileName?_join : Path.fileName? (Path.join directory file) = some file := by
  simp only [Path.fileName?, cutLast_join hf hlast hdot, String.ofList_toList, hf.nonempty,
    hf.notHere, hf.notUp]
  simp

theorem parent?_join : Path.parent? (Path.join directory file) = some (stem directory) := by
  have htail := @trimTail_join directory _ _ _ hf hlast hdot
  have hslash : last ≠ '/' := by
    have := hf.noSlash last (by simp [hlast])
    simpa using this
  unfold Path.parent?
  split
  · next h => simp [htail, hlast] at h
  · next h => simp [htail, hlast, hslash] at h
  · rw [cutLast_join hf hlast hdot, stem]

theorem withFileName_join (other : String) :
    Path.withFileName (Path.join directory file) other = Path.join (stem directory) other := by
  rw [Path.withFileName, fileName?_join hf hlast hdot, parent?_join hf hlast hdot]
  rfl

end Siblings

theorem read_iff {path text : String} : d.read path = .ok text ↔
    ∃ place, d.resolve path = .ok place ∧ d.entryAt? place = some (.file text) := by
  rw [read_eq_ok, lookup?]
  cases d.resolve path with
  | error e => simp
  | ok place => simp

/-- A second name is given to a file where nothing is yet, and nothing else changes. -/
theorem link_spec {path second : String} (h : d.link path second = .ok d') :
    ∃ text place, d.read path = .ok text ∧ d.resolve second = .ok place ∧
      d.entryAt? place = none ∧ Alters (· = place) d d' ∧ d'.entryAt? place = some (.file text) := by
  obtain ⟨_, -, h⟩ := bind_eq_ok.mp h
  obtain ⟨text, hread, h⟩ := bind_eq_ok.mp h
  obtain ⟨place, hr, h⟩ := bind_eq_ok.mp h
  refine ⟨text, place, hread, hr, ?_⟩
  split at h
  · cases h
  · next hnone =>
    have hnone : d.entryAt? place = none := by simpa using hnone
    have hd : d.entryAt? place ≠ some .directory := by simp [hnone]
    cases h
    refine ⟨hnone, ⟨rfl, (put_alters hd).kept, (put_alters hd).directories⟩, ?_⟩
    exact (entryAt?_put (ne_nil_of_entryAt? hd) place).trans (if_pos rfl)

theorem link_ok {path second text : String} (hread : d.read path = .ok text)
    (hr : d.resolve second = .ok place) (hnone : d.entryAt? place = none) :
    ∃ d', d.link path second = .ok d' := by
  obtain ⟨source, hsource, -⟩ := bind_eq_ok.mp hread
  simp [link, hsource, hread, hr, hnone, bind, Except.bind]

end Disk
end Arbor
