import Arbor.Build.Cache
import Arbor.Proofs.Cutting
import Arbor.Proofs.Sequences

/-!
The files of a build directory as places on a disk.

A path to a file of a directory means the place of that name below the place of the directory, as
long as name and path are not too long. Writing or removing a file alters one place and no
directory, so that the other paths go on meaning what they meant.
-/
namespace Arbor

namespace Disk

structure IsFileName (file : String) : Prop where
  noSlash : ∀ c ∈ file.toList, (c == '/') = false
  nonempty : file.isEmpty = false
  notHere : file ≠ "."
  notUp : file ≠ ".."

theorem parts_append_slash (base file : String) (hf : IsFileName file) :
    parts (base ++ "/" ++ file) = parts base ++ [file] := by
  have hslash : ("/" : String).toList = ['/'] := rfl
  rw [parts, String.toList_append, String.toList_append, hslash, List.append_assoc,
    List.singleton_append, Text.cutAt_append (by rfl), Text.cutAt_eq_single hf.noSlash]
  simp [parts]

theorem not_absolute {file : String} (hf : IsFileName file) : Path.isAbsolute file = false := by
  unfold Path.isAbsolute
  cases hl : file.toList with
  | nil => rfl
  | cons c cs =>
    have hc := hf.noSlash c (by simp [hl])
    simpa using hc

theorem eq_empty_of_isEmpty {text : String} (h : text.isEmpty) : text = "" := by
  simpa using h

theorem parts_join (base : String) {file : String} (hf : IsFileName file) :
    ∃ init, parts (Path.join base file) = init ++ [file] ∧
      (parts base = init ∨ parts base = init ++ [""]) := by
  unfold Path.join
  rw [if_neg (by simp [not_absolute hf])]
  split
  · next h =>
    rcases Bool.or_eq_true_iff.mp h with he | hslash
    · rw [eq_empty_of_isEmpty he]
      refine ⟨[], ?_, Or.inr rfl⟩
      simp [parts, Text.cutAt_eq_single hf.noSlash]
    · obtain ⟨xs, hxs⟩ := List.getLast?_eq_some_iff.mp (of_decide_eq_true hslash)
      refine ⟨(Text.cutAt (· == '/') xs).map String.ofList, ?_, Or.inr ?_⟩
      · rw [parts, String.toList_append, hxs, List.append_assoc, List.singleton_append,
          Text.cutAt_append (by rfl), Text.cutAt_eq_single hf.noSlash]
        simp
      · rw [parts, hxs, Text.cutAt_append (by rfl)]
        simp [Text.cutAt]
  · exact ⟨parts base, parts_append_slash base file hf, Or.inl rfl⟩

theorem isAbsolute_join (base : String) {file : String} (hf : IsFileName file) :
    Path.isAbsolute (Path.join base file) = Path.isAbsolute base := by
  unfold Path.join
  rw [if_neg (by simp [not_absolute hf])]
  by_cases hb : base = ""
  · subst hb
    simp [not_absolute hf]
    rfl
  · obtain ⟨c, cs, hcs⟩ := List.exists_cons_of_ne_nil (mt String.toList_eq_nil_iff.mp hb)
    split <;> simp [Path.isAbsolute, hcs]

variable {d d' : Disk} {directory file : String} {home place : Place}

theorem resolveFrom_append (d : Disk) (place : Place) (ps qs : List String) :
    d.resolveFrom place (ps ++ qs) = d.resolveFrom place ps >>= fun q => d.resolveFrom q qs := by
  induction ps generalizing place with
  | nil => rfl
  | cons part ps ih =>
    simp only [List.cons_append, resolveFrom]
    split
    · rfl
    · rfl
    · split
      · exact ih place
      · split
        · exact ih _
        · split
          · rfl
          · exact ih _

theorem resolveFrom_file (hf : IsFileName file) {q : Place} :
    d.resolveFrom q [file] = .ok place ↔ d.entryAt? q = some .directory ∧
      file.utf8ByteSize ≤ longestName ∧ place = q ++ [file] := by
  cases hq : d.entryAt? q with
  | none => simp [resolveFrom, hq]
  | some entry =>
    cases entry with
    | file text => simp [resolveFrom, hq]
    | directory =>
      simp only [resolveFrom, hq, hf.nonempty, hf.notHere, hf.notUp, decide_false, Bool.or_false,
        Bool.false_eq_true, if_false, true_and]
      by_cases hl : longestName < file.utf8ByteSize
      · rw [if_pos hl]
        constructor
        · intro h
          cases h
        · rintro ⟨hle, -⟩
          omega
      · rw [if_neg hl, Except.ok.injEq]
        constructor
        · rintro rfl
          exact ⟨by omega, rfl⟩
        · rintro ⟨-, rfl⟩
          rfl

theorem resolveFrom_nothing {q : Place} :
    d.resolveFrom q [""] = .ok place ∧ d.entryAt? place = some .directory ↔
      q = place ∧ d.entryAt? place = some .directory := by
  cases hq : d.entryAt? q with
  | none =>
    simp only [resolveFrom, hq, reduceCtorEq, false_and, false_iff]
    rintro ⟨rfl, h⟩
    cases hq.symm.trans h
  | some entry =>
    cases entry with
    | file text =>
      simp only [resolveFrom, hq, reduceCtorEq, false_and, false_iff]
      rintro ⟨rfl, h⟩
      cases hq.symm.trans h
    | directory => simp [resolveFrom, hq]

/-- The directory that a path means, which files are joined to. -/
structure Home (d : Disk) (directory : String) (home : Place) : Prop where
  resolves : d.resolveFrom (if Path.isAbsolute directory then [] else d.current)
    (parts directory) = .ok home
  isDirectory : d.entryAt? home = some .directory

/-- A file of the directory whose name and path are not too long, whatever is on the disk. -/
structure Fits (directory file : String) : Prop where
  noNul : (Path.join directory file).toList.contains (Char.ofNat 0) = false
  path : (Path.join directory file).utf8ByteSize ≤ longestPath
  name : file.utf8ByteSize ≤ longestName

theorem home_iff {init : List String}
    (hi : parts directory = init ∨ parts directory = init ++ [""]) :
    d.Home directory home ↔
      d.resolveFrom (if Path.isAbsolute directory then [] else d.current) init = .ok home ∧
        d.entryAt? home = some .directory := by
  have home_eq : d.Home directory home ↔
      d.resolveFrom (if Path.isAbsolute directory then [] else d.current) (parts directory) =
        .ok home ∧ d.entryAt? home = some .directory :=
    ⟨fun h => ⟨h.resolves, h.isDirectory⟩, fun h => ⟨h.1, h.2⟩⟩
  rw [home_eq]
  rcases hi with hi | hi
  · rw [hi]
  · rw [hi, resolveFrom_append, bind_eq_ok]
    constructor
    · rintro ⟨⟨q, hq, hr⟩, hd⟩
      obtain ⟨rfl, -⟩ := resolveFrom_nothing.mp ⟨hr, hd⟩
      exact ⟨hq, hd⟩
    · rintro ⟨hr, hd⟩
      exact ⟨⟨home, hr, (resolveFrom_nothing.mpr ⟨rfl, hd⟩).1⟩, hd⟩

theorem join_nonempty (directory : String) (hf : IsFileName file) :
    (Path.join directory file).isEmpty = false := by
  have hne : file ≠ "" := by
    rintro rfl
    cases hf.nonempty
  unfold Path.join
  rw [if_neg (by simp [not_absolute hf])]
  split <;> simp [hne]

theorem join_eq_append (directory : String) (hf : IsFileName file) :
    Path.join directory file = Path.join directory "" ++ file := by
  have hempty : Path.isAbsolute "" = false := rfl
  simp only [Path.join, not_absolute hf, hempty, Bool.false_eq_true, if_false]
  split <;> simp

theorem resolve_join_iff (hf : IsFileName file) :
    d.resolve (Path.join directory file) = .ok place ↔
      Fits directory file ∧ ∃ home, d.Home directory home ∧ place = home ++ [file] := by
  obtain ⟨init, hparts, hbase⟩ := parts_join directory hf
  unfold resolve
  rw [if_neg (by simp [join_nonempty directory hf]), isAbsolute_join directory hf, hparts,
    resolveFrom_append]
  constructor
  · intro h
    split at h
    · cases h
    · next hnul =>
      split at h
      · cases h
      · next hlong =>
        obtain ⟨q, hq, hr⟩ := bind_eq_ok.mp h
        obtain ⟨hd, hname, rfl⟩ := (resolveFrom_file hf).mp hr
        refine ⟨⟨by simpa using hnul, by omega, hname⟩, q, ?_, rfl⟩
        exact (home_iff hbase).mpr ⟨hq, hd⟩
  · rintro ⟨hfits, home, hh, rfl⟩
    obtain ⟨hr, hd⟩ := (home_iff hbase).mp hh
    rw [hfits.noNul, if_neg (by simp), if_neg (by have := hfits.path; omega), bind_eq_ok]
    exact ⟨home, hr, (resolveFrom_file hf).mpr ⟨hd, hfits.name, rfl⟩⟩

/-- A path that is too long, or cannot be passed on, is an error of its own. -/
theorem resolve_join_error (hf : IsFileName file) (hh : d.Home directory home)
    (hn : ¬ Fits directory file) :
    ∃ e, d.resolve (Path.join directory file) = .error e ∧ e ≠ .notFound := by
  obtain ⟨init, hparts, hbase⟩ := parts_join directory hf
  obtain ⟨hr, hd⟩ := (home_iff hbase).mp hh
  unfold resolve
  rw [if_neg (by simp [join_nonempty directory hf]), isAbsolute_join directory hf, hparts,
    resolveFrom_append]
  split
  · exact ⟨_, rfl, by decide⟩
  · next hnul =>
    split
    · exact ⟨_, rfl, by decide⟩
    · next hlong =>
      have hname : longestName < file.utf8ByteSize := by
        by_contra hle
        exact hn ⟨by simpa using hnul, by omega, by omega⟩
      refine ⟨.nameTooLong, ?_, by decide⟩
      rw [hr]
      change d.resolveFrom home [file] = _
      simp [resolveFrom, hd, hf.nonempty, hf.notHere, hf.notUp, hname]

/-- What was at the places of `P` may have changed, but directories have not, and nothing else. -/
structure Alters (P : Place → Prop) (d d' : Disk) : Prop where
  current : d'.current = d.current
  kept : ∀ p, ¬ P p → d'.entryAt? p = d.entryAt? p
  directories : ∀ p, d'.entryAt? p = some .directory ↔ d.entryAt? p = some .directory

namespace Alters

variable {P Q : Place → Prop} {d'' : Disk}

theorem refl (P : Place → Prop) (d : Disk) : Alters P d d :=
  ⟨rfl, fun _ _ => rfl, fun _ => Iff.rfl⟩

theorem trans (h : Alters P d d') (k : Alters P d' d'') : Alters P d d'' :=
  ⟨k.current.trans h.current, fun p hp => (k.kept p hp).trans (h.kept p hp),
    fun p => (k.directories p).trans (h.directories p)⟩

theorem symm (h : Alters P d d') : Alters P d' d :=
  ⟨h.current.symm, fun p hp => (h.kept p hp).symm, fun p => (h.directories p).symm⟩

theorem mono (h : Alters P d d') (hpq : ∀ p, P p → Q p) : Alters Q d d' :=
  ⟨h.current, fun p hp => h.kept p fun hp' => hp (hpq p hp'), h.directories⟩

theorem resolveFrom (h : Alters P d d') {place q : Place} {ps : List String}
    (hr : d.resolveFrom place ps = .ok q) : d'.resolveFrom place ps = .ok q := by
  induction ps generalizing place with
  | nil => exact hr
  | cons part ps ih =>
    simp only [Disk.resolveFrom] at hr ⊢
    split at hr
    · cases hr
    · cases hr
    · next hd =>
      rw [(h.directories place).mpr hd]
      simp only
      split at hr
      · next hp => rw [if_pos hp]; exact ih hr
      · next hp =>
        rw [if_neg hp]
        split at hr
        · next hp => rw [if_pos hp]; exact ih hr
        · next hp =>
          rw [if_neg hp]
          split at hr
          · cases hr
          · next hp => rw [if_neg hp]; exact ih hr

theorem resolve (h : Alters P d d') {path : String} {place : Place}
    (hr : d.resolve path = .ok place) : d'.resolve path = .ok place := by
  unfold Disk.resolve at hr ⊢
  rw [h.current]
  split at hr
  · cases hr
  · next hempty =>
    rw [if_neg hempty]
    split at hr
    · cases hr
    · next hnul =>
      rw [if_neg hnul]
      split at hr
      · cases hr
      · next hlong =>
        rw [if_neg hlong]
        exact h.resolveFrom hr

theorem sameHome (h : Alters P d d') (hh : d.Home directory home) : d'.Home directory home := by
  refine ⟨?_, (h.directories home).mpr hh.isDirectory⟩
  rw [h.current]
  exact h.resolveFrom hh.resolves

end Alters

theorem entryAt?_put {entry : DiskEntry} (hp : place ≠ []) (p : Place) :
    (d.put place entry).entryAt? p = if p = place then some entry else d.entryAt? p := by
  unfold entryAt? put
  by_cases he : p = place
  · subst he
    simp [hp]
  · simp [he, Table.get?_set_other _ _ he]

theorem ne_nil_of_entryAt? (h : d.entryAt? place ≠ some .directory) : place ≠ [] := by
  rintro rfl
  exact h rfl

theorem put_alters {text : String} (h : d.entryAt? place ≠ some .directory) :
    Alters (· = place) d (d.put place (.file text)) := by
  have hne := ne_nil_of_entryAt? h
  refine ⟨rfl, fun p hp => ?_, fun p => ?_⟩
  · rw [entryAt?_put hne, if_neg hp]
  · rw [entryAt?_put hne]
    split
    · next he =>
      subst he
      simp [h]
    · rfl

theorem write_spec {path text : String} (h : d.write path text = .ok d') :
    ∃ place, d.resolve path = .ok place ∧ Alters (· = place) d d' ∧
      d'.entryAt? place = some (.file text) := by
  obtain ⟨place, hr, hw⟩ := bind_eq_ok.mp h
  refine ⟨place, hr, ?_⟩
  split at hw
  · cases hw
  · next hd =>
    cases hw
    refine ⟨put_alters hd, ?_⟩
    rw [entryAt?_put (ne_nil_of_entryAt? hd), if_pos rfl]

theorem write_only {path text : String} (h : d.write path text = .ok d') :
    Alters (fun p => d.resolve path = .ok p) d d' ∧ d'.exists? path := by
  obtain ⟨place, hr, halters, hentry⟩ := write_spec h
  refine ⟨halters.mono fun p hp => hp ▸ hr, ?_⟩
  simp [exists?, lookup?, halters.resolve hr, hentry]

theorem read_eq_ok {path text : String} :
    d.read path = .ok text ↔ d.lookup? path = some (.file text) := by
  unfold read lookup?
  cases hr : d.resolve path with
  | error e => simp [bind, Except.bind]
  | ok place =>
    simp only [bind, Except.bind]
    cases d.entryAt? place with
    | none => simp
    | some entry => cases entry <;> simp

theorem entryAt?_erase (he : d'.entries = d.entries.erase place) (hp : place ≠ []) (p : Place) :
    d'.entryAt? p = if p = place then none else d.entryAt? p := by
  unfold entryAt?
  rw [he]
  by_cases hq : p = place
  · subst hq
    simp [hp]
  · simp [hq, Table.get?_erase_other _ hq]

theorem remove_spec {path : String} (h : d.remove path = .ok d') :
    ∃ place, d.resolve path = .ok place ∧ Alters (· = place) d d' ∧ d'.entryAt? place = none := by
  obtain ⟨place, hr, hw⟩ := bind_eq_ok.mp h
  refine ⟨place, hr, ?_⟩
  split at hw
  · next text hf =>
    have hd := Except.ok.inj hw
    have hentries : d'.entries = d.entries.erase place := by rw [← hd]
    have hne : place ≠ [] := ne_nil_of_entryAt? (d := d) (by simp [hf])
    have herase := entryAt?_erase hentries hne
    refine ⟨⟨by rw [← hd], fun p hp => ?_, fun p => ?_⟩, ?_⟩
    · rw [herase, if_neg hp]
    · rw [herase]
      split
      · next he =>
        subst he
        simp [hf]
      · rfl
    · rw [herase, if_pos rfl]
  · cases hw
  · cases hw

theorem removeIfPresent_spec {path : String} (h : d.removeIfPresent path = .ok d') :
    (d' = d ∧ d.remove path = .error .notFound) ∨ d.remove path = .ok d' := by
  unfold removeIfPresent at h
  split at h
  · next he =>
    cases h
    exact Or.inl ⟨rfl, he⟩
  · exact Or.inr h

theorem home_of_removed {path : String} (h : d.removeIfPresent path = .ok d')
    (hh : d'.Home directory home) : d.Home directory home := by
  rcases removeIfPresent_spec h with ⟨rfl, -⟩ | hremove
  · exact hh
  · obtain ⟨place, -, halters, -⟩ := remove_spec hremove
    exact halters.symm.sameHome hh

section Files

variable (hf : IsFileName file) (hh : d.Home directory home)

include hf hh

theorem resolve_join (hfits : Fits directory file) :
    d.resolve (Path.join directory file) = .ok (home ++ [file]) :=
  (resolve_join_iff hf).mpr ⟨hfits, home, hh, rfl⟩

theorem place_of_resolve (hr : d.resolve (Path.join directory file) = .ok place) :
    Fits directory file ∧ place = home ++ [file] := by
  have hfits := ((resolve_join_iff hf).mp hr).1
  exact ⟨hfits, Except.ok.inj (hr.symm.trans (resolve_join hf hh hfits))⟩

theorem lookup?_join (hfits : Fits directory file) :
    d.lookup? (Path.join directory file) = d.entryAt? (home ++ [file]) := by
  simp [lookup?, resolve_join hf hh hfits]

theorem write_join {text : String} (h : d.write (Path.join directory file) text = .ok d') :
    Fits directory file ∧ Alters (· = home ++ [file]) d d' ∧
      d'.entryAt? (home ++ [file]) = some (.file text) := by
  obtain ⟨place, hr, halters, htext⟩ := write_spec h
  obtain ⟨hfits, rfl⟩ := place_of_resolve hf hh hr
  exact ⟨hfits, halters, htext⟩

theorem removeIfPresent_join (h : d.removeIfPresent (Path.join directory file) = .ok d') :
    Fits directory file ∧ Alters (· = home ++ [file]) d d' ∧
      d'.entryAt? (home ++ [file]) = none := by
  rcases removeIfPresent_spec h with ⟨rfl, he⟩ | hremove
  · by_cases hfits : Fits directory file
    · refine ⟨hfits, .refl .., ?_⟩
      have hr := resolve_join hf hh hfits
      cases hentry : d'.entryAt? (home ++ [file]) with
      | none => rfl
      | some entry =>
        cases entry <;> simp [remove, hr, hentry, bind, Except.bind] at he
    · obtain ⟨e, hr, hne⟩ := resolve_join_error hf hh hfits
      simp [remove, hr, bind, Except.bind, hne] at he
  · obtain ⟨place, hr, halters, hnone⟩ := remove_spec hremove
    obtain ⟨hfits, rfl⟩ := place_of_resolve hf hh hr
    exact ⟨hfits, halters, hnone⟩

theorem write_join_ok (hfits : Fits directory file)
    (hd : d.entryAt? (home ++ [file]) ≠ some .directory) (text : String) :
    ∃ d', d.write (Path.join directory file) text = .ok d' := by
  have hr := resolve_join hf hh hfits
  cases hentry : d.entryAt? (home ++ [file]) with
  | none => simp [write, hr, hentry, bind, Except.bind]
  | some entry =>
    cases entry with
    | file old => simp [write, hr, hentry, bind, Except.bind]
    | directory => exact absurd hentry hd

theorem removeIfPresent_join_ok (hfits : Fits directory file)
    (hd : d.entryAt? (home ++ [file]) ≠ some .directory) :
    ∃ d', d.removeIfPresent (Path.join directory file) = .ok d' := by
  have hr := resolve_join hf hh hfits
  cases hentry : d.entryAt? (home ++ [file]) with
  | none => simp [removeIfPresent, remove, hr, hentry, bind, Except.bind]
  | some entry =>
    cases entry with
    | file old => simp [removeIfPresent, remove, hr, hentry, bind, Except.bind]
    | directory => exact absurd hentry hd

end Files

end Disk

namespace Sha256

theorem hexWords_digits (words : List UInt32) :
    ∀ c ∈ words.flatMap hexWord, ∃ n < 16, c = Nat.digitChar n := by
  intro c hc
  obtain ⟨w, -, hw⟩ := List.mem_flatMap.mp hc
  obtain ⟨b, -, hb⟩ := List.mem_flatMap.mp hw
  have hlt : b.toNat < 256 := b.toNat_lt
  rcases List.mem_pair.mp hb with rfl | rfl
  · exact ⟨_, by omega, rfl⟩
  · exact ⟨_, by omega, rfl⟩

theorem digitChar_not_blank : ∀ n < 16, Text.isBlank (Nat.digitChar n) = false := by decide

theorem hexWords_not_blank (words : List UInt32) :
    ∀ c ∈ words.flatMap hexWord, Text.isBlank c = false := by
  intro c hc
  obtain ⟨n, hn, rfl⟩ := hexWords_digits words c hc
  exact digitChar_not_blank n hn

theorem digest_eq (message : List UInt8) :
    ∃ words : List UInt32, digest message = String.ofList (words.flatMap hexWord) :=
  ⟨_, rfl⟩

end Sha256

theorem trim_contentHash (text : String) : Text.trim (contentHash text) = contentHash text := by
  obtain ⟨words, he⟩ := Sha256.digest_eq (Text.trim text).toUTF8.data.toList
  rw [contentHash, he, Text.trim, String.toList_ofList,
    Text.trim_of_no_blank (Sha256.hexWords_not_blank words)]

namespace Cache

theorem trim_sourceText (text : String) : Text.trim (sourceText text) = Text.trim text := by
  obtain ⟨ys, hy, he⟩ := Text.append_blank_eq text.toList
  have hnewline : ∀ c ∈ ['\n'], Text.isBlank c := by
    intro c hc
    rw [List.mem_singleton.mp hc]
    decide
  have hsource : (sourceText text).toList = Text.dropBlankEnd text.toList ++ ['\n'] := by
    rw [sourceText, Text.trimEnd, String.toList_append, String.toList_ofList]
    rfl
  rw [Text.trim, hsource, Text.trim_append_blank hnewline, Text.trim]
  conv => rhs; rw [he, Text.trim_append_blank hy]

theorem contentHash_sourceText (text : String) :
    contentHash (sourceText text) = contentHash text := by
  unfold contentHash
  rw [trim_sourceText]

inductive UnitFile where
  | source
  | artifact
  | marker
  deriving DecidableEq

namespace UnitFile

def suffix : UnitFile → String
  | .source => ".c"
  | .artifact => "." ++ artifactExtension
  | .marker => ".c.sha"

def fileName (k : UnitFile) (name : String) : String := name ++ k.suffix

def path (k : UnitFile) (directory name : String) : String := Path.join directory (k.fileName name)

def place (k : UnitFile) (home : Place) (name : String) : Place := home ++ [k.fileName name]

theorem isFileName (k : UnitFile) {name : String} (h : isUnitName name) :
    Disk.IsFileName (k.fileName name) := by
  simp only [isUnitName, Bool.and_eq_true, List.all_eq_true, bne_iff_ne] at h
  obtain ⟨⟨⟨hempty, -⟩, -⟩, hchars⟩ := h
  have hsuffix : k.suffix.toList.all (· != '/') ∧ k.suffix.length ≥ 2 := by
    cases k <;> decide
  have hname : 1 ≤ name.length := by
    refine Nat.pos_of_ne_zero fun h0 => ?_
    simp [String.length_eq_zero_iff.mp h0] at hempty
  have hlong : (k.fileName name).length ≥ 3 := by
    rw [fileName, String.length_append]
    omega
  refine ⟨fun c hc => ?_, ?_, ?_, ?_⟩
  · rw [fileName, String.toList_append] at hc
    rcases List.mem_append.mp hc with hc | hc
    · simpa using (hchars c hc).1.1
    · simpa using List.all_eq_true.mp hsuffix.1 c hc
  · cases he : (k.fileName name).isEmpty with
    | false => rfl
    | true =>
      rw [Disk.eq_empty_of_isEmpty he] at hlong
      simp at hlong
  · intro he
    rw [he] at hlong
    revert hlong
    decide
  · intro he
    rw [he] at hlong
    revert hlong
    decide

/-- No two units share a file, whatever their names. -/
theorem fileName_inj {k k' : UnitFile} {name name' : String}
    (h : k.fileName name = k'.fileName name') : k = k' ∧ name = name' := by
  have hlast : k.suffix.toList.getLast? = k'.suffix.toList.getLast? := by
    have hne : ∀ k : UnitFile, k.suffix.toList ≠ [] := fun k => by cases k <;> decide
    have he := congrArg (fun text => text.toList.getLast?) h
    simpa only [fileName, String.toList_append, List.getLast?_append_of_ne_nil _ (hne _)] using he
  have hk : k = k' := by
    cases k <;> cases k' <;> first | rfl | exact absurd hlast (by decide)
  subst hk
  refine ⟨rfl, String.toList_injective ?_⟩
  have he := congrArg String.toList h
  rw [fileName, fileName, String.toList_append, String.toList_append] at he
  exact List.append_cancel_right he

theorem place_inj {k k' : UnitFile} {home : Place} {name name' : String}
    (h : k.place home name = k'.place home name') : k = k' ∧ name = name' :=
  fileName_inj (by simpa [place] using h)

theorem place_ne {k k' : UnitFile} {home : Place} {name name' : String} (h : k ≠ k') :
    k.place home name ≠ k'.place home name' :=
  fun he => h (place_inj he).1

end UnitFile

/-- The marker has the longest name of the three. -/
theorem UnitFile.fits {directory name : String} (hn : isUnitName name)
    (h : Disk.Fits directory (UnitFile.marker.fileName name)) (k : UnitFile) :
    Disk.Fits directory (k.fileName name) := by
  obtain ⟨hnul, hpath, hname⟩ := h
  have hsuffix : k.suffix.utf8ByteSize ≤ UnitFile.marker.suffix.utf8ByteSize ∧
      k.suffix.toList.contains (Char.ofNat 0) = false := by
    cases k <;> decide
  rw [Disk.join_eq_append directory (UnitFile.marker.isFileName hn)] at hnul hpath
  simp only [fileName, String.toList_append, String.utf8ByteSize_append, List.contains_eq_mem,
    List.mem_append, decide_eq_false_iff_not, not_or] at hnul hpath hname hsuffix
  refine ⟨?_, ?_, ?_⟩
  · rw [Disk.join_eq_append directory (k.isFileName hn)]
    simp only [fileName, String.toList_append, List.contains_eq_mem, List.mem_append,
      decide_eq_false_iff_not, not_or]
    exact ⟨hnul.1, hnul.2.1, hsuffix.2⟩
  · rw [Disk.join_eq_append directory (k.isFileName hn)]
    simp only [fileName, String.utf8ByteSize_append]
    omega
  · simp only [fileName, String.utf8ByteSize_append]
    omega

def OfUnit (home : Place) (name : String) (p : Place) : Prop :=
  ∃ k : UnitFile, p = k.place home name

theorem not_ofUnit {k : UnitFile} {home : Place} {name other : String} (hne : other ≠ name) :
    ¬ OfUnit home name (k.place home other) := by
  rintro ⟨k', he⟩
  exact hne (UnitFile.place_inj he).2

theorem sourcePath_eq (directory name : String) :
    sourcePath directory name = UnitFile.source.path directory name := rfl

theorem artifactPath_eq (directory name : String) :
    artifactPath directory name = UnitFile.artifact.path directory name := by
  rw [artifactPath, UnitFile.path, UnitFile.fileName, UnitFile.suffix, String.append_assoc]

theorem markerPath_eq (directory name : String) :
    markerPath directory name = UnitFile.marker.path directory name := rfl

section Operations

variable {k : UnitFile} {d d' : Disk} {directory name text : String} {home : Place}
  (hn : isUnitName name) (hh : d.Home directory home)

include hn hh

theorem removed_unit (h : d.removeIfPresent (k.path directory name) = .ok d') :
    Disk.Fits directory (k.fileName name) ∧ Disk.Alters (· = k.place home name) d d' ∧
      d'.entryAt? (k.place home name) = none :=
  Disk.removeIfPresent_join (k.isFileName hn) hh h

theorem written_unit (h : d.write (k.path directory name) text = .ok d') :
    Disk.Fits directory (k.fileName name) ∧ Disk.Alters (· = k.place home name) d d' ∧
      d'.entryAt? (k.place home name) = some (.file text) :=
  Disk.write_join (k.isFileName hn) hh h

theorem lookup?_unit (hfits : Disk.Fits directory (k.fileName name)) :
    d.lookup? (k.path directory name) = d.entryAt? (k.place home name) :=
  Disk.lookup?_join (k.isFileName hn) hh hfits

theorem unit_removable (hfits : Disk.Fits directory (k.fileName name))
    (hd : d.entryAt? (k.place home name) ≠ some .directory) :
    ∃ d', d.removeIfPresent (k.path directory name) = .ok d' :=
  Disk.removeIfPresent_join_ok (k.isFileName hn) hh hfits hd

theorem unit_writable (hfits : Disk.Fits directory (k.fileName name))
    (hd : d.entryAt? (k.place home name) ≠ some .directory) (text : String) :
    ∃ d', d.write (k.path directory name) text = .ok d' :=
  Disk.write_join_ok (k.isFileName hn) hh hfits hd text

theorem unit_of_lookup? {entry : DiskEntry} (h : d.lookup? (k.path directory name) = some entry) :
    Disk.Fits directory (k.fileName name) ∧ d.entryAt? (k.place home name) = some entry := by
  cases hr : d.resolve (k.path directory name) with
  | error e => simp [Disk.lookup?, hr] at h
  | ok place =>
    obtain ⟨hfits, -⟩ := Disk.place_of_resolve (k.isFileName hn) hh hr
    exact ⟨hfits, (lookup?_unit hn hh hfits).symm.trans h⟩

end Operations

theorem recorded_eq_some {d : Disk} {marker hash : String} :
    recorded d marker = .ok (some hash) ↔
      ∃ text, d.lookup? marker = some (.file text) ∧ Text.trim text = hash := by
  simp only [← Disk.read_eq_ok]
  unfold recorded
  split
  · next text hr => simp [hr]
  · next hr => simp [hr]
  · next e hr => simp [hr]

theorem isCurrent_iff {d : Disk} {directory name hash : String} :
    isCurrent d directory name hash = .ok true ↔
      (∃ text, d.lookup? (markerPath directory name) = some (.file text) ∧ Text.trim text = hash) ∧
        d.exists? (artifactPath directory name) := by
  rw [isCurrent, bind_eq_ok, ← recorded_eq_some]
  constructor
  · rintro ⟨digest, hr, hc⟩
    have hboth : (decide (digest = some hash) && d.exists? (artifactPath directory name)) = true :=
      Except.ok.inj hc
    rw [Bool.and_eq_true, decide_eq_true_eq] at hboth
    obtain ⟨rfl, hexists⟩ := hboth
    exact ⟨hr, hexists⟩
  · rintro ⟨hr, hexists⟩
    refine ⟨some hash, hr, congrArg Except.ok ?_⟩
    simp [hexists]

end Cache
end Arbor
