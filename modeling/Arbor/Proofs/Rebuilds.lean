import Arbor.Proofs.Recompile

/-!
The compiler runs once for each change of a text.

Calls for any units follow one another, from an empty build directory and with a compiler that
always succeeds. What a call does is settled by the last text under its name: between two calls for
a unit nobody touches its files, so the marker and the artifact are still there, and the marker has
the digest of that text. A call for a name that the disk has no room for fails, and leaves the disk
as it was.
-/
namespace Arbor

/-- A compiler that makes the artifact whenever there is a source, and a free place to put it. -/
structure Compiler.Succeeds (compiler : Compiler) : Prop extends compiler.Delivers where
  succeeds : ∀ run source artifact d place, d.isFile source → d.resolve artifact = .ok place →
    d.entryAt? place = none → ∃ d', compiler run source artifact d = .ok () d'

instance (directory file : String) : Decidable (Disk.Fits directory file) :=
  decidable_of_iff ((Path.join directory file).toList.contains (Char.ofNat 0) = false ∧
      (Path.join directory file).utf8ByteSize ≤ Disk.longestPath ∧
      file.utf8ByteSize ≤ Disk.longestName)
    ⟨fun h => ⟨h.1, h.2.1, h.2.2⟩, fun h => ⟨h.noNul, h.path, h.name⟩⟩

namespace Cache

structure Request where
  name : String
  text : String
  deriving DecidableEq, Repr

/-- What a call reports, if it goes through. -/
def reported : EStateM.Result BuildError Workshop CompiledUnit → Option Outcome
  | .ok unit _ => some unit.outcome
  | .error _ _ => none

/-- Makes one call after the other, also after one that failed: the reports, and what is left. -/
def serve (compiler : Compiler) (directory : String) :
    List Request → Workshop → List (Option Outcome) × Workshop
  | [], w => ([], w)
  | r :: rest, w =>
    let result := materialize compiler directory r.name r.text w
    let served := serve compiler directory rest (leftBy result)
    (reported result :: served.1, served.2)

/-- A valid name whose files the disk has room for. -/
def Usable (directory name : String) : Prop :=
  isUnitName name ∧ Disk.Fits directory (UnitFile.marker.fileName name)

instance (directory name : String) : Decidable (Usable directory name) :=
  inferInstanceAs (Decidable (_ ∧ _))

/-- The text of the last request for a name, the last request being the first of the list. -/
def lastText? (earlier : List Request) (name : String) : Option String :=
  (earlier.find? fun r => r.name == name).map Request.text

/-- A first text for its name, or one that is not the last one, white space around them aside. -/
def Changes (earlier : List Request) (r : Request) : Prop :=
  (lastText? earlier r.name).map Text.trim ≠ some (Text.trim r.text)

instance (earlier : List Request) (r : Request) : Decidable (Changes earlier r) :=
  inferInstanceAs (Decidable (_ ≠ _))

def verdict (directory : String) (earlier : List Request) (r : Request) : Option Outcome :=
  if Usable directory r.name then some (if Changes earlier r then .compiled else .reused) else none

def verdicts (directory : String) : (earlier requests : List Request) → List (Option Outcome)
  | _, [] => []
  | earlier, r :: rest => verdict directory earlier r :: verdicts directory (r :: earlier) rest

/-- No two of the texts have one digest, white space around them aside. -/
def Distinguished (requests : List Request) : Prop :=
  ∀ r ∈ requests, ∀ r' ∈ requests, contentHash r.text = contentHash r'.text →
    Text.trim r.text = Text.trim r'.text

theorem lastText?_cons (r : Request) (earlier : List Request) (name : String) :
    lastText? (r :: earlier) name =
      if r.name = name then some r.text else lastText? earlier name := by
  by_cases h : r.name = name
  · simp [lastText?, h]
  · have hfind : (r.name == name) = false := by simpa using h
    simp [lastText?, hfind, h]

theorem mem_of_lastText? {earlier : List Request} {name text : String}
    (h : lastText? earlier name = some text) : ∃ r ∈ earlier, r.text = text := by
  obtain ⟨r, hr, rfl⟩ := Option.map_eq_some_iff.mp h
  exact ⟨r, List.mem_of_find?_eq_some hr, rfl⟩

variable {compiler : Compiler} {directory name text : String} {home : Place} {w : Workshop}
  {earlier : List Request}

section Rebuild

variable (hn : isUnitName name) (hh : w.disk.Home directory home)
  (hfits : ∀ k : UnitFile, Disk.Fits directory (k.fileName name))
  (hdir : ∀ k : UnitFile, w.disk.entryAt? (k.place home name) ≠ some .directory)

include hn hh hfits hdir

theorem clear_succeeds (text : String) : ∃ w₁, clear directory name text w = .ok () w₁ := by
  obtain ⟨d₁, hmarker⟩ := unit_removable (k := .marker) hn hh (hfits _) (hdir _)
  obtain ⟨-, alter₁, -⟩ := removed_unit (k := .marker) hn hh hmarker
  have hh₁ := alter₁.sameHome hh
  obtain ⟨d₂, hartifact⟩ := unit_removable (k := .artifact) hn hh₁ (hfits _)
    fun hd => hdir _ ((alter₁.directories _).mp hd)
  obtain ⟨-, alter₂, -⟩ := removed_unit (k := .artifact) hn hh₁ hartifact
  obtain ⟨d₃, hsource⟩ := unit_writable (k := .source) hn (alter₂.sameHome hh₁) (hfits _)
    (fun hd => hdir _ ((alter₁.directories _).mp ((alter₂.directories _).mp hd))) (sourceText text)
  rw [← artifactPath_eq] at hartifact
  refine ⟨{ w with disk := d₃ }, run_bind_ok.mpr ⟨(), { w with disk := d₁ }, ?_, ?_⟩⟩
  · exact BuildM.onDisk_ok.mpr ⟨d₁, hmarker, rfl⟩
  · refine run_bind_ok.mpr ⟨(), { w with disk := d₂ }, ?_, ?_⟩
    · exact BuildM.onDisk_ok.mpr ⟨d₂, hartifact, rfl⟩
    · exact BuildM.onDisk_ok.mpr ⟨d₃, hsource, rfl⟩

theorem rebuild_succeeds (hs : compiler.Succeeds) (text : String) :
    ∃ w', rebuild compiler directory name text w = .ok () w' ∧ w'.runs = w.runs + 1 := by
  obtain ⟨w₁, hclear⟩ := clear_succeeds hn hh hfits hdir text
  obtain ⟨hruns, halters, -, -, habsent, hsource⟩ := clear_ok hn hh hclear
  have hh₁ := halters.sameHome hh
  have hfile : w₁.disk.isFile (sourcePath directory name) := by
    rw [Disk.isFile, sourcePath_eq, lookup?_unit hn hh₁ (hfits .source), hsource]
  have hplace : w₁.disk.resolve (artifactPath directory name) =
      .ok (UnitFile.artifact.place home name) := by
    rw [artifactPath_eq]
    exact Disk.resolve_join (UnitFile.artifact.isFileName hn) hh₁ (hfits .artifact)
  obtain ⟨d, hrun⟩ := hs.succeeds (w₁.runs + 1) _ _ _ _ hfile hplace habsent
  have hconfined : Run.Confined directory ⟨name, w₁.disk, d, true⟩ := by
    have := hs.confined (w₁.runs + 1) (sourcePath directory name) (artifactPath directory name) w₁.disk
    rw [hrun] at this
    exact this
  obtain ⟨-, hmarker, -, hhome⟩ := launched hn hh hclear hconfined
  obtain ⟨d', hwrite⟩ := unit_writable (k := .marker) hn hhome (hfits _)
    (by simp [hmarker]) (contentHash text)
  refine ⟨⟨d', w₁.runs + 1⟩, ?_, by rw [hruns]⟩
  rw [rebuild_eq]
  refine run_bind_ok.mpr ⟨(), w₁, hclear, run_bind_ok.mpr ⟨(), ⟨d, w₁.runs + 1⟩, ?_, ?_⟩⟩
  · rw [BuildM.runCompiler, hrun]
  · exact BuildM.onDisk_ok.mpr ⟨d', hwrite, rfl⟩

end Rebuild

theorem materialize_stale {w' : Workshop} (hn : isUnitName name)
    (hstale : isCurrent w.disk directory name (contentHash text) = .ok false)
    (h : rebuild compiler directory name text w = .ok () w') :
    materialize compiler directory name text w = .ok (unitOf directory name text .compiled) w' := by
  unfold materialize
  rw [hn, hstale, h]
  rfl

theorem materialize_unusable (compiler : Compiler) (text : String)
    (hh : w.disk.Home directory home) (hu : ¬ Usable directory name) :
    ∃ e, materialize compiler directory name text w = .error e w := by
  unfold materialize
  by_cases hn : isUnitName name
  · have hfits : ¬ Disk.Fits directory (UnitFile.marker.fileName name) := fun h => hu ⟨hn, h⟩
    obtain ⟨e, hr, hne⟩ := Disk.resolve_join_error (UnitFile.marker.isFileName hn) hh hfits
    have hread : w.disk.read (markerPath directory name) = .error e := by
      rw [Disk.read, markerPath_eq, UnitFile.path, hr]
      rfl
    have hcurrent : isCurrent w.disk directory name (contentHash text) = .error e := by
      rw [isCurrent, recorded, hread]
      cases e with
      | notFound => exact absurd rfl hne
      | alreadyExists | notDirectory | isDirectory | nameTooLong | invalidName => rfl
    rw [hn, hcurrent]
    exact ⟨_, rfl⟩
  · rw [Bool.not_eq_true] at hn
    rw [hn]
    exact ⟨_, rfl⟩

theorem isCurrent_unmarked (hn : isUnitName name) (hh : w.disk.Home directory home)
    (hfits : Disk.Fits directory (UnitFile.marker.fileName name))
    (hmarker : w.disk.entryAt? (UnitFile.marker.place home name) = none) (hash : String) :
    isCurrent w.disk directory name hash = .ok false := by
  have hr := Disk.resolve_join (UnitFile.marker.isFileName hn) hh hfits
  have hread : w.disk.read (markerPath directory name) = .error .notFound := by
    rw [Disk.read, markerPath_eq, UnitFile.path, hr]
    simp only [bind, Except.bind]
    rw [← UnitFile.place, hmarker]
  rw [isCurrent, recorded, hread]
  rfl

theorem isCurrent_other {hash other : String}
    (h : isCurrent w.disk directory name hash = .ok true) (hne : hash ≠ other) :
    isCurrent w.disk directory name other = .ok false := by
  have hrecorded := recorded_eq_some.mpr (isCurrent_iff.mp h).1
  rw [isCurrent, hrecorded]
  simp [bind, Except.bind, pure, Except.pure, hne]

structure Kept (directory : String) (home : Place) (earlier : List Request) (w : Workshop) :
    Prop where
  resolves : w.disk.Home directory home
  noDirectory : ∀ (k : UnitFile) name, w.disk.entryAt? (k.place home name) ≠ some .directory
  unmarked : ∀ name, lastText? earlier name = none →
    w.disk.entryAt? (UnitFile.marker.place home name) = none
  current : ∀ name text, Usable directory name → lastText? earlier name = some text →
    isCurrent w.disk directory name (contentHash text) = .ok true

theorem kept_empty (hh : w.disk.Home directory home)
    (hempty : ∀ file, w.disk.entryAt? (home ++ [file]) = none) : Kept directory home [] w where
  resolves := hh
  noDirectory k name := by simp [UnitFile.place, hempty]
  unmarked name _ := hempty _
  current name text _ h := by cases h

namespace Kept

variable (h : Kept directory home earlier w)

include h

theorem next {r : Request} {w' : Workshop}
    (halters : Disk.Alters (OfUnit home r.name) w.disk w'.disk)
    (hcurrent : Usable directory r.name →
      isCurrent w'.disk directory r.name (contentHash r.text) = .ok true) :
    Kept directory home (r :: earlier) w' := by
  refine ⟨halters.sameHome h.resolves, ?_, ?_, ?_⟩
  · intro k name hd
    exact h.noDirectory k name ((halters.directories _).mp hd)
  · intro name hlast
    rw [lastText?_cons] at hlast
    split at hlast
    · cases hlast
    · next hne =>
      rw [halters.kept _ (not_ofUnit (Ne.symm hne))]
      exact h.unmarked name hlast
  · intro name text hu hlast
    rw [lastText?_cons] at hlast
    split at hlast
    · next he =>
      cases hlast
      subst he
      exact hcurrent hu
    · next hne =>
      exact current_of_alters h.resolves halters hu.1 (Ne.symm hne) (h.current name text hu hlast)

theorem unusable (compiler : Compiler) {r : Request} (hu : ¬ Usable directory r.name) :
    ∃ e, materialize compiler directory r.name r.text w = .error e w ∧
      Kept directory home (r :: earlier) w := by
  obtain ⟨e, he⟩ := materialize_unusable compiler r.text h.resolves hu
  exact ⟨e, he, h.next (.refl ..) fun hu' => absurd hu' hu⟩

theorem reuses (compiler : Compiler) {r : Request} (hu : Usable directory r.name)
    (hsame : ¬ Changes earlier r) :
    materialize compiler directory r.name r.text w =
        .ok (unitOf directory r.name r.text .reused) w ∧
      Kept directory home (r :: earlier) w := by
  obtain ⟨text, hlast, htrim⟩ := Option.map_eq_some_iff.mp (not_not.mp hsame)
  have hcurrent : isCurrent w.disk directory r.name (contentHash r.text) = .ok true := by
    rw [contentHash, ← htrim]
    exact h.current r.name text hu hlast
  exact ⟨materialize_current hu.1 hcurrent, h.next (.refl ..) fun _ => hcurrent⟩

theorem stale {r : Request} (hu : Usable directory r.name) (hchange : Changes earlier r)
    (hd : ∀ text, lastText? earlier r.name = some text → contentHash text = contentHash r.text →
      Text.trim text = Text.trim r.text) :
    isCurrent w.disk directory r.name (contentHash r.text) = .ok false := by
  cases hlast : lastText? earlier r.name with
  | none => exact isCurrent_unmarked hu.1 h.resolves hu.2 (h.unmarked r.name hlast) _
  | some text =>
    apply isCurrent_other (h.current r.name text hu hlast)
    intro he
    apply hchange
    rw [hlast, Option.map_some, hd text hlast he]

theorem compiles {r : Request} (hs : compiler.Succeeds) (hu : Usable directory r.name)
    (hstale : isCurrent w.disk directory r.name (contentHash r.text) = .ok false) :
    ∃ w', materialize compiler directory r.name r.text w =
        .ok (unitOf directory r.name r.text .compiled) w' ∧
      w'.runs = w.runs + 1 ∧ Kept directory home (r :: earlier) w' := by
  obtain ⟨w', hrebuild, hruns⟩ := rebuild_succeeds hu.1 h.resolves (UnitFile.fits hu.1 hu.2)
    (fun k => h.noDirectory k r.name) hs r.text
  have hmake := materialize_stale hu.1 hstale hrebuild
  have hcall := call_materialize compiler directory r.name r.text w
  rw [hmake] at hcall
  refine ⟨w', hmake, hruns, h.next ?_ fun _ => (hcall.current hs.toDelivers).2⟩
  exact hcall.alters h.resolves (hcall.confined hs.confined)

theorem call {r : Request} (hs : compiler.Succeeds)
    (hd : ∀ text, lastText? earlier r.name = some text → contentHash text = contentHash r.text →
      Text.trim text = Text.trim r.text) :
    reported (materialize compiler directory r.name r.text w) = verdict directory earlier r ∧
      (leftBy (materialize compiler directory r.name r.text w)).runs =
        w.runs + [verdict directory earlier r].count (some .compiled) ∧
      Kept directory home (r :: earlier)
        (leftBy (materialize compiler directory r.name r.text w)) := by
  unfold verdict
  by_cases hu : Usable directory r.name
  · by_cases hchange : Changes earlier r
    · obtain ⟨w', hmake, hruns, hkept⟩ := h.compiles hs hu (h.stale hu hchange hd)
      rw [hmake, if_pos hu, if_pos hchange]
      exact ⟨rfl, hruns, hkept⟩
    · obtain ⟨hmake, hkept⟩ := h.reuses compiler hu hchange
      rw [hmake, if_pos hu, if_neg hchange]
      exact ⟨rfl, rfl, hkept⟩
  · obtain ⟨e, hmake, hkept⟩ := h.unusable compiler hu
    rw [hmake, if_neg hu]
    exact ⟨rfl, rfl, hkept⟩

theorem serves {requests all : List Request} (hs : compiler.Succeeds) (hd : Distinguished all)
    (hearlier : earlier ⊆ all) (hrequests : requests ⊆ all) :
    (serve compiler directory requests w).1 = verdicts directory earlier requests ∧
      (serve compiler directory requests w).2.runs =
        w.runs + (verdicts directory earlier requests).count (some .compiled) := by
  induction requests generalizing earlier w with
  | nil => exact ⟨rfl, rfl⟩
  | cons r rest ih =>
    obtain ⟨hr, hrest⟩ := List.cons_subset.mp hrequests
    have hdistinct : ∀ text, lastText? earlier r.name = some text →
        contentHash text = contentHash r.text → Text.trim text = Text.trim r.text := by
      intro text hlast
      obtain ⟨r', hr', rfl⟩ := mem_of_lastText? hlast
      exact hd r' (hearlier hr') r hr
    obtain ⟨hreport, hruns, hkept⟩ := h.call hs hdistinct
    obtain ⟨hreports, hall⟩ := ih hkept (List.cons_subset.mpr ⟨hr, hearlier⟩) hrest
    constructor
    · rw [serve, verdicts, hreport, hreports]
    · simp only [serve, verdicts, hall, hruns, List.count_cons, List.count_nil]
      omega

end Kept

/-- From an empty build directory, with a compiler that always succeeds and no two texts of one
digest: whatever units the calls are for, those that bring a change compile and all others reuse.
The compiler has run once for each change. Calls for a name that is no unit name, or that the disk
has no room for, fail and run nothing. -/
theorem runs_are_content_changes {start : Workshop} {requests : List Request}
    (hs : compiler.Succeeds) (he : start.disk.IsEmptyDirectory directory)
    (hd : Distinguished requests) :
    (serve compiler directory requests start).1 = verdicts directory [] requests ∧
      (serve compiler directory requests start).2.runs =
        start.runs + (verdicts directory [] requests).count (some .compiled) := by
  obtain ⟨home, hh, hempty⟩ := he
  exact (kept_empty hh hempty).serves hs hd (List.nil_subset _) (List.Subset.refl _)

def steady : Compiler := fun run _ artifact d =>
  match d.write artifact (toString run) with
  | .error e => .error (.disk e) d
  | .ok d => .ok () d

theorem steady_succeeds : steady.Succeeds := by
  refine ⟨⟨?_, ?_⟩, ?_⟩
  · intro run source artifact d
    unfold steady
    cases hw : d.write artifact (toString run) with
    | error e => exact .refl ..
    | ok d' => exact (Disk.write_only hw).1
  · intro run source artifact d d' h
    unfold steady at h
    split at h
    · cases h
    · next hw =>
      cases h
      exact (Disk.write_only hw).2
  · intro run source artifact d place _ hr hnone
    refine ⟨d.put place (.file (toString run)), ?_⟩
    simp [steady, Disk.write, hr, hnone, bind, Except.bind]

/-- Two units by turns, white space, a name that is none, and a text that comes back. -/
def orders : List Request :=
  [⟨"u", "int x;"⟩, ⟨"v", "int x;"⟩, ⟨"u", "  int x;\n\n"⟩, ⟨"u", "int y;"⟩, ⟨"v", "int x;"⟩,
    ⟨"u/v", "int x;"⟩, ⟨"u", "int x;"⟩]

theorem orders_distinguished : Distinguished orders := by
  have hne : contentHash "int x;" ≠ contentHash "int y;" := by decide +kernel
  have htrim : ∀ r ∈ orders, Text.trim r.text = Text.trim "int x;" ∨
      Text.trim r.text = Text.trim "int y;" := by
    decide +kernel
  intro r hr r' hr' he
  rw [contentHash, contentHash] at he hne
  rcases htrim r hr with h | h <;> rcases htrim r' hr' with h' | h' <;> rw [h, h'] at he ⊢
  · exact absurd he hne
  · exact absurd he.symm hne

theorem orders_runs :
    Distinguished orders ∧
    (serve steady "/b" orders bench).1 =
      [some .compiled, some .compiled, some .reused, some .compiled, some .reused, none,
        some .compiled] ∧
    (serve steady "/b" orders bench).2.runs = 4 := by
  obtain ⟨hreports, hruns⟩ :=
    runs_are_content_changes steady_succeeds bench_empty orders_distinguished
  have hverdicts : verdicts "/b" [] orders = [some .compiled, some .compiled, some .reused,
      some .compiled, some .reused, none, some .compiled] := by
    decide +kernel
  rw [hverdicts] at hreports hruns
  exact ⟨orders_distinguished, hreports, hruns⟩

def longName : String := String.ofList (List.replicate 250 'n')

theorem isUnitName_replicate {count : Nat} (h : 3 ≤ count) :
    isUnitName (String.ofList (List.replicate count 'n')) := by
  have hne : ∀ text : String, text.length < 3 → String.ofList (List.replicate count 'n') ≠ text := by
    rintro _ hlt rfl
    rw [String.length_ofList, List.length_replicate] at hlt
    omega
  have hempty : (String.ofList (List.replicate count 'n')).isEmpty = false := by
    cases he : (String.ofList (List.replicate count 'n')).isEmpty with
    | false => rfl
    | true => exact absurd (Disk.eq_empty_of_isEmpty he) (hne "" (by decide))
  simp only [isUnitName, hempty, bne_iff_ne.mpr (hne "." (by decide)),
    bne_iff_ne.mpr (hne ".." (by decide)), String.toList_ofList, List.all_replicate]
  simp

/-- A valid name is not enough: there may be no room for the marker, and then the call fails. -/
theorem long_name_not_compiled :
    steady.Succeeds ∧ bench.disk.IsEmptyDirectory "/b" ∧ isUnitName longName ∧
    Changes [] ⟨longName, "int x;"⟩ ∧
    ∃ e, materialize steady "/b" longName "int x;" bench = .error e bench := by
  refine ⟨steady_succeeds, bench_empty, isUnitName_replicate (by decide), by decide, ?_⟩
  obtain ⟨home, hh, -⟩ := bench_empty
  apply materialize_unusable steady _ hh
  rintro ⟨-, hfits⟩
  have hlong : Disk.longestName < (UnitFile.marker.fileName longName).utf8ByteSize := by
    decide +kernel
  have hname := hfits.name
  omega

end Cache
end Arbor
