import Arbor.Proofs.Freshness

/-!
Units keep to their own files.

A unit name is any text that can be one part of a path, so it may itself end in `.c` or `.so`. Still
no two names have a file in common: the last character of a file tells which of the three it is, and
what is before the suffix is the name. A call for one unit leaves the files of all others alone, in
whatever state it finds the directory and however it ends. If the paths lead nowhere it changes
nothing at all, because it stops before the compiler runs.
-/
namespace Arbor

/-- The path of a direct entry: it adds one name to the directory, and what it means is in the
directory itself. -/
def Disk.EntryOf (directory path : String) : Prop :=
  ∃ file, IsFileName file ∧ path = Path.join directory file ∧
    ∀ (d : Disk) place, d.resolve path = .ok place →
      ∃ home, d.Home directory home ∧ place = home ++ [file]

namespace Cache

namespace UnitFile

def all : List UnitFile := [.source, .artifact, .marker]

theorem mem_all (k : UnitFile) : k ∈ all := by cases k <;> decide

end UnitFile

def unitPaths (directory name : String) : List String :=
  [sourcePath directory name, artifactPath directory name, markerPath directory name]

variable {directory name other text path : String}

theorem unitPaths_eq (directory name : String) :
    unitPaths directory name = UnitFile.all.map (·.path directory name) := by
  rw [unitPaths, sourcePath_eq, artifactPath_eq, markerPath_eq]
  rfl

theorem mem_unitPaths :
    path ∈ unitPaths directory name ↔ ∃ k : UnitFile, path = k.path directory name := by
  rw [unitPaths_eq, List.mem_map]
  constructor
  · rintro ⟨k, -, rfl⟩
    exact ⟨k, rfl⟩
  · rintro ⟨k, rfl⟩
    exact ⟨k, k.mem_all, rfl⟩

theorem UnitFile.path_inj {k k' : UnitFile} (hn : isUnitName name) (ho : isUnitName other)
    (h : k.path directory name = k'.path directory other) : k = k' ∧ name = other := by
  rw [path, path, Disk.join_eq_append directory (k.isFileName hn),
    Disk.join_eq_append directory (k'.isFileName ho)] at h
  refine fileName_inj (String.toList_injective ?_)
  have hchars := congrArg String.toList h
  simp only [String.toList_append] at hchars
  exact List.append_cancel_left hchars

theorem unitPaths_nodup (hn : isUnitName name) : (unitPaths directory name).Nodup := by
  rw [unitPaths_eq]
  refine List.Nodup.map_on (fun k _ k' _ h => (UnitFile.path_inj hn hn h).1) ?_
  decide

theorem unitPaths_append_nodup (hn : isUnitName name) (ho : isUnitName other)
    (hne : name ≠ other) : (unitPaths directory name ++ unitPaths directory other).Nodup := by
  refine List.nodup_append.mpr ⟨unitPaths_nodup hn, unitPaths_nodup ho, ?_⟩
  intro x hx y hy heq
  obtain ⟨k, rfl⟩ := mem_unitPaths.mp hx
  obtain ⟨k', rfl⟩ := mem_unitPaths.mp hy
  exact hne (UnitFile.path_inj hn ho heq).2

theorem entryOf_unitPath (hn : isUnitName name) (h : path ∈ unitPaths directory name) :
    Disk.EntryOf directory path := by
  obtain ⟨k, rfl⟩ := mem_unitPaths.mp h
  refine ⟨k.fileName name, k.isFileName hn, rfl, fun d place hr => ?_⟩
  exact ((Disk.resolve_join_iff (k.isFileName hn)).mp hr).2

theorem eq_of_same_place {x y : String} (hn : isUnitName name) (ho : isUnitName other)
    (hx : x ∈ unitPaths directory name) (hy : y ∈ unitPaths directory other) {d : Disk}
    {place : Place} (hdx : d.resolve x = .ok place) (hdy : d.resolve y = .ok place) : x = y := by
  obtain ⟨k, rfl⟩ := mem_unitPaths.mp hx
  obtain ⟨k', rfl⟩ := mem_unitPaths.mp hy
  obtain ⟨-, home, hh, rfl⟩ := (Disk.resolve_join_iff (k.isFileName hn)).mp hdx
  have hplace := (Disk.place_of_resolve (k'.isFileName ho) hh hdy).2
  obtain ⟨rfl, rfl⟩ := UnitFile.place_inj hplace
  rfl

theorem removed_nothing {d d' : Disk} (h : ∀ place, d.resolve path ≠ .ok place)
    (hr : d.removeIfPresent path = .ok d') : d' = d := by
  rcases Disk.removeIfPresent_spec hr with ⟨rfl, -⟩ | hremove
  · rfl
  · obtain ⟨place, hplace, -⟩ := Disk.remove_spec hremove
    exact absurd hplace (h place)

variable {w w₁ : Workshop}

/-- If the path of the marker leads nowhere, a call gets as far as the source at most, and does
nothing on the way. -/
theorem clear_unresolved (text : String) (hn : isUnitName name)
    (hm : ∀ place, w.disk.resolve (markerPath directory name) ≠ .ok place) :
    ∃ e, clear directory name text w = .error e w := by
  -- past the marker there is no directory, because in a directory its name would be too long
  have nowhere : ∀ d, w.disk.removeIfPresent (markerPath directory name) = .ok d →
      d = w.disk ∧ ∀ (k : UnitFile) place, w.disk.resolve (k.path directory name) ≠ .ok place := by
    intro d hmarker
    refine ⟨removed_nothing hm hmarker, fun k place hr => ?_⟩
    obtain ⟨-, home, hh, -⟩ := (Disk.resolve_join_iff (k.isFileName hn)).mp hr
    have hfits := (removed_unit (k := .marker) hn hh hmarker).1
    exact hm _ (Disk.resolve_join (UnitFile.marker.isFileName hn) hh hfits)
  cases hclear : clear directory name text w with
  | error e w₁ =>
    refine ⟨e, congrArg _ ?_⟩
    rcases run_bind_error.mp hclear with h₁ | ⟨_, _, h₁, h⟩
    · exact BuildM.onDisk_error h₁
    · obtain ⟨d₁, hmarker, rfl⟩ := BuildM.onDisk_ok.mp h₁
      obtain ⟨rfl, hnone⟩ := nowhere d₁ hmarker
      rcases run_bind_error.mp h with h₂ | ⟨_, _, h₂, h₃⟩
      · exact BuildM.onDisk_error h₂
      · obtain ⟨d₂, hartifact, rfl⟩ := BuildM.onDisk_ok.mp h₂
        rw [artifactPath_eq] at hartifact
        obtain rfl := removed_nothing (hnone .artifact) hartifact
        exact BuildM.onDisk_error h₃
  | ok u w₁ =>
    obtain ⟨_, _, h₁, h⟩ := run_bind_ok.mp hclear
    obtain ⟨_, _, h₂, h₃⟩ := run_bind_ok.mp h
    obtain ⟨d₁, hmarker, rfl⟩ := BuildM.onDisk_ok.mp h₁
    obtain ⟨d₂, hartifact, rfl⟩ := BuildM.onDisk_ok.mp h₂
    obtain ⟨d₃, hsource, -⟩ := BuildM.onDisk_ok.mp h₃
    obtain ⟨rfl, hnone⟩ := nowhere d₁ hmarker
    rw [artifactPath_eq] at hartifact
    obtain rfl := removed_nothing (hnone .artifact) hartifact
    obtain ⟨place, hr, -⟩ := Disk.write_spec hsource
    exact absurd hr (hnone .source place)

variable {compiler : Compiler} {result : EStateM.Result BuildError Workshop CompiledUnit}
  {runs : List Run}

/-- The places of the three files of a unit. -/
def Owns (d : Disk) (directory name : String) (place : Place) : Prop :=
  ∃ path ∈ unitPaths directory name, d.resolve path = .ok place

theorem Call.alters_own (h : Call compiler directory name text w result runs)
    (hc : ∀ run ∈ runs, run.Confined directory) :
    Disk.Alters (Owns w.disk directory name) w.disk (leftBy result).disk := by
  by_cases hm : isUnitName name ∧ ∃ place, w.disk.resolve (markerPath directory name) = .ok place
  · obtain ⟨hn, place, hr⟩ := hm
    obtain ⟨hfits, home, hh, -⟩ := (Disk.resolve_join_iff (UnitFile.marker.isFileName hn)).mp hr
    refine (h.alters hh hc).mono ?_
    rintro _ ⟨k, rfl⟩
    exact ⟨_, mem_unitPaths.mpr ⟨k, rfl⟩,
      Disk.resolve_join (k.isFileName hn) hh (UnitFile.fits hn hfits k)⟩
  · cases h with
    | invalid | unreadable | reused => exact .refl ..
    | stopped hn hclear =>
      obtain ⟨e, he⟩ := clear_unresolved text hn fun place hr => hm ⟨hn, place, hr⟩
      cases he.symm.trans hclear
      exact .refl ..
    | failed hn hclear | unmarked hn hclear | compiled hn hclear =>
      obtain ⟨e, he⟩ := clear_unresolved text hn fun place hr => hm ⟨hn, place, hr⟩
      cases he.symm.trans hclear

theorem Call.unchanged (h : Call compiler directory name text w result runs)
    (hr : isUnitName name = false ∨
      ∃ unit w', result = .ok unit w' ∧ unit.outcome = .reused) : leftBy result = w := by
  cases h with
  | invalid | unreadable | reused => rfl
  | stopped hn | failed hn | unmarked hn =>
    rcases hr with hbad | ⟨_, _, hok, -⟩
    · simp [hn] at hbad
    · cases hok
  | compiled hn =>
    rcases hr with hbad | ⟨_, _, hok, hreused⟩
    · simp [hn] at hbad
    · cases hok
      cases hreused

/-- The files of two units are six different ones, each a direct entry of the build directory, on
any disk. A call for a unit alters none but its own three, whatever its name and text, whatever is
on the disk, and whether or not the compiler succeeds, as long as the compiler keeps to the
artifact. It changes nothing at all when it refuses the name or reuses the unit. -/
theorem units_share_no_files (hc : compiler.Confined) (directory name text : String)
    (w : Workshop) :
    (∀ other, isUnitName name → isUnitName other → name ≠ other →
      (unitPaths directory name ++ unitPaths directory other).Nodup ∧
      (∀ path ∈ unitPaths directory name ++ unitPaths directory other,
        Disk.EntryOf directory path) ∧
      ∀ x ∈ unitPaths directory name ++ unitPaths directory other,
        ∀ y ∈ unitPaths directory name ++ unitPaths directory other, ∀ (d : Disk) place,
          d.resolve x = .ok place → d.resolve y = .ok place → x = y) ∧
    Disk.Alters (Owns w.disk directory name) w.disk
      (leftBy (materialize compiler directory name text w)).disk ∧
    (isUnitName name = false →
      materialize compiler directory name text w = .error (.invalidUnitName name) w) ∧
    (∀ unit w', materialize compiler directory name text w = .ok unit w' →
      unit.outcome = .reused → w' = w) := by
  have hcall := call_materialize compiler directory name text w
  refine ⟨fun other hn ho hne => ⟨unitPaths_append_nodup hn ho hne, ?_, ?_⟩,
    hcall.alters_own (hcall.confined hc), ?_, ?_⟩
  · intro path hp
    rcases List.mem_append.mp hp with hp | hp
    · exact entryOf_unitPath hn hp
    · exact entryOf_unitPath ho hp
  · intro x hx y hy d place hdx hdy
    rcases List.mem_append.mp hx with hx | hx <;> rcases List.mem_append.mp hy with hy | hy
    · exact eq_of_same_place hn hn hx hy hdx hdy
    · exact eq_of_same_place hn ho hx hy hdx hdy
    · exact eq_of_same_place ho hn hx hy hdx hdy
    · exact eq_of_same_place ho ho hx hy hdx hdy
  · intro hbad
    simp [materialize, hbad]
  · intro unit w' hok hreused
    rw [hok] at hcall
    exact hcall.unchanged (.inr ⟨unit, w', rfl, hreused⟩)

/-- The workshop with the files of a unit that is named like the source of another. -/
def shelf : Workshop := leftBy (materialize flaky "/b" "u.c" "int y;" bench)

theorem shelf_keeps_other_unit :
    isUnitName "u" ∧ isUnitName "u.c" ∧
    (unitPaths "/b" "u" ++ unitPaths "/b" "u.c").Nodup ∧
    shelf.disk.entryAt? ["b", "u.c.so"] = some (.file "1") ∧
    (leftBy (materialize flaky "/b" "u" "int x;" shelf)).disk.entryAt? ["b", "u.c.sha"] =
      some (.file (contentHash "int x;")) ∧
    (leftBy (materialize flaky "/b" "u" "int x;" shelf)).disk.entryAt? ["b", "u.c.so"] =
      shelf.disk.entryAt? ["b", "u.c.so"] := by
  obtain ⟨hsix, hframe, -⟩ := units_share_no_files flaky_confined "/b" "u" "int x;" shelf
  obtain ⟨hnodup, -⟩ := hsix "u.c" (by decide) (by decide) (by decide)
  have hother : ∀ path ∈ unitPaths "/b" "u", shelf.disk.resolve path ≠ .ok ["b", "u.c.so"] := by
    decide +kernel
  refine ⟨by decide, by decide, hnodup, by rfl, by rfl, hframe.kept _ ?_⟩
  rintro ⟨path, hpath, hr⟩
  exact hother path hpath hr

end Cache
end Arbor
