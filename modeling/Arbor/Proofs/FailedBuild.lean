import Arbor.Proofs.Recompile

/-!
Builds that fail.

Whatever is wrong with a tree comes to light before anything is written: a tree that has passed
the check and is filled has a name for every file. From then on the files are built in order. A call
touches the files of its own unit only, so the first one that fails leaves the units of all later
files as they were.
-/
namespace Arbor

/-- The fault is in the tree: its structure, the names of its files or the types of its symbols. -/
def BuildError.OfTree : BuildError → Prop
  | .tree _ | .duplicateUnit _ | .infer _ => True
  | _ => False

/-- A compiler with errors of its own. -/
def Compiler.BlamesNoTree (compiler : Compiler) : Prop :=
  ∀ run source artifact d e d', compiler run source artifact d = .error e d' → ¬ e.OfTree

namespace Cache

variable {compiler : Compiler} {directory name text other : String} {home : Place}
  {w w₁ : Workshop} {d d' : Disk} {e : BuildError}
  {result : EStateM.Result BuildError Workshop CompiledUnit} {runs : List Run}

theorem onDisk_error_disk {f : Disk → Except DiskError Disk} (h : BuildM.onDisk f w = .error e w₁) :
    ∃ cause, e = .disk cause := by
  unfold BuildM.onDisk at h
  split at h
  · cases h
  · cases h
    exact ⟨_, rfl⟩

theorem clear_error_disk (h : clear directory name text w = .error e w₁) :
    ∃ cause, e = .disk cause := by
  rcases run_bind_error.mp h with h₁ | ⟨_, _, -, h⟩
  · exact onDisk_error_disk h₁
  · rcases run_bind_error.mp h with h₂ | ⟨_, _, -, h₃⟩
    · exact onDisk_error_disk h₂
    · exact onDisk_error_disk h₃

theorem Call.not_ofTree (h : Call compiler directory name text w (.error e w₁) runs)
    (hb : compiler.BlamesNoTree) : ¬ e.OfTree := by
  cases h with
  | invalid | unreadable | unmarked => exact id
  | stopped _ hclear =>
    obtain ⟨cause, rfl⟩ := clear_error_disk hclear
    exact id
  | failed _ _ hrun => exact hb _ _ _ _ _ _ hrun

theorem removed_homeless {k : UnitFile} (hn : isUnitName name)
    (hno : ∀ home, ¬ d.Home directory home)
    (h : d.removeIfPresent (k.path directory name) = .ok d') : d' = d := by
  rcases Disk.removeIfPresent_spec h with ⟨he, -⟩ | hremove
  · exact he
  · obtain ⟨place, hr, -⟩ := Disk.remove_spec hremove
    obtain ⟨home, hh⟩ := home_of_resolve hn hr
    exact absurd hh (hno home)

theorem clear_homeless (hn : isUnitName name) (hno : ∀ home, ¬ w.disk.Home directory home)
    (h : clear directory name text w = .error e w₁) : w₁ = w := by
  rcases run_bind_error.mp h with h₁ | ⟨_, _, h₁, h⟩
  · exact BuildM.onDisk_error h₁
  · obtain ⟨d₁, hmarker, rfl⟩ := BuildM.onDisk_ok.mp h₁
    obtain rfl := removed_homeless (k := .marker) hn hno hmarker
    rcases run_bind_error.mp h with h₂ | ⟨_, _, h₂, h₃⟩
    · exact BuildM.onDisk_error h₂
    · obtain ⟨d₂, hartifact, rfl⟩ := BuildM.onDisk_ok.mp h₂
      rw [artifactPath_eq] at hartifact
      obtain rfl := removed_homeless hn hno hartifact
      exact BuildM.onDisk_error h₃

theorem Call.homeless (h : Call compiler directory name text w result runs)
    (hno : ∀ home, ¬ w.disk.Home directory home) : leftBy result = w := by
  cases h with
  | invalid | unreadable | reused => rfl
  | stopped hn hclear => exact clear_homeless hn hno hclear
  | failed hn hclear | unmarked hn hclear | compiled hn hclear =>
    obtain ⟨home, hh⟩ := home_of_clear hn hclear
    exact absurd hh (hno home)

theorem Call.keeps (h : Call compiler directory name text w result runs) (hc : compiler.Confined)
    (hn : isUnitName other) (hne : other ≠ name) (k : UnitFile) :
    (leftBy result).disk.lookup? (k.path directory other) =
      w.disk.lookup? (k.path directory other) := by
  by_cases hhome : ∃ home, w.disk.Home directory home
  · obtain ⟨home, hh⟩ := hhome
    have halters := h.alters hh (h.confined hc)
    have hh' := halters.sameHome hh
    by_cases hfits : Disk.Fits directory (k.fileName other)
    · rw [lookup?_unit hn hh' hfits, lookup?_unit hn hh hfits, halters.kept _ (not_ofUnit hne)]
    · obtain ⟨e, hr, -⟩ := Disk.resolve_join_error (k.isFileName hn) hh hfits
      obtain ⟨e', hr', -⟩ := Disk.resolve_join_error (k.isFileName hn) hh' hfits
      simp only [UnitFile.path, Disk.lookup?, hr, hr']
  · rw [h.homeless fun home hh => hhome ⟨home, hh⟩]

end Cache

namespace Project

variable {s : BuildSetting} {t t' : Tree} {root file : NodeId} {ids : List NodeId}
  {w w' : Workshop} {e : BuildError} {other : String}

theorem checkNames_named {seen : List String} (h : checkNames t seen ids = .ok ()) :
    ∀ file ∈ ids, ∃ name, unitName t file = .ok name := by
  induction ids generalizing seen with
  | nil => exact nofun
  | cons file rest ih =>
    obtain ⟨name, hname, h⟩ := bind_eq_ok.mp h
    split at h
    · cases h
    · exact List.forall_mem_cons.mpr ⟨⟨name, hname⟩, ih h⟩

theorem prepare_ok {registry : TypeRegistry} (h : prepare registry t root = (t', .ok ids)) :
    t.validate root = .ok () ∧ files t root = .ok ids := by
  unfold prepare at h
  split at h
  · cases h
  · next hv =>
    split at h
    · cases h
    · next hfiles =>
      split at h
      · cases h
        exact ⟨hv, hfiles⟩
      · cases h

/-- A tree as it goes into rendering. -/
structure Ready (t : Tree) (ids : List NodeId) : Prop where
  named : ∀ file ∈ ids, ∃ name, unitName t file = .ok name
  distinct : ids.Pairwise (Distinct t)

theorem ready_of_prepare {registry : TypeRegistry} (h : prepare registry t root = (t', .ok ids)) :
    Ready t' ids := by
  -- the filled tree passes the same checks
  obtain ⟨hdistinct, t₂, hagain, -⟩ := prepare_again h
  exact ⟨checkNames_named (files_checked (prepare_ok hagain).2), hdistinct⟩

theorem Ready.buildFile_error (h : Ready t ids) (hm : file ∈ ids)
    (hb : s.compiler.BlamesNoTree) (hf : buildFile s t file w = .error e w') : ¬ e.OfTree := by
  obtain ⟨name, hname⟩ := h.named file hm
  unfold buildFile at hf
  rw [hname] at hf
  simp only at hf
  split at hf
  · cases hf
    exact id
  · next text _ =>
    have hcall := Cache.call_materialize s.compiler s.directory name text w
    rw [hf] at hcall
    exact hcall.not_ofTree hb

theorem buildFiles_error (h : buildFiles s t ids w = .error e w') :
    ∃ before file after units w₁, ids = before ++ file :: after ∧
      buildFiles s t before w = .ok units w₁ ∧ buildFile s t file w₁ = .error e w' := by
  induction ids generalizing w with
  | nil => cases h
  | cons file rest ih =>
    rcases run_bind_error.mp h with hfirst | ⟨unit, w₁, hfirst, h⟩
    · exact ⟨[], file, rest, [], w, rfl, rfl, hfirst⟩
    · rcases run_bind_error.mp h with hrest | ⟨_, _, _, h⟩
      · obtain ⟨before, failing, after, units, w₂, rfl, hbefore, hfails⟩ := ih hrest
        refine ⟨file :: before, failing, after, unit :: units, w₂, rfl, ?_, hfails⟩
        exact buildFiles_cons.mpr ⟨unit, w₁, units, hfirst, hbefore, rfl⟩
      · cases h

/-- The source, artifact and marker of each of the files are as they were. -/
def Untouched (s : BuildSetting) (t : Tree) (ids : List NodeId) (w w' : Workshop) : Prop :=
  ∀ file ∈ ids, ∀ name, unitName t file = .ok name → Cache.isUnitName name →
    ∀ k : Cache.UnitFile, w'.disk.lookup? (k.path s.directory name) =
      w.disk.lookup? (k.path s.directory name)

theorem Distinct.symm {a b : NodeId} (h : Distinct t a b) : Distinct t b a :=
  fun name hb ha => h name ha hb

theorem buildFile_untouched (hc : s.compiler.Confined) (hd : ∀ other ∈ ids, Distinct t file other) :
    Untouched s t ids w (leftBy (buildFile s t file w)) := by
  intro other hm name hother hn k
  unfold buildFile
  cases hname : unitName t file with
  | error e => rfl
  | ok built =>
    cases Renderer.render ⟨t, s.registry, s.rules⟩ file with
    | error e => rfl
    | ok text =>
      apply (Cache.call_materialize ..).keeps hc hn
      rintro rfl
      exact hd other hm name hname hother

theorem buildFiles_untouched (hc : s.compiler.Confined) {built : List NodeId}
    (hd : ∀ file ∈ built, ∀ other ∈ ids, Distinct t file other) {units : List CompiledUnit}
    (h : buildFiles s t built w = .ok units w') : Untouched s t ids w w' := by
  induction built generalizing w units with
  | nil =>
    cases h
    intro _ _ _ _ _ _
    rfl
  | cons file rest ih =>
    obtain ⟨hfile, hrest⟩ := List.forall_mem_cons.mp hd
    obtain ⟨unit, w₁, others, hfirst, hothers, rfl⟩ := buildFiles_cons.mp h
    have hkept := buildFile_untouched (w := w) hc hfile
    rw [hfirst] at hkept
    intro other hm name hname hn k
    exact (ih hrest hothers other hm name hname hn k).trans (hkept other hm name hname hn k)

/-- A build that fails because of its tree has written nothing and not run the compiler. One that
fails at a file has built the files before it in order, and has left their units as they were then;
no file of a unit that comes later has been touched. -/
theorem failed_build_stops (hc : s.compiler.Confined) (hb : s.compiler.BlamesNoTree)
    (h : compile s t root w = (t', .error e w')) :
    (e.OfTree → w' = w) ∧
    ((prepare s.registry t root = (t', .error e) ∧ w' = w) ∨
      ∃ before file after units w₁,
        prepare s.registry t root = (t', .ok (before ++ file :: after)) ∧
        buildFiles s t' before w = .ok units w₁ ∧ buildFile s t' file w₁ = .error e w' ∧
        Untouched s t' before w₁ w' ∧ Untouched s t' after w w') := by
  unfold compile at h
  split at h
  · next filled cause hprepare =>
    cases h
    exact ⟨fun _ => rfl, Or.inl ⟨hprepare, rfl⟩⟩
  · next filled ids hprepare =>
    obtain ⟨rfl, hbuild⟩ := Prod.mk.inj h
    have hready := ready_of_prepare hprepare
    obtain ⟨before, file, after, units, w₁, rfl, hbefore, hfails⟩ := buildFiles_error hbuild
    obtain ⟨-, hrest, hcross⟩ := List.pairwise_append.mp hready.distinct
    have hlater := (List.pairwise_cons.mp hrest).1
    have hkept : ∀ others : List NodeId, (∀ other ∈ others, Distinct filled file other) →
        Untouched s filled others w₁ w' := by
      intro others hd
      have := buildFile_untouched (w := w₁) hc hd
      rw [hfails] at this
      exact this
    refine ⟨fun he => ?_, Or.inr ⟨before, file, after, units, w₁, hprepare, hbefore, hfails, ?_, ?_⟩⟩
    · exact absurd he (hready.buildFile_error (by simp) hb hfails)
    · apply hkept
      intro other hm
      exact (hcross other hm file (by simp)).symm
    · have hdone : Untouched s filled after w w₁ := by
        apply buildFiles_untouched hc _ hbefore
        intro f hf other hm
        exact hcross f hf other (by simp [hm])
      intro other hm name hname hn k
      exact (hkept after hlater other hm name hname hn k).trans (hdone other hm name hname hn k)

/-- Three empty files, the second of them under a name that is no unit name. -/
def misnamed : Tree :=
  ⟨#[⟨.project [1, 2, 3], none⟩, ⟨.file "u" [], some 0⟩, ⟨.file "v/" [], some 0⟩,
    ⟨.file "w" [], some 0⟩], 0⟩

theorem flaky_blamesNoTree : Cache.flaky.BlamesNoTree := by
  intro run source artifact d e d' h
  unfold Cache.flaky at h
  split at h
  · cases h
    exact id
  · split at h
    · cases h
      exact id
    · cases h

theorem misnamed_not_built (w w' : Workshop) (unit : CompiledUnit) :
    buildFile workplace misnamed 2 w ≠ .ok unit w' := by
  intro h
  obtain ⟨name, text, hname, -, hmake⟩ := buildFile_ok.mp h
  obtain rfl : "v/" = name := Except.ok.inj hname
  have hcall := Cache.call_materialize workplace.compiler workplace.directory "v/" text w
  rw [hmake] at hcall
  exact absurd (hcall.current Cache.flaky_delivers).1 (by decide)

def failure : EStateM.Result BuildError Workshop (List CompiledUnit) → Option (BuildError × Nat)
  | .ok _ _ => none
  | .error e w => some (e, w.runs)

/-- The first file is compiled, and the third is not come to. -/
theorem misnamed_stops :
    ∃ w', compile workplace misnamed 0 { Cache.bench with runs := 1 } =
        (misnamed, .error (.invalidUnitName "v/") w') ∧ w'.runs = 2 ∧
      Untouched workplace misnamed [3] { Cache.bench with runs := 1 } w' := by
  have hfailure : failure (compile workplace misnamed 0 { Cache.bench with runs := 1 }).2 =
      some (.invalidUnitName "v/", 2) := by decide +kernel
  have htree := compile_tree workplace misnamed 0 { Cache.bench with runs := 1 }
  have hsame : (prepare workplace.registry misnamed 0).1 = misnamed := by decide +kernel
  rcases hc : compile workplace misnamed 0 { Cache.bench with runs := 1 } with
    ⟨t', ⟨units, w'⟩ | ⟨e, w'⟩⟩
  · rw [hc] at hfailure
    cases hfailure
  · rw [hc] at hfailure htree
    obtain ⟨rfl, hruns⟩ := Prod.mk.inj (Option.some.inj hfailure)
    obtain rfl : t' = misnamed := htree.trans hsame
    refine ⟨w', rfl, hruns, ?_⟩
    obtain ⟨-, ⟨-, rfl⟩ | ⟨before, file, after, units, w₁, hprepare, hbefore, -, -, hafter⟩⟩ :=
      failed_build_stops Cache.flaky_confined flaky_blamesNoTree hc
    · cases hruns
    · have hfiles : files misnamed 0 = .ok [1, 2, 3] := by rfl
      have hids : [1, 2, 3] = before ++ file :: after :=
        Except.ok.inj (hfiles.symm.trans (prepare_ok hprepare).2)
      have hlast : 3 ∈ after := by
        rcases before with _ | ⟨first, _ | ⟨second, rest⟩⟩
        · cases hids
          simp
        · cases hids
          simp
        · simp only [List.cons_append, List.cons.injEq] at hids
          obtain ⟨rfl, rfl, -⟩ := hids
          obtain ⟨_, _, _, -, hrest, -⟩ := buildFiles_cons.mp hbefore
          obtain ⟨_, _, _, hsecond, -, -⟩ := buildFiles_cons.mp hrest
          exact absurd hsecond (misnamed_not_built _ _ _)
      intro other hm
      rw [List.mem_singleton.mp hm]
      exact hafter 3 hlast

end Project
end Arbor
