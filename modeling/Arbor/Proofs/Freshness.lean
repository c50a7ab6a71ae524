import Arbor.Proofs.UnitFiles

/-!
Artifacts are never older than their markers say.

A marker comes back only after the compiler has succeeded on the source whose digest it holds, and
it goes before anything else of its unit is touched. So whatever is compiled in between, whichever
runs fail and whichever files others delete, a marker vouches for the last run of its unit, and an
artifact beside it is what that run left.
-/
namespace Arbor

def leftBy {ε σ α : Type} : EStateM.Result ε σ α → σ
  | .ok _ s => s
  | .error _ s => s

namespace BuildM

variable {f : Disk → Except DiskError Disk} {w w' : Workshop}

theorem onDisk_ok {u : Unit} :
    onDisk f w = .ok u w' ↔ ∃ d, f w.disk = .ok d ∧ w' = { w with disk := d } := by
  unfold onDisk
  cases f w.disk with
  | ok d => simp [eq_comm]
  | error e => simp

theorem onDisk_error {e : BuildError} (h : onDisk f w = .error e w') : w' = w := by
  unfold onDisk at h
  cases hf : f w.disk with
  | ok d => simp [hf] at h
  | error e => simp_all

end BuildM

/-- A compiler that touches nothing but the artifact it is told to make. -/
def Compiler.Confined (compiler : Compiler) : Prop :=
  ∀ run source artifact d,
    Disk.Alters (fun p => d.resolve artifact = .ok p) d (leftBy (compiler run source artifact d))

def Disk.IsEmptyDirectory (d : Disk) (directory : String) : Prop :=
  ∃ home, d.Home directory home ∧ ∀ file, d.entryAt? (home ++ [file]) = none

namespace Cache

def clear (directory name text : String) : BuildM Unit := do
  BuildM.onDisk (·.removeIfPresent (markerPath directory name))
  BuildM.onDisk (·.removeIfPresent (artifactPath directory name))
  BuildM.onDisk (·.write (sourcePath directory name) (sourceText text))

theorem rebuild_eq (compiler : Compiler) (directory name text : String) :
    rebuild compiler directory name text = (do
      clear directory name text
      BuildM.runCompiler compiler (sourcePath directory name) (artifactPath directory name)
      BuildM.onDisk (·.write (markerPath directory name) (contentHash text))) := by
  simp [rebuild, clear]

/-- A run of the compiler: the unit it was for, and the disk before and after it. -/
structure Run where
  name : String
  before : Disk
  after : Disk
  succeeded : Bool

def runAt (compiler : Compiler) (directory name : String) (w : Workshop) : Run :=
  match compiler (w.runs + 1) (sourcePath directory name) (artifactPath directory name) w.disk with
  | .ok () d => ⟨name, w.disk, d, true⟩
  | .error _ d => ⟨name, w.disk, d, false⟩

/-- The run that a call makes, if it comes to that. -/
def runsOf (compiler : Compiler) (directory name text : String) (w : Workshop) : List Run :=
  if !isUnitName name then []
  else
    match isCurrent w.disk directory name (contentHash text) with
    | .ok false =>
      match clear directory name text w with
      | .ok () w => [runAt compiler directory name w]
      | .error _ _ => []
    | _ => []

/-- Calls and deletions by others, in any order, and the runs of the compiler, the last one
first. -/
inductive History (compiler : Compiler) (directory : String) (start : Workshop) :
    Workshop → List Run → Prop where
  | start : History compiler directory start start []
  | call {w log} (name text : String) : History compiler directory start w log →
      History compiler directory start (leftBy (materialize compiler directory name text w))
        (runsOf compiler directory name text w ++ log)
  | remove {w log d} (path : String) : History compiler directory start w log →
      w.disk.remove path = .ok d → History compiler directory start { w with disk := d } log

inductive Call (compiler : Compiler) (directory name text : String) (w : Workshop) :
    EStateM.Result BuildError Workshop CompiledUnit → List Run → Prop where
  | invalid : isUnitName name = false →
      Call compiler directory name text w (.error (.invalidUnitName name) w) []
  | unreadable {e} : isUnitName name →
      isCurrent w.disk directory name (contentHash text) = .error e →
      Call compiler directory name text w (.error (.disk e) w) []
  | reused : isUnitName name → isCurrent w.disk directory name (contentHash text) = .ok true →
      Call compiler directory name text w (.ok (unitOf directory name text .reused) w) []
  | stopped {e w₁} : isUnitName name → clear directory name text w = .error e w₁ →
      Call compiler directory name text w (.error e w₁) []
  | failed {w₁ e d} : isUnitName name → clear directory name text w = .ok () w₁ →
      compiler (w₁.runs + 1) (sourcePath directory name) (artifactPath directory name) w₁.disk =
        .error e d →
      Call compiler directory name text w (.error e ⟨d, w₁.runs + 1⟩) [⟨name, w₁.disk, d, false⟩]
  | unmarked {w₁ e d} : isUnitName name → clear directory name text w = .ok () w₁ →
      compiler (w₁.runs + 1) (sourcePath directory name) (artifactPath directory name) w₁.disk =
        .ok () d →
      Call compiler directory name text w (.error (.disk e) ⟨d, w₁.runs + 1⟩)
        [⟨name, w₁.disk, d, true⟩]
  | compiled {w₁ d d'} : isUnitName name → clear directory name text w = .ok () w₁ →
      compiler (w₁.runs + 1) (sourcePath directory name) (artifactPath directory name) w₁.disk =
        .ok () d →
      d.write (markerPath directory name) (contentHash text) = .ok d' →
      Call compiler directory name text w
        (.ok (unitOf directory name text .compiled) ⟨d', w₁.runs + 1⟩) [⟨name, w₁.disk, d, true⟩]

variable {compiler : Compiler} {directory name text : String} {home : Place} {w w₁ : Workshop}

theorem call_materialize (compiler : Compiler) (directory name text : String) (w : Workshop) :
    Call compiler directory name text w (materialize compiler directory name text w)
      (runsOf compiler directory name text w) := by
  unfold materialize runsOf
  cases hn : isUnitName name with
  | false => exact .invalid hn
  | true =>
    simp only [Bool.not_true, Bool.false_eq_true, if_false]
    cases hc : isCurrent w.disk directory name (contentHash text) with
    | error e => exact .unreadable hn hc
    | ok current =>
      cases current with
      | true => exact .reused hn hc
      | false =>
        simp only [rebuild_eq, bind, EStateM.bind]
        cases hclear : clear directory name text w with
        | error e w₁ => exact .stopped hn hclear
        | ok u w₁ =>
          simp only [BuildM.runCompiler, runAt]
          cases hrun : compiler (w₁.runs + 1) (sourcePath directory name)
            (artifactPath directory name) w₁.disk with
          | error e d => exact .failed hn hclear hrun
          | ok u d =>
            simp only [BuildM.onDisk]
            cases hwrite : d.write (markerPath directory name) (contentHash text) with
            | error e => exact .unmarked hn hclear hrun
            | ok d' => exact .compiled hn hclear hrun hwrite

theorem clear_ok (hn : isUnitName name) (hh : w.disk.Home directory home)
    (h : clear directory name text w = .ok () w₁) :
    w₁.runs = w.runs ∧ Disk.Alters (OfUnit home name) w.disk w₁.disk ∧
      (∀ k : UnitFile, Disk.Fits directory (k.fileName name)) ∧
      w₁.disk.entryAt? (UnitFile.marker.place home name) = none ∧
      w₁.disk.entryAt? (UnitFile.artifact.place home name) = none ∧
      w₁.disk.entryAt? (UnitFile.source.place home name) = some (.file (sourceText text)) := by
  obtain ⟨_, _, h₁, h⟩ := run_bind_ok.mp h
  obtain ⟨_, _, h₂, h₃⟩ := run_bind_ok.mp h
  obtain ⟨d₁, hmarker, rfl⟩ := BuildM.onDisk_ok.mp h₁
  obtain ⟨d₂, hartifact, rfl⟩ := BuildM.onDisk_ok.mp h₂
  obtain ⟨d₃, hsource, rfl⟩ := BuildM.onDisk_ok.mp h₃
  obtain ⟨fits₁, alter₁, gone₁⟩ := removed_unit (k := .marker) hn hh hmarker
  have hh₁ := alter₁.sameHome hh
  rw [artifactPath_eq] at hartifact
  obtain ⟨fits₂, alter₂, gone₂⟩ := removed_unit hn hh₁ hartifact
  obtain ⟨fits₃, alter₃, written⟩ := written_unit (k := .source) hn (alter₂.sameHome hh₁) hsource
  refine ⟨rfl, ?_, ?_, ?_, ?_, written⟩
  · exact ((alter₁.mono fun p hp => ⟨_, hp⟩).trans (alter₂.mono fun p hp => ⟨_, hp⟩)).trans
      (alter₃.mono fun p hp => ⟨_, hp⟩)
  · rintro (_ | _ | _)
    · exact fits₃
    · exact fits₂
    · exact fits₁
  -- the steps are at different places, so the later ones leave what the earlier ones did
  · rw [alter₃.kept _ (UnitFile.place_ne (by decide)), alter₂.kept _ (UnitFile.place_ne (by decide))]
    exact gone₁
  · rw [alter₃.kept _ (UnitFile.place_ne (by decide))]
    exact gone₂

theorem clear_error (hn : isUnitName name) (hh : w.disk.Home directory home) {e : BuildError}
    (h : clear directory name text w = .error e w₁) :
    w₁.runs = w.runs ∧ Disk.Alters (OfUnit home name) w.disk w₁.disk ∧
      (w₁ = w ∨ w₁.disk.entryAt? (UnitFile.marker.place home name) = none) := by
  rcases run_bind_error.mp h with h₁ | ⟨_, _, h₁, h⟩
  · rw [BuildM.onDisk_error h₁]
    exact ⟨rfl, .refl .., Or.inl rfl⟩
  · obtain ⟨d₁, hmarker, rfl⟩ := BuildM.onDisk_ok.mp h₁
    obtain ⟨-, alter₁, gone₁⟩ := removed_unit (k := .marker) hn hh hmarker
    have hh₁ := alter₁.sameHome hh
    rcases run_bind_error.mp h with h₂ | ⟨_, _, h₂, h₃⟩
    · rw [BuildM.onDisk_error h₂]
      exact ⟨rfl, alter₁.mono fun p hp => ⟨_, hp⟩, Or.inr gone₁⟩
    · obtain ⟨d₂, hartifact, rfl⟩ := BuildM.onDisk_ok.mp h₂
      rw [artifactPath_eq] at hartifact
      obtain ⟨-, alter₂, -⟩ := removed_unit hn hh₁ hartifact
      rw [BuildM.onDisk_error h₃]
      refine ⟨rfl, (alter₁.mono fun p hp => ⟨_, hp⟩).trans (alter₂.mono fun p hp => ⟨_, hp⟩), ?_⟩
      right
      rw [alter₂.kept _ (UnitFile.place_ne (by decide))]
      exact gone₁

def Run.Confined (directory : String) (run : Run) : Prop :=
  Disk.Alters (fun p => run.before.resolve (artifactPath directory run.name) = .ok p)
    run.before run.after

variable {result : EStateM.Result BuildError Workshop CompiledUnit} {runs log : List Run}

theorem Run.Confined.alters {run : Run} (h : run.Confined directory) (hn : isUnitName run.name)
    (hh : run.before.Home directory home) :
    Disk.Alters (· = UnitFile.artifact.place home run.name) run.before run.after := by
  refine h.mono fun p hp => ?_
  rw [artifactPath_eq] at hp
  exact (Disk.place_of_resolve (UnitFile.artifact.isFileName hn) hh hp).2

/-- While the compiler runs there is no marker, and none is there after it. -/
theorem launched (hn : isUnitName name) (hh : w.disk.Home directory home) {d : Disk} {flag : Bool}
    (hclear : clear directory name text w = .ok () w₁)
    (hc : Run.Confined directory ⟨name, w₁.disk, d, flag⟩) :
    Disk.Alters (OfUnit home name) w.disk d ∧
      d.entryAt? (UnitFile.marker.place home name) = none ∧
      w₁.disk.Home directory home ∧ d.Home directory home := by
  obtain ⟨-, halters, -, hmarker, -⟩ := clear_ok hn hh hclear
  have hbefore := halters.sameHome hh
  have hrun := hc.alters hn hbefore
  refine ⟨halters.trans (hrun.mono fun p hp => ⟨_, hp⟩), ?_, hbefore, hrun.sameHome hbefore⟩
  exact (hrun.kept _ (UnitFile.place_ne (by decide))).trans hmarker

namespace Call

theorem confined (h : Call compiler directory name text w result runs) (hc : compiler.Confined) :
    ∀ run ∈ runs, run.Confined directory := by
  have confine : ∀ w₁ : Workshop, ∀ r, compiler (w₁.runs + 1) (sourcePath directory name)
      (artifactPath directory name) w₁.disk = r → ∀ flag,
      Run.Confined directory ⟨name, w₁.disk, leftBy r, flag⟩ := by
    rintro w₁ _ rfl flag
    exact hc ..
  cases h with
  | invalid | unreadable | reused | stopped => exact nofun
  | failed _ _ hrun | unmarked _ _ hrun | compiled _ _ hrun =>
    intro run hm
    rw [List.mem_singleton.mp hm]
    exact confine _ _ hrun _

theorem names (h : Call compiler directory name text w result runs) :
    ∀ run ∈ runs, isUnitName name ∧ run.name = name := by
  cases h with
  | invalid | unreadable | reused | stopped => exact nofun
  | failed hn | unmarked hn | compiled hn =>
    intro run hm
    rw [List.mem_singleton.mp hm]
    exact ⟨hn, rfl⟩

theorem alters (h : Call compiler directory name text w result runs)
    (hh : w.disk.Home directory home) (hc : ∀ run ∈ runs, run.Confined directory) :
    Disk.Alters (OfUnit home name) w.disk (leftBy result).disk := by
  cases h with
  | invalid | unreadable | reused => exact .refl ..
  | stopped hn hclear => exact (clear_error hn hh hclear).2.1
  | failed hn hclear | unmarked hn hclear =>
    exact (launched hn hh hclear (hc _ (List.mem_singleton_self _))).1
  | compiled hn hclear _ hwrite =>
    obtain ⟨halters, -, -, hhome⟩ := launched hn hh hclear (hc _ (List.mem_singleton_self _))
    have hmarker := (written_unit (k := .marker) hn hhome hwrite).2.1
    exact halters.trans (hmarker.mono fun p hp => ⟨_, hp⟩)

theorem runs_eq (h : Call compiler directory name text w result runs)
    (hh : w.disk.Home directory home) : (leftBy result).runs = w.runs + runs.length := by
  cases h with
  | invalid | unreadable | reused => rfl
  | stopped hn hclear => exact (clear_error hn hh hclear).1
  | failed hn hclear | unmarked hn hclear | compiled hn hclear =>
    exact congrArg (· + 1) (clear_ok hn hh hclear).1

end Call

def lastRun? (log : List Run) (name : String) : Option Run :=
  log.find? fun run => run.name == name

/-- A run that the marker of a unit stands for. -/
structure Backs (directory : String) (home : Place) (d : Disk) (name : String)
    (entry : DiskEntry) (run : Run) : Prop where
  succeeded : run.succeeded = true
  fits : ∀ k : UnitFile, Disk.Fits directory (k.fileName name)
  before : run.before.Home directory home
  after : run.after.Home directory home
  source : ∃ text, run.before.entryAt? (UnitFile.source.place home name) = some (.file text) ∧
    entry = .file (contentHash text)
  absent : run.before.entryAt? (UnitFile.artifact.place home name) = none
  artifact : d.entryAt? (UnitFile.artifact.place home name) = none ∨
    d.entryAt? (UnitFile.artifact.place home name) =
      run.after.entryAt? (UnitFile.artifact.place home name)

/-- Every marker is backed by the last run for its unit. -/
structure Sound (directory : String) (home : Place) (w : Workshop) (log : List Run) : Prop where
  resolves : w.disk.Home directory home
  names : ∀ run ∈ log, isUnitName run.name
  backed : ∀ name entry, w.disk.entryAt? (UnitFile.marker.place home name) = some entry →
    ∃ run, lastRun? log name = some run ∧ Backs directory home w.disk name entry run

theorem Backs.keep {d d' : Disk} {entry : DiskEntry} {run : Run}
    (h : Backs directory home d name entry run)
    (ha : d'.entryAt? (UnitFile.artifact.place home name) = none ∨
      d'.entryAt? (UnitFile.artifact.place home name) =
        d.entryAt? (UnitFile.artifact.place home name)) :
    Backs directory home d' name entry run := by
  refine { h with artifact := ?_ }
  rcases ha with hnone | hsame
  · exact Or.inl hnone
  · rw [hsame]
    exact h.artifact

namespace Sound

theorem remove (h : Sound directory home w log) {path : String} {d : Disk}
    (hr : w.disk.remove path = .ok d) : Sound directory home { w with disk := d } log := by
  obtain ⟨place, -, halters, hgone⟩ := Disk.remove_spec hr
  refine ⟨halters.sameHome h.resolves, h.names, fun name entry hentry => ?_⟩
  have kept : ∀ p, d.entryAt? p = none ∨ d.entryAt? p = w.disk.entryAt? p := by
    intro p
    by_cases hp : p = place
    · exact Or.inl (hp ▸ hgone)
    · exact Or.inr (halters.kept p hp)
  have hbefore := ((kept _).resolve_left (by simp [hentry])).symm.trans hentry
  obtain ⟨run, hlast, hbacks⟩ := h.backed name entry hbefore
  exact ⟨run, hlast, hbacks.keep (kept _)⟩

theorem other (h : Sound directory home w log) {w' : Workshop} {n : String} {entry : DiskEntry}
    (halters : Disk.Alters (OfUnit home name) w.disk w'.disk)
    (hnames : ∀ run ∈ runs, run.name = name) (hne : n ≠ name)
    (hentry : w'.disk.entryAt? (UnitFile.marker.place home n) = some entry) :
    ∃ run, lastRun? (runs ++ log) n = some run ∧ Backs directory home w'.disk n entry run := by
  rw [halters.kept _ (not_ofUnit hne)] at hentry
  obtain ⟨run, hlast, hbacks⟩ := h.backed n entry hentry
  have hskip : runs.find? (fun run => run.name == n) = none := by
    refine List.find?_eq_none.mpr fun run hm => ?_
    simpa [hnames run hm] using Ne.symm hne
  refine ⟨run, ?_, hbacks.keep (Or.inr (halters.kept _ (not_ofUnit hne)))⟩
  rw [lastRun?, List.find?_append, hskip, Option.none_or]
  exact hlast

theorem marked (hn : isUnitName name) (hh : w.disk.Home directory home) {d d' : Disk}
    (hclear : clear directory name text w = .ok () w₁)
    (hc : Run.Confined directory ⟨name, w₁.disk, d, true⟩)
    (hwrite : d.write (markerPath directory name) (contentHash text) = .ok d') :
    d'.entryAt? (UnitFile.marker.place home name) = some (.file (contentHash text)) ∧
      Backs directory home d' name (.file (contentHash text)) ⟨name, w₁.disk, d, true⟩ := by
  obtain ⟨-, -, hfits, -, habsent, hsource⟩ := clear_ok hn hh hclear
  obtain ⟨-, -, hbefore, hafter⟩ := launched hn hh hclear hc
  obtain ⟨-, halters, hmarker⟩ := written_unit (k := .marker) hn hafter hwrite
  refine ⟨hmarker, rfl, hfits, hbefore, hafter, ⟨sourceText text, hsource, ?_⟩, habsent, ?_⟩
  · rw [contentHash_sourceText]
  · exact Or.inr (halters.kept _ (UnitFile.place_ne (by decide)))

theorem call (h : Sound directory home w log)
    (hcall : Call compiler directory name text w result runs)
    (hc : ∀ run ∈ runs, run.Confined directory) :
    Sound directory home (leftBy result) (runs ++ log) := by
  have halters := hcall.alters h.resolves hc
  refine ⟨halters.sameHome h.resolves, ?_, fun n entry hentry => ?_⟩
  · intro run hm
    rcases List.mem_append.mp hm with hm | hm
    · obtain ⟨hn, he⟩ := hcall.names run hm
      rw [he]
      exact hn
    · exact h.names run hm
  · by_cases hne : n = name
    · subst hne
      -- a marker of this unit is the old one untouched, or that of the run just made
      cases hcall with
      | invalid | unreadable | reused => exact h.backed n entry hentry
      | stopped hn hclear =>
        rcases (clear_error hn h.resolves hclear).2.2 with rfl | hgone
        · exact h.backed n entry hentry
        · cases hgone.symm.trans hentry
      | failed hn hclear | unmarked hn hclear =>
        have hgone := (launched hn h.resolves hclear (hc _ (List.mem_singleton_self _))).2.1
        cases hgone.symm.trans hentry
      | compiled hn hclear _ hwrite =>
        obtain ⟨hmarker, hbacks⟩ :=
          marked hn h.resolves hclear (hc _ (List.mem_singleton_self _)) hwrite
        cases hmarker.symm.trans hentry
        exact ⟨_, by simp [lastRun?], hbacks⟩
    · exact h.other halters (fun run hm => (hcall.names run hm).2) hne hentry

end Sound

section Reachable

variable {start : Workshop}

theorem History.sound (h : History compiler directory start w log) (hc : compiler.Confined)
    (hh : start.disk.Home directory home)
    (hempty : ∀ file, start.disk.entryAt? (home ++ [file]) = none) :
    Sound directory home w log := by
  induction h with
  | start =>
    refine ⟨hh, nofun, fun name entry hentry => ?_⟩
    cases (hempty _).symm.trans hentry
  | @call w log name text _ ih =>
    have hcall := call_materialize compiler directory name text w
    exact ih.call hcall (hcall.confined hc)
  | remove path _ hr ih => exact ih.remove hr

theorem History.runs_eq (h : History compiler directory start w log) (hc : compiler.Confined)
    (hh : start.disk.Home directory home)
    (hempty : ∀ file, start.disk.entryAt? (home ++ [file]) = none) :
    w.runs = start.runs + log.length := by
  induction h with
  | start => rfl
  | @call w log name text hw ih =>
    have hcall := call_materialize compiler directory name text w
    rw [hcall.runs_eq (hw.sound hc hh hempty).resolves, ih, List.length_append]
    omega
  | remove path _ hr ih => exact ih

theorem Call.marker {unit : CompiledUnit} {w' : Workshop}
    (h : Call compiler directory name text w (.ok unit w') runs)
    (hh : w.disk.Home directory home) (hc : ∀ run ∈ runs, run.Confined directory) :
    isUnitName name ∧ ∃ digest, Text.trim digest = contentHash text ∧
      w'.disk.entryAt? (UnitFile.marker.place home name) = some (.file digest) := by
  cases h with
  | reused hn hcurrent =>
    obtain ⟨⟨digest, hmarker, htrim⟩, -⟩ := isCurrent_iff.mp hcurrent
    exact ⟨hn, digest, htrim, (unit_of_lookup? (k := .marker) hn hh hmarker).2⟩
  | compiled hn hclear _ hwrite =>
    have hmarked := Sound.marked hn hh hclear (hc _ (List.mem_singleton_self _)) hwrite
    exact ⟨hn, contentHash text, trim_contentHash text, hmarked.1⟩

end Reachable

/-- From an empty build directory, through calls for any units and texts, runs that succeed or
fail with or without an artifact, and deletions by others: an artifact that a call answers for is
what the last run for its unit wrote, which succeeded on a source of the same digest, and after a
run that failed there is no marker. -/
theorem cache_serves_no_stale_artifact {start : Workshop} (hc : compiler.Confined)
    (he : start.disk.IsEmptyDirectory directory)
    (h : History compiler directory start w log) (name : String) :
    (∀ text unit w', materialize compiler directory name text w = .ok unit w' →
      w'.disk.exists? (artifactPath directory name) →
      ∃ run source, lastRun? (runsOf compiler directory name text w ++ log) name = some run ∧
        run.succeeded = true ∧ run.before.read (sourcePath directory name) = .ok source ∧
        contentHash source = contentHash text ∧
        run.before.lookup? (artifactPath directory name) = none ∧
        w'.disk.lookup? (artifactPath directory name) =
          run.after.lookup? (artifactPath directory name)) ∧
    (∀ run, lastRun? log name = some run → run.succeeded = false →
      w.disk.exists? (markerPath directory name) = false) ∧
    w.runs = start.runs + log.length := by
  obtain ⟨home, hh, hempty⟩ := he
  have hsound := h.sound hc hh hempty
  refine ⟨?_, ?_, h.runs_eq hc hh hempty⟩
  · intro text unit w' hresult hexists
    have hcall := call_materialize compiler directory name text w
    rw [hresult] at hcall
    have hconfined := hcall.confined hc
    have hafter : Sound directory home w' (runsOf compiler directory name text w ++ log) :=
      hsound.call hcall hconfined
    obtain ⟨hn, digest, htrim, hmarker⟩ := hcall.marker hsound.resolves hconfined
    -- the marker that the call leaves names the run, and its digest is that of the text
    obtain ⟨run, hlast, hbacks⟩ := hafter.backed name _ hmarker
    obtain ⟨source, hsource, hdigest⟩ := hbacks.source
    rw [DiskEntry.file.inj hdigest, trim_contentHash] at htrim
    rw [artifactPath_eq, Disk.exists?,
      lookup?_unit hn hafter.resolves (hbacks.fits .artifact)] at hexists
    refine ⟨run, source, hlast, hbacks.succeeded, ?_, htrim, ?_, ?_⟩
    · rw [Disk.read_eq_ok, sourcePath_eq, lookup?_unit hn hbacks.before (hbacks.fits .source)]
      exact hsource
    · rw [artifactPath_eq, lookup?_unit hn hbacks.before (hbacks.fits .artifact)]
      exact hbacks.absent
    · rw [artifactPath_eq, lookup?_unit hn hafter.resolves (hbacks.fits .artifact),
        lookup?_unit hn hbacks.after (hbacks.fits .artifact)]
      exact hbacks.artifact.resolve_left (Option.isSome_iff_ne_none.mp hexists)
  · intro run hlast hfailed
    have hname : run.name = name := by simpa using List.find?_some hlast
    have hn : isUnitName name := hname ▸ hsound.names run (List.mem_of_find?_eq_some hlast)
    cases hlook : w.disk.lookup? (markerPath directory name) with
    | none => simp [Disk.exists?, hlook]
    | some entry =>
      have hmarker := (unit_of_lookup? (k := .marker) hn hsound.resolves hlook).2
      obtain ⟨run', hlast', hbacks⟩ := hsound.backed name entry hmarker
      cases hlast.symm.trans hlast'
      cases hfailed.symm.trans hbacks.succeeded

/-- Writes an artifact on every run, and fails on the first. -/
def flaky : Compiler := fun run _ artifact d =>
  match d.write artifact (toString run) with
  | .error e => .error (.disk e) d
  | .ok d => if run = 1 then .error (.missingArtifact artifact) d else .ok () d

theorem flaky_confined : flaky.Confined := by
  intro run source artifact d
  unfold flaky
  cases hw : d.write artifact (toString run) with
  | error e => exact .refl ..
  | ok d' =>
    have hall := (Disk.write_only hw).1
    by_cases hfirst : run = 1 <;> simpa [hfirst, leftBy] using hall

def bench : Workshop := ⟨.empty ["b"], 0⟩

theorem bench_empty : bench.disk.IsEmptyDirectory "/b" := by
  refine ⟨["b"], ⟨by rfl, by rfl⟩, fun file => ?_⟩
  simp [bench, Disk.empty, Disk.entryAt?, Table.get?]

/-- The first run leaves an artifact and fails; the second call does not take it for its own. -/
theorem second_call_serves_own_artifact :
    ∃ w log, History flaky "/b" bench w log ∧ w.disk.exists? (artifactPath "/b" "u") ∧
      w.disk.exists? (markerPath "/b" "u") = false ∧
      ∃ unit w', materialize flaky "/b" "u" "int x;" w = .ok unit w' ∧
        w'.disk.exists? (artifactPath "/b" "u") ∧
        ∃ run source, lastRun? (runsOf flaky "/b" "u" "int x;" w ++ log) "u" = some run ∧
          run.succeeded = true ∧ run.before.read (sourcePath "/b" "u") = .ok source ∧
          contentHash source = contentHash "int x;" ∧
          run.before.lookup? (artifactPath "/b" "u") = none ∧
          w'.disk.lookup? (artifactPath "/b" "u") = run.after.lookup? (artifactPath "/b" "u") := by
  have hfirst : History flaky "/b" bench _ _ := .call "u" "int x;" .start
  obtain ⟨hserves, hfailed, -⟩ :=
    cache_serves_no_stale_artifact flaky_confined bench_empty hfirst "u"
  refine ⟨_, _, hfirst, by rfl, hfailed _ (by rfl) (by rfl), ?_⟩
  have hsecond : ∃ unit w', materialize flaky "/b" "u" "int x;"
      (leftBy (materialize flaky "/b" "u" "int x;" bench)) = .ok unit w' ∧
      w'.disk.exists? (artifactPath "/b" "u") := ⟨_, _, by rfl, by rfl⟩
  obtain ⟨unit, w', hok, hexists⟩ := hsecond
  exact ⟨unit, w', hok, hexists, hserves _ unit w' hok hexists⟩

end Cache
end Arbor
