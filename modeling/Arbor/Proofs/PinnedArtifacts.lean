import Arbor.Link.Module
import Arbor.Proofs.Rebuilds
import Arbor.Proofs.SiblingFiles
import Mathlib.Data.List.Basic

/-!
What a loader opens.

An artifact is opened under a second name, made of the name of its unit and the beginning of its
digest. The second name is given once, at the first link, and the program never takes it away or
writes through it: a rebuilt artifact is a new file, and no unit has a file of such a name. So every
later link of that name and digest opens the file of the first, whatever has become of the artifact.
It is the artifact of the moment only if that holds the text again that it held at the first link.
-/
namespace Arbor

theorem contentHash_nonempty (text : String) : (contentHash text).isEmpty = false := by
  have hword : ∀ w, Sha256.hexWord w ≠ [] := by
    simp [Sha256.hexWord, Sha256.bigEndian, Sha256.hexByte]
    exact ⟨0, by decide⟩
  rw [contentHash, Sha256.digest]
  simp [Sha256.State.words, hword]

theorem contentHash_digits (text : String) :
    ∀ c ∈ (contentHash text).toList, ∃ n < 16, c = Nat.digitChar n := by
  obtain ⟨words, he⟩ := Sha256.digest_eq (Text.trim text).toUTF8.data.toList
  rw [contentHash, he, String.toList_ofList]
  exact Sha256.hexWords_digits words

namespace Cache

/-- The name of a unit, without a dot in it. -/
def IsPlain (name : String) : Prop := isUnitName name ∧ '.' ∉ name.toList

instance (name : String) : Decidable (IsPlain name) := inferInstanceAs (Decidable (_ ∧ _))

def Issued (directory : String) (unit : CompiledUnit) : Prop :=
  ∃ name text outcome, IsPlain name ∧ unit = unitOf directory name text outcome

def issued : EStateM.Result BuildError Workshop CompiledUnit → List CompiledUnit
  | .ok unit _ => [unit]
  | .error _ _ => []

end Cache

namespace Module

open Cache

def digestPart (unit : CompiledUnit) : List Char := takeBytes digestBytes unit.hash.toList

/-- Whether two units are opened under one name. -/
def sharesPin (u v : CompiledUnit) : Bool := u.name = v.name && digestPart u = digestPart v

/-- A loader opens a unit. -/
structure Opening where
  unit : CompiledUnit
  path : String
  /-- The disk as the loader finds it. -/
  disk : Disk

namespace Opening

def opened (o : Opening) : Except DiskError String := o.disk.read o.path

def artifact (o : Opening) : Except DiskError String := o.disk.read o.unit.artifact

end Opening

/-- The units that a link comes to open, in order. -/
def openings (loader : Loader) : Disk → List CompiledUnit → List Opening
  | _, [] => []
  | d, unit :: rest =>
    match pin d unit with
    | .error _ => []
    | .ok (path, d) =>
      ⟨unit, path, d⟩ ::
        match load loader d path with
        | .error _ => []
        | .ok _ => openings loader d rest

/-- Calls, deletions of artifacts and links of units that calls have given back, in any order, with
the openings so far. -/
inductive Trace (compiler : Compiler) (directory : String) (start : Workshop) :
    Workshop → List CompiledUnit → List Opening → Prop where
  | start : Trace compiler directory start start [] []
  | make {w units log} (name text : String) : IsPlain name →
      Trace compiler directory start w units log →
      Trace compiler directory start (leftBy (materialize compiler directory name text w))
        (units ++ issued (materialize compiler directory name text w)) log
  | delete {w units log d} (name : String) : IsPlain name →
      Trace compiler directory start w units log →
      w.disk.remove (artifactPath directory name) = .ok d →
      Trace compiler directory start { w with disk := d } units log
  | link {w units log} (loader : Loader) (chosen : List CompiledUnit) : chosen ⊆ units →
      Trace compiler directory start w units log →
      Trace compiler directory start { w with disk := (link loader w.disk chosen).1 } units
        (log ++ openings loader w.disk chosen)

/-- The first opening of the name and the digest of a unit. -/
def first? (log : List Opening) (unit : CompiledUnit) : Option Opening :=
  log.find? fun o => sharesPin unit o.unit

variable {directory name text : String} {outcome : Outcome} {home : Place} {d d' : Disk}
  {unit : CompiledUnit} {log : List Opening}

theorem sharesPin_iff {u v : CompiledUnit} :
    sharesPin u v ↔ u.name = v.name ∧ digestPart u = digestPart v := by
  simp [sharesPin]

theorem sharesPin_refl (u : CompiledUnit) : sharesPin u u := by simp [sharesPin]

theorem takeBytes_sublist (room : Nat) (cs : List Char) : (takeBytes room cs).Sublist cs := by
  induction cs generalizing room with
  | nil => simp [takeBytes]
  | cons c cs ih =>
    unfold takeBytes
    split
    · exact (ih _).cons_cons c
    · exact List.nil_sublist _

theorem digestPart_digits (hu : Issued directory unit) :
    ∀ c ∈ digestPart unit, ∃ n < 16, c = Nat.digitChar n := by
  obtain ⟨name, text, outcome, -, rfl⟩ := hu
  intro c hc
  exact contentHash_digits text c ((takeBytes_sublist _ _).subset hc)

theorem artifact_toList (name : String) : (UnitFile.artifact.fileName name).toList =
    (name.toList ++ ['.', 's']) ++ ['o'] := by
  simp [UnitFile.fileName, UnitFile.suffix, artifactExtension]

section Names

variable (hn : isUnitName name)

include hn

theorem name_reverse : ∃ c cs, name.toList.reverse = c :: cs := by
  refine List.exists_cons_of_ne_nil fun h => ?_
  rw [String.toList_eq_nil_iff.mp (List.reverse_eq_nil_iff.mp h)] at hn
  exact absurd hn (by decide)

theorem extension?_artifact : Path.extension? (artifactPath directory name) = some "so" := by
  have hname : Path.fileName? (artifactPath directory name) =
      some (UnitFile.artifact.fileName name) := by
    rw [artifactPath_eq, UnitFile.path]
    exact Disk.fileName?_join (UnitFile.artifact.isFileName hn) (artifact_toList name) (by decide)
  obtain ⟨c, cs, hcs⟩ := name_reverse hn
  simp only [Path.extension?, hname, Option.bind_eq_bind, Option.bind_some, artifact_toList name,
    List.reverse_append, hcs]
  rfl

theorem pinnedName_unitOf : (pinnedName (unitOf directory name text outcome)).toList =
    (name.toList ++ '.' :: digestPart (unitOf directory name text outcome)) ++ ['.', 's', 'o'] := by
  have hext : Path.extension? (unitOf directory name text outcome).artifact = some "so" :=
    extension?_artifact hn
  simp only [pinnedName, hext]
  simp [digestPart, unitOf]

theorem pinnedPath_unitOf : pinnedPath (unitOf directory name text outcome) =
    Path.join (Disk.stem directory) (pinnedName (unitOf directory name text outcome)) := by
  have hpath : (unitOf directory name text outcome).artifact =
      Path.join directory (UnitFile.artifact.fileName name) := artifactPath_eq directory name
  rw [pinnedPath, hpath, Disk.withFileName_join (UnitFile.artifact.isFileName hn)
    (artifact_toList name) (by decide)]

end Names

theorem pinnedName_isFileName (hu : Issued directory unit) : Disk.IsFileName (pinnedName unit) := by
  have hdigits := digestPart_digits hu
  obtain ⟨name, text, outcome, ⟨hn, -⟩, rfl⟩ := hu
  have hlist := @pinnedName_unitOf directory name text outcome hn
  have hchars := (UnitFile.artifact.isFileName hn).noSlash
  rw [artifact_toList name] at hchars
  have hslash : ∀ n < 16, (Nat.digitChar n == '/') = false := by decide
  have hlong : 3 ≤ (pinnedName (unitOf directory name text outcome)).toList.length := by
    simp [hlist]
    omega
  have hne : ∀ short : String, short.toList.length < 3 →
      pinnedName (unitOf directory name text outcome) ≠ short := by
    rintro short hshort rfl
    omega
  refine ⟨fun c hc => ?_, ?_, hne _ (by decide), hne _ (by decide)⟩
  · rw [hlist] at hc
    simp only [List.mem_append, List.mem_cons, List.not_mem_nil, or_false] at hc hchars
    rcases hc with (hc | rfl | hc) | hc
    · exact hchars c (Or.inl (Or.inl hc))
    · rfl
    · obtain ⟨n, hlt, rfl⟩ := hdigits c hc
      exact hslash n hlt
    · rcases hc with rfl | rfl | rfl <;> rfl
  · cases he : (pinnedName (unitOf directory name text outcome)).isEmpty with
    | false => rfl
    | true => exact absurd (Disk.eq_empty_of_isEmpty he) (hne _ (by decide))

theorem no_dot_in_digestPart (hu : Issued directory unit) : '.' ∉ digestPart unit := by
  have hall : ∀ n < 16, Nat.digitChar n ≠ '.' := by decide
  intro hm
  obtain ⟨n, hlt, he⟩ := digestPart_digits hu '.' hm
  exact hall n hlt he.symm

/-- A second name tells the name of the unit and the digest. -/
theorem pinnedName_inj {u v : CompiledUnit} (hu : Issued directory u) (hv : Issued directory v) :
    pinnedName u = pinnedName v ↔ sharesPin u v := by
  have hpart := no_dot_in_digestPart hu
  obtain ⟨n, text, outcome, ⟨hn, hdot⟩, rfl⟩ := hu
  obtain ⟨n', text', outcome', ⟨hn', -⟩, rfl⟩ := hv
  rw [sharesPin_iff, ← String.toList_inj, pinnedName_unitOf hn, pinnedName_unitOf hn',
    List.append_left_inj, List.append_cons_inj_of_notMem hdot hpart, String.toList_inj]
  simp [unitOf]

theorem pinnedName_ne_unitFile (hu : Issued directory unit) (hdot : '.' ∉ name.toList)
    (k : UnitFile) : pinnedName unit ≠ k.fileName name := by
  obtain ⟨n, text, outcome, ⟨hn, -⟩, rfl⟩ := hu
  intro he
  have hlist := congrArg String.toList he
  rw [pinnedName_unitOf hn, UnitFile.fileName, String.toList_append] at hlist
  cases k with
  | source | marker =>
    have hlast := congrArg List.getLast? hlist
    rw [List.getLast?_append_of_ne_nil _ (by simp), List.getLast?_append_of_ne_nil _ (by decide)]
      at hlast
    exact absurd hlast (by decide)
  | artifact =>
    have hname : n.toList ++ '.' :: digestPart (unitOf directory n text outcome) = name.toList :=
      List.append_cancel_right hlist
    exact hdot (hname ▸ by simp)

def pinnedPlace (home : Place) (unit : CompiledUnit) : Place := home ++ [pinnedName unit]

theorem pinnedPlace_inj {u v : CompiledUnit} (hu : Issued directory u) (hv : Issued directory v) :
    pinnedPlace home u = pinnedPlace home v ↔ sharesPin u v := by
  rw [← pinnedName_inj hu hv]
  simp [pinnedPlace]

theorem pinnedPlace_not_ofUnit (hu : Issued directory unit) (hdot : '.' ∉ name.toList) :
    ¬ OfUnit home name (pinnedPlace home unit) := by
  rintro ⟨k, he⟩
  exact pinnedName_ne_unitFile hu hdot k (by simpa [pinnedPlace, UnitFile.place] using he)

section Pins

variable (hu : Issued directory unit) (hh : d.Home directory home)

include hu hh

theorem place_of_pinnedPath {place : Place} (hr : d.resolve (pinnedPath unit) = .ok place) :
    place = pinnedPlace home unit := by
  have hfile := pinnedName_isFileName hu
  obtain ⟨name, text, outcome, ⟨hn, -⟩, rfl⟩ := hu
  rw [pinnedPath_unitOf hn] at hr
  exact (Disk.place_of_resolve hfile (Disk.home_stem.mpr hh) hr).2

theorem place_of_artifact {place : Place} (hr : d.resolve unit.artifact = .ok place) :
    place ≠ pinnedPlace home unit := by
  have hother : ∀ name : String, '.' ∉ name.toList → ¬ OfUnit home name (pinnedPlace home unit) :=
    fun _ => pinnedPlace_not_ofUnit hu
  obtain ⟨name, text, outcome, ⟨hn, hdot⟩, rfl⟩ := hu
  have hr : d.resolve (UnitFile.artifact.path directory name) = .ok place := by
    rw [← artifactPath_eq]
    exact hr
  rintro rfl
  exact hother name hdot
    ⟨.artifact, (Disk.place_of_resolve (UnitFile.artifact.isFileName hn) hh hr).2⟩

end Pins

theorem hash_nonempty (hu : Issued directory unit) : unit.hash.isEmpty = false := by
  obtain ⟨name, text, outcome, -, rfl⟩ := hu
  exact contentHash_nonempty text

/-- What there is to a unit that is opened: the second name is there already, or it is given to
the artifact now. -/
structure Pinning (d : Disk) (unit : CompiledUnit) (place : Place) (text : String) (d' : Disk) :
    Prop where
  artifact : d.read unit.artifact = .ok text
  resolves : d.resolve (pinnedPath unit) = .ok place
  change : (d' = d ∧ d.entryAt? place ≠ none) ∨ (d.entryAt? place = none ∧
    Disk.Alters (· = place) d d' ∧ d'.entryAt? place = some (.file text))

theorem read_of_load {loader : Loader} {path : String} {library : Library}
    (h : load loader d path = .ok library) :
    ∃ text, d.read path = .ok text ∧ loader text = some library := by
  unfold load at h
  split at h
  · next text hread =>
    split at h
    · next hloaded =>
      cases h
      exact ⟨text, hread, hloaded⟩
    · cases h
  · cases h

theorem isFile_iff {path : String} : d.isFile path ↔ ∃ text, d.read path = .ok text := by
  simp only [Disk.read_eq_ok, Disk.isFile]
  cases d.lookup? path with
  | none => simp
  | some entry => cases entry <;> simp

theorem pin_ok {path : String} (hu : Issued directory unit) (hh : d.Home directory home)
    (h : pin d unit = .ok (path, d')) : path = pinnedPath unit ∧
      ∃ text, Pinning d unit (pinnedPlace home unit) text d' := by
  unfold pin at h
  rw [hash_nonempty hu] at h
  split at h
  · cases h
  · next hfile =>
    obtain ⟨text, hread⟩ := isFile_iff.mp (by simpa using hfile)
    rw [if_neg (by simp)] at h
    split at h
    · next hexists =>
      obtain ⟨rfl, rfl⟩ := Prod.mk.inj (Except.ok.inj h)
      cases hr : d.resolve (pinnedPath unit) with
      | error e => simp [Disk.exists?, Disk.lookup?, hr] at hexists
      | ok place =>
        obtain rfl := place_of_pinnedPath hu hh hr
        refine ⟨rfl, text, hread, hr, Or.inl ⟨rfl, ?_⟩⟩
        simpa [Disk.exists?, Disk.lookup?, hr, Option.isSome_iff_ne_none] using hexists
    · split at h
      · next hlink =>
        obtain ⟨rfl, rfl⟩ := Prod.mk.inj (Except.ok.inj h)
        obtain ⟨text', place, hread', hr, hnone, halters, hentry⟩ := Disk.link_spec hlink
        obtain rfl := place_of_pinnedPath hu hh hr
        cases hread.symm.trans hread'
        exact ⟨rfl, text, hread, hr, Or.inr ⟨hnone, halters, hentry⟩⟩
      · cases h

theorem pin_succeeds_iff (hu : Issued directory unit) (hh : d.Home directory home) :
    (∃ path d', pin d unit = .ok (path, d')) ↔
      d.isFile unit.artifact ∧ ∃ place, d.resolve (pinnedPath unit) = .ok place := by
  constructor
  · rintro ⟨path, d', h⟩
    obtain ⟨-, text, hpin⟩ := pin_ok hu hh h
    exact ⟨isFile_iff.mpr ⟨text, hpin.artifact⟩, _, hpin.resolves⟩
  · rintro ⟨hfile, place, hr⟩
    obtain ⟨text, hread⟩ := isFile_iff.mp hfile
    unfold pin
    rw [hash_nonempty hu, hfile, if_neg (by simp), if_neg (by simp)]
    cases hentry : d.entryAt? place with
    | some entry =>
      have hexists : d.exists? (pinnedPath unit) := by
        simp [Disk.exists?, Disk.lookup?, hr, hentry]
      exact ⟨_, _, if_pos hexists⟩
    | none =>
      have hexists : d.exists? (pinnedPath unit) = false := by
        simp [Disk.exists?, Disk.lookup?, hr, hentry]
      obtain ⟨d', hlink⟩ := Disk.link_ok hread hr hentry
      rw [hexists, hlink]
      exact ⟨_, _, rfl⟩

/-- What the second names hold: the text that the artifact had at the first opening. -/
structure Pinned (directory : String) (home : Place) (d : Disk) (log : List Opening) : Prop where
  resolves : d.Home directory home
  unopened : ∀ unit, Issued directory unit → first? log unit = none →
    d.entryAt? (pinnedPlace home unit) = none
  held : ∀ unit first, Issued directory unit → first? log unit = some first →
    ∃ text, first.artifact = .ok text ∧ d.entryAt? (pinnedPlace home unit) = some (.file text)
  opened : ∀ o ∈ log, ∃ first text, first? log o.unit = some first ∧
    first.artifact = .ok text ∧ o.opened = .ok text

theorem first?_append (log : List Opening) (o : Opening) (unit : CompiledUnit) :
    first? (log ++ [o]) unit =
      (first? log unit).or (if sharesPin unit o.unit then some o else none) := by
  rw [first?, List.find?_append, List.find?_singleton]
  rfl

theorem first?_congr {u v : CompiledUnit} (h : sharesPin u v) (log : List Opening) :
    first? log u = first? log v := by
  obtain ⟨hname, hpart⟩ := sharesPin_iff.mp h
  simp only [first?, sharesPin, hname, hpart]

theorem first?_last (log : List Opening) (o : Opening) :
    ∃ first, first? (log ++ [o]) o.unit = some first := by
  rw [first?_append, if_pos (sharesPin_refl o.unit)]
  cases first? log o.unit with
  | some first => exact ⟨first, rfl⟩
  | none => exact ⟨o, rfl⟩

namespace Pinning

variable {text : String} (h : Pinning d unit (pinnedPlace home unit) text d')

include h

theorem alters : Disk.Alters (· = pinnedPlace home unit) d d' := by
  rcases h.change with ⟨rfl, -⟩ | ⟨-, halters, -⟩
  · exact .refl ..
  · exact halters

/-- The artifact is at another place, so the loader finds it as it was. -/
theorem artifact_read (hu : Issued directory unit) (hh : d.Home directory home) :
    d'.read unit.artifact = .ok text := by
  obtain ⟨place, hr, hentry⟩ := Disk.read_iff.mp h.artifact
  refine Disk.read_iff.mpr ⟨place, h.alters.resolve hr, ?_⟩
  exact (h.alters.kept _ (place_of_artifact hu hh hr)).trans hentry

theorem pinned_read {held : String}
    (hentry : d'.entryAt? (pinnedPlace home unit) = some (.file held)) :
    d'.read (pinnedPath unit) = .ok held :=
  Disk.read_iff.mpr ⟨_, h.alters.resolve h.resolves, hentry⟩

theorem given (hnone : d.entryAt? (pinnedPlace home unit) = none) :
    d'.entryAt? (pinnedPlace home unit) = some (.file text) := by
  rcases h.change with ⟨-, hsome⟩ | ⟨-, -, hentry⟩
  · exact absurd hnone hsome
  · exact hentry

theorem found {place : Place} {entry : DiskEntry} (hentry : d.entryAt? place = some entry) :
    d'.entryAt? place = some entry := by
  rcases h.change with ⟨rfl, -⟩ | ⟨hnone, halters, -⟩
  · exact hentry
  · refine (halters.kept _ ?_).trans hentry
    rintro rfl
    cases hnone.symm.trans hentry

end Pinning

namespace Pinned

theorem keep (h : Pinned directory home d log) {P : Place → Prop} (halters : Disk.Alters P d d')
    (hout : ∀ unit, Issued directory unit → ¬ P (pinnedPlace home unit)) :
    Pinned directory home d' log where
  resolves := halters.sameHome h.resolves
  unopened unit hu hnone := (halters.kept _ (hout unit hu)).trans (h.unopened unit hu hnone)
  held unit first hu hfirst := by
    obtain ⟨text, hartifact, hentry⟩ := h.held unit first hu hfirst
    exact ⟨text, hartifact, (halters.kept _ (hout unit hu)).trans hentry⟩
  opened := h.opened

theorem held_append (h : Pinned directory home d log) {o : Opening} (hu : Issued directory o.unit)
    {text : String} (hpinning : Pinning d o.unit (pinnedPlace home o.unit) text d')
    (hartifact : o.artifact = .ok text) {v : CompiledUnit} {first : Opening}
    (hv : Issued directory v) (hfirst : first? (log ++ [o]) v = some first) :
    ∃ held, first.artifact = .ok held ∧
      d'.entryAt? (pinnedPlace home v) = some (.file held) := by
  rw [first?_append] at hfirst
  cases hlog : first? log v with
  | some earlier =>
    rw [hlog, Option.some_or] at hfirst
    rw [hfirst] at hlog
    obtain ⟨held, hwas, hentry⟩ := h.held v first hv hlog
    exact ⟨held, hwas, hpinning.found hentry⟩
  | none =>
    rw [hlog, Option.none_or] at hfirst
    split at hfirst
    · next hshares =>
      cases hfirst
      rw [(pinnedPlace_inj hv hu).mpr hshares]
      rw [first?_congr hshares] at hlog
      exact ⟨text, hartifact, hpinning.given (h.unopened o.unit hu hlog)⟩
    · cases hfirst

theorem opening (h : Pinned directory home d log) (hu : Issued directory unit) {path : String}
    (hpin : pin d unit = .ok (path, d')) :
    Pinned directory home d' (log ++ [⟨unit, path, d'⟩]) := by
  obtain ⟨hpath, text, hpinning⟩ := pin_ok hu h.resolves hpin
  have hartifact : (⟨unit, path, d'⟩ : Opening).artifact = .ok text :=
    hpinning.artifact_read hu h.resolves
  have hheld : ∀ v first, Issued directory v →
      first? (log ++ [⟨unit, path, d'⟩]) v = some first → ∃ held, first.artifact = .ok held ∧
        d'.entryAt? (pinnedPlace home v) = some (.file held) :=
    fun v first hv hfirst => h.held_append hu hpinning hartifact hv hfirst
  refine ⟨hpinning.alters.sameHome h.resolves, fun v hv hnone => ?_, hheld, fun o ho => ?_⟩
  · rw [first?_append, Option.or_eq_none_iff] at hnone
    obtain ⟨hnone, hother⟩ := hnone
    have hne : pinnedPlace home v ≠ pinnedPlace home unit := fun he => by
      simp [(pinnedPlace_inj hv hu).mp he] at hother
    exact (hpinning.alters.kept _ hne).trans (h.unopened v hv hnone)
  · rcases List.mem_append.mp ho with ho | ho
    · obtain ⟨first, held, hfirst, hwas, hopened⟩ := h.opened o ho
      exact ⟨first, held, by rw [first?_append, hfirst, Option.some_or], hwas, hopened⟩
    · obtain rfl := List.mem_singleton.mp ho
      obtain ⟨first, hfirst⟩ := first?_last log ⟨unit, path, d'⟩
      obtain ⟨held, hwas, hentry⟩ := hheld unit first hu hfirst
      have hread := hpinning.pinned_read hentry
      rw [← hpath] at hread
      exact ⟨first, held, hfirst, hwas, hread⟩

theorem link (h : Pinned directory home d log) (loader : Loader) {chosen : List CompiledUnit}
    (hissued : ∀ unit ∈ chosen, Issued directory unit) :
    Pinned directory home (Module.link loader d chosen).1 (log ++ openings loader d chosen) := by
  induction chosen generalizing d log with
  | nil => simpa [Module.link, openings] using h
  | cons unit rest ih =>
    obtain ⟨hu, hrest⟩ := List.forall_mem_cons.mp hissued
    simp only [Module.link, openings]
    cases hpin : pin d unit with
    | error e => simpa using h
    | ok pinned =>
      obtain ⟨path, d'⟩ := pinned
      have hnext := h.opening hu hpin
      simp only
      cases hload : load loader d' path with
      | error e => exact hnext
      | ok library =>
        have hall := ih hnext hrest
        rw [List.append_assoc] at hall
        simp only
        cases hlink : Module.link loader d' rest with
        | mk d'' result =>
          rw [hlink] at hall
          cases result with
          | ok others => exact hall
          | error e => exact hall

end Pinned

section Links

variable {loader : Loader} {chosen : List CompiledUnit}

theorem libraries_of_openings {m : Module} (h : (link loader d chosen).2 = .ok m) :
    (openings loader d chosen).map (·.unit) = chosen ∧
      List.Forall₂ (fun (o : Opening) (u : LoadedUnit) => u.name = o.unit.name ∧
        ∃ text, o.opened = .ok text ∧ loader text = some u.library) (openings loader d chosen) m := by
  induction chosen generalizing d m with
  | nil =>
    cases h
    exact ⟨rfl, .nil⟩
  | cons unit rest ih =>
    simp only [link, openings] at h ⊢
    cases hpin : pin d unit with
    | error e => simp [hpin] at h
    | ok pinned =>
      obtain ⟨path, d'⟩ := pinned
      simp only [hpin] at h ⊢
      cases hload : load loader d' path with
      | error e => simp [hload] at h
      | ok library =>
        simp only [hload] at h ⊢
        cases hlink : link loader d' rest with
        | mk d'' result =>
          cases result with
          | error e => simp [hlink] at h
          | ok others =>
            simp only [hlink] at h
            cases h
            obtain ⟨hunits, hall⟩ := ih (congrArg Prod.snd hlink)
            exact ⟨by simp [hunits], .cons ⟨rfl, read_of_load hload⟩ hall⟩

theorem openings_singleton : (∃ o, openings loader d [unit] = [o]) ↔
    ∃ path d', pin d unit = .ok (path, d') := by
  simp only [openings]
  cases hpin : pin d unit with
  | error e => simp
  | ok pinned =>
    obtain ⟨path, d'⟩ := pinned
    cases hload : load loader d' path <;> simp [hload]

end Links

section Reachable

variable {compiler : Compiler} {start w : Workshop} {units : List CompiledUnit}

theorem issued_of_call {w' : Workshop} {runs : List Run} (hplain : IsPlain name)
    (h : Call compiler directory name text w (.ok unit w') runs) : Issued directory unit := by
  cases h with
  | reused | compiled => exact ⟨name, text, _, hplain, rfl⟩

theorem Trace.issued (h : Trace compiler directory start w units log) :
    ∀ unit ∈ units, Issued directory unit := by
  induction h with
  | start => exact nofun
  | @make w units log name text hplain _ ih =>
    intro unit hm
    rcases List.mem_append.mp hm with hm | hm
    · exact ih unit hm
    · have hcall := call_materialize compiler directory name text w
      cases hresult : materialize compiler directory name text w with
      | error e w' => simp [hresult, Cache.issued] at hm
      | ok made w' =>
        rw [hresult] at hm hcall
        obtain rfl := List.mem_singleton.mp hm
        exact issued_of_call hplain hcall
  | delete _ _ _ _ ih => exact ih
  | link _ _ _ _ ih => exact ih

theorem Trace.pinned (h : Trace compiler directory start w units log) (hc : compiler.Confined)
    (hh : start.disk.Home directory home)
    (hempty : ∀ file, start.disk.entryAt? (home ++ [file]) = none) :
    Pinned directory home w.disk log := by
  induction h with
  | start => exact ⟨hh, fun _ _ _ => hempty _, nofun, nofun⟩
  | @make w units log name text hplain _ ih =>
    have hcall := call_materialize compiler directory name text w
    exact ih.keep (hcall.alters ih.resolves (hcall.confined hc)) fun unit hu =>
      pinnedPlace_not_ofUnit hu hplain.2
  | @delete w units log d name hplain _ hremove ih =>
    obtain ⟨place, hr, halters, -⟩ := Disk.remove_spec hremove
    rw [artifactPath_eq] at hr
    have hplace := (Disk.place_of_resolve (UnitFile.artifact.isFileName hplain.1) ih.resolves hr).2
    refine ih.keep halters fun unit hu he => ?_
    exact pinnedPlace_not_ofUnit hu hplain.2 ⟨.artifact, he.trans hplace⟩
  | link loader chosen hsub htrace ih =>
    exact ih.link loader fun unit hm => htrace.issued unit (hsub hm)

/-- From an empty build directory, through calls, deletions of artifacts and links in any order: what
is opened is what the artifact held when its name and digest were opened first. It is what the
artifact holds now exactly if that is the same text again. A unit is opened whenever its artifact is
a file, unless its second name is too long, and a linked module is made of what was opened. -/
theorem opened_is_artifact_of_first_opening (hc : compiler.Confined)
    (he : start.disk.IsEmptyDirectory directory)
    (h : Trace compiler directory start w units log) :
    (∀ o ∈ log, ∃ first text, first? log o.unit = some first ∧ first.artifact = .ok text ∧
      o.opened = .ok text ∧ (o.opened = o.artifact ↔ o.artifact = first.artifact)) ∧
    ∀ loader,
      (∀ unit ∈ units, (∃ o, openings loader w.disk [unit] = [o]) ↔
        w.disk.isFile unit.artifact ∧ ∃ place, w.disk.resolve (pinnedPath unit) = .ok place) ∧
      ∀ chosen m, (link loader w.disk chosen).2 = .ok m →
        (openings loader w.disk chosen).map (·.unit) = chosen ∧
        List.Forall₂ (fun (o : Opening) (u : LoadedUnit) => u.name = o.unit.name ∧
            ∃ text, o.opened = .ok text ∧ loader text = some u.library)
          (openings loader w.disk chosen) m := by
  obtain ⟨home, hh, hempty⟩ := he
  have hpinned := h.pinned hc hh hempty
  refine ⟨fun o ho => ?_, fun loader => ⟨fun unit hm => ?_, fun chosen m => libraries_of_openings⟩⟩
  · obtain ⟨first, text, hfirst, hartifact, hopened⟩ := hpinned.opened o ho
    refine ⟨first, text, hfirst, hartifact, hopened, ?_⟩
    rw [hopened, hartifact, eq_comm]
  · rw [openings_singleton]
    exact pin_succeeds_iff (h.issued unit hm) hpinned.resolves

end Reachable

/-- A text, another one and the first again, with a link after each. -/
theorem text_restored_opens_first_artifact :
    ∃ w units log, Trace steady "/b" bench w units log ∧ steady.Confined ∧
      bench.disk.IsEmptyDirectory "/b" ∧
      log.map (fun o => o.artifact.toOption) = [some "1", some "2", some "3"] ∧
      log.map (fun o => o.opened.toOption) = [some "1", some "2", some "1"] ∧
      ∀ o ∈ log, ∃ first text, first? log o.unit = some first ∧ first.artifact = .ok text ∧
        o.opened = .ok text := by
  have hplain : IsPlain "u" := by decide
  have h₁ : Trace steady "/b" bench _ _ _ := .make "u" "int x;" hplain .start
  have h₂ := Trace.link (fun _ => none) _ (List.subset_append_right _ _) h₁
  have h₃ := Trace.make "u" "int y;" hplain h₂
  have h₄ := Trace.link (fun _ => none) _ (List.subset_append_right _ _) h₃
  have h₅ := Trace.make "u" "int x;" hplain h₄
  have h₆ := Trace.link (fun _ => none) _ (List.subset_append_right _ _) h₅
  refine ⟨_, _, _, h₆, steady_succeeds.confined, bench_empty, by decide +kernel,
    by decide +kernel, fun o ho => ?_⟩
  obtain ⟨first, text, hfirst, hartifact, hopened, -⟩ :=
    (opened_is_artifact_of_first_opening steady_succeeds.confined bench_empty h₆).1 o ho
  exact ⟨first, text, hfirst, hartifact, hopened⟩

/-- The artifact is deleted and built again from the same text; the link opens the one that was
deleted. -/
theorem rebuilt_artifact_not_opened :
    ∃ w units log, Trace steady "/b" bench w units log ∧
      log.map (fun o => o.artifact.toOption) = [some "1", some "2"] ∧
      log.map (fun o => o.opened.toOption) = [some "1", some "1"] := by
  have hplain : IsPlain "u" := by decide
  have hremoved : ∀ r : Except DiskError Disk, r.toOption.isSome →
      r = .ok (r.toOption.getD (.empty [])) := by
    intro r hr
    cases r with
    | error e => cases hr
    | ok d => rfl
  have h₁ : Trace steady "/b" bench _ _ _ := .make "u" "int x;" hplain .start
  have h₂ := Trace.link (fun _ => none) _ (List.subset_append_right _ _) h₁
  have h₃ := Trace.delete "u" hplain h₂ (hremoved _ (by decide +kernel))
  have h₄ := Trace.make "u" "int x;" hplain h₃
  have h₅ := Trace.link (fun _ => none) _ (List.subset_append_right _ _) h₄
  exact ⟨_, _, _, h₅, by decide +kernel, by decide +kernel⟩

end Module
end Arbor
