import Arbor.Build.Config
import Arbor.Proofs.Document

/-!
Configuration files are laid over each other setting by setting.

Each file is checked by itself, while what is laid over each other is not typed. The types are the
same for every file, so that the whole is of the right types again and the last conversion cannot
fail. If a file is not in order the first such file is named, whatever the others hold.
-/
namespace Arbor

inductive SettingKind where
  | text
  | texts
  | optionalText
  | flag
  deriving DecidableEq, Repr

def SettingKind.Holds : SettingKind → Json → Prop
  | .text, j => ∃ s, j = .string s
  | .texts, j => ∃ ss, j = .ofList .string ss
  | .optionalText, j => ∃ s, j = .ofOption .string s
  | .flag, j => ∃ b, j = .bool b

section Reading

variable {j : Json}

theorem Json.text?_eq_some_iff {s : String} : j.text? = some s ↔ j = .string s := by
  cases j <;> simp [Json.text?]

theorem Json.bool?_eq_some_iff {b : Bool} : j.bool? = some b ↔ j = .bool b := by
  cases j <;> simp [Json.bool?]

theorem Json.optional?_text?_eq_some_iff {s : Option String} :
    j.optional? Json.text? = some s ↔ j = .ofOption .string s := by
  cases s <;> cases j <;> simp [Json.optional?, Json.text?, Json.ofOption]

theorem eq_map_of_mapM_text? {items : List Json} {ss : List String}
    (h : items.mapM Json.text? = some ss) : items = ss.map .string := by
  induction items generalizing ss with
  | nil =>
    obtain rfl : [] = ss := by simpa using h
    rfl
  | cons item rest ih =>
    simp only [List.mapM_cons, bind, pure, Option.bind_eq_some_iff, Option.some.injEq] at h
    obtain ⟨s, hs, others, hrest, rfl⟩ := h
    rw [Json.text?_eq_some_iff.mp hs, ih hrest, List.map_cons]

theorem Config.texts?_eq_some_iff {ss : List String} :
    Config.texts? j = some ss ↔ j = .ofList .string ss := by
  constructor
  · intro h
    cases j with
    | array items => exact congrArg Json.array (eq_map_of_mapM_text? h)
    | _ => cases h
  · rintro rfl
    exact Json.list?_ofList fun _ _ => rfl

theorem Table.get?_zip {α β : Type} [DecidableEq α] {keys : List α} {values : List β}
    (hkeys : keys.Nodup) {i : Nat} {key : α} (hi : keys[i]? = some key) :
    Table.get? (keys.zip values) key = values[i]? := by
  induction keys generalizing values i with
  | nil => simp at hi
  | cons first keys ih =>
    obtain ⟨hfirst, hkeys⟩ := List.nodup_cons.mp hkeys
    cases values with
    | nil => rfl
    | cons value values =>
      cases i with
      | zero =>
        obtain rfl : first = key := by simpa using hi
        simp [Table.get?]
      | succ i =>
        have hmem : key ∈ keys := List.mem_of_getElem? (by simpa using hi)
        have hne : first ≠ key := fun h => hfirst (h ▸ hmem)
        simpa [Table.get?, hne] using ih hkeys (by simpa using hi)

theorem get?_reverse_eq_member? (members : List (String × Json)) (name : String) :
    Table.get? members.reverse name = (Json.object members).member? name := by
  rw [Json.member?]
  induction members.reverse with
  | nil => rfl
  | cons entry rest ih =>
    obtain ⟨k, v⟩ := entry
    by_cases h : k = name
    · simp [Table.get?, h]
    · simpa [Table.get?, h] using ih

end Reading

namespace Config

def kinds : Table String SettingKind :=
  [("cc", .text), ("cflags", .texts), ("ldflags", .texts), ("compile_path", .optionalText),
    ("cache", .flag), ("preserve_src_dir", .flag)]

/-- Settings that are there are of their types. -/
def Typed (r : Record) : Prop := ∀ e ∈ kinds, ∀ j, r.get? e.1 = some j → e.2.Holds j

/-- An object with settings, or an array with the first of them. -/
inductive IsConfiguration : Json → Prop
  | object {members : List (String × Json)}
      (h : ∀ e ∈ kinds, ∀ j, (Json.object members).member? e.1 = some j → e.2.Holds j) :
    IsConfiguration (.object members)
  | array {items : List Json} (hlength : items.length ≤ kinds.length)
      (h : ∀ (i : Nat) (e : String × SettingKind) (j : Json),
        kinds[i]? = some e → items[i]? = some j → e.2.Holds j) :
    IsConfiguration (.array items)

/-- There is no file, or it can be read. -/
def Readable (d : Disk) (path : String) : Prop :=
  d.read path = .error .notFound ∨ ∃ text, d.read path = .ok text

/-- There is a file, but it holds no configuration. -/
def Malformed (d : Disk) (path : String) : Prop :=
  ∃ text, d.read path = .ok text ∧ ∀ j, Json.read? text = some j → ¬ IsConfiguration j

def FirstMalformed (d : Disk) (paths : List String) (path : String) : Prop :=
  ∃ before after, paths = before ++ path :: after ∧ Malformed d path ∧
    ∀ earlier ∈ before, ¬ Malformed d earlier

/-- The value of a setting in a file. -/
def value? (d : Disk) (name path : String) : Option Json :=
  match d.read path with
  | .ok text => (Json.read? text).bind (Json.member? name)
  | .error _ => none

section Conversion

variable {r : Record}

theorem setting?_eq_some_iff {α : Type} {read : Json → Option α} {write : α → Json}
    (hread : ∀ j a, read j = some a ↔ j = write a) (name : String) (otherwise a : α) :
    setting? r name read otherwise = some a ↔
      (r.get? name).or (some (write otherwise)) = some (write a) := by
  have hback (b : α) : read (write b) = some b := (hread _ _).mpr rfl
  have hinj : write otherwise = write a ↔ otherwise = a :=
    ⟨fun h => Option.some.inj ((hback _).symm.trans (h ▸ hback a)), congrArg write⟩
  cases h : r.get? name with
  | none => simp [setting?, h, hinj]
  | some j => simp [setting?, h, hread]

theorem isSome_setting?_iff {α : Type} {read : Json → Option α} {write : α → Json}
    (hread : ∀ j a, read j = some a ↔ j = write a) (name : String) (otherwise : α) :
    (setting? r name read otherwise).isSome ↔ ∀ j, r.get? name = some j → ∃ a, j = write a := by
  cases h : r.get? name with
  | none => simp [setting?, h]
  | some j => simp [setting?, h, Option.isSome_iff_exists, hread]

theorem ofRecord?_eq_some_iff_each {c : Config} :
    ofRecord? r = some c ↔
      setting? r "cc" Json.text? initial.cc = some c.cc ∧
      setting? r "cflags" texts? initial.cflags = some c.cflags ∧
      setting? r "ldflags" texts? initial.ldflags = some c.ldflags ∧
      setting? r "compile_path" (Json.optional? Json.text?) initial.compilePath =
        some c.compilePath ∧
      setting? r "cache" Json.bool? initial.cache = some c.cache ∧
      setting? r "preserve_src_dir" Json.bool? initial.preserve = some c.preserve := by
  simp only [ofRecord?, Option.bind_eq_bind, Option.bind_eq_some_iff, Option.pure_def,
    Option.some.injEq]
  constructor
  · rintro ⟨_, hcc, _, hcflags, _, hldflags, _, hpath, _, hcache, _, hpreserve, rfl⟩
    exact ⟨hcc, hcflags, hldflags, hpath, hcache, hpreserve⟩
  · rintro ⟨hcc, hcflags, hldflags, hpath, hcache, hpreserve⟩
    exact ⟨_, hcc, _, hcflags, _, hldflags, _, hpath, _, hcache, _, hpreserve, rfl⟩

/-- A record is read as the configuration that says the same, with defaults for what is missing. -/
theorem ofRecord?_eq_some_iff {c : Config} :
    ofRecord? r = some c ↔
      ∀ name ∈ settingNames,
        (r.get? name).or (initial.toRecord.get? name) = c.toRecord.get? name := by
  rw [ofRecord?_eq_some_iff_each, setting?_eq_some_iff fun _ _ => Json.text?_eq_some_iff,
    setting?_eq_some_iff fun _ _ => texts?_eq_some_iff,
    setting?_eq_some_iff fun _ _ => texts?_eq_some_iff,
    setting?_eq_some_iff fun _ _ => Json.optional?_text?_eq_some_iff,
    setting?_eq_some_iff fun _ _ => Json.bool?_eq_some_iff,
    setting?_eq_some_iff fun _ _ => Json.bool?_eq_some_iff]
  simp only [settingNames, List.forall_mem_cons, List.not_mem_nil, false_imp_iff, implies_true,
    and_true]
  rfl

theorem isSome_ofRecord?_iff : (ofRecord? r).isSome ↔ Typed r := by
  have heach : (ofRecord? r).isSome ↔
      (setting? r "cc" Json.text? initial.cc).isSome ∧
      (setting? r "cflags" texts? initial.cflags).isSome ∧
      (setting? r "ldflags" texts? initial.ldflags).isSome ∧
      (setting? r "compile_path" (Json.optional? Json.text?) initial.compilePath).isSome ∧
      (setting? r "cache" Json.bool? initial.cache).isSome ∧
      (setting? r "preserve_src_dir" Json.bool? initial.preserve).isSome := by
    simp only [Option.isSome_iff_exists, ofRecord?_eq_some_iff_each]
    constructor
    · rintro ⟨c, hcc, hcflags, hldflags, hpath, hcache, hpreserve⟩
      exact ⟨⟨_, hcc⟩, ⟨_, hcflags⟩, ⟨_, hldflags⟩, ⟨_, hpath⟩, ⟨_, hcache⟩, ⟨_, hpreserve⟩⟩
    · rintro ⟨⟨_, hcc⟩, ⟨_, hcflags⟩, ⟨_, hldflags⟩, ⟨_, hpath⟩, ⟨_, hcache⟩, ⟨_, hpreserve⟩⟩
      exact ⟨⟨_, _, _, _, _, _⟩, hcc, hcflags, hldflags, hpath, hcache, hpreserve⟩
  rw [heach, isSome_setting?_iff fun _ _ => Json.text?_eq_some_iff,
    isSome_setting?_iff fun _ _ => texts?_eq_some_iff,
    isSome_setting?_iff fun _ _ => texts?_eq_some_iff,
    isSome_setting?_iff fun _ _ => Json.optional?_text?_eq_some_iff,
    isSome_setting?_iff fun _ _ => Json.bool?_eq_some_iff,
    isSome_setting?_iff fun _ _ => Json.bool?_eq_some_iff]
  simp only [Typed, kinds, List.forall_mem_cons, List.not_mem_nil, false_imp_iff, implies_true,
    and_true]
  rfl

theorem ofRecord?_toRecord (c : Config) : ofRecord? c.toRecord = some c := by
  rw [ofRecord?_eq_some_iff]
  intro name hname
  simp only [settingNames, List.mem_cons, List.not_mem_nil, or_false] at hname
  obtain rfl | rfl | rfl | rfl | rfl | rfl := hname <;> rfl

theorem typed_initial : Typed initial.toRecord := by
  rw [← isSome_ofRecord?_iff, ofRecord?_toRecord, Option.isSome_some]

theorem isSome_ofJson?_iff {j : Json} : (ofJson? j).isSome ↔ IsConfiguration j := by
  cases j with
  | object members =>
    rw [ofJson?, isSome_ofRecord?_iff]
    simp only [Typed, get?_reverse_eq_member?]
    refine ⟨.object, fun h => ?_⟩
    cases h with
    | object h => exact h
  | array items =>
    have hkeys : settingNames.Nodup := by decide
    have hnames : settingNames = kinds.map Prod.fst := rfl
    have htyped : Typed (settingNames.zip items) ↔
        ∀ (i : Nat) (e : String × SettingKind) (j : Json),
          kinds[i]? = some e → items[i]? = some j → e.2.Holds j := by
      constructor
      · intro h i e j he hj
        have hi : settingNames[i]? = some e.1 := by rw [hnames, List.getElem?_map, he]; rfl
        exact h e (List.mem_of_getElem? he) j ((Table.get?_zip hkeys hi).trans hj)
      · intro h e he j hj
        obtain ⟨i, hi⟩ := List.getElem?_of_mem he
        have hname : settingNames[i]? = some e.1 := by rw [hnames, List.getElem?_map, hi]; rfl
        exact h i e j hi ((Table.get?_zip hkeys hname).symm.trans hj)
    rw [ofJson?]
    split
    · next hlength =>
      rw [isSome_ofRecord?_iff, htyped]
      refine ⟨.array hlength, fun h => ?_⟩
      cases h with
      | array _ h => exact h
    · next hlength =>
      refine ⟨nofun, fun h => ?_⟩
      cases h with
      | array h _ => exact absurd h hlength
  | _ => exact ⟨nofun, nofun⟩

theorem malformed_iff {d : Disk} {path : String} :
    Malformed d path ↔
      ∃ text ∈ (d.read path).toOption, ((Json.read? text).bind ofJson?).isSome = false := by
  have hmem (text : String) : text ∈ (d.read path).toOption ↔ d.read path = .ok text := by
    cases d.read path <;> simp [Except.toOption]
  have hcheck (text : String) : (∀ j, Json.read? text = some j → ¬ IsConfiguration j) ↔
      ((Json.read? text).bind ofJson?).isSome = false := by
    cases h : Json.read? text with
    | none => simp
    | some j => simp [← isSome_ofJson?_iff]
  simp only [Malformed, hmem, hcheck]

instance (d : Disk) (path : String) : Decidable (Malformed d path) :=
  decidable_of_iff _ malformed_iff.symm

end Conversion

section Layers

variable {d : Disk} {path : String} {paths : List String}

theorem get?_merge (merged : Record) (file : Json) (name : String) :
    (merge merged file).get? name = (file.member? name).or (merged.get? name) := by
  cases file with
  | object members => rw [merge, Table.get?_setAll, get?_reverse_eq_member?]
  | _ => rfl

theorem layered_malformed (h : Malformed d path) (merged : Record) :
    layered d merged (path :: paths) = .error (.config path) := by
  obtain ⟨text, htext, hmalformed⟩ := h
  have hlayer : readLayer d path = .error (.config path) := by
    rw [readLayer, htext]
    cases hread : Json.read? text with
    | none => simp [hread]
    | some j => simp [hread, mt isSome_ofJson?_iff.mp (hmalformed j hread)]
  rw [layered, hlayer]
  rfl

theorem exists_configuration (hwell : ¬ Malformed d path) {text : String}
    (htext : d.read path = .ok text) : ∃ j, Json.read? text = some j ∧ IsConfiguration j := by
  by_contra hnone
  exact hwell ⟨text, htext, fun j hj hconfiguration => hnone ⟨j, hj, hconfiguration⟩⟩

theorem value?_of_read {text : String} (htext : d.read path = .ok text) (name : String) :
    value? d name path = (Json.read? text).bind (Json.member? name) := by
  rw [value?, htext]

theorem layered_wellFormed (hread : Readable d path) (hwell : ¬ Malformed d path)
    (merged : Record) :
    ∃ next, layered d merged (path :: paths) = layered d next paths ∧
      ∀ name, next.get? name = (value? d name path).or (merged.get? name) := by
  obtain hmissing | ⟨text, htext⟩ := hread
  · refine ⟨merged, ?_, fun name => ?_⟩
    · rw [layered, readLayer, hmissing]
      rfl
    · rw [value?, hmissing, Option.none_or]
  · obtain ⟨j, hj, hconfiguration⟩ := exists_configuration hwell htext
    refine ⟨merge merged j, ?_, fun name => ?_⟩
    · have hlayer : readLayer d path = .ok (some j) := by
        simp [readLayer, htext, hj, isSome_ofJson?_iff.mpr hconfiguration]
      rw [layered, hlayer]
      rfl
    · rw [get?_merge, value?_of_read htext, hj, Option.bind_some]

theorem holds_of_value? (hwell : ¬ Malformed d path) {e : String × SettingKind} (he : e ∈ kinds)
    {j : Json} (hj : value? d e.1 path = some j) : e.2.Holds j := by
  cases hread : d.read path with
  | error _ =>
    rw [value?, hread] at hj
    cases hj
  | ok text =>
    obtain ⟨file, hfile, hconfiguration⟩ := exists_configuration hwell hread
    rw [value?_of_read hread, hfile, Option.bind_some] at hj
    cases hconfiguration with
    | object h => exact h e he j hj
    | array hlength h => cases hj

/-- The first file that is not in order ends it, whatever comes behind. -/
theorem layered_of_firstMalformed (hread : ∀ path ∈ paths, Readable d path)
    (h : FirstMalformed d paths path) (merged : Record) :
    layered d merged paths = .error (.config path) := by
  obtain ⟨before, after, rfl, hmalformed, hbefore⟩ := h
  -- what the files in front have left behind does not matter
  induction before generalizing merged with
  | nil => exact layered_malformed hmalformed merged
  | cons first before ih =>
    obtain ⟨next, hnext, -⟩ := @layered_wellFormed d first (before ++ path :: after)
      (hread first List.mem_cons_self) (hbefore first List.mem_cons_self) merged
    rw [List.cons_append, hnext]
    exact ih next (fun p hp => hread p (List.mem_cons_of_mem _ hp))
      (fun p hp => hbefore p (List.mem_cons_of_mem _ hp))

theorem layered_of_wellFormed (hread : ∀ path ∈ paths, Readable d path)
    (hwell : ∀ path ∈ paths, ¬ Malformed d path) (merged : Record) :
    ∃ last, layered d merged paths = .ok last ∧
      ∀ name, last.get? name =
        (paths.reverse.findSome? (value? d name)).or (merged.get? name) := by
  induction paths generalizing merged with
  | nil => exact ⟨merged, rfl, fun _ => rfl⟩
  | cons path paths ih =>
    obtain ⟨next, hnext, hvalues⟩ := layered_wellFormed (hread path List.mem_cons_self)
      (hwell path List.mem_cons_self) merged
    obtain ⟨last, hlast, hlater⟩ := ih (fun p hp => hread p (List.mem_cons_of_mem _ hp))
      (fun p hp => hwell p (List.mem_cons_of_mem _ hp)) next
    refine ⟨last, hnext.trans hlast, fun name => ?_⟩
    -- a later file comes first backwards, and this one stands behind all of them
    rw [hlater, hvalues, List.reverse_cons, List.findSome?_append, Option.or_assoc]
    cases hvalue : value? d name path with
    | none => simp [hvalue]
    | some j => simp [hvalue]

theorem exists_firstMalformed (h : ∃ path ∈ paths, Malformed d path) :
    ∃ path, FirstMalformed d paths path := by
  induction paths with
  | nil => simp at h
  | cons first rest ih =>
    by_cases hfirst : Malformed d first
    · exact ⟨first, [], rest, rfl, hfirst, by simp⟩
    · obtain ⟨path, hpath, hmalformed⟩ := h
      obtain rfl | hrest := List.mem_cons.mp hpath
      · exact absurd hmalformed hfirst
      · obtain ⟨path, before, after, rfl, hmalformed, hbefore⟩ := ih ⟨path, hrest, hmalformed⟩
        refine ⟨path, first :: before, after, rfl, hmalformed, ?_⟩
        exact List.forall_mem_cons.mpr ⟨hfirst, hbefore⟩

/-- What is laid over the defaults is typed, because each part of it is. -/
theorem typed_of_values {last : Record} (hwell : ∀ path ∈ paths, ¬ Malformed d path)
    (hvalues : ∀ name, last.get? name =
      (paths.reverse.findSome? (value? d name)).or (initial.toRecord.get? name)) : Typed last := by
  intro e he j hj
  rw [hvalues, Option.or_eq_some_iff] at hj
  obtain hfound | ⟨-, hinitial⟩ := hj
  · obtain ⟨path, hpath, hvalue⟩ := List.exists_of_findSome?_eq_some hfound
    exact holds_of_value? (hwell path (List.mem_reverse.mp hpath)) he hvalue
  · exact typed_initial e he j hinitial

theorem loadFrom_of_error {e : BuildError} (h : layered d initial.toRecord paths = .error e) :
    loadFrom d paths = .error e := by
  rw [loadFrom, h]
  rfl

theorem loadFrom_of_ok {merged : Record} {c : Config}
    (h : layered d initial.toRecord paths = .ok merged) (hc : ofRecord? merged = some c) :
    loadFrom d paths = .ok c := by
  simp [loadFrom, h, bind, Except.bind, hc, pure, Except.pure]

end Layers

/-- Missing files apart, loading fails if and only if some file is not in order, and names the first
of these. Otherwise every setting has its value in the last file that has one, or its default. What
has been laid over the defaults is always a configuration. -/
theorem loadFrom_layers_by_setting (d : Disk) (paths : List String)
    (hread : ∀ path ∈ paths, Readable d path) :
    (∀ path, loadFrom d paths = .error (.config path) ↔ FirstMalformed d paths path) ∧
    ((∀ path ∈ paths, ¬ Malformed d path) →
      ∃ c, loadFrom d paths = .ok c ∧ ∀ name ∈ settingNames,
        c.toRecord.get? name =
          (paths.reverse.findSome? (value? d name)).or (initial.toRecord.get? name)) ∧
    ∀ merged, layered d initial.toRecord paths = .ok merged → (ofRecord? merged).isSome := by
  by_cases hmalformed : ∃ path ∈ paths, Malformed d path
  · obtain ⟨first, hfirst⟩ := exists_firstMalformed hmalformed
    have hfails := layered_of_firstMalformed hread hfirst initial.toRecord
    refine ⟨fun path => ⟨fun hload => ?_, fun h => ?_⟩, fun hwell => ?_, fun merged hmerged => ?_⟩
    · rw [loadFrom_of_error hfails] at hload
      cases hload
      exact hfirst
    · exact loadFrom_of_error (layered_of_firstMalformed hread h _)
    · obtain ⟨path, hpath, h⟩ := hmalformed
      exact absurd h (hwell path hpath)
    · rw [hfails] at hmerged
      cases hmerged
  · have hwell : ∀ path ∈ paths, ¬ Malformed d path := fun path hpath h =>
      hmalformed ⟨path, hpath, h⟩
    obtain ⟨merged, hmerged, hvalues⟩ := layered_of_wellFormed hread hwell initial.toRecord
    have hsome := isSome_ofRecord?_iff.mpr (typed_of_values hwell hvalues)
    obtain ⟨c, hc⟩ := Option.isSome_iff_exists.mp hsome
    have hload := loadFrom_of_ok hmerged hc
    refine ⟨fun path => ⟨fun hfails => ?_, ?_⟩, fun _ => ⟨c, hload, fun name hname => ?_⟩, ?_⟩
    · rw [hload] at hfails
      cases hfails
    · rintro ⟨before, after, rfl, h, -⟩
      exact absurd h (hwell path (by simp))
    · -- the conversion has defaults as well, but they are there already
      rw [← ofRecord?_eq_some_iff.mp hc name hname, hvalues, Option.or_assoc, Option.or_self]
    · intro other hother
      rw [hmerged] at hother
      cases hother
      exact hsome

/-- A compiler and a directory in one file; no directory, and something unknown, in another. -/
def homeAndLocal : Disk :=
  ⟨[], [(["home"], .file "\x7b\"cc\":\"gcc\",\"compile_path\":\"b\"\x7d"),
    (["local"], .file "\x7b\"compile_path\":null,\"x\":1\x7d"),
    (["bad"], .file "\x7b\"cc\":1\x7d")], []⟩

/-- The later file takes the directory away and leaves the compiler. The file behind the one that is
not in order is not looked at. -/
theorem homeAndLocal_layered :
    (∃ c, loadFrom homeAndLocal ["home", "none", "local"] = .ok c ∧
      c.cc = "gcc" ∧ c.compilePath = none ∧ c.cache = true) ∧
    loadFrom homeAndLocal ["home", "bad", "local"] = .error (.config "bad") := by
  have hread : ∀ path ∈ ["home", "none", "local", "bad"], Readable homeAndLocal path := by
    intro path hpath
    simp only [List.mem_cons, List.not_mem_nil, or_false] at hpath
    obtain rfl | rfl | rfl | rfl := hpath
    · exact .inr ⟨_, rfl⟩
    · exact .inl rfl
    · exact .inr ⟨_, rfl⟩
    · exact .inr ⟨_, rfl⟩
  constructor
  · obtain ⟨-, hvalues, -⟩ := loadFrom_layers_by_setting homeAndLocal ["home", "none", "local"]
      fun path hpath => hread path (by simp at hpath ⊢; tauto)
    obtain ⟨c, hload, hc⟩ := hvalues (by decide +kernel)
    have hcc := congrArg (Option.bind · Json.text?) (hc "cc" (by decide))
    have hpath := congrArg (Option.bind · (Json.optional? Json.text?))
      (hc "compile_path" (by decide))
    have hcache := congrArg (Option.bind · Json.bool?) (hc "cache" (by decide))
    have hback : (Json.ofOption .string c.compilePath).optional? Json.text? = some c.compilePath :=
      Json.optional?_text?_eq_some_iff.mpr rfl
    refine ⟨c, hload, ?_, ?_, ?_⟩
    · exact Option.some.inj (hcc.trans (by decide +kernel))
    · exact Option.some.inj (hback.symm.trans (hpath.trans (by decide +kernel)))
    · exact Option.some.inj (hcache.trans (by decide +kernel))
  · obtain ⟨hfails, -⟩ := loadFrom_layers_by_setting homeAndLocal ["home", "bad", "local"]
      fun path hpath => hread path (by simp at hpath ⊢; tauto)
    exact (hfails "bad").mpr ⟨["home"], ["local"], rfl, by decide +kernel, by decide +kernel⟩

end Config
end Arbor
