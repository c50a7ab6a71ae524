import Arbor.Build.Project
import Arbor.Proofs.Freshness
import Arbor.Proofs.Refill
import Arbor.Proofs.Validation

/-!
Compiling a project that was just compiled.

The tree that comes back from a build passes the check, has the same files, and can be filled again;
at most the types of calls are new in it. No text shows the type of a call, so every file has the
text it had, its marker has the right digest and its artifact is there: nothing is left to do.
-/
namespace Arbor

namespace Renderer

/-- Renderers of trees that differ in the types of calls at most. -/
structure Alike (g g' : Renderer) : Prop where
  registry : g'.registry = g.registry
  rules : g'.rules = g.rules
  tree : g.tree.Recalls g'.tree

namespace Alike

variable {g g' : Renderer} (h : g.Alike g')

include h

theorem node (id : NodeId) : g'.node id = g.node id ∨ ∃ func args ty,
    g.node id = .ok (.call func args none) ∧ g'.node id = .ok (.call func args (some ty)) := by
  rcases h.tree.node id with he | ⟨func, args, ty, hn, hn'⟩
  · left
    simp only [Renderer.node, Tree.node, he]
  · right
    exact ⟨func, args, ty, by simp [Renderer.node, Tree.node, hn], by simp [Renderer.node, Tree.node, hn']⟩

theorem spell : g'.spell = g.spell := by
  funext ty
  simp only [Renderer.spell, h.registry]

theorem declaration : g'.declaration = g.declaration := by
  funext ty name
  simp only [Renderer.declaration, h.spell]

theorem isSelfTerminating : g'.isSelfTerminating = g.isSelfTerminating := by
  funext node
  unfold Renderer.isSelfTerminating
  rw [h.rules]

theorem statementLines : g'.statementLines = g.statementLines := by
  funext render indent ids
  induction ids with
  | nil => rfl
  | cons id rest ih =>
    simp only [Renderer.statementLines, h.isSelfTerminating, ih]
    rcases h.node id with he | ⟨func, args, ty, hn, hn'⟩
    · rw [he]
    · rw [hn, hn']
      rfl

theorem braced : g'.braced = g.braced := by
  funext render ids indent
  simp only [Renderer.braced, h.statementLines]

theorem body : g'.body = g.body := by
  funext render id indent
  simp only [Renderer.body, h.braced]
  rcases h.node id with he | ⟨func, args, ty, hn, hn'⟩
  · rw [he]
  · rw [hn, hn']
    rfl

theorem elseBranch : g'.elseBranch = g.elseBranch := by
  funext render elseBody indent
  cases elseBody with
  | none => rfl
  | some id =>
    simp only [Renderer.elseBranch, h.body]
    rcases h.node id with he | ⟨func, args, ty, hn, hn'⟩
    · rw [he]
    · rw [hn, hn']
      rfl

theorem byRule : g'.byRule = g.byRule := by
  funext render rule attrs children indent
  simp only [Renderer.byRule, h.braced, h.statementLines, h.spell]

theorem bare : g'.bare = g.bare := by
  funext render id node indent
  unfold Renderer.bare
  rw [h.statementLines, h.body, h.elseBranch, h.braced, h.spell, h.declaration, h.rules, h.byRule]

theorem needsParens (id : NodeId) (node : Node) :
    g'.tree.needsParens id node = g.tree.needsParens id node := by
  unfold Tree.needsParens
  rw [h.tree.parent_eq]
  cases hp : g.tree.parent? id with
  | none => rfl
  | some p =>
    simp only [Option.bind_some]
    rcases h.tree.node p with he | ⟨func, args, ty, hn, hn'⟩
    · rw [he]
    · rw [hn, hn']
      cases node.precedence? <;> rfl

theorem renderTo (depth : Nat) (id : NodeId) (indent : Nat) :
    g'.renderTo depth id indent = g.renderTo depth id indent := by
  induction depth generalizing id indent with
  | zero => rfl
  | succ depth ih =>
    have below : g'.renderTo depth = g.renderTo depth := by
      funext c level
      exact ih c level
    simp only [Renderer.renderTo, below, h.bare, h.needsParens]
    rcases h.node id with he | ⟨func, args, ty, hn, hn'⟩
    · rw [he]
    · rw [hn, hn']
      rfl

theorem render (id : NodeId) : g'.render id = g.render id := by
  simp only [Renderer.render, renderAt, depthBound, h.tree.size_eq]
  exact h.renderTo ..

end Alike
end Renderer

namespace Project

variable {registry : TypeRegistry} {t t' : Tree} {root : NodeId} {ids : List NodeId}

theorem node_cases (h : t.SameShape t') (id : NodeId) : t'.node id = t.node id ∨
    (∃ name ty ty' isConst, t.node id = .ok (.symbol name ty isConst) ∧
      t'.node id = .ok (.symbol name ty' isConst)) ∨
    ∃ func args ty ty', t.node id = .ok (.call func args ty) ∧
      t'.node id = .ok (.call func args ty') := by
  cases hn : t.get? id with
  | none =>
    have hn' := h.node_eq id
    rw [hn, Option.map_none, Option.map_eq_none_iff] at hn'
    simp [Tree.node, hn, hn']
  | some node =>
    obtain ⟨node', hn', he⟩ := h.get?_some hn
    simpa [Tree.node, hn, hn'] using node.unannotated_eq he

theorem unitName_eq (h : t.SameShape t') : unitName t' = unitName t := by
  funext file
  unfold unitName
  rcases node_cases h file with he | ⟨_, _, _, _, hn, hn'⟩ | ⟨_, _, _, _, hn, hn'⟩
  · rw [he]
  · rw [hn, hn']
    rfl
  · rw [hn, hn']
    rfl

theorem checkNames_eq (h : t.SameShape t') : checkNames t' = checkNames t := by
  funext seen ids
  induction ids generalizing seen with
  | nil => rfl
  | cons file rest ih => simp only [checkNames, unitName_eq h, ih]

theorem files_eq (h : t.SameShape t') : files t' root = files t root := by
  unfold files
  rw [checkNames_eq h]
  rcases node_cases h root with he | ⟨_, _, _, _, hn, hn'⟩ | ⟨_, _, _, _, hn, hn'⟩
  · rw [he]
  · rw [hn, hn']
    rfl
  · rw [hn, hn']
    rfl

/-- No two files have one name. -/
def Distinct (t : Tree) (a b : NodeId) : Prop :=
  ∀ name, unitName t a = .ok name → unitName t b ≠ .ok name

theorem checkNames_ok {seen : List String} (h : checkNames t seen ids = .ok ()) :
    ids.Pairwise (Distinct t) ∧ ∀ file ∈ ids, ∀ name ∈ seen, unitName t file ≠ .ok name := by
  induction ids generalizing seen with
  | nil => simp
  | cons file rest ih =>
    obtain ⟨name, hname, h⟩ := bind_eq_ok.mp h
    split at h
    · cases h
    · next hnew =>
      obtain ⟨hrest, hseen⟩ := ih h
      refine ⟨List.pairwise_cons.mpr ⟨fun other hm n hn => ?_, hrest⟩, ?_⟩
      · cases hname.symm.trans hn
        exact hseen other hm name (by simp)
      · intro other hm n hn
        rcases List.mem_cons.mp hm with rfl | hm
        · rw [hname]
          rintro ⟨⟩
          exact hnew (by simpa using hn)
        · exact hseen other hm n (by simp [hn])

theorem named_eq_ok {found : List NodeId}
    (h : (checkNames t [] found >>= fun _ => Except.ok found) = .ok ids) :
    found = ids ∧ checkNames t [] ids = .ok () := by
  obtain ⟨_, hnames, h⟩ := bind_eq_ok.mp h
  cases h
  exact ⟨rfl, hnames⟩

theorem files_checked (h : files t root = .ok ids) : checkNames t [] ids = .ok () := by
  unfold files at h
  split at h
  · exact (named_eq_ok h).2
  · exact (named_eq_ok h).2
  · cases h
  · cases h

theorem files_ok (hl : t.WellLinked root) (h : files t root = .ok ids) :
    (∀ file ∈ ids, t.Reach root file) ∧ ids.Pairwise t.Apart ∧ ids.Pairwise (Distinct t) := by
  have hdistinct := (checkNames_ok (files_checked h)).1
  unfold files at h
  split at h
  · next found hn =>
    obtain ⟨rfl, -⟩ := named_eq_ok h
    have hchildren : t.childrenOf root = found := by
      rw [Tree.childrenOf_eq (Tree.node_eq_ok.mp hn)]
      simp [Node.children, Node.slots, Slot.ids]
    refine ⟨fun file hm => ?_, ?_, hdistinct⟩
    · exact .single (by rw [Tree.Child, hchildren]; exact hm)
    · rw [← hchildren]
      exact hl.children_apart .refl
  · obtain ⟨rfl, -⟩ := named_eq_ok h
    refine ⟨fun file hm => ?_, List.pairwise_singleton .., hdistinct⟩
    rw [List.mem_singleton.mp hm]
    exact .refl
  · cases h
  · cases h

theorem fillFiles_eq (registry : TypeRegistry) (ids : List NodeId) :
    fillFiles registry ids = Filling.visitEach (Filling.fill registry) ids := by
  induction ids with
  | nil => rfl
  | cons file rest ih => rw [fillFiles, Filling.visitEach, ih]

theorem fillFiles_singleton (registry : TypeRegistry) (file : NodeId) :
    fillFiles registry [file] = Filling.fill registry file := by
  funext s
  simp only [fillFiles, bind, EStateM.bind]
  cases Filling.fill registry file s <;> rfl

theorem ends_fillFiles {s s' : Filling} : fillFiles registry ids s = .ok () s' ↔
    Filling.Each (fun file => Filling.Ends (Filling.fill registry file)) ids s true s' := by
  rw [fillFiles_eq, ← Filling.ends_ok, Filling.ends_visitEach]

theorem ends_fill {s s' : Filling} {done : Bool} {file : NodeId} (hs : t.SameShape s.tree) :
    Filling.Ends (Filling.fill registry file) s done s' ↔
      Filling.Ends (Filling.visitTo registry (t.size + 1) file) s done s' := by
  simp only [Filling.Ends, Filling.fill, hs.size_eq]

/-- Filling goes through a second time, and all it may find is the types of calls. -/
theorem fillFiles_again (hl : t.WellLinked root) (hreach : ∀ file ∈ ids, t.Reach root file)
    (hapart : ids.Pairwise t.Apart) {s : Filling}
    (h : fillFiles registry ids (.start t) = .ok () s) :
    t.SameShape s.tree ∧
      ∃ r, fillFiles registry ids (.start s.tree) = .ok () r ∧ s.tree.Recalls r.tree := by
  have heach := ends_fillFiles.mp h
  have hstart : t.SameShape (Filling.start t).tree := .refl t
  have hadvance : ∀ file ∈ ids, ∀ s done s', t.SameShape s.tree →
      Filling.Ends (Filling.fill registry file) s done s' → Filling.Advances t [file] s s' := by
    intro file hm s done s' hs hv
    exact Filling.visitTo_advances hs (hl.within (hreach file hm)).succ ((ends_fill hs).mp hv)
  have hshape : t.SameShape s.tree := (heach.advances hstart hadvance).sameShape
  have hrefills : ∀ file ∈ ids, Filling.Refills t s.tree
      (fun file => Filling.Ends (Filling.fill registry file)) file := by
    intro file hm s₀ s₁ r hs hv hagree htracks
    have hr := hshape.trans htracks.tree.sameShape
    obtain ⟨r', hv', htracks'⟩ := Filling.refills_visit hl hshape (hreach file hm)
      (hl.within (hreach file hm)).succ s₀ s₁ r hs ((ends_fill hs).mp hv) hagree htracks
    exact ⟨r', (ends_fill hr).mpr hv', htracks'⟩
  have htracks : Filling.Tracks s.tree (.start t) (.start s.tree) := ⟨.refl _, .refl _⟩
  obtain ⟨r, hr, htracks'⟩ :=
    Filling.Each.refill hadvance hrefills hapart hstart heach (fun _ _ _ _ => rfl) htracks
  exact ⟨hshape, r, ends_fillFiles.mpr hr, htracks'.tree⟩

theorem prepare_again {t₁ : Tree} (h : prepare registry t root = (t₁, .ok ids)) :
    ids.Pairwise (Distinct t₁) ∧
      ∃ t₂, prepare registry t₁ root = (t₂, .ok ids) ∧ t₁.Recalls t₂ := by
  unfold prepare at h
  split at h
  · cases h
  · next hv =>
    have hw := Tree.wellFormed_of_validate hv
    split at h
    · cases h
    · next found hfiles =>
      split at h
      · next s hfill =>
        cases h
        obtain ⟨hreach, hapart, hdistinct⟩ := files_ok hw.region hfiles
        obtain ⟨hshape, r, hfill', hrecalls⟩ := fillFiles_again hw.region hreach hapart hfill
        refine ⟨?_, r.tree, ?_, hrecalls⟩
        · unfold Distinct at hdistinct ⊢
          rw [unitName_eq hshape]
          exact hdistinct
        · unfold prepare
          rw [(hshape.wellFormed hw).validate_ok, files_eq hshape, hfiles]
          simp only [hfill']
      · cases h

end Project

def CompiledUnit.reused (unit : CompiledUnit) : CompiledUnit := { unit with outcome := .reused }

/-- A compiler that touches nothing but the artifact, and has made it whenever it succeeds. -/
structure Compiler.Delivers (compiler : Compiler) : Prop where
  confined : compiler.Confined
  artifact : ∀ run source artifact d d', compiler run source artifact d = .ok () d' →
    d'.exists? artifact

namespace Cache

variable {compiler : Compiler} {directory name text : String} {home : Place} {w w' : Workshop}
  {unit : CompiledUnit} {runs : List Run}

theorem home_of_resolve {k : UnitFile} {d : Disk} {p : Place} (hn : isUnitName name)
    (h : d.resolve (k.path directory name) = .ok p) : ∃ home, d.Home directory home := by
  obtain ⟨-, home, hh, -⟩ := (Disk.resolve_join_iff (k.isFileName hn)).mp h
  exact ⟨home, hh⟩

theorem home_of_clear (hn : isUnitName name) (h : clear directory name text w = .ok () w') :
    ∃ home, w.disk.Home directory home := by
  obtain ⟨_, _, h₁, h⟩ := run_bind_ok.mp h
  obtain ⟨_, _, h₂, h₃⟩ := run_bind_ok.mp h
  obtain ⟨d₁, hmarker, rfl⟩ := BuildM.onDisk_ok.mp h₁
  obtain ⟨d₂, hartifact, rfl⟩ := BuildM.onDisk_ok.mp h₂
  obtain ⟨d₃, hsource, rfl⟩ := BuildM.onDisk_ok.mp h₃
  obtain ⟨place, hr, -⟩ := Disk.write_spec hsource
  obtain ⟨home, hh⟩ := home_of_resolve (k := .source) hn hr
  exact ⟨home, Disk.home_of_removed hmarker (Disk.home_of_removed hartifact hh)⟩

theorem Call.finds_home (h : Call compiler directory name text w (.ok unit w') runs) :
    ∃ home, w.disk.Home directory home := by
  cases h with
  | reused hn hcurrent =>
    obtain ⟨⟨digest, hmarker, -⟩, -⟩ := isCurrent_iff.mp hcurrent
    cases hr : w.disk.resolve (markerPath directory name) with
    | error e => simp [Disk.lookup?, hr] at hmarker
    | ok p => exact home_of_resolve (k := .marker) hn hr
  | compiled hn hclear => exact home_of_clear hn hclear

/-- After a call that went through, the same text needs no compiler. -/
theorem Call.current (h : Call compiler directory name text w (.ok unit w') runs)
    (hd : compiler.Delivers) :
    isUnitName name ∧ isCurrent w'.disk directory name (contentHash text) = .ok true := by
  obtain ⟨home, hh⟩ := h.finds_home
  have hconfined := h.confined hd.confined
  cases h with
  | reused hn hcurrent => exact ⟨hn, hcurrent⟩
  | compiled hn hclear hrun hwrite =>
    obtain ⟨-, -, -, hhome⟩ := launched hn hh hclear (hconfined _ (List.mem_singleton_self _))
    obtain ⟨hfits, halters, hmarker⟩ := written_unit (k := .marker) hn hhome hwrite
    have hhome' := halters.sameHome hhome
    refine ⟨hn, isCurrent_iff.mpr ⟨⟨contentHash text, ?_, trim_contentHash text⟩, ?_⟩⟩
    · rw [markerPath_eq, lookup?_unit hn hhome' hfits]
      exact hmarker
    · -- the marker is written beside the artifact, which stays
      obtain ⟨entry, hentry⟩ := Option.isSome_iff_exists.mp (hd.artifact _ _ _ _ _ hrun)
      rw [artifactPath_eq] at hentry ⊢
      obtain ⟨hfits, hplace⟩ := unit_of_lookup? hn hhome hentry
      rw [Disk.exists?, lookup?_unit hn hhome' hfits, halters.kept _ (UnitFile.place_ne (by decide)),
        hplace]
      rfl

theorem current_of_alters {other hash : String} (hh : w.disk.Home directory home)
    (halters : Disk.Alters (OfUnit home name) w.disk w'.disk) (hn : isUnitName other)
    (hne : other ≠ name) (hcurrent : isCurrent w.disk directory other hash = .ok true) :
    isCurrent w'.disk directory other hash = .ok true := by
  have hh' := halters.sameHome hh
  have kept : ∀ (k : UnitFile) entry, w.disk.lookup? (k.path directory other) = some entry →
      w'.disk.lookup? (k.path directory other) = some entry := by
    intro k entry hentry
    obtain ⟨hfits, hplace⟩ := unit_of_lookup? hn hh hentry
    rw [lookup?_unit hn hh' hfits, halters.kept _ (not_ofUnit hne)]
    exact hplace
  obtain ⟨⟨digest, hmarker, htrim⟩, hexists⟩ := isCurrent_iff.mp hcurrent
  obtain ⟨entry, hentry⟩ := Option.isSome_iff_exists.mp hexists
  rw [artifactPath_eq] at hentry
  refine isCurrent_iff.mpr ⟨⟨digest, kept .marker _ hmarker, htrim⟩, ?_⟩
  rw [Disk.exists?, artifactPath_eq, kept .artifact _ hentry]
  rfl

theorem Call.keeps_current {other hash : String}
    (h : Call compiler directory name text w (.ok unit w') runs) (hc : compiler.Confined)
    (hn : isUnitName other) (hne : other ≠ name)
    (hcurrent : isCurrent w.disk directory other hash = .ok true) :
    isCurrent w'.disk directory other hash = .ok true := by
  obtain ⟨home, hh⟩ := h.finds_home
  exact current_of_alters hh (h.alters hh (h.confined hc)) hn hne hcurrent

theorem flaky_delivers : flaky.Delivers := by
  refine ⟨flaky_confined, fun run source artifact d d' h => ?_⟩
  unfold flaky at h
  split at h
  · cases h
  · next d₁ hw =>
    split at h
    · cases h
    · cases h
      exact (Disk.write_only hw).2

theorem Call.unit_eq (h : Call compiler directory name text w (.ok unit w') runs) :
    unit.reused = unitOf directory name text .reused := by
  cases h with
  | reused | compiled => rfl

theorem materialize_current (hn : isUnitName name)
    (h : isCurrent w.disk directory name (contentHash text) = .ok true) :
    materialize compiler directory name text w = .ok (unitOf directory name text .reused) w := by
  unfold materialize
  rw [hn, h]
  rfl

end Cache
namespace Project

variable {s : BuildSetting} {t t' : Tree} {ids : List NodeId} {w w' : Workshop}
  {units : List CompiledUnit}

theorem buildFile_ok {file : NodeId} {unit : CompiledUnit} :
    buildFile s t file w = .ok unit w' ↔ ∃ name text, unitName t file = .ok name ∧
      Renderer.render ⟨t, s.registry, s.rules⟩ file = .ok text ∧
      Cache.materialize s.compiler s.directory name text w = .ok unit w' := by
  unfold buildFile
  cases unitName t file with
  | error e => simp
  | ok name =>
    simp only
    cases Renderer.render ⟨t, s.registry, s.rules⟩ file with
    | error e => simp
    | ok text => simp

theorem buildFiles_cons {file : NodeId} {rest : List NodeId} :
    buildFiles s t (file :: rest) w = .ok units w' ↔ ∃ unit w₁ others,
      buildFile s t file w = .ok unit w₁ ∧ buildFiles s t rest w₁ = .ok others w' ∧
      units = unit :: others := by
  rw [buildFiles, run_bind_ok]
  simp only [run_bind_ok, pure, EStateM.pure, EStateM.Result.ok.injEq]
  constructor
  · rintro ⟨unit, w₁, hfirst, others, _, hrest, rfl, rfl⟩
    exact ⟨unit, w₁, others, hfirst, hrest, rfl⟩
  · rintro ⟨unit, w₁, others, hfirst, hrest, rfl⟩
    exact ⟨unit, w₁, hfirst, others, w', hrest, rfl, rfl⟩

theorem buildFiles_keeps_current (hc : s.compiler.Confined) {name hash : String}
    (hn : Cache.isUnitName name) (hne : ∀ file ∈ ids, unitName t file ≠ .ok name)
    (h : buildFiles s t ids w = .ok units w')
    (hcurrent : Cache.isCurrent w.disk s.directory name hash = .ok true) :
    Cache.isCurrent w'.disk s.directory name hash = .ok true := by
  induction ids generalizing w units with
  | nil =>
    cases h
    exact hcurrent
  | cons file rest ih =>
    obtain ⟨hfile, hrest⟩ := List.forall_mem_cons.mp hne
    obtain ⟨unit, w₁, others, hfirst, hothers, rfl⟩ := buildFiles_cons.mp h
    obtain ⟨other, text, hname, -, hmake⟩ := buildFile_ok.mp hfirst
    have hcall := Cache.call_materialize s.compiler s.directory other text w
    rw [hmake] at hcall
    refine ih hrest hothers (hcall.keeps_current hc hn ?_ hcurrent)
    rintro rfl
    exact hfile hname

theorem buildFiles_again (hd : s.compiler.Delivers) (hdistinct : ids.Pairwise (Distinct t))
    (hrecalls : t.Recalls t') (h : buildFiles s t ids w = .ok units w') :
    buildFiles s t' ids w' = .ok (units.map .reused) w' := by
  induction ids generalizing w units with
  | nil =>
    cases h
    rfl
  | cons file rest ih =>
    obtain ⟨hfile, hrest⟩ := List.pairwise_cons.mp hdistinct
    obtain ⟨unit, w₁, others, hfirst, hothers, rfl⟩ := buildFiles_cons.mp h
    obtain ⟨name, text, hname, htext, hmake⟩ := buildFile_ok.mp hfirst
    have hcall := Cache.call_materialize s.compiler s.directory name text w
    rw [hmake] at hcall
    obtain ⟨hn, hcurrent⟩ := hcall.current hd
    -- the files that follow have other names, so the unit is still up to date at the end
    have hlater := buildFiles_keeps_current hd.confined hn (fun other hm => hfile other hm name hname)
      hothers hcurrent
    have halike : Renderer.Alike ⟨t, s.registry, s.rules⟩ ⟨t', s.registry, s.rules⟩ :=
      ⟨rfl, rfl, hrecalls⟩
    refine buildFiles_cons.mpr ⟨_, w', _, ?_, ih hrest hothers, rfl⟩
    refine buildFile_ok.mpr ⟨name, text, ?_, ?_, ?_⟩
    · rw [unitName_eq hrecalls.sameShape]
      exact hname
    · rw [halike.render]
      exact htext
    · rw [hcall.unit_eq]
      exact Cache.materialize_current hn hlater

/-- Once a project is compiled, compiling the tree that came back gives the same units in the same
order, all of them reused: the compiler is not run and no file is touched. -/
theorem recompiling_reuses_every_unit {root : NodeId} {t₁ : Tree} {w₁ : Workshop}
    (hd : s.compiler.Delivers) (h : compile s t root w = (t₁, .ok units w₁)) :
    ∃ t₂, t₁.Recalls t₂ ∧ compile s t₁ root w₁ =
      (t₂, .ok (units.map .reused) w₁) := by
  unfold compile at h
  split at h
  · cases h
  · next filled ids hprepare =>
    obtain ⟨rfl, hbuild⟩ := Prod.mk.inj h
    obtain ⟨hdistinct, t₂, hagain, hrecalls⟩ := prepare_again hprepare
    refine ⟨t₂, hrecalls, ?_⟩
    unfold compile
    rw [hagain]
    simp only [buildFiles_again hd hdistinct hrecalls hbuild]

/-- Two files that share a variable, `x = x() ? 1 : 2;` and `x = 3;`. The call is typed the second
time only, when its callee is bound before it. -/
def sharedName : Tree :=
  ⟨#[⟨.project [1, 9], none⟩, ⟨.file "u" [2], some 0⟩, ⟨.binary 3 .assign 4, some 1⟩,
    ⟨.symbol "x" none false, some 2⟩, ⟨.ternary 5 7 8, some 2⟩, ⟨.call 6 [] none, some 4⟩,
    ⟨.symbol "x" none false, some 5⟩, ⟨.constant (.int 1), some 4⟩, ⟨.constant (.int 2), some 4⟩,
    ⟨.file "v" [10], some 0⟩, ⟨.binary 11 .assign 12, some 9⟩, ⟨.symbol "x" none false, some 10⟩,
    ⟨.constant (.int 3), some 10⟩], 0⟩

def workplace : BuildSetting := ⟨.builtin, .empty, Cache.flaky, "/b"⟩

theorem compile_tree (s : BuildSetting) (t : Tree) (root : NodeId) (w : Workshop) :
    (compile s t root w).1 = (prepare s.registry t root).1 := by
  unfold compile
  split <;> simp_all

def report : EStateM.Result BuildError Workshop (List CompiledUnit) → Option (List Outcome × Nat)
  | .ok units w => some (units.map CompiledUnit.outcome, w.runs)
  | .error _ _ => none

/-- The compiler has failed once already, and writes an artifact from now on. -/
theorem sharedName_recompiled :
    ∃ t₁ units w₁ t₂, compile workplace sharedName 0 { Cache.bench with runs := 1 } =
        (t₁, .ok units w₁) ∧
      units.map CompiledUnit.outcome = [.compiled, .compiled] ∧ w₁.runs = 3 ∧
      t₁.get? 5 = some (.call 6 [] none) ∧
      compile workplace t₁ 0 w₁ = (t₂, .ok (units.map .reused) w₁) ∧
      t₂.get? 5 = some (.call 6 [] (some (.scalar .long))) := by
  have hreport : report (compile workplace sharedName 0 { Cache.bench with runs := 1 }).2 =
      some ([.compiled, .compiled], 3) := by decide +kernel
  have htree := compile_tree workplace sharedName 0 { Cache.bench with runs := 1 }
  rcases hc : compile workplace sharedName 0 { Cache.bench with runs := 1 } with
    ⟨t₁, ⟨units, w₁⟩ | ⟨e, w₁⟩⟩
  · rw [hc] at hreport htree
    obtain ⟨houtcomes, hruns⟩ := Prod.mk.inj (Option.some.inj hreport)
    obtain ⟨t₂, -, hagain⟩ := recompiling_reuses_every_unit Cache.flaky_delivers hc
    have htree₂ := compile_tree workplace t₁ 0 w₁
    rw [hagain] at htree₂
    obtain rfl : t₁ = _ := htree
    obtain rfl : t₂ = _ := htree₂
    exact ⟨_, units, w₁, _, rfl, houtcomes, hruns, by decide +kernel, hagain, by decide +kernel⟩
  · rw [hc] at hreport
    cases hreport

end Project
end Arbor
