import DesignDeps.Proofs.Walk.Output

/-!
# Runs that succeed

`write_succeeds`: a run whose root is found does not fail when each module below the root has a
source that can be read and a place for each of its fragments, and nothing else goes wrong with
them. Sources and places stay while the run writes fragments, so both can be looked up beforehand.
-/

namespace DesignDeps.Writer

open Text Walk Relation

/-- The module's source can be read, there is a place for each of its fragments, and nothing befalls
them. -/
def Buildable (w : Writer) (d : Disk) (module : String) : Prop :=
  ∃ path source, w.resolver.resolve module = .found path ∧ d.read path = .ok source ∧
    (∀ v ∈ w.variants, ∃ l, d.reach .create (w.fragmentPath module v) = .ok l) ∧ w.Spared module

section
variable {w : Writer} {d : Disk} {module root : String} {path : Path} {st : State}

theorem Buildable.alike {d' : Disk} (h : w.Buildable d module)
    (halike : w.Alike d d') : w.Buildable d' module := by
  obtain ⟨path, source, hfound, hread, hplaces, hspared⟩ := h
  refine ⟨path, source, hfound, (halike.source hfound).2 hread, fun v hv => ?_, hspared⟩
  obtain ⟨l, hl⟩ := hplaces v hv
  exact ⟨l, halike.adds.reach_create.2 hl⟩

theorem Tidy.writable {v : String} {l : Location} (hd : w.Tidy d) (hm : SlashFree module)
    (hv : v ∈ w.variants) (hl : d.reach .create (w.fragmentPath module v) = .ok l) :
    d.Writable (w.fragmentPath module v) := by
  refine ⟨l, hl, fun hdir => ?_⟩
  have hfollow := Disk.reach_follow_of_create hl hdir
  obtain ⟨bytes, hread⟩ := hd.regular hm hv (Disk.exists?_iff.2 ⟨l, _, hfollow, hdir⟩)
  obtain ⟨l', modified, hfollow', hfile⟩ := Disk.read_eq_ok_iff.1 hread
  cases hfollow.symm.trans hfollow'
  simp [hdir] at hfile

theorem leave_succeeds {kept : List String} (hd : w.Tidy st.disk) (hm : SlashFree module)
    (hplaces : ∀ v ∈ w.variants, ∃ l, st.disk.reach .create (w.fragmentPath module v) = .ok l)
    (hspared : w.Spared module) :
    (w.leave module path kept st).1 = .ok () := by
  have hleaves := w.leaves_leave module path kept st
  generalize w.leave module path kept st = r at hleaves
  cases hleaves with
  | finished => rfl
  | @stopped written variant after _ _ _ hvs hwrites hfails =>
    have halike := hwrites.alike hd.grounded hd.apart hm (by simp [hvs])
    have hv : variant ∈ w.variants := by simp [hvs]
    obtain ⟨l, hl⟩ := hplaces _ hv
    exact absurd ((hd.of_alike halike).writable hm hv (halike.adds.reach_create.2 hl))
      (hfails.not_writable hspared hv)

theorem walk_succeeds (hS : w.Confined SlashFree) (hd : w.Tidy d) (hv : w.variants ≠ []) :
    (∀ module path st, SlashFree module → w.resolver.resolve module = .found path →
      w.Alike d st.disk → (∀ m, ReflTransGen (w.DependsOn d) module m → w.Buildable d m) →
      (w.visit module path st).1 = .ok ()) ∧
    ∀ module names kept st,
      (∀ n ∈ names, w.resolver.Finds n → SlashFree n ∧ w.DependsOn d module n) →
      w.Alike d st.disk → (∀ m, ReflTransGen (w.DependsOn d) module m → w.Buildable d m) →
      ∃ kept', (w.visitAll module names kept st).1 = .ok kept' := by
  refine w.walk_induct
    (P := fun module path st r => SlashFree module → w.resolver.resolve module = .found path →
      w.Alike d st.disk → (∀ m, ReflTransGen (w.DependsOn d) module m → w.Buildable d m) →
      r.1 = .ok ())
    (Q := fun module names _ st r =>
      (∀ n ∈ names, w.resolver.Finds n → SlashFree n ∧ w.DependsOn d module n) →
      w.Alike d st.disk → (∀ m, ReflTransGen (w.DependsOn d) module m → w.Buildable d m) →
      ∃ kept', r.1 = .ok kept')
    ?refused ?failed ?left ?done ?passed ?stopped ?descended
  case refused =>
    intro module path st e st₁ h hm hfound halike hbuild
    obtain ⟨path', source, hfound', hread, -⟩ := hbuild module .refl
    cases hfound.symm.trans hfound'
    obtain ⟨-, -, hrefusal⟩ := enter_eq_error h
    cases hrefusal with
    | withoutVariants hnone => exact absurd hnone hv
    | unreadable herror =>
      cases herror.symm.trans ((halike.source hfound).2 hread)
  case failed =>
    intro module path st names st₁ e st₂ h _ ih hm hfound halike hbuild
    obtain ⟨-, hdisk, -⟩ := enter_eq_ok h
    obtain ⟨-, -, -, -, hin⟩ := halike.names h hfound hS
    obtain ⟨_, hok⟩ := ih hin (hdisk ▸ halike) hbuild
    cases hok
  case left =>
    intro module path st names st₁ kept st₂ h hall _ hm hfound halike hbuild
    obtain ⟨-, hdisk, -⟩ := enter_eq_ok h
    obtain ⟨-, -, -, -, hin⟩ := halike.names h hfound hS
    have halike₁ : w.Alike d st₁.disk := hdisk ▸ halike
    have hsteady := steady_visitAll hall halike₁ hS hd.grounded hd.apart fun n hn hfinds =>
      (hin n hn hfinds).1
    have halike₂ := halike₁.trans hsteady.alike
    obtain ⟨-, -, -, -, hplaces, hspared⟩ := hbuild module .refl
    refine leave_succeeds (hd.of_alike halike₂) hm (fun v hv => ?_) hspared
    obtain ⟨l, hl⟩ := hplaces v hv
    exact ⟨l, halike₂.adds.reach_create.2 hl⟩
  case done =>
    intro module kept st _ _ _
    exact ⟨kept, rfl⟩
  case passed =>
    intro module name names kept st edge r _ _ _ _ ih hin halike hbuild
    exact ih (fun n hn => hin n (List.mem_cons_of_mem _ hn)) (by simpa using halike) hbuild
  case stopped =>
    intro module name names kept st source e st₁ hmeets _ _ ih hin halike hbuild
    obtain ⟨hname, hedge⟩ := hin name (by simp) ⟨source, hmeets.found⟩
    cases ih hname hmeets.found (by simpa using halike) fun m hm => hbuild m (.head hedge hm)
  case descended =>
    intro module name names kept st source st₁ r hmeets _ hvisit _ _ ih hin halike hbuild
    obtain ⟨hname, -⟩ := hin name (by simp) ⟨source, hmeets.found⟩
    have halike₀ : w.Alike d (w.settle module name (.descend source) st).disk := by
      simpa using halike
    have hsteady := steady_visit hvisit halike₀ hS hd.grounded hd.apart hname
    exact ih (fun n hn => hin n (List.mem_cons_of_mem _ hn)) (halike₀.trans hsteady.alike) hbuild

theorem write_succeeds (hS : w.Confined SlashFree) (hw : w.PlainVariants) (hd : w.Tidy d)
    (hv : w.variants ≠ []) (hroot : SlashFree root)
    (hbuild : ∀ m, ReflTransGen (w.DependsOn d) root m → w.Buildable d m) :
    ∃ report st, w.write d root = (.ok report, st) := by
  obtain ⟨path, -, hfound, -, hplaces, -⟩ := hbuild root .refl
  have hdirs : (d.makeDirs w.outDir).1 = .ok () := by
    obtain ⟨o, ho⟩ := hd.entered
    obtain ⟨v, hmem⟩ := List.exists_mem_of_ne_nil _ hv
    obtain ⟨l, hl⟩ := hplaces v hmem
    obtain ⟨⟨hsize, -⟩, -⟩ := Disk.reach_eq_ok_iff.1 hl
    exact ho.makeDirs_ok hd.grounded (Nat.lt_of_le_of_lt
      (Disk.size_le_join (segment_fragmentName hroot (hw v hmem).2)) hsize)
  have hwalk := (walk_succeeds hS hd hv).1 root path (w.start d root) hroot hfound
    (by simpa [start, hd.prepared_eq] using Alike.refl w d) hbuild
  have hgoes := w.goes_write d root
  generalize w.write d root = r at hgoes
  cases hgoes with
  | withoutVariants hnone => exact absurd hnone hv
  | missing hmissing => exact absurd hfound (hmissing path)
  | withoutDirectory _ herror => cases herror.symm.trans hdirs
  | failed hfound' hvisit =>
    cases hfound.symm.trans hfound'
    simp [hvisit] at hwalk
  | finished => exact ⟨_, _, rfl⟩

-- ---------------------------------------------------------------------------
-- Samples
-- ---------------------------------------------------------------------------

/-- Some of three modules, each with an empty source of its own name in `/s`, beside an empty
directory `/o` for the fragments, which nothing befalls. -/
structure Sample (w : Writer) (d : Disk) : Prop where
  outDir : w.outDir = ⟨"/o"⟩
  variants : ∀ v ∈ w.variants, v = "sim" ∨ v = "syn" ∨ v = "s$m"
  found : ∀ {name path}, w.resolver.resolve name = .found path →
    (name = "a" ∨ name = "b" ∨ name = "c") ∧ path = ⟨"/s/" ++ name ++ ".v"⟩ ∧
      ∃ time, d.get? ["s", name ++ ".v"] = some (.file ⟨#[]⟩ time)
  cwd : d.cwd = []
  sources : d.get? ["s"] = some .dir
  output : d.get? ["o"] = some .dir
  empty : ∀ name, d.get? (["o"] ++ [name]) = none
  spared : ∀ m, w.Spared m

section
variable {name : String}

theorem Sample.slashFree (h : w.Sample d) (hname : w.resolver.Finds name) : SlashFree name := by
  obtain ⟨path, hfound⟩ := hname
  rcases (h.found hfound).1 with rfl | rfl | rfl <;> decide

theorem Sample.confined (h : w.Sample d) : w.Confined SlashFree :=
  fun _ _ _ _ _ hfinds => h.slashFree hfinds

theorem Sample.plain (h : w.Sample d) : w.PlainVariants := by
  intro v hv
  rcases h.variants v hv with rfl | rfl | rfl <;> decide

theorem Sample.grounded (h : w.Sample d) : d.Grounded := by
  unfold Disk.Grounded
  rw [h.cwd]
  exact d.dirs_root

theorem enters_output (h : d.get? ["o"] = some .dir) : d.Enters ⟨"/o"⟩ ["o"] := by
  have ho : Disk.IsName "o" := ⟨by decide, by decide, by decide, by decide⟩
  have hnames : Disk.dirNames ⟨"/o"⟩ = ["o"] := by decide
  have hstart : d.startOf ⟨"/o"⟩ = [] := if_pos (by decide)
  have hleads : d.Leads .follow Disk.maxLinks [] ["o", ""] Disk.maxLinks ["o"] :=
    .dir ho (by simp) h (.idle (.inl rfl) .done)
  refine ⟨Disk.maxLinks, ?_⟩
  rwa [hnames, hstart]

theorem Sample.enters (h : w.Sample d) : d.Enters w.outDir ["o"] :=
  h.outDir ▸ enters_output h.output

theorem Sample.emptyOutput (h : w.Sample d) : w.EmptyOutput d :=
  ⟨["o"], h.enters, h.empty⟩

theorem Sample.source (h : w.Sample d) (final : Disk.Final)
    (hfound : w.resolver.resolve name = .found path) :
    d.reach final path = .ok ["s", name ++ ".v"] ∧
      ∃ time, d.get? ["s", name ++ ".v"] = some (.file ⟨#[]⟩ time) := by
  obtain ⟨hname, rfl, time, hfile⟩ := h.found hfound
  refine ⟨?_, time, hfile⟩
  have hs : Disk.IsName "s" := ⟨by decide, by decide, by decide, by decide⟩
  have hleads : Disk.IsName (name ++ ".v") →
      d.Leads final Disk.maxLinks [] ["s", name ++ ".v"] Disk.maxLinks ["s", name ++ ".v"] :=
    fun hn => .dir hs (fun h => hn.nonempty (by simpa using h.2)) h.sources (.file hn hfile)
  have hstart : ∀ p : Path, p.isAbsolute = true → d.startOf p = [] := fun p hp => if_pos hp
  rcases hname with rfl | rfl | rfl
  all_goals
    refine Disk.reach_eq_ok_iff.2 ⟨by decide, Disk.maxLinks, ?_⟩
    rw [hstart _ (by decide)]
    exact hleads ⟨by decide, by decide, by decide, by decide⟩

theorem Sample.apart (h : w.Sample d) : w.Apart SlashFree d := by
  intro m v n path l hm hv hn hl hpath
  obtain ⟨-, rfl⟩ := Disk.places_join h.enters
    (segment_fragmentName hm (h.plain v hv).2) (h.empty _) hl
  obtain ⟨hreach, -⟩ := h.source .create hn
  simp [hreach] at hpath

theorem Sample.tidy (h : w.Sample d) : w.Tidy d :=
  h.emptyOutput.tidy h.plain h.grounded h.apart

theorem Sample.prepared_eq (h : w.Sample d) : w.prepared d = d :=
  h.tidy.prepared_eq

theorem Sample.apart_later {d' : Disk} (h : w.Sample d) (halike : w.Alike d d') :
    w.Apart w.resolver.Finds (w.prepared d') := by
  have htidy := h.tidy.of_alike halike
  rw [htidy.prepared_eq]
  exact fun m v n path l hm => htidy.apart m v n path l (h.slashFree hm)

theorem Sample.apart_prepared (h : w.Sample d) : w.Apart w.resolver.Finds (w.prepared d) :=
  h.apart_later (.refl w d)

theorem Sample.read (h : w.Sample d) (hfound : w.resolver.resolve name = .found path) :
    d.read path = .ok ⟨#[]⟩ := by
  obtain ⟨hreach, time, hfile⟩ := h.source .follow hfound
  exact Disk.read_eq_ok_iff.2 ⟨_, time, hreach, hfile⟩

theorem Sample.namesIn (h : w.Sample d) {text : String}
    (hfound : w.resolver.resolve name = .found path) :
    w.namesIn path name text = w.extractor.names path name text := by
  obtain ⟨hname, rfl, -⟩ := h.found hfound
  refine if_pos ?_
  rcases hname with rfl | rfl | rfl <;> decide

theorem Sample.dependsOn_iff (h : w.Sample d) {m n : String} : w.DependsOn d m n ↔
    w.resolver.Finds n ∧ ∃ path, w.resolver.resolve m = .found path ∧
      n ∈ w.extractor.names path m (Text.Utf8.lossy ⟨#[]⟩) := by
  constructor
  · rintro ⟨path, source, hfound, hread, hn, hfinds⟩
    cases (h.read hfound).symm.trans hread
    rw [h.namesIn hfound] at hn
    exact ⟨hfinds, path, hfound, hn⟩
  · rintro ⟨hfinds, path, hfound, hn⟩
    exact ⟨path, _, hfound, h.read hfound, by rwa [h.namesIn hfound], hfinds⟩

theorem Sample.buildable (h : w.Sample d) (hfinds : w.resolver.Finds name) :
    w.Buildable d name := by
  have hplain := h.slashFree hfinds
  obtain ⟨path, hfound⟩ := hfinds
  obtain ⟨hname, -⟩ := h.found hfound
  refine ⟨path, _, hfound, h.read hfound, fun v hv => ?_, h.spared name⟩
  refine ⟨_, Disk.reach_join h.enters (segment_fragmentName hplain (h.plain v hv).2) ?_ ?_
    (h.empty _)⟩
  · rcases h.variants v hv with rfl | rfl | rfl <;> rcases hname with rfl | rfl | rfl <;> decide
  · rw [h.outDir]
    rcases h.variants v hv with rfl | rfl | rfl <;> rcases hname with rfl | rfl | rfl <;> decide

theorem Sample.write_later {d' : Disk} (h : w.Sample d) (hv : w.variants ≠ [])
    (halike : w.Alike d d') (hroot : w.resolver.Finds root) :
    ∃ report st, w.write d' root = (.ok report, st) := by
  have hbuild : ∀ {m}, w.resolver.Finds m → w.Buildable d' m :=
    fun hm => (h.buildable hm).alike halike
  refine Writer.write_succeeds h.confined h.plain (h.tidy.of_alike halike) hv (h.slashFree hroot)
    fun m hm => ?_
  rcases ReflTransGen.cases_tail hm with rfl | ⟨k, -, -, -, -, -, -, hfinds⟩
  · exact hbuild hroot
  · exact hbuild hfinds

theorem Sample.write_succeeds (h : w.Sample d) (hv : w.variants ≠ [])
    (hroot : w.resolver.Finds root) : ∃ report st, w.write d root = (.ok report, st) :=
  h.write_later hv (.refl w d) hroot

end

end

-- ---------------------------------------------------------------------------
-- Two modules
-- ---------------------------------------------------------------------------

def twoModules (below : List String) : Writer where
  resolver := ⟨⟨[]⟩, ⟨[("a", .file ⟨"/s/a.v"⟩), ("b", .file ⟨"/s/b.v"⟩)], by decide⟩⟩
  extractor := { names := fun _ module _ => .ofList (if module = "a" then ["b"] else below) }
  freshness := .existing
  variants := ["sim"]
  outDir := ⟨"/o"⟩

def twoSources : Disk :=
  ⟨[(["o"], .dir), (["s"], .dir), (["s", "a.v"], .file ⟨#[]⟩ 0), (["s", "b.v"], .file ⟨#[]⟩ 0)],
    [], 0⟩

section
variable {below : List String} {name : String} {path : Path}

theorem resolve_twoModules : (twoModules below).resolver.resolve name =
    if name = "a" then .found ⟨"/s/a.v"⟩ else if name = "b" then .found ⟨"/s/b.v"⟩
    else .unresolved := by
  by_cases ha : name = "a"
  · simp [twoModules, Resolver.resolve, Override.Table.get?, ha]
  · by_cases hb : name = "b"
    · simp [twoModules, Resolver.resolve, Override.Table.get?, Override.Table.lookup_cons, hb]
    · simp [twoModules, Resolver.resolve, Override.Table.get?, Override.Table.lookup_cons, ha, hb,
        Resolver.candidates, FileIndex.matching, bestOf]

theorem found_twoModules (h : (twoModules below).resolver.resolve name = .found path) :
    name = "a" ∧ path = ⟨"/s/a.v"⟩ ∨ name = "b" ∧ path = ⟨"/s/b.v"⟩ := by
  rw [resolve_twoModules] at h
  split at h
  · next ha => exact .inl ⟨ha, by cases h; rfl⟩
  · split at h
    · next hb => exact .inr ⟨hb, by cases h; rfl⟩
    · cases h

theorem sample_twoModules : (twoModules below).Sample twoSources where
  outDir := rfl
  variants := by simp [twoModules]
  found := by
    intro name path h
    rcases found_twoModules h with ⟨rfl, rfl⟩ | ⟨rfl, rfl⟩
    · exact ⟨.inl rfl, by decide, 0, rfl⟩
    · exact ⟨.inr (.inl rfl), by decide, 0, rfl⟩
  cwd := rfl
  sources := rfl
  output := rfl
  empty := by simp [Disk.get?, Disk.lookupIn, twoSources]
  spared := fun _ _ _ _ => rfl

theorem finds_twoModules : (twoModules below).resolver.Finds name ↔ name = "a" ∨ name = "b" := by
  unfold Resolver.Finds
  rw [resolve_twoModules]
  by_cases ha : name = "a"
  · simp [ha]
  · by_cases hb : name = "b" <;> simp [ha, hb]

theorem dependsOn_twoModules {m n : String} : (twoModules below).DependsOn twoSources m n ↔
    m = "a" ∧ n = "b" ∨ m = "b" ∧ n ∈ below ∧ (n = "a" ∨ n = "b") := by
  rw [sample_twoModules.dependsOn_iff, finds_twoModules]
  constructor
  · rintro ⟨hfinds, path, hfound, hn⟩
    simp only [twoModules, NameSet.mem_ofList] at hn
    rcases found_twoModules hfound with ⟨rfl, -⟩ | ⟨rfl, -⟩
    · exact .inl ⟨rfl, by simpa using hn⟩
    · exact .inr ⟨rfl, by simpa using hn, hfinds⟩
  · intro h
    have hm : (twoModules below).resolver.Finds m := finds_twoModules.2 (h.imp And.left And.left)
    obtain ⟨path, hfound⟩ := hm
    refine ⟨h.elim (fun h => .inr h.2) fun h => h.2.2, path, hfound, ?_⟩
    simp only [twoModules, NameSet.mem_ofList]
    rcases h with ⟨rfl, rfl⟩ | ⟨rfl, hn, -⟩
    · simp
    · simpa using hn

theorem write_twoModules (below : List String) (hname : name = "a" ∨ name = "b") :
    ∃ report st, (twoModules below).write twoSources name = (.ok report, st) :=
  sample_twoModules.write_succeeds (by simp [twoModules]) (finds_twoModules.2 hname)

theorem write_missing (below : List String) (ha : name ≠ "a") (hb : name ≠ "b") :
    ∃ st, (twoModules below).write twoSources name = (.error (.missingRoot name), st) ∧
      st.disk = twoSources := by
  have hnone : ∀ path, (twoModules below).resolver.resolve name ≠ .found path :=
    fun path h => (found_twoModules h).elim (fun h => ha h.1) fun h => hb h.1
  have hgoes := (twoModules below).goes_write twoSources name
  generalize (twoModules below).write twoSources name = r at hgoes
  cases hgoes with
  | withoutVariants hv => simp [twoModules] at hv
  | missing _ hdisk => exact ⟨_, rfl, hdisk⟩
  | withoutDirectory hfound | failed hfound | finished hfound => exact absurd hfound (hnone _)

end

-- ---------------------------------------------------------------------------
-- Three modules
-- ---------------------------------------------------------------------------

def threeModules (below : String → List String) (freshness : Freshness) : Writer where
  resolver := ⟨⟨[]⟩, ⟨[("a", .file ⟨"/s/a.v"⟩), ("b", .file ⟨"/s/b.v"⟩), ("c", .file ⟨"/s/c.v"⟩)],
    by decide⟩⟩
  extractor := { names := fun _ module _ => .ofList (below module) }
  freshness := freshness
  variants := ["sim"]
  outDir := ⟨"/o"⟩

def threeSources : Disk :=
  ⟨[(["o"], .dir), (["s"], .dir), (["s", "a.v"], .file ⟨#[]⟩ 0), (["s", "b.v"], .file ⟨#[]⟩ 0),
    (["s", "c.v"], .file ⟨#[]⟩ 0)], [], 1⟩

section
variable {below : String → List String} {freshness : Freshness} {name : String} {path : Path}

theorem found_threeModules : (threeModules below freshness).resolver.resolve name = .found path ↔
    name = "a" ∧ path = ⟨"/s/a.v"⟩ ∨ name = "b" ∧ path = ⟨"/s/b.v"⟩ ∨
      name = "c" ∧ path = ⟨"/s/c.v"⟩ := by
  by_cases ha : name = "a"
  · simp [threeModules, Resolver.resolve, Override.Table.get?, ha, eq_comm]
  · by_cases hb : name = "b"
    · simp [threeModules, Resolver.resolve, Override.Table.get?, Override.Table.lookup_cons, hb,
        eq_comm]
    · by_cases hc : name = "c"
      · simp [threeModules, Resolver.resolve, Override.Table.get?, Override.Table.lookup_cons, hc,
          eq_comm]
      · simp [threeModules, Resolver.resolve, Override.Table.get?, Override.Table.lookup_cons, ha,
          hb, hc, Resolver.candidates, FileIndex.matching, bestOf]

theorem sample_threeModules : (threeModules below freshness).Sample threeSources where
  outDir := rfl
  variants := by simp [threeModules]
  found := by
    intro name path h
    rcases found_threeModules.1 h with ⟨rfl, rfl⟩ | ⟨rfl, rfl⟩ | ⟨rfl, rfl⟩
    · exact ⟨.inl rfl, by decide, 0, rfl⟩
    · exact ⟨.inr (.inl rfl), by decide, 0, rfl⟩
    · exact ⟨.inr (.inr rfl), by decide, 0, rfl⟩
  cwd := rfl
  sources := rfl
  output := rfl
  empty := by simp [Disk.get?, Disk.lookupIn, threeSources]
  spared := fun _ _ _ _ => rfl

end

end DesignDeps.Writer
