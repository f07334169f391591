import DesignDeps.Proofs.Listing
import DesignDeps.Proofs.Walk.Again
import Mathlib

/-!
# What runs fail on

`write_fails_iff`: where whatever exists is trusted and fragments can be written, a run fails
exactly if a module below the root has a source that cannot be read. Below the root is what sources
name one after the other, down to the modules that have a fragment already.

Only what stands once the output directory has been made counts. A run can read a source that could
not be read at the start, when the path to it leads through the output directory or to a fragment
(`unreadable_at_start`).
-/

namespace DesignDeps.Writer

open Text Walk Relation

-- ---------------------------------------------------------------------------
-- Kinds of failures
-- ---------------------------------------------------------------------------

section
variable {w : Writer} {d : Disk} {root : String} {st : State} {e : Error}

theorem isIo_walk (hv : w.variants ≠ []) :
    (∀ module path st e, (w.visit module path st).1 = .error e → e.IsIo) ∧
    ∀ module names kept st e, (w.visitAll module names kept st).1 = .error e → e.IsIo := by
  have hwalk := w.walk_induct
    (P := fun _ _ _ r => ∀ e, r.1 = .error e → e.IsIo)
    (Q := fun _ _ _ _ r => ∀ e, r.1 = .error e → e.IsIo)
    ?refused ?failed ?left ?done ?passed ?stopped ?descended
  · exact ⟨hwalk.1, fun module names kept st => hwalk.2 module names kept st⟩
  case refused =>
    rintro module path st e st₁ h _ ⟨⟩
    obtain ⟨-, -, hrefusal⟩ := enter_eq_error h
    cases hrefusal with
    | withoutVariants hnone => exact absurd hnone hv
    | unreadable => exact ⟨_, _, rfl⟩
  case failed =>
    rintro module path st names st₁ e st₂ _ _ ih _ ⟨⟩
    exact ih e rfl
  case left =>
    intro module path st names st₁ kept st₂ _ _ _ e he
    have hleaves := w.leaves_leave module path kept (st₂.inContext (·.pop))
    generalize w.leave module path kept (st₂.inContext (·.pop)) = r at he hleaves
    cases hleaves with
    | finished => cases he
    | stopped =>
      cases he
      exact ⟨_, _, rfl⟩
  case done => rintro module kept st e ⟨⟩
  case passed =>
    intro module name names kept st edge r _ _ _ _ ih e he
    exact ih e he
  case stopped =>
    rintro module name names kept st source e st₁ _ _ _ ih _ ⟨⟩
    exact ih e rfl
  case descended =>
    intro module name names kept st source st₁ r _ _ _ _ _ ih e he
    exact ih e he

theorem write_error (h : w.write d root = (.error e, st)) :
    e.IsIo ∨ st.disk = d ∧
      (w.variants = [] ∧ e = .invalidConfig .writerWithoutVariants ∨ e = .missingRoot root) := by
  by_cases hv : w.variants = []
  · unfold write at h
    rw [if_pos hv] at h
    cases h
    exact .inr ⟨rfl, .inl ⟨hv, rfl⟩⟩
  have hgoes := w.goes_write d root
  rw [h] at hgoes
  cases hgoes with
  | withoutVariants hnone => exact absurd hnone hv
  | missing _ hdisk => exact .inr ⟨hdisk, .inr rfl⟩
  | withoutDirectory => exact .inl ⟨_, _, rfl⟩
  | failed _ hvisit => exact .inl ((isIo_walk hv).1 root _ _ e (by rw [hvisit]))

end

-- ---------------------------------------------------------------------------
-- Where runs go down
-- ---------------------------------------------------------------------------

/-- A run from `root` that starts on `d` goes down along such an edge, if it gets to it: nothing is
at the fragment of the first variant yet, or the edge leads to the root. -/
def GoesDown (w : Writer) (d : Disk) (root m n : String) : Prop :=
  w.DependsOn d m n ∧
    (n = root ∨ ∀ v, w.variants.head? = some v → d.exists? (w.fragmentPath n v) = false)

/-- A module that the run may get to. -/
abbrev Below (w : Writer) (d : Disk) (root : String) : String → Prop :=
  ReflTransGen (w.GoesDown d root) root

/-- The module leads to a file that cannot be read. -/
def Unreadable (w : Writer) (d : Disk) (m : String) (path : Path) : Prop :=
  w.resolver.resolve m = .found path ∧ ∀ bytes, d.read path ≠ .ok bytes

section
variable {w : Writer} {S : String → Prop} {d d' : Disk} {root module name : String} {st : State}

theorem goesDown_of_meets {source : Path} (hw : w.freshness = .existing)
    (hmeets : w.Meets st name (.descend source)) (hgrows : d.Grows st.disk)
    (hedge : w.DependsOn d module name) : w.GoesDown d root module name := by
  refine ⟨hedge, .inr fun v hv => ?_⟩
  cases hmeets with
  | descend _ _ _ hstale =>
    rw [Bool.eq_false_iff] at hstale ⊢
    intro hexists
    obtain ⟨vs, hvs⟩ := List.head?_eq_some_iff.1 hv
    exact hstale (isFresh_mono hw hgrows ((isFresh_existing_iff hw).2 ⟨v, vs, hvs, hexists⟩))

/-- A walk fails on a source that could not be read at the start. -/
theorem unreadable_walk (hw : w.freshness = .existing) (hv : w.variants ≠ [])
    (hS : w.Confined S) (hd : d.Grounded) (ha : w.Apart S d)
    (htakes : ∀ m, w.Below d root m → w.TakesFragments d m) :
    (∀ module path st e, (w.visit module path st).1 = .error e → S module →
      w.resolver.resolve module = .found path → w.Below d root module → w.Alike d st.disk →
      ∃ m p cause, w.Below d root m ∧ w.Unreadable d m p ∧ e = .io p cause) ∧
    ∀ module names kept st e, (w.visitAll module names kept st).1 = .error e →
      (∀ n ∈ names, w.resolver.Finds n → S n ∧ w.DependsOn d module n) →
      w.Below d root module → w.Alike d st.disk →
      ∃ m p cause, w.Below d root m ∧ w.Unreadable d m p ∧ e = .io p cause := by
  have hwalk := w.walk_induct
    (P := fun module path st r => ∀ e, r.1 = .error e → S module →
      w.resolver.resolve module = .found path → w.Below d root module → w.Alike d st.disk →
      ∃ m p cause, w.Below d root m ∧ w.Unreadable d m p ∧ e = .io p cause)
    (Q := fun module names _ st r => ∀ e, r.1 = .error e →
      (∀ n ∈ names, w.resolver.Finds n → S n ∧ w.DependsOn d module n) →
      w.Below d root module → w.Alike d st.disk →
      ∃ m p cause, w.Below d root m ∧ w.Unreadable d m p ∧ e = .io p cause)
    ?refused ?failed ?left ?done ?passed ?stopped ?descended
  · exact ⟨hwalk.1, fun module names kept st => hwalk.2 module names kept st⟩
  case refused =>
    rintro module path st e st₁ h _ ⟨⟩ _ hfound hbelow halike
    obtain ⟨-, -, hrefusal⟩ := enter_eq_error h
    cases hrefusal with
    | withoutVariants hnone => exact absurd hnone hv
    | unreadable herror =>
      refine ⟨module, path, _, hbelow, ⟨hfound, fun bytes hread => ?_⟩, rfl⟩
      cases herror.symm.trans ((halike.source hfound).2 hread)
  case failed =>
    rintro module path st names st₁ e st₂ h _ ih _ ⟨⟩ _ hfound hbelow halike
    obtain ⟨-, hdisk, -⟩ := enter_eq_ok h
    obtain ⟨-, -, -, -, hin⟩ := halike.names h hfound hS
    exact ih e rfl hin hbelow (hdisk ▸ halike)
  case left =>
    intro module path st names st₁ kept st₂ h hall _ e he hm hfound hbelow halike
    obtain ⟨-, hdisk, -⟩ := enter_eq_ok h
    obtain ⟨-, -, -, -, hin⟩ := halike.names h hfound hS
    have halike₁ : w.Alike d st₁.disk := hdisk ▸ halike
    have hsteady := steady_visitAll hall halike₁ hS hd ha fun n hn hfinds => (hin n hn hfinds).1
    have halike₂ := halike₁.trans hsteady.alike
    have hleave : (w.leave module path kept (st₂.inContext (·.pop))).1 = .ok () :=
      ((htakes module hbelow).adds halike₂.adds).leave (halike₂.grows.grounded hd) rfl
    cases he.symm.trans hleave
  case done => rintro module kept st e ⟨⟩
  case passed =>
    intro module name names kept st edge r _ _ _ _ ih e he hin hbelow halike
    exact ih e he (fun n hn => hin n (List.mem_cons_of_mem _ hn)) hbelow (by simpa using halike)
  case stopped =>
    rintro module name names kept st source e st₁ hmeets _ _ ih _ ⟨⟩ hin hbelow halike
    obtain ⟨hname, hedge⟩ := hin name List.mem_cons_self ⟨source, hmeets.found⟩
    exact ih e rfl hname hmeets.found
      (hbelow.tail (goesDown_of_meets hw hmeets halike.grows hedge)) (by simpa using halike)
  case descended =>
    intro module name names kept st source st₁ r hmeets _ hvisit _ _ ih e he hin hbelow halike
    obtain ⟨hname, -⟩ := hin name List.mem_cons_self ⟨source, hmeets.found⟩
    have halike₀ : w.Alike d (w.settle module name (.descend source) st).disk := by
      simpa using halike
    have hsteady := steady_visit hvisit halike₀ hS hd ha hname
    exact ih e he (fun n hn => hin n (List.mem_cons_of_mem _ hn)) hbelow
      (halike₀.trans hsteady.alike)

theorem Confined.of_dependsOn (hS : w.Confined S) {m n : String} (h : w.DependsOn d m n) : S n := by
  obtain ⟨path, bytes, -, -, hn, hfinds⟩ := h
  exact hS path m _ n hn hfinds

theorem mem_modules_of_below {report : Report} (hw : w.freshness = .existing) (hS : w.Confined S)
    (hplain : ∀ m, S m → SlashFree m) (hd : d.Grounded) (hs : w.Separate (w.prepared d))
    (ha : w.Apart S (w.prepared d)) (hroot : S root) (h : w.write d root = (.ok report, st))
    {m : String} (hm : w.Below (w.prepared d) root m) : m ∈ report.modules := by
  obtain ⟨path, st', hfound, hvisit, rfl, hdisk⟩ := write_eq_ok h
  obtain ⟨hcovers, -, hwritten⟩ := covers_run hw hS (w.grounded_prepared hd) ha hroot hfound hvisit
  have hmodules : ∀ m ∈ st'.context.report.modules, SlashFree m := fun m hm => by
    obtain ⟨x, hx, rfl⟩ := (mem_modules_iff h).1 hm
    exact hplain _ (confined_visitsOf hS hroot h x hx)
  induction hm with
  | refl => exact root_mem_of_ok h
  | @tail m n _ hedge ih =>
    obtain ⟨hdep, rfl | hstale⟩ := hedge
    · exact root_mem_of_ok h
    refine (hcovers.closed m ih n hdep).elim (hwritten n) fun hreused => ?_
    obtain ⟨v, vs, hv, hexists⟩ :=
      (isFresh_existing_iff hw).1 ((hcovers.trusted n hreused).2 path)
    by_contra hnot
    have hsame := sameAt_fragment_of_ok hd h rfl (List.Subset.refl _) hs hmodules (m := n) (v := v)
      (hplain n (hS.of_dependsOn hdep)) (by simp [hv]) fun hmem => hnot hmem.1
    rw [← hdisk, hsame.exists?, hstale v (by simp [hv])] at hexists
    cases hexists

theorem readable_of_mem_modules {report : Report} (hS : w.Confined S) (hd : d.Grounded)
    (ha : w.Apart S (w.prepared d)) (hroot : S root) (h : w.write d root = (.ok report, st))
    {m : String} (hm : m ∈ report.modules) (path : Path) : ¬w.Unreadable (w.prepared d) m path := by
  rintro ⟨hfound, hunreadable⟩
  obtain ⟨x, hx, rfl⟩ := (mem_modules_iff h).1 hm
  cases (sound_visitsOf h x hx).found.symm.trans hfound
  obtain ⟨path, st', hfound', hvisit, -, -, hvisits⟩ := visitsOf_of_ok h
  obtain ⟨-, -, hscanned⟩ := (scanned_walk hS (w.grounded_prepared hd) ha).1 root path _ st' hvisit
    (.start w d root) (awaits_start w d root)
  obtain ⟨bytes, hread, -⟩ := hscanned hroot hfound' (.refl w _) x (hvisits ▸ hx)
  exact hunreadable bytes hread

end

-- ---------------------------------------------------------------------------
-- The theorem
-- ---------------------------------------------------------------------------

section
variable {w : Writer} {d : Disk} {root : String} {path : Path}

/-- Where whatever exists is trusted and fragments can be written, a run fails exactly if a module
that it may get to has a source that cannot be read, and on the source of such a module. All of this
is to be seen once the output directory has been made. There no link may be in it, and no fragment
may have its place where a source is. -/
theorem write_fails_iff (hw : w.freshness = .existing) (hd : d.Grounded)
    (hS : w.Confined SlashFree) (hroot : SlashFree root) (hv : w.variants ≠ [])
    (hplain : w.PlainVariants) (hfound : w.resolver.resolve root = .found path)
    (hdirs : (d.makeDirs w.outDir).1 = .ok ()) (hlinks : (w.prepared d).LinkFree w.outDir)
    (ha : w.Apart (fun m => SlashFree m ∧ w.resolver.Finds m) (w.prepared d))
    (htakes : ∀ m, w.Below (w.prepared d) root m → w.TakesFragments (w.prepared d) m) :
    ((∃ e st, w.write d root = (.error e, st)) ↔
      ∃ m p, w.Below (w.prepared d) root m ∧ w.Unreadable (w.prepared d) m p) ∧
    ∀ e st, w.write d root = (.error e, st) → ∃ m p cause,
      w.Below (w.prepared d) root m ∧ w.Unreadable (w.prepared d) m p ∧ e = .io p cause := by
  have hS' : w.Confined fun m => SlashFree m ∧ w.resolver.Finds m :=
    fun path m text n hn hfinds => ⟨hS path m text n hn hfinds, hfinds⟩
  have hroot' : SlashFree root ∧ w.resolver.Finds root := ⟨hroot, path, hfound⟩
  have herror : ∀ e st, w.write d root = (.error e, st) → ∃ m p cause,
      w.Below (w.prepared d) root m ∧ w.Unreadable (w.prepared d) m p ∧ e = .io p cause := by
    intro e st h
    have hgoes := w.goes_write d root
    rw [h] at hgoes
    cases hgoes with
    | withoutVariants hnone => exact absurd hnone hv
    | missing hmissing => exact absurd hfound (hmissing path)
    | withoutDirectory _ hfails => cases hfails.symm.trans hdirs
    | @failed source _ _ hsource hvisit =>
      exact (unreadable_walk hw hv hS' (w.grounded_prepared hd) ha htakes).1 root source _ e
        (by rw [hvisit]) hroot' hsource .refl (.refl w _)
  refine ⟨⟨fun ⟨e, st, h⟩ => ?_, fun ⟨m, p, hbelow, hunreadable⟩ => ?_⟩, herror⟩
  · obtain ⟨m, p, -, hbelow, hunreadable, -⟩ := herror e st h
    exact ⟨m, p, hbelow, hunreadable⟩
  · generalize hrun : w.write d root = r
    obtain ⟨r, st⟩ := r
    cases r with
    | error e => exact ⟨e, st, rfl⟩
    | ok report =>
      have hmem := mem_modules_of_below hw hS' (fun _ => And.left) hd
        (separate_of_linkFree hlinks hplain) ha hroot' hrun hbelow
      exact absurd hunreadable (readable_of_mem_modules hS' hd ha hroot' hrun hmem p)

end

-- ---------------------------------------------------------------------------
-- A missing source
-- ---------------------------------------------------------------------------

def halfSources : Disk :=
  ⟨[(["o"], .dir), (["s"], .dir), (["s", "a.v"], .file ⟨#[]⟩ 0)], [], 0⟩

theorem prepared_halfSources : (twoModules []).prepared halfSources = halfSources :=
  Disk.Enters.makeDirs_disk (enters_output rfl)

theorem empty_halfSources (name : String) : halfSources.get? (["o"] ++ [name]) = none := by
  simp [Disk.get?, Disk.lookupIn, halfSources]

theorem linkFree_halfSources : halfSources.LinkFree ⟨"/o"⟩ :=
  Disk.linkFree_of_enters (enters_output rfl)
    fun name _ h => by cases (empty_halfSources name).symm.trans h

theorem apart_halfSources : (twoModules []).Apart SlashFree halfSources := by
  intro m v n path l hm hv hn hl hpath
  have hplain : (twoModules []).PlainVariants := sample_twoModules.plain
  obtain ⟨-, rfl⟩ := Disk.places_join (enters_output rfl)
    (segment_fragmentName hm (hplain v hv).2) (empty_halfSources _) hl
  have ha : halfSources.reach .create ⟨"/s/a.v"⟩ = .ok ["s", "a.v"] := by cbv
  have hb : halfSources.reach .create ⟨"/s/b.v"⟩ = .ok ["s", "b.v"] := by cbv
  rcases found_twoModules hn with ⟨-, rfl⟩ | ⟨-, rfl⟩
  · simp [ha] at hpath
  · simp [hb] at hpath

theorem takesFragments_halfSources {m : String} (hm : m = "a" ∨ m = "b") :
    (twoModules []).TakesFragments halfSources m := by
  refine ⟨fun v hv => ?_, fun _ _ _ => rfl⟩
  obtain rfl : v = "sim" := List.mem_singleton.1 hv
  rcases hm with rfl | rfl
  · have hfragment : (twoModules []).fragmentPath "a" "sim" = ⟨"/o/a.sim.d"⟩ := by decide
    rw [hfragment]
    exact ⟨["o", "a.sim.d"], by cbv, by decide⟩
  · have hfragment : (twoModules []).fragmentPath "b" "sim" = ⟨"/o/b.sim.d"⟩ := by decide
    rw [hfragment]
    exact ⟨["o", "b.sim.d"], by cbv, by decide⟩

/-- The run fails on the second module. -/
theorem write_fails_twoModules : ∃ st cause,
    (twoModules []).write halfSources "a" = (.error (.io ⟨"/s/b.v"⟩ cause), st) := by
  let w := twoModules []
  have hd : halfSources.Grounded := halfSources.dirs_root
  have hs : w.Sample twoSources := sample_twoModules
  have hfound : w.resolver.resolve "a" = .found ⟨"/s/a.v"⟩ := by simp [w, resolve_twoModules]
  have hfound' : w.resolver.resolve "b" = .found ⟨"/s/b.v"⟩ := by simp [w, resolve_twoModules]
  have hread : halfSources.read ⟨"/s/a.v"⟩ = .ok ⟨#[]⟩ := by cbv
  have hmissing : halfSources.read ⟨"/s/b.v"⟩ = .error .notFound := by cbv
  have hprepared : w.prepared halfSources = halfSources := prepared_halfSources
  have hbelow : ∀ m, w.Below halfSources "a" m → m = "a" ∨ m = "b" := by
    intro m hm
    rcases ReflTransGen.cases_tail hm with rfl | ⟨k, -, ⟨-, -, -, -, -, hfinds⟩, -⟩
    · exact .inl rfl
    · exact finds_twoModules.1 hfinds
  obtain ⟨hiff, herror⟩ := write_fails_iff (w := w) rfl hd hs.confined (by decide)
    (by simp [w, twoModules]) hs.plain hfound ((enters_output rfl).makeDirs_ok hd (by decide))
    (by rw [hprepared]; exact linkFree_halfSources)
    (by rw [hprepared]; exact fun m v n path l hm => apart_halfSources m v n path l hm.1)
    (by rw [hprepared]; exact fun m hm => takesFragments_halfSources (hbelow m hm))
  rw [hprepared] at hiff herror
  have hdepends : w.DependsOn halfSources "a" "b" := by
    refine ⟨_, _, hfound, hread, ?_, _, hfound'⟩
    have hhdl : (SourceKind.ofPath ⟨"/s/a.v"⟩).isHdl = true := by decide
    simp [namesIn, hhdl, w, twoModules]
  have hdown : w.GoesDown halfSources "a" "a" "b" := by
    refine ⟨hdepends, .inr fun v hv => ?_⟩
    obtain rfl : v = "sim" := by simpa [w, twoModules, eq_comm] using hv
    have hfragment : w.fragmentPath "b" "sim" = ⟨"/o/b.sim.d"⟩ := by decide
    rw [hfragment]
    cbv
  obtain ⟨e, st, h⟩ := hiff.2 ⟨"b", ⟨"/s/b.v"⟩, .single hdown, hfound', by simp [hmissing]⟩
  obtain ⟨m, p, cause, -, ⟨hm, hunreadable⟩, rfl⟩ := herror e st h
  rcases found_twoModules hm with ⟨-, rfl⟩ | ⟨-, rfl⟩
  · exact absurd hread (hunreadable _)
  · exact ⟨st, cause, h⟩

-- ---------------------------------------------------------------------------
-- Sources that come into being
-- ---------------------------------------------------------------------------

/-- Names and variants are plain, and no link is in the output directory once it has been made. No
fragment path is the path of a source, but it may lead to one. -/
structure Plain (w : Writer) (d : Disk) (root : String) : Prop where
  trusts : w.freshness = .existing
  confined : w.Confined SlashFree
  root : SlashFree root
  nodup : w.variants.Nodup
  variants : w.PlainVariants
  linkFree : (w.prepared d).LinkFree w.outDir
  unlike : ∀ m v n p, SlashFree m → v ∈ w.variants → w.resolver.resolve n = .found p →
    w.fragmentPath m v ≠ p

theorem fragmentPath_ne {w : Writer} {m v : String} {p : Path} (hm : SlashFree m)
    (hv : '/' ∉ v.toList) (hp : SourceKind.ofPath p ≠ .other) : w.fragmentPath m v ≠ p :=
  fun h => hp (h ▸ ofPath_fragmentPath hm hv)

def detour : Writer where
  resolver := ⟨⟨[]⟩, ⟨[("a", .file ⟨"/o/../s/a.v"⟩)], by decide⟩⟩
  extractor := { names := fun _ _ _ => ∅ }
  freshness := .existing
  variants := ["sim"]
  outDir := ⟨"/o"⟩

def detourSources : Disk :=
  ⟨[(["s"], .dir), (["s", "a.v"], .file ⟨#[]⟩ 0)], [], 0⟩

def siblings : Writer :=
  threeModules (fun m => if m = "a" then ["b", "c"] else []) .existing

def siblingSources : Disk :=
  ⟨[(["o"], .dir), (["s"], .dir), (["s", "a.v"], .file ⟨#[]⟩ 0), (["s", "b.v"], .file ⟨#[]⟩ 0),
    (["s", "c.v"], .link ⟨"/o/b.sim.d"⟩)], [], 0⟩

theorem found_detour {name : String} {path : Path}
    (h : detour.resolver.resolve name = .found path) : name = "a" ∧ path = ⟨"/o/../s/a.v"⟩ := by
  by_cases ha : name = "a"
  · simpa [detour, Resolver.resolve, Override.Table.get?, ha, eq_comm] using h
  · simp [detour, Resolver.resolve, Override.Table.get?, Override.Table.lookup_cons, ha,
      Resolver.candidates, FileIndex.matching, bestOf] at h

theorem makeDirs_detour : detourSources.makeDirs detour.outDir = (.ok (),
    ⟨[(["s"], .dir), (["s", "a.v"], .file ⟨#[]⟩ 0), (["o"], .dir)], [], 0⟩) := by
  cbv

theorem prepared_detour : detour.prepared detourSources =
    ⟨[(["s"], .dir), (["s", "a.v"], .file ⟨#[]⟩ 0), (["o"], .dir)], [], 0⟩ :=
  congrArg Prod.snd makeDirs_detour

theorem plain_detour : detour.Plain detourSources "a" where
  trusts := rfl
  confined := by
    intro path m text n hn hfinds
    obtain ⟨_, hfound⟩ := hfinds
    rw [(found_detour hfound).1]
    decide
  root := by decide
  nodup := by decide
  variants := by
    intro v hv
    obtain rfl : v = "sim" := List.mem_singleton.1 hv
    decide
  linkFree := by
    rw [prepared_detour]
    exact Disk.linkFree_of_enters (enters_output rfl) (by simp [Disk.get?, Disk.lookupIn])
  unlike := by
    intro m v n p hm hv hfound
    obtain rfl : v = "sim" := List.mem_singleton.1 hv
    rw [(found_detour hfound).2]
    exact fragmentPath_ne hm (by decide) (by decide)

theorem write_detour : ∃ report st, detour.write detourSources "a" = (.ok report, st) := by
  have hfragment : detour.fragmentPath "a" "sim" = ⟨"/o/a.sim.d"⟩ := by decide
  have hfound : detour.resolver.resolve "a" = .found ⟨"/o/../s/a.v"⟩ := by cbv
  have hread : (detour.prepared detourSources).read ⟨"/o/../s/a.v"⟩ = .ok ⟨#[]⟩ := by
    rw [prepared_detour]
    cbv
  obtain ⟨report, st, hwrite, -⟩ := write_of_leaf detourSources.dirs_root (by decide)
    (congrArg Prod.fst makeDirs_detour) hfound hread (by cbv) ⟨by
      intro v hv
      obtain rfl : v = "sim" := List.mem_singleton.1 hv
      rw [prepared_detour, hfragment]
      exact ⟨["o", "a.sim.d"], by cbv, by decide⟩, fun _ _ _ => rfl⟩
  exact ⟨report, st, hwrite⟩

section
variable {d : Disk} {name : String} {path : Path} {text : String}

theorem takesFragments_siblings (hadds : siblingSources.AddsFiles d)
    (hname : name ∈ ["a", "b", "c"]) : siblings.TakesFragments d name := by
  refine ⟨fun v hv => hadds.writable ?_, fun _ _ _ => rfl⟩
  obtain rfl : v = "sim" := List.mem_singleton.1 hv
  have ha : siblings.fragmentPath "a" "sim" = ⟨"/o/a.sim.d"⟩ := by decide
  have hb : siblings.fragmentPath "b" "sim" = ⟨"/o/b.sim.d"⟩ := by decide
  have hc : siblings.fragmentPath "c" "sim" = ⟨"/o/c.sim.d"⟩ := by decide
  simp only [List.mem_cons, List.not_mem_nil, or_false] at hname
  rcases hname with rfl | rfl | rfl
  · rw [ha]
    exact ⟨["o", "a.sim.d"], by cbv, by decide⟩
  · rw [hb]
    exact ⟨["o", "b.sim.d"], by cbv, by decide⟩
  · rw [hc]
    exact ⟨["o", "c.sim.d"], by cbv, by decide⟩

theorem namesIn_siblings (hname : name ≠ "a") : (siblings.namesIn path name text).toList = [] := by
  unfold namesIn
  split
  · simp only [siblings, threeModules, hname, if_false]
    rfl
  · rfl

end

theorem write_siblings : ∃ report st, siblings.write siblingSources "a" = (.ok report, st) := by
  let w := siblings
  let d := siblingSources
  have hd : d.Grounded := d.dirs_root
  have hv : w.variants ≠ [] := by simp [w, siblings, threeModules]
  have hdisk : (w.start d "a").disk = d := Disk.Enters.makeDirs_disk (enters_output rfl)
  have ha : w.resolver.resolve "a" = .found ⟨"/s/a.v"⟩ := found_threeModules.2 (by simp)
  have hb : w.resolver.resolve "b" = .found ⟨"/s/b.v"⟩ := found_threeModules.2 (by simp)
  have hc : w.resolver.resolve "c" = .found ⟨"/s/c.v"⟩ := found_threeModules.2 (by simp)
  have hfragment : w.fragmentPath "b" "sim" = ⟨"/o/b.sim.d"⟩ := by decide
  have hfragment' : w.fragmentPath "c" "sim" = ⟨"/o/c.sim.d"⟩ := by decide
  have hread : d.read ⟨"/s/a.v"⟩ = .ok ⟨#[]⟩ := by cbv
  obtain ⟨st₁, henter⟩ : ∃ st₁, w.enter "a" ⟨"/s/a.v"⟩ (w.start d "a") = (.ok ["b", "c"], st₁) :=
    enter_of_read hv (hdisk.symm ▸ hread)
  obtain ⟨-, hdisk₁, hcontext₁, -⟩ := enter_eq_ok henter
  rw [hdisk] at hdisk₁
  have hempty : d.read ⟨"/s/b.v"⟩ = .ok ⟨#[]⟩ := by cbv
  have hedge : w.edge st₁ "b" = .descend ⟨"/s/b.v"⟩ := by
    refine edge_of_stale rfl ?_ ?_ hb fun v hv => ?_
    · simp [hcontext₁, start, Context.new]
    · simp [hcontext₁, start, Context.new]
    · cases (hv : some "sim" = some v)
      rw [hdisk₁, hfragment]
      cbv
  obtain ⟨st₂, hall, hwrites, hactive₂, hvisited₂, -⟩ := visitAll_of_leaf "a" ["c"] []
    (hdisk₁.symm ▸ hd) hv hedge (hdisk₁.symm ▸ hempty) (namesIn_siblings (by decide))
    (takesFragments_siblings (hdisk₁.symm ▸ .refl d) (by simp))
  obtain ⟨content, hwrite⟩ : ∃ content, d.Stores ⟨"/o/b.sim.d"⟩ content st₂.disk := by
    rw [hdisk₁] at hwrites
    cases hwrites with
    | cons hfirst hrest =>
      cases hrest
      exact ⟨_, hfragment ▸ hfirst⟩
  have hadds : d.AddsFiles st₂.disk := hwrite.adds hd
  have hd₂ : st₂.disk.Grounded := hadds.grows.grounded hd
  have hread₂ : st₂.disk.read ⟨"/s/c.v"⟩ = .ok content :=
    hwrite.read (l := ["o", "b.sim.d"]) hd (by cbv) (by cbv)
  have hedge₂ : w.edge st₂ "c" = .descend ⟨"/s/c.v"⟩ := by
    refine edge_of_stale rfl ?_ ?_ hc fun v hv => ?_
    · simp [hactive₂, hcontext₁, start, Context.new]
    · simp [hvisited₂, hcontext₁, start, Context.new]
    · cases (hv : some "sim" = some v)
      have hplace : d.reach .create ⟨"/o/b.sim.d"⟩ = .ok ["o", "b.sim.d"] := by cbv
      have hplace' : d.reach .create ⟨"/o/c.sim.d"⟩ = .ok ["o", "c.sim.d"] := by cbv
      have hsame : d.SameAt st₂.disk ⟨"/o/c.sim.d"⟩ := hwrite.sameAt hd (by
        rintro l hl hl'
        cases hplace.symm.trans hl
        simp [hplace'] at hl')
      rw [hfragment', hsame.exists?]
      cbv
  obtain ⟨st₃, hall₂, hwrites₃, -⟩ := visitAll_of_leaf "a" [] ["b"] hd₂ hv hedge₂ hread₂
    (namesIn_siblings (by decide)) (takesFragments_siblings hadds (by simp))
  have hadds₃ : d.AddsFiles st₃.disk := hadds.trans (hwrites₃.since hd₂).adds
  rw [List.nil_append, hall₂, visitAll_nil] at hall
  obtain ⟨st₄, hroot, -⟩ := visit_of_visitAll henter hall (hadds₃.grows.grounded hd)
    (takesFragments_siblings hadds₃ (by simp))
  obtain ⟨st, hrun, -⟩ := write_of_visit ha ((enters_output rfl).makeDirs_ok hd (by decide)) hroot
  exact ⟨_, st, hrun⟩

theorem below_siblings : siblings.Below siblingSources "a" "c" := by
  have hread : siblingSources.read ⟨"/s/a.v"⟩ = .ok ⟨#[]⟩ := by cbv
  have hhdl : (SourceKind.ofPath ⟨"/s/a.v"⟩).isHdl = true := by decide
  refine .single ⟨⟨_, _, found_threeModules.2 (.inl ⟨rfl, rfl⟩), hread, ?_, ⟨"/s/c.v"⟩,
    found_threeModules.2 (by simp)⟩, .inr fun v hv => ?_⟩
  · simp [namesIn, hhdl, siblings, threeModules]
  · obtain rfl : v = "sim" := by simpa [siblings, threeModules, eq_comm] using hv
    have hfragment : siblings.fragmentPath "c" "sim" = ⟨"/o/c.sim.d"⟩ := by decide
    rw [hfragment]
    cbv

theorem plain_siblings : siblings.Plain siblingSources "a" where
  trusts := rfl
  confined := sample_threeModules.confined
  root := by decide
  nodup := by decide
  variants := sample_threeModules.plain
  linkFree := by
    have hprepared : siblings.prepared siblingSources = siblingSources :=
      Disk.Enters.makeDirs_disk (enters_output rfl)
    rw [hprepared]
    exact Disk.linkFree_of_enters (enters_output rfl)
      (by simp [Disk.get?, Disk.lookupIn, siblingSources])
  unlike := by
    intro m v n p hm hv hfound
    obtain rfl : v = "sim" := List.mem_singleton.1 hv
    refine fragmentPath_ne hm (by decide) ?_
    rcases found_threeModules.1 hfound with ⟨-, rfl⟩ | ⟨-, rfl⟩ | ⟨-, rfl⟩ <;> decide

/-- What cannot be read at the start may be read all the same: the source of the root, or a source
below it. -/
theorem unreadable_at_start :
    (detour.Plain detourSources "a" ∧ detour.Unreadable detourSources "a" ⟨"/o/../s/a.v"⟩ ∧
      ∃ report st, detour.write detourSources "a" = (.ok report, st)) ∧
    siblings.Plain siblingSources "a" ∧ siblings.Below siblingSources "a" "c" ∧
      siblings.Unreadable siblingSources "c" ⟨"/s/c.v"⟩ ∧
      ∃ report st, siblings.write siblingSources "a" = (.ok report, st) := by
  have hdetour : detourSources.read ⟨"/o/../s/a.v"⟩ = .error .notFound := by cbv
  have hsibling : siblingSources.read ⟨"/s/c.v"⟩ = .error .notFound := by cbv
  refine ⟨⟨plain_detour, ⟨by cbv, by simp [hdetour]⟩, write_detour⟩, plain_siblings,
    below_siblings, ⟨found_threeModules.2 (by simp), by simp [hsibling]⟩, write_siblings⟩

end DesignDeps.Writer
