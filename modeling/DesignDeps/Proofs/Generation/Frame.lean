import DesignDeps.Proofs.Generation.Stages

/-!
# What a run touches

`generate_frame`: in whatever way a run ends, it has written fragments and made the directory for
them, and everything else on the disk is as it was. A fragment is one of the root or of a module
whose name the run has found in a source that it has read.

Fragments are no sources by their names. All the same a source changes when it is a link to one
(`source_replaced`).
-/

namespace DesignDeps

namespace Writer

open Text Walk

-- ---------------------------------------------------------------------------
-- Events
-- ---------------------------------------------------------------------------

section
variable {w : Writer} {module : String} {path : Path} {names kept : List String} {st st' : State}

theorem log_enter (w : Writer) (module : String) (path : Path) (st : State) :
    st.log ⊆ (w.enter module path st).2.log := by
  unfold enter
  split
  · exact List.Subset.refl _
  · dsimp only
    split
    · simp [State.note]
    · exact fun e he => by simp [State.note, State.inContext, he]

theorem log_of_enter (h : w.enter module path st = (.ok names, st')) :
    Log.Event.dependencies module names ∈ st'.log := by
  unfold enter at h
  split at h
  · cases h
  · dsimp only at h
    split at h
    · cases h
    · cases h
      simp [State.note, State.inContext]

theorem log_settle (w : Writer) (module name : String) (edge : Edge) (st : State) :
    st.log ⊆ (w.settle module name edge st).log := by
  cases edge <;> simp [settle, State.note, State.inReport, State.inContext]

theorem log_writeFragments (w : Writer) (module : String) (path : Path)
    (kept variants : List String) (st : State) :
    st.log ⊆ (w.writeFragments module path kept variants st).2.log := by
  induction variants generalizing st with
  | nil => exact List.Subset.refl _
  | cons variant variants ih =>
    simp only [writeFragments]
    split
    · exact List.Subset.refl _
    · exact List.Subset.trans (by simp [State.note, State.inReport, State.inContext]) (ih _)

theorem log_leave (w : Writer) (module : String) (path : Path) (kept : List String) (st : State) :
    st.log ⊆ (w.leave module path kept st).2.log := by
  have h := w.log_writeFragments module path kept w.variants st
  unfold leave
  split
  · next heq => rwa [heq] at h
  · next heq => rwa [heq] at h

end

-- ---------------------------------------------------------------------------
-- Walks
-- ---------------------------------------------------------------------------

def Named (root : String) (events : List Log.Event) (m : String) : Prop :=
  m = root ∨ ∃ module names, .dependencies module names ∈ events ∧ m ∈ names

theorem Named.mono {root m : String} {events events' : List Log.Event}
    (h : Named root events m) (hsub : events ⊆ events') : Named root events' m :=
  h.imp_right fun ⟨module, names, he, hm⟩ => ⟨module, names, hsub he, hm⟩

theorem entered {w : Writer} {S : String → Prop} {root module : String} {path : Path}
    {names : List String} {st st' : State} (hS : w.Confined S)
    (h : w.enter module path st = (.ok names, st')) :
    st.log ⊆ st'.log ∧ st.disk = st'.disk ∧
      ∀ n ∈ names, Named root st'.log n ∧ (w.resolver.Finds n → S n) := by
  have hlog := w.log_enter module path st
  rw [h] at hlog
  have hevent := log_of_enter h
  obtain ⟨-, hdisk, -, bytes, -, rfl⟩ := enter_eq_ok h
  exact ⟨hlog, hdisk.symm, fun n hn =>
    ⟨.inr ⟨module, _, hevent, hn⟩, hS path module _ n (NameSet.mem_iff.2 hn)⟩⟩

/-- The second disk has fragments of named modules in `S` that the first one has not, or not with
this content. There is no other difference. -/
structure Deposits (w : Writer) (S : String → Prop) (root : String) (events : List Log.Event)
    (d d' : Disk) : Prop where
  since : Since d d'
  places : ∀ l, d'.get? l ≠ d.get? l → ∃ m v, S m ∧ Named root events m ∧ v ∈ w.variants ∧
    d.reach .create (w.fragmentPath m v) = .ok l

section
variable {w : Writer} {S : String → Prop} {root module : String} {path : Path}
  {kept : List String} {events events' : List Log.Event} {d : Disk} {st : State}

theorem Deposits.refl (hd : d.Grounded) : w.Deposits S root events d d :=
  ⟨.refl hd, fun _ hl => absurd rfl hl⟩

theorem Deposits.mono {d' : Disk} (h : w.Deposits S root events d d') (hsub : events ⊆ events') :
    w.Deposits S root events' d d' := by
  refine ⟨h.since, fun l hl => ?_⟩
  obtain ⟨m, v, hm, hnamed, hv⟩ := h.places l hl
  exact ⟨m, v, hm, hnamed.mono hsub, hv⟩

theorem Deposits.stores {v : String} {content : ByteArray} {a b : Disk}
    (h : w.Deposits S root events d a) (hm : S module) (hnamed : Named root events module)
    (hv : v ∈ w.variants) (hstores : a.Stores (w.fragmentPath module v) content b) :
    w.Deposits S root events d b := by
  refine ⟨h.since.stores hstores, fun l hl => ?_⟩
  obtain ⟨k, hk, -, rfl⟩ := hstores
  by_cases hlk : l = k
  · exact ⟨module, v, hm, hnamed, hv, hlk ▸ h.since.adds.reach_create.1 hk⟩
  · exact h.places l (by rwa [Disk.get?_put_of_ne hlk] at hl)

theorem Deposits.leave (h : w.Deposits S root events d st.disk) (hm : S module)
    (hnamed : Named root events module) :
    w.Deposits S root events d (w.leave module path kept st).2.disk :=
  (w.leaves_leave module path kept st).keeps (fun hv hstores h => h.stores hm hnamed hv hstores) h

theorem deposits_walk (hS : w.Confined S) :
    (∀ module path st, S module → Named root st.log module →
      w.Deposits S root st.log d st.disk →
      st.log ⊆ (w.visit module path st).2.log ∧
        w.Deposits S root (w.visit module path st).2.log d (w.visit module path st).2.disk) ∧
    ∀ module names kept st, (∀ n ∈ names, Named root st.log n ∧ (w.resolver.Finds n → S n)) →
      w.Deposits S root st.log d st.disk →
      st.log ⊆ (w.visitAll module names kept st).2.log ∧
        w.Deposits S root (w.visitAll module names kept st).2.log d
          (w.visitAll module names kept st).2.disk := by
  refine w.walk_induct
    (P := fun module _ st r => S module → Named root st.log module →
      w.Deposits S root st.log d st.disk →
      st.log ⊆ r.2.log ∧ w.Deposits S root r.2.log d r.2.disk)
    (Q := fun _ names _ st r => (∀ n ∈ names, Named root st.log n ∧ (w.resolver.Finds n → S n)) →
      w.Deposits S root st.log d st.disk →
      st.log ⊆ r.2.log ∧ w.Deposits S root r.2.log d r.2.disk)
    ?refused ?failed ?left ?done ?passed ?stopped ?descended
  case refused =>
    intro module path st e st₁ h _ _ hdeposits
    obtain ⟨hdisk, -⟩ := enter_eq_error h
    have hlog := w.log_enter module path st
    rw [h] at hlog
    exact ⟨hlog, hdisk ▸ hdeposits.mono hlog⟩
  case failed =>
    intro module path st names st₁ e st₂ h _ ih hm hnamed hdeposits
    obtain ⟨hlog, hdisk, hnames⟩ := entered hS h
    obtain ⟨hlog', hdeposits'⟩ := ih hnames (hdisk ▸ hdeposits.mono hlog)
    exact ⟨List.Subset.trans hlog hlog', hdeposits'⟩
  case left =>
    intro module path st names st₁ kept st₂ h _ ih hm hnamed hdeposits
    obtain ⟨hlog, hdisk, hnames⟩ := entered hS h
    obtain ⟨hlog', hdeposits'⟩ := ih hnames (hdisk ▸ hdeposits.mono hlog)
    have hleave := w.log_leave module path kept (st₂.inContext (·.pop))
    have hlog'' := List.Subset.trans (List.Subset.trans hlog hlog') hleave
    have hbefore : w.Deposits S root _ d (st₂.inContext (·.pop)).disk := hdeposits'.mono hleave
    exact ⟨hlog'', hbefore.leave hm (hnamed.mono hlog'')⟩
  case done =>
    intro module kept st _ hdeposits
    exact ⟨List.Subset.refl _, hdeposits⟩
  case passed =>
    intro module name names kept st edge r _ _ _ _ ih hnames hdeposits
    have hlog := w.log_settle module name edge st
    obtain ⟨hlog', hdeposits'⟩ := ih (fun n hn =>
      (hnames n (List.mem_cons_of_mem _ hn)).imp_left (·.mono hlog))
      (by simpa using hdeposits.mono hlog)
    exact ⟨List.Subset.trans hlog hlog', hdeposits'⟩
  case stopped =>
    intro module name names kept st source e st₁ hmeets _ _ ih hnames hdeposits
    have hlog := w.log_settle module name (.descend source) st
    obtain ⟨hnamed, hname⟩ := hnames name List.mem_cons_self
    obtain ⟨hlog', hdeposits'⟩ := ih (hname ⟨source, hmeets.found⟩) (hnamed.mono hlog)
      (by simpa using hdeposits.mono hlog)
    exact ⟨List.Subset.trans hlog hlog', hdeposits'⟩
  case descended =>
    intro module name names kept st source st₁ r hmeets _ _ ih _ ih' hnames hdeposits
    have hlog := w.log_settle module name (.descend source) st
    obtain ⟨hnamed, hname⟩ := hnames name List.mem_cons_self
    obtain ⟨hlog', hdeposits'⟩ := ih (hname ⟨source, hmeets.found⟩) (hnamed.mono hlog)
      (by simpa using hdeposits.mono hlog)
    have hlog₁ := List.Subset.trans hlog hlog'
    obtain ⟨hlog'', hdeposits''⟩ := ih' (fun n hn =>
      (hnames n (List.mem_cons_of_mem _ hn)).imp_left (·.mono hlog₁)) hdeposits'
    exact ⟨List.Subset.trans hlog₁ hlog'', hdeposits''⟩

/-- A run changes nothing, or it makes the directory for the fragments and puts some of them
there. -/
theorem deposits_write {r : Except Error Report} (hS : w.Confined S) (hroot : S root)
    (hd : d.Grounded) (h : w.write d root = (r, st)) :
    st.disk = d ∨ w.Deposits S root st.events (w.prepared d) st.disk := by
  have hgrounded := w.grounded_prepared hd
  have hevents : ∀ {st : State}, st.log ⊆ st.events := by simp [State.events]
  unfold write at h
  dsimp only at h
  split at h
  · cases h
    exact .inl rfl
  · split at h
    · cases h
      exact .inl rfl
    · cases h
      exact .inl rfl
    · next path hfound =>
      right
      split at h
      · next e disk hdirs =>
        cases h
        obtain rfl : disk = w.prepared d := by simp [prepared, hdirs]
        exact .refl hgrounded
      · next disk hdirs =>
        obtain ⟨-, hdeposits⟩ := (deposits_walk hS).1 root path (w.start d root) hroot (.inl rfl)
          (.refl hgrounded)
        simp only [State.note] at h
        rw [start_of_makeDirs hdirs] at h
        split at h
        · next hvisit =>
          cases h
          rw [hvisit] at hdeposits
          exact hdeposits.mono hevents
        · next hvisit =>
          cases h
          rw [hvisit] at hdeposits
          exact hdeposits.mono (by simp [State.events])

end

end Writer

namespace Config

open Writer

/-- Where the run has put a fragment of the root, or of a module whose name it has found in a source
that it has read. -/
def FragmentPlace (c : Config) (g : Generation) (l : Location) : Prop :=
  ∃ o m v, g.disk.Enters c.outputDir o ∧ l = o ++ [m ++ "." ++ v ++ ".d"] ∧ SlashFree m ∧
    v ∈ c.variants ∧ Named c.rootModule g.events m

/-- What the run has made of the entry at a location. -/
inductive Touched (c : Config) (d : Disk) (g : Generation) (l : Location) : Prop
  | left : g.disk.get? l = d.get? l → Touched c d g l
  | written {content modified} : c.FragmentPlace g l →
      (∀ {entry}, d.get? l = some entry → ∃ content modified, entry = .file content modified) →
      g.disk.get? l = some (.file content modified) → Touched c d g l
  | made {q} : d.get? l = none → g.disk.get? l = some .dir → q ∈ c.outputDir.ancestors →
      g.disk.Enters q l → Touched c d g l

section
variable {c : Config} {d : Disk} {faults : Faults}

theorem slash_not_mem_of_validate (h : c.validate = .ok ()) : ∀ v ∈ c.variants, '/' ∉ v.toList := by
  intro v hv hslash
  unfold validate at h
  split at h
  · cases h
  · split at h
    · cases h
    · next hnone =>
      have hgood := List.find?_eq_none.1 hnone v hv
      simp only [isBadVariant, List.any_eq_true, not_exists, not_and] at hgood
      exact hgood '/' hslash (by simp)

theorem deposits_generate (hd : d.Grounded) (hroot : SlashFree c.rootModule) :
    (c.generate d faults).disk = d ∨ ∃ index overrides,
      (c.writer index overrides faults).Deposits SlashFree c.rootModule (c.generate d faults).events
        (d.makeDirs c.outputDir).2 (c.generate d faults).disk := by
  have hgenerates := c.generates_generate d faults
  generalize c.generate d faults = g at hgenerates
  cases hgenerates with
  | rejected | unlisted | unloaded => exact .inl rfl
  | @written index listing overrides loading r st _ _ _ hwrite =>
    refine (deposits_write (confined_lexical rfl) hroot hd hwrite).imp id fun hdeposits => ?_
    exact ⟨index, overrides, hdeposits.mono (List.subset_append_right _ _)⟩

theorem grows_generate (hd : d.Grounded) (hroot : SlashFree c.rootModule) :
    d.Grows (c.generate d faults).disk := by
  rcases deposits_generate hd hroot with hdisk | ⟨_, _, hsince, -⟩
  · rw [hdisk]
    exact .refl d
  · exact (Disk.extends_makeDirs d c.outputDir).grows.trans hsince.adds.grows

theorem touched_generate (hvalid : c.validate = .ok ()) (hd : d.Grounded)
    (hroot : SlashFree c.rootModule) (hlinks : (d.makeDirs c.outputDir).2.LinkFree c.outputDir)
    (l : Location) : c.Touched d (c.generate d faults) l := by
  rcases deposits_generate hd hroot with hdisk | ⟨index, overrides, hsince, hplaces⟩
  · exact .left (by rw [hdisk])
  have hgrows := hsince.adds.grows
  by_cases hl : (c.generate d faults).disk.get? l = (d.makeDirs c.outputDir).2.get? l
  · rcases Disk.makesDirs_makeDirs d c.outputDir l with hsame | ⟨hnone, hdir, q, hq, henters⟩
    · exact .left (hl.trans hsame)
    · exact .made hnone (hl.trans hdir) hq (henters.grows hgrows)
  · obtain ⟨m, v, hm, hnamed, hv, hreach⟩ := hplaces l hl
    have hsegment := segment_fragmentName hm (slash_not_mem_of_validate hvalid v hv)
    obtain ⟨o, ho⟩ := Disk.enters_of_reach hsegment hreach
    obtain rfl := hlinks.place hsegment ho hreach
    obtain ⟨content, modified, hfile⟩ := hsince.adds.file_of_ne hl
    refine .written ⟨o, m, v, ho.grows hgrows, rfl, hm, hv, hnamed⟩ (fun he => ?_) hfile
    obtain ⟨_, he', hkind⟩ := hgrows.entry ((Disk.extends_makeDirs d c.outputDir).entry he)
    cases hfile.symm.trans he'
    cases hkind
    exact ⟨_, _, rfl⟩

-- ---------------------------------------------------------------------------
-- The theorem
-- ---------------------------------------------------------------------------

/-- In whatever way a run ends, it has written fragments and made the directory for them, with what
was missing above it, and has left everything else as it was. No file with the name of a source is
among what it has written, and every file is read as before, unless the path to it leads to where a
fragment is. No link may be in the output directory as the run finds or makes it. -/
theorem generate_frame (hvalid : c.validate = .ok ()) (hd : d.Grounded)
    (hroot : SlashFree c.rootModule) (hlinks : (d.makeDirs c.outputDir).2.LinkFree c.outputDir) :
    (∀ l, c.Touched d (c.generate d faults) l) ∧
    (∀ l name content modified, (SourceKind.ofPath ⟨name⟩).isHdl = true →
      ((c.generate d faults).disk.get? (l ++ [name]) = some (.file content modified) ↔
        d.get? (l ++ [name]) = some (.file content modified))) ∧
    ∀ p bytes, d.read p = .ok bytes → (c.generate d faults).disk.read p = .ok bytes ∨
      ∃ l, d.reach .follow p = .ok l ∧ c.FragmentPlace (c.generate d faults) l := by
  have htouched : ∀ l, c.Touched d (c.generate d faults) l :=
    touched_generate hvalid hd hroot hlinks
  refine ⟨htouched, fun l name content modified hname => ?_, fun p bytes hread => ?_⟩
  · cases htouched (l ++ [name]) with
    | left hsame => rw [hsame]
    | written hplace =>
      obtain ⟨o, m, v, -, hl, hm, hv, -⟩ := hplace
      obtain ⟨-, rfl⟩ : l = o ∧ name = m ++ "." ++ v ++ ".d" := by simpa using hl
      have hv' := slash_not_mem_of_validate hvalid v hv
      rw [ofPath_of_fileName (Path.fileName?_of_segment (segment_fragmentName hm hv'))]
        at hname
      cases hname
    | made hnone hdir => simp [hnone, hdir]
  · obtain ⟨l, modified, hreach, hfile⟩ := Disk.read_eq_ok_iff.1 hread
    cases htouched l with
    | left hsame =>
      have hgrows : d.Grows (c.generate d faults).disk := grows_generate hd hroot
      exact .inl (Disk.read_eq_ok_iff.2 ⟨l, modified, hgrows.reach hreach, hsame.trans hfile⟩)
    | written hplace => exact .inr ⟨l, hreach, hplace⟩
    | made hnone => simp [hnone] at hfile

end

-- ---------------------------------------------------------------------------
-- A source that is a link
-- ---------------------------------------------------------------------------

def linked : Config :=
  { Config.new ⟨"/s"⟩ ⟨"/o"⟩ "a" with variants := ["sim"], ignoreFile := "x" }

def linkedTree : Disk :=
  ⟨[(["o"], .dir), (["o", "a.sim.d"], .file ⟨#[]⟩ 0), (["s"], .dir),
    (["s", "a.sv"], .link ⟨"/o/a.sim.d"⟩)], [], 0⟩

def linkedWriter : Writer :=
  linked.writer ⟨[⟨"/s/a.sv"⟩]⟩ ∅

theorem list_linked : (linked.lister.list linkedTree).1 = .ok ⟨[⟨"/s/a.sv"⟩]⟩ := by
  have hroot : linkedTree.locate .follow linked.lister.root = .ok ["s"] := by cbv
  have hchildren : linkedTree.children ["s"] = ["a.sv"] := by cbv
  have hpath : Location.path ["s"] = ⟨"/s"⟩ := by decide
  have hpath' : Location.path (["s"] ++ ["a.sv"]) = ⟨"/s/a.sv"⟩ := by decide
  have hmark : linked.lister.isMarked linkedTree (Location.path ["s"]) = false := by
    have hjoin : (Location.path ["s"]).join ⟨linked.lister.ignoreFile⟩ = ⟨"/s/x"⟩ := by decide
    rw [Lister.isMarked, hjoin]
    cbv
  have hread : linkedTree.readDir (Location.path ["s"]) = .ok [⟨"/s/a.sv"⟩] := by
    rw [hpath]
    cbv
  rw [Lister.list_of_level hroot rfl rfl rfl hmark hread (by rw [hchildren]; decide), hchildren]
  simp only [List.map_cons, List.map_nil, List.filter_cons, List.filter_nil, hpath, hpath']
  cbv

theorem enters_linked : linkedTree.Enters linked.outputDir ["o"] :=
  enters_output rfl

theorem linkFree_linked : (linkedTree.makeDirs linked.outputDir).2.LinkFree linked.outputDir := by
  rw [enters_linked.makeDirs_disk]
  exact Disk.linkFree_of_enters enters_linked (by simp [Disk.get?, Disk.lookupIn, linkedTree])

theorem generate_frame_linked : linked.validate = .ok () ∧ SlashFree linked.rootModule ∧
    ∀ l, linked.Touched linkedTree (linked.generate linkedTree) l := by
  have hvalid : linked.validate = .ok () := by cbv
  have hd : linkedTree.Grounded := linkedTree.dirs_root
  have hroot : SlashFree linked.rootModule := by decide
  exact ⟨hvalid, hroot, (generate_frame hvalid hd hroot linkFree_linked).1⟩

/-- The run writes the fragment through the link, so its source is not what it was. -/
theorem source_replaced : linked.validate = .ok () ∧ SlashFree linked.rootModule ∧
    (linkedTree.makeDirs linked.outputDir).2.LinkFree linked.outputDir ∧
    (SourceKind.ofPath ⟨"/s/a.sv"⟩).isHdl = true ∧
    (∃ report, (linked.generate linkedTree).result = .ok report) ∧
    linkedTree.read ⟨"/s/a.sv"⟩ = .ok ⟨#[]⟩ ∧
    (linked.generate linkedTree).disk.read ⟨"/s/a.sv"⟩ ≠ .ok ⟨#[]⟩ := by
  have hvalid : linked.validate = .ok () := by cbv
  have hload : (linked.loadOverrides linkedTree).1 = .ok ∅ := by cbv
  have hd : linkedTree.Grounded := linkedTree.dirs_root
  have hprepared : linkedWriter.prepared linkedTree = linkedTree := enters_linked.makeDirs_disk
  have hfound : linkedWriter.resolver.resolve "a" = .found ⟨"/s/a.sv"⟩ := by cbv
  have hread : linkedTree.read ⟨"/s/a.sv"⟩ = .ok ⟨#[]⟩ := by cbv
  have hfragment : linkedWriter.fragmentPath "a" "sim" = ⟨"/o/a.sim.d"⟩ := by decide
  have hplace : linkedTree.reach .create ⟨"/o/a.sim.d"⟩ = .ok ["o", "a.sim.d"] := by cbv
  have hplace' : linkedTree.reach .create ⟨"/s/a.sv"⟩ = .ok ["o", "a.sim.d"] := by cbv
  obtain ⟨report, st, hwrite, hwrites⟩ := write_of_leaf (w := linkedWriter) hd
    (by decide) (enters_linked.makeDirs_ok hd (by decide)) hfound (hprepared.symm ▸ hread) (by cbv)
    (by
      refine ⟨fun v hv => ?_, fun _ _ _ => rfl⟩
      obtain rfl : v = "sim" := List.mem_singleton.1 hv
      rw [hprepared, hfragment]
      exact ⟨_, hplace, by decide⟩)
  obtain ⟨hresult, hdisk⟩ := generate_of_ok {} hvalid list_linked hload
  have hrun : (linked.writer ⟨[⟨"/s/a.sv"⟩]⟩ ∅).write linkedTree linked.rootModule =
      (.ok report, st) := hwrite
  rw [hrun] at hresult hdisk
  refine ⟨hvalid, by decide, linkFree_linked, by decide, ⟨report, hresult⟩, hread, ?_⟩
  rw [hdisk]
  rw [hprepared] at hwrites
  cases hwrites with
  | cons hfirst hrest =>
    cases hrest
    rw [hfragment] at hfirst
    rw [hfirst.read hd hplace hplace']
    intro hsame
    have hempty := congrArg ByteArray.size (Except.ok.inj hsame)
    revert hempty
    decide

end Config

end DesignDeps
