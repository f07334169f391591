import DesignDeps.Proofs.Walk.BackEdges
import DesignDeps.Proofs.Walk.Contents

/-!
# Running again

`write_again`: right after a run that succeeds, the same run succeeds once more. It writes the root
alone, trusts whatever the root depends on, and leaves every file with the content that it has.

The two runs go different ways. The first one goes down to what was not there and leaves out the
edges that close a cycle on its way; the second one finds everything below the root fresh and goes
down nowhere. But only the root is active in either of them while the names of the root are met, so
both keep the same dependencies there. The first run has written the fragments of the root last, and
to write the same fragments again in the same order changes nothing, even where two of them have one
place.
-/

namespace DesignDeps.Writer

open Text Walk

section
variable {w : Writer} {d d' : Disk} {module name : String} {path : Path} {names kept : List String}
  {st st' : State}

-- ---------------------------------------------------------------------------
-- Walks that go down nowhere
-- ---------------------------------------------------------------------------

theorem enter_of_read {bytes : ByteArray} (hv : w.variants ≠ [])
    (hread : st.disk.read path = .ok bytes) : ∃ st', w.enter module path st =
      (.ok (w.namesIn path module (Utf8.lossy bytes)).toList, st') := by
  unfold enter
  rw [if_neg hv]
  simp [State.note, hread]

theorem Meets.eq_reused_iff {edge : Edge} (h : w.Meets st name edge)
    (hpass : ∀ source, edge ≠ .descend source) : edge = .reused ↔
      name ∉ st.context.active ∧ name ∉ st.context.visited ∧ w.resolver.Finds name := by
  cases h with
  | cut _ hactive => simp [hactive]
  | excluded _ hres | unresolved _ hres => simp [Resolver.Finds, hres]
  | seen _ _ hvisited => simp [hvisited]
  | reused hactive hfound hvisited => simp [hactive, hvisited, Resolver.Finds, hfound]
  | descend => exact absurd rfl (hpass _)

/-- Where every dependency is being worked on, claimed or fresh, a walk goes past all of them and
trusts the fresh ones. -/
theorem visitAll_of_fresh (hfresh : ∀ n ∈ names, ∀ path, w.resolver.resolve n = .found path →
    n ∉ st.context.active → n ∉ st.context.visited → w.isFresh st.disk n path = true) :
    ∃ kept' st', w.visitAll module names kept st = (.ok kept', st') ∧ st'.disk = st.disk ∧
      st'.context.report.modules = st.context.report.modules ∧
      ∀ n, n ∈ st'.context.report.reused ↔ n ∈ st.context.report.reused ∨
        n ∈ names ∧ n ∉ st.context.active ∧ n ∉ st.context.visited ∧ w.resolver.Finds n := by
  induction names generalizing kept st with
  | nil => exact ⟨kept, st, visitAll_nil .., rfl, rfl, by simp⟩
  | cons name names ih =>
    obtain ⟨hname, hnames⟩ := List.forall_mem_cons.1 hfresh
    have hmeets := w.meets_edge st name
    generalize hedge : w.edge st name = edge at hmeets
    have hpass : ∀ source, edge ≠ .descend source := by
      rintro source rfl
      cases hmeets with
      | descend hactive hfound hvisited hstale =>
        simp [hname source hfound hactive hvisited] at hstale
    obtain ⟨kept', st', hall, hdisk, hmodules, hreused⟩ :=
      @ih (if edge.isKept then kept ++ [name] else kept) (w.settle module name edge st) (by
        simpa only [disk_settle, active_settle, mem_visited_settle_of_pass hpass] using hnames)
    refine ⟨kept', st', ?_, by rw [hdisk, disk_settle], by rw [hmodules, modules_settle],
      fun n => ?_⟩
    · rw [visitAll_cons, hedge]
      split
      · next source => exact absurd rfl (hpass source)
      · exact hall
    · rw [hreused, mem_reused_settle, active_settle, mem_visited_settle_of_pass hpass,
        hmeets.eq_reused_iff hpass, List.mem_cons]
      constructor
      · rintro ((⟨hnew, rfl⟩ | hold) | ⟨hn, hnew⟩)
        · exact .inr ⟨.inl rfl, hnew⟩
        · exact .inl hold
        · exact .inr ⟨.inr hn, hnew⟩
      · rintro (hold | ⟨rfl | hn, hnew⟩)
        · exact .inl (.inr hold)
        · exact .inl (.inl ⟨hnew, rfl⟩)
        · exact .inr ⟨hn, hnew⟩

-- ---------------------------------------------------------------------------
-- Writing the same fragments again
-- ---------------------------------------------------------------------------

variable {variants : List String} {v : String}

theorem Writes.place (h : w.Writes module path kept variants d d') (hd : d.Grounded)
    (hv : v ∈ variants) :
    d'.Writable (w.fragmentPath module v) := by
  induction h with
  | nil => cases hv
  | cons hwrite hrest ih =>
    have hadds := hwrite.adds hd
    have hd₁ := hadds.grows.grounded hd
    rcases List.mem_cons.1 hv with rfl | hv
    · have hadds' := hadds.trans (hrest.since hd₁).adds
      exact hadds'.writable hwrite.writable
    · exact ih hd₁ hv

theorem writes_of_left (h : w.leave module path kept st = (.ok (), st')) :
    w.Writes module path kept w.variants st.disk st'.disk ∧
      st'.context = { st.context with report := { st.context.report with
        modules := st.context.report.modules ++ [module]
        fragments := st.context.report.fragments ++ w.variants.map (w.fragmentPath module) } } := by
  cases leaves_of_leave h with
  | finished hwrites hcontext => exact ⟨hwrites, hcontext⟩

theorem TakesFragments.leave (h : w.TakesFragments d module) (hd : d.Grounded)
    (hdisk : st.disk = d) : (w.leave module path kept st).1 = .ok () := by
  subst hdisk
  have hleaves := w.leaves_leave module path kept st
  generalize w.leave module path kept st = r at hleaves
  cases hleaves with
  | finished => rfl
  | @stopped written variant after _ _ _ hvs hwrites hfails =>
    have hv : variant ∈ w.variants := by simp [hvs]
    have hwritable := (h.adds (hwrites.since hd).adds).places _ hv
    exact absurd hwritable (hfails.not_writable h.spared hv)

theorem visit_of_visitAll {st₁ st₂ : State} (henter : w.enter module path st = (.ok names, st₁))
    (hall : w.visitAll module names [] st₁ = (.ok kept, st₂)) (hd : st₂.disk.Grounded)
    (htakes : w.TakesFragments st₂.disk module) :
    ∃ st', w.visit module path st = (.ok (), st') ∧
      w.Writes module path kept w.variants st₂.disk st'.disk ∧
      st'.context = { st₂.context.pop with report := { st₂.context.report with
        modules := st₂.context.report.modules ++ [module]
        fragments :=
          st₂.context.report.fragments ++ w.variants.map (w.fragmentPath module) } } := by
  have hleave : (w.leave module path kept (st₂.inContext (·.pop))).1 = .ok () :=
    htakes.leave hd rfl
  generalize hleft : w.leave module path kept (st₂.inContext (·.pop)) = r at hleave
  obtain ⟨_, st'⟩ := r
  cases hleave
  obtain ⟨hwrites, hcontext⟩ := writes_of_left hleft
  refine ⟨st', ?_, hwrites, hcontext⟩
  rw [visit_eq, henter]
  dsimp only
  rw [hall]
  exact hleft

theorem visit_of_leaf (module : String) (st : State) {bytes : ByteArray} (hd : st.disk.Grounded)
    (hv : w.variants ≠ []) (hread : st.disk.read path = .ok bytes)
    (hnames : (w.namesIn path module (Utf8.lossy bytes)).toList = [])
    (htakes : w.TakesFragments st.disk module) :
    ∃ st', w.visit module path st = (.ok (), st') ∧
      w.Writes module path [] w.variants st.disk st'.disk ∧
      st'.context.active = st.context.active ∧ st'.context.visited = st.context.visited ∧
      st'.context.report.modules = st.context.report.modules ++ [module] := by
  obtain ⟨st₁, henter⟩ : ∃ st₁, w.enter module path st = (.ok _, st₁) := enter_of_read hv hread
  rw [hnames] at henter
  obtain ⟨-, hdisk, hcontext, -⟩ := enter_eq_ok henter
  obtain ⟨st', hvisit, hwrites, hcontext'⟩ := visit_of_visitAll henter (visitAll_nil ..)
    (hdisk.symm ▸ hd) (hdisk.symm ▸ htakes)
  rw [hdisk] at hwrites
  exact ⟨st', hvisit, hwrites, by simp [hcontext', hcontext], by simp [hcontext', hcontext],
    by simp [hcontext', hcontext]⟩

theorem edge_of_stale {source : Path} (hw : w.freshness = .existing)
    (hactive : name ∉ st.context.active) (hvisited : name ∉ st.context.visited)
    (hfound : w.resolver.resolve name = .found source)
    (hstale : ∀ v, w.variants.head? = some v →
      st.disk.exists? (w.fragmentPath name v) = false) : w.edge st name = .descend source := by
  have hfresh : ¬w.isFresh st.disk name source = true := by
    rw [isFresh_existing_iff hw]
    rintro ⟨v, vs, hv, hexists⟩
    simp [hstale v (by simp [hv])] at hexists
  simp [edge_of_found hactive hfound, hvisited, hfresh]

theorem visitAll_of_leaf (module : String) (names kept : List String) {source : Path}
    {bytes : ByteArray} (hd : st.disk.Grounded) (hv : w.variants ≠ [])
    (hedge : w.edge st name = .descend source) (hread : st.disk.read source = .ok bytes)
    (hnames : (w.namesIn source name (Utf8.lossy bytes)).toList = [])
    (htakes : w.TakesFragments st.disk name) :
    ∃ st', w.visitAll module (name :: names) kept st =
        w.visitAll module names (kept ++ [name]) st' ∧
      w.Writes name source [] w.variants st.disk st'.disk ∧
      st'.context.active = st.context.active ∧
      (∀ n, n ∈ st'.context.visited ↔ n = name ∨ n ∈ st.context.visited) ∧
      st'.context.report.modules = st.context.report.modules ++ [name] := by
  have hdisk : (w.settle module name (.descend source) st).disk = st.disk := disk_settle ..
  obtain ⟨st', hvisit, hwrites, hactive, hvisited, hmodules⟩ := visit_of_leaf name
    (w.settle module name (.descend source) st) (hdisk.symm ▸ hd) hv
    (hdisk.symm ▸ hread) hnames (hdisk.symm ▸ htakes)
  rw [hdisk] at hwrites
  rw [active_settle] at hactive
  rw [modules_settle] at hmodules
  refine ⟨st', ?_, hwrites, hactive, fun n => ?_, hmodules⟩
  · rw [visitAll_cons, hedge]
    dsimp only
    rw [hvisit]
  · rw [hvisited, mem_visited_settle_iff]
    simp

/-- What is read at a place that is written depends on what is written there last, and on nothing
that was there before. -/
theorem Writes.read_congr {e e' : Disk} {q : Path} {bytes : ByteArray}
    (h : w.Writes module path kept variants d d') (h' : w.Writes module path kept variants e e')
    (hd : d.Grounded) (he : e.Grounded)
    (hplaces : ∀ p l, e.reach .create p = .ok l ↔ d.reach .create p = .ok l)
    (hq : ∃ v ∈ variants, ∃ l, d.reach .create (w.fragmentPath module v) = .ok l ∧
      d.reach .create q = .ok l) : e'.read q = .ok bytes ↔ d'.read q = .ok bytes := by
  induction h generalizing e with
  | nil =>
    obtain ⟨v, hv, -⟩ := hq
    cases hv
  | @cons variant variants d d₁ d₂ hwrite hrest ih =>
    cases h' with
    | @cons _ _ _ e₁ _ hwrite' hrest' =>
      have hadds := hwrite.adds hd
      have hadds' := hwrite'.adds he
      have hd₁ := hadds.grows.grounded hd
      have he₁ := hadds'.grows.grounded he
      by_cases hlater : ∃ v ∈ variants, ∃ l, d.reach .create (w.fragmentPath module v) = .ok l ∧
          d.reach .create q = .ok l
      · refine ih hrest' hd₁ he₁ (fun p l => ?_) ?_
        · rw [hadds.reach_create, hadds'.reach_create, hplaces]
        · simpa only [hadds.reach_create] using hlater
      obtain ⟨v, hv, l, hl, hql⟩ := hq
      obtain rfl : v = variant :=
        (List.mem_cons.1 hv).resolve_right fun hv => hlater ⟨v, hv, l, hl, hql⟩
      have hother : ∀ v ∈ variants, ∀ k, d.reach .create (w.fragmentPath module v) = .ok k →
          d.reach .create q ≠ .ok k := fun v hv k hk hqk => hlater ⟨v, hv, k, hk, hqk⟩
      have hsame : d₁.SameAt d₂ q :=
        hrest.sameAt hd₁ (by simpa only [hadds.reach_create, ne_eq] using hother)
      have hsame' : e₁.SameAt e' q := hrest'.sameAt he₁ (by
        simpa only [hadds'.reach_create, hplaces, ne_eq] using hother)
      have hread := hwrite.read hd hl hql
      have hread' := hwrite'.read he ((hplaces _ _).2 hl) ((hplaces _ _).2 hql)
      rw [hsame.read, hsame'.read, hread, hread']

theorem Writes.read_again {e e' : Disk} (h : w.Writes module path kept variants d d')
    (h' : w.Writes module path kept variants e e') (hd : d.Grounded) (hadds : d'.AddsFiles e)
    (hsame : ∀ q, d'.SameAt e q) (q : Path) {bytes : ByteArray} :
    e'.read q = .ok bytes ↔ d'.read q = .ok bytes := by
  have hbefore := (h.since hd).adds.trans hadds
  have he := hbefore.grows.grounded hd
  by_cases hq : ∃ v ∈ variants, ∃ l, d.reach .create (w.fragmentPath module v) = .ok l ∧
      d.reach .create q = .ok l
  · exact h.read_congr h' hd he (fun p l => hbefore.reach_create) hq
  · have hkept : e.SameAt e' q := by
      refine h'.sameAt he fun v hv l hl hql => hq ⟨v, hv, l, ?_, ?_⟩
      · exact hbefore.reach_create.1 hl
      · exact hbefore.reach_create.1 hql
    rw [hkept.read, (hsame q).read]

end

-- ---------------------------------------------------------------------------
-- The theorem
-- ---------------------------------------------------------------------------

section
variable {w : Writer} {d : Disk} {root : String} {report : Report} {st : State}

theorem write_of_visit {path : Path} {st' : State} (hfound : w.resolver.resolve root = .found path)
    (hdirs : (d.makeDirs w.outDir).1 = .ok ())
    (hvisit : w.visit root path (w.start d root) = (.ok (), st')) :
    ∃ st'', w.write d root = (.ok st'.context.report, st'') ∧ st''.disk = st'.disk := by
  have hgoes := w.goes_write d root
  generalize w.write d root = r at hgoes
  cases hgoes with
  | withoutVariants hnone =>
    simp [visit_eq, enter, hnone] at hvisit
  | missing hmissing => exact absurd hfound (hmissing path)
  | withoutDirectory _ herror => cases herror.symm.trans hdirs
  | failed hfound' hvisit' =>
    cases hfound.symm.trans hfound'
    cases hvisit.symm.trans hvisit'
  | finished hfound' hvisit' hdisk =>
    cases hfound.symm.trans hfound'
    cases hvisit.symm.trans hvisit'
    exact ⟨_, rfl, hdisk⟩

theorem write_of_leaf {path : Path} {bytes : ByteArray} (hd : d.Grounded) (hv : w.variants ≠ [])
    (hdirs : (d.makeDirs w.outDir).1 = .ok ()) (hfound : w.resolver.resolve root = .found path)
    (hread : (w.prepared d).read path = .ok bytes)
    (hnames : (w.namesIn path root (Utf8.lossy bytes)).toList = [])
    (htakes : w.TakesFragments (w.prepared d) root) :
    ∃ report st, w.write d root = (.ok report, st) ∧
      w.Writes root path [] w.variants (w.prepared d) st.disk := by
  obtain ⟨st', hvisit, hwrites, -⟩ := visit_of_leaf root (w.start d root)
    (w.grounded_prepared hd) hv hread hnames htakes
  obtain ⟨st, hwrite, hdisk⟩ := write_of_visit hfound hdirs hvisit
  exact ⟨_, st, hwrite, hdisk ▸ hwrites⟩

theorem write_of_leaf_below {name : String} {path source : Path} {bytes bytes' : ByteArray}
    (hw : w.freshness = .existing) (hd : d.Grounded) (hv : w.variants ≠ [])
    (hdirs : d.makeDirs w.outDir = (.ok (), d)) (hne : name ≠ root)
    (hroot : w.resolver.resolve root = .found path) (hread : d.read path = .ok bytes)
    (hnames : (w.namesIn path root (Utf8.lossy bytes)).toList = [name])
    (hfound : w.resolver.resolve name = .found source) (hread' : d.read source = .ok bytes')
    (hnames' : (w.namesIn source name (Utf8.lossy bytes')).toList = [])
    (hstale : ∀ v, w.variants.head? = some v → d.exists? (w.fragmentPath name v) = false)
    (htakes : ∀ m, m = root ∨ m = name → w.TakesFragments d m) :
    ∃ report st e, w.write d root = (.ok report, st) ∧ report.modules = [name, root] ∧
      e.Grounded ∧ d.AddsFiles e ∧ w.Writes root path [name] w.variants e st.disk := by
  have hstart : (w.start d root).disk = d := congrArg Prod.snd hdirs
  obtain ⟨st₁, henter⟩ : ∃ st₁, w.enter root path (w.start d root) = (.ok [name], st₁) := by
    rw [← hnames]
    exact enter_of_read hv (hstart.symm ▸ hread)
  obtain ⟨-, hdisk₁, hcontext₁, -⟩ := enter_eq_ok henter
  rw [hstart] at hdisk₁
  have hedge : w.edge st₁ name = .descend source := by
    refine edge_of_stale hw ?_ ?_ hfound fun v hv => hdisk₁.symm ▸ hstale v hv
    · simp [hcontext₁, start, Context.new, hne]
    · simp [hcontext₁, start, Context.new, hne]
  obtain ⟨st₂, hall, hwrites, -, -, hmodules⟩ := visitAll_of_leaf root [] []
    (hdisk₁.symm ▸ hd) hv hedge (hdisk₁.symm ▸ hread') hnames'
    (hdisk₁.symm ▸ htakes name (.inr rfl))
  rw [hdisk₁] at hwrites
  have hadds : d.AddsFiles st₂.disk := (hwrites.since hd).adds
  have hgrounded := hadds.grows.grounded hd
  rw [List.nil_append, visitAll_nil] at hall
  obtain ⟨st₃, hvisit, hwrites₃, hcontext₃⟩ :=
    visit_of_visitAll henter hall hgrounded ((htakes root (.inl rfl)).adds hadds)
  obtain ⟨st, hrun, hdisk₃⟩ := write_of_visit hroot (congrArg Prod.fst hdirs) hvisit
  refine ⟨_, st, st₂.disk, hrun, ?_, hgrounded, hadds, hdisk₃ ▸ hwrites₃⟩
  simp [hcontext₃, hmodules, hcontext₁, start, Context.new, Report.new]

theorem writes_root (hd : d.Grounded) (ha : w.Apart w.resolver.Finds (w.prepared d))
    (h : w.write d root = (.ok report, st)) :
    ∃ path bytes e, w.variants ≠ [] ∧ w.resolver.resolve root = .found path ∧
      (w.prepared d).read path = .ok bytes ∧ e.Grounded ∧
      w.Writes root path (w.listed [root] (w.namesIn path root (Utf8.lossy bytes)).toList)
        w.variants e st.disk := by
  obtain ⟨path, st₃, hfound, hvisit, -, hdisk⟩ := write_eq_ok h
  obtain ⟨names, st₁, kept, st₂, henter, hall, hleave, -⟩ := visit_eq_ok hvisit
  obtain ⟨hv, hdisk₁, hcontext, bytes, hread, rfl⟩ := enter_eq_ok henter
  have hgrounded := w.grounded_prepared hd
  have halike : w.Alike (w.prepared d) st₁.disk := by
    rw [hdisk₁]
    exact .refl w _
  have hsteady := steady_visitAll hall halike w.confined_finds hgrounded ha fun _ _ hfinds => hfinds
  have hkept := kept_visitAll hall halike w.confined_finds hgrounded ha fun _ _ hfinds => hfinds
  have hactive : st₁.context.active = [root] := by simp [hcontext, start, Context.new]
  rw [hactive, List.nil_append] at hkept
  subst hkept
  obtain ⟨hwrites, -⟩ := writes_of_left hleave
  rw [disk_inContext, ← hdisk] at hwrites
  exact ⟨path, bytes, st₂.disk, hv, hfound, hread,
    (halike.trans hsteady.alike).grows.grounded hgrounded, hwrites⟩

/-- A run whose root depends on nothing but itself and fresh modules writes the root alone. -/
theorem write_of_fresh {path : Path} {bytes : ByteArray} {o : Location} (hd : d.Grounded)
    (ha : w.Apart w.resolver.Finds d) (ho : d.Enters w.outDir o)
    (hsize : w.outDir.text.utf8ByteSize < Disk.maxPath) (hv : w.variants ≠ [])
    (hfound : w.resolver.resolve root = .found path) (hread : d.read path = .ok bytes)
    (hfresh : ∀ n path, w.DependsOn d root n → w.resolver.resolve n = .found path → n ≠ root →
      w.isFresh d n path = true)
    (htakes : w.TakesFragments d root) :
    ∃ report st, w.write d root = (.ok report, st) ∧
      w.Writes root path (w.listed [root] (w.namesIn path root (Utf8.lossy bytes)).toList)
        w.variants d st.disk ∧
      report.modules = [root] ∧ ∀ n, n ∈ report.reused ↔ n ≠ root ∧ w.DependsOn d root n := by
  have hprepared : w.prepared d = d := ho.makeDirs_disk
  have hstart : (w.start d root).disk = d := hprepared
  obtain ⟨st₁, henter⟩ : ∃ st₁, w.enter root path (w.start d root) =
      (.ok (w.namesIn path root (Utf8.lossy bytes)).toList, st₁) :=
    enter_of_read hv (hstart.symm ▸ hread)
  obtain ⟨-, hdisk₁, hcontext₁, -⟩ := enter_eq_ok henter
  rw [hstart] at hdisk₁
  have hdeps : ∀ n, w.DependsOn d root n ↔
      n ∈ (w.namesIn path root (Utf8.lossy bytes)).toList ∧ w.resolver.Finds n := by
    intro n
    rw [← dependsOn_of_enter henter hfound, hstart]
  obtain ⟨kept, st₂, hall, hdisk₂, hmodules, hreused⟩ := @visitAll_of_fresh w root
    (w.namesIn path root (Utf8.lossy bytes)).toList [] st₁ (by
      intro n hn path hn' hactive _
      rw [hdisk₁]
      exact hfresh n path ((hdeps n).2 ⟨hn, path, hn'⟩) hn'
        (by simpa [hcontext₁, start, Context.new] using hactive))
  have halike : w.Alike d st₁.disk := by
    rw [hdisk₁]
    exact .refl w _
  have hkept := kept_visitAll hall halike w.confined_finds hd ha fun _ _ hfinds => hfinds
  have hactive : st₁.context.active = [root] := by simp [hcontext₁, start, Context.new]
  rw [hactive, List.nil_append] at hkept
  subst hkept
  have hdisk : st₂.disk = d := hdisk₂.trans hdisk₁
  obtain ⟨st₃, hvisit, hwrites, hcontext⟩ :=
    visit_of_visitAll henter hall (hdisk.symm ▸ hd) (hdisk.symm ▸ htakes)
  obtain ⟨st', hrun, hdisk'⟩ := write_of_visit hfound (ho.makeDirs_ok hd hsize) hvisit
  refine ⟨_, st', hrun, ?_, ?_, fun n => ?_⟩
  · rw [hdisk', ← hdisk]
    exact hwrites
  · simp [hcontext, hmodules, hcontext₁, start, Context.new, Report.new]
  · have hmem : n ∈ st₃.context.report.reused ↔ n ∈ st₂.context.report.reused := by simp [hcontext]
    rw [hmem, hreused, hdeps]
    simp only [hcontext₁, start, Context.new, Report.new, Context.push]
    simpa using and_left_comm

theorem isFresh_of_dependsOn {n : String} {path : Path} (hw : w.freshness = .existing)
    (hd : d.Grounded) (ha : w.Apart w.resolver.Finds (w.prepared d))
    (h : w.write d root = (.ok report, st)) (hn : w.DependsOn (w.prepared d) root n)
    (hfound : w.resolver.resolve n = .found path) : w.isFresh st.disk n path = true := by
  have hmem := mem_of_dependsOn hd ha h (root_mem_of_ok h) hn
  obtain ⟨path', hfound', hfresh⟩ := (reused_of_ok (.existing hw) hd h).2 n hmem
  cases hfound.symm.trans hfound'
  exact hfresh

/-- The writer when nothing goes wrong. -/
abbrev unharmed (w : Writer) : Writer :=
  { w with faults := {} }

theorem leave_unharmed {module : String} {path : Path} {kept : List String} {st st' : State}
    (h : w.leave module path kept st = (.ok (), st')) :
    w.unharmed.leave module path kept st = (.ok (), st') := by
  have hfragments : ∀ {variants st st'},
      w.writeFragments module path kept variants st = (.ok (), st') →
      w.unharmed.writeFragments module path kept variants st = (.ok (), st') := by
    intro variants
    induction variants with
    | nil => exact fun h => h
    | cons variant variants ih =>
      intro st st' h
      simp only [writeFragments] at h ⊢
      split at h
      · cases h
      · next disk hwrite =>
        obtain ⟨-, hstores⟩ := Disk.write_eq_ok_iff.1 hwrite
        have hwrite' : st.disk.write (w.fragmentPath module variant)
            (record module path kept variant).render.toUTF8 none = .ok disk :=
          Disk.write_eq_ok_iff.2 ⟨rfl, hstores⟩
        rw [show w.unharmed.fragmentPath module variant = w.fragmentPath module variant from rfl,
          hwrite']
        exact ih h
  unfold leave at h ⊢
  split at h
  · cases h
  · next hleft =>
    rw [hfragments hleft]
    exact h

theorem visit_unharmed :
    (∀ module path st, (w.visit module path st).1 = .ok () →
      w.unharmed.visit module path st = w.visit module path st) ∧
    ∀ module names kept st, (∃ kept', (w.visitAll module names kept st).1 = .ok kept') →
      w.unharmed.visitAll module names kept st = w.visitAll module names kept st := by
  refine w.walk_induct
    (P := fun module path st r => r.1 = .ok () → w.unharmed.visit module path st = r)
    (Q := fun module names kept st r => (∃ kept', r.1 = .ok kept') →
      w.unharmed.visitAll module names kept st = r)
    ?refused ?failed ?left ?done ?passed ?stopped ?descended
  case refused => rintro module path st e st₁ _ ⟨⟩
  case failed => rintro module path st names st₁ e st₂ _ _ _ ⟨⟩
  case left =>
    intro module path st names st₁ kept st₂ henter _ ih hok
    have henter' : w.unharmed.enter module path st = (.ok names, st₁) := henter
    rw [visit_eq, henter']
    dsimp only
    rw [ih ⟨kept, rfl⟩]
    generalize hleave : w.leave module path kept (st₂.inContext (·.pop)) = r at hok
    obtain ⟨_, st'⟩ := r
    cases hok
    exact leave_unharmed hleave
  case done => exact fun _ => visitAll_nil ..
  case passed =>
    intro module name names kept st edge r _ hedge hpass _ ih hok
    have hedge' : w.unharmed.edge st name = edge := hedge
    rw [visitAll_cons, hedge']
    split
    · exact absurd rfl (hpass _)
    · exact ih hok
  case stopped => rintro module name names kept st source e st₁ _ _ _ _ ⟨_, ⟨⟩⟩
  case descended =>
    intro module name names kept st source st₁ r _ hedge _ ih _ ih' hok
    have hedge' : w.unharmed.edge st name = .descend source := hedge
    have hvisit : w.unharmed.visit name source
        (w.unharmed.settle module name (.descend source) st) = (.ok (), st₁) := ih rfl
    rw [visitAll_cons, hedge']
    dsimp only
    rw [hvisit]
    exact ih' hok

theorem write_unharmed (h : w.write d root = (.ok report, st)) :
    ∃ st', w.unharmed.write d root = (.ok report, st') ∧ st'.disk = st.disk := by
  obtain ⟨path, st', hfound, hvisit, rfl, hdisk⟩ := write_eq_ok h
  have hdirs : (d.makeDirs w.outDir).1 = .ok () := makeDirs_of_ok h
  have hvisit' : w.unharmed.visit root path (w.unharmed.start d root) = (.ok (), st') :=
    (visit_unharmed.1 root path (w.start d root) (by rw [hvisit])).trans hvisit
  obtain ⟨st'', hwrite, hdisk'⟩ := write_of_visit (w := w.unharmed) hfound hdirs hvisit'
  exact ⟨st'', hwrite, hdisk'.trans hdisk.symm⟩

theorem write_again_of_spared (hw : w.freshness = .existing) (hd : d.Grounded)
    (ha : w.Apart w.resolver.Finds (w.prepared d)) (h : w.write d root = (.ok report, st))
    (hspared : w.Spared root) (time : Nat) : ∃ report' st',
      w.write { st.disk with clock := time } root = (.ok report', st') ∧
      (∀ p bytes, st'.disk.read p = .ok bytes ↔ st.disk.read p = .ok bytes) ∧
      report'.modules = [root] ∧
      ∀ n, n ∈ report'.reused ↔ n ≠ root ∧ w.DependsOn (w.prepared d) root n := by
  generalize hlater : ({ st.disk with clock := time } : Disk) = e
  have hadds : st.disk.AddsFiles e := by
    rw [← hlater]
    exact Disk.addsFiles_of_get? rfl fun _ => rfl
  have hsame : ∀ q, st.disk.SameAt e q := by
    intro q
    rw [← hlater]
    refine Disk.sameAt_of_get? ?_ (fun l => ?_) q <;> rfl
  have halike : w.Alike (w.prepared d) e :=
    (alike_of_ok hd ha h).trans ⟨hadds, fun _ => (hsame _).read⟩
  obtain ⟨path, bytes, e₀, hv, hfound, hread, he₀, hwrites⟩ := writes_root hd ha h
  obtain ⟨hsize, o, ho⟩ := Disk.enters_of_makeDirs (makeDirs_of_ok h)
  obtain ⟨report', st', hrun, hwrites', hmodules, hreused⟩ := write_of_fresh
    (halike.grows.grounded (w.grounded_prepared hd)) (halike.apart ha) (ho.grows halike.grows) hsize
    hv hfound ((halike.source hfound).2 hread)
    (fun n path hn hn' _ => isFresh_mono hw hadds.grows
      (isFresh_of_dependsOn hw hd ha h (halike.dependsOn.1 hn) hn'))
    ⟨fun v hv => hadds.writable (hwrites.place he₀ hv), hspared⟩
  refine ⟨report', st', hrun, fun p bytes => ?_, hmodules, fun n => ?_⟩
  · exact hwrites.read_again hwrites' he₀ hadds hsame p
  · rw [hreused, halike.dependsOn]

/-- Right after a run that succeeds where whatever exists is trusted, and at whatever time, the same
run succeeds again. It leaves every file with the content that it has, writes the root alone, and
trusts exactly what the root depends on, itself excepted. No fragment may have its place where a
source is; apart from that the first run may have begun with any disk. -/
theorem write_again (hw : w.freshness = .existing) (hd : d.Grounded)
    (ha : w.Apart w.resolver.Finds (w.prepared d)) (h : w.write d root = (.ok report, st))
    (time : Nat) : ∃ report' st',
      w.unharmed.write { st.disk with clock := time } root = (.ok report', st') ∧
      (∀ p bytes, st'.disk.read p = .ok bytes ↔ st.disk.read p = .ok bytes) ∧
      report'.modules = [root] ∧
      ∀ n, n ∈ report'.reused ↔ n ≠ root ∧ w.DependsOn (w.prepared d) root n := by
  obtain ⟨st₁, h, hdisk⟩ := write_unharmed h
  rw [← hdisk]
  exact write_again_of_spared (w := w.unharmed) hw hd ha h (fun _ _ _ => rfl) time

end

/-- Two modules that name each other: the second run cuts no edge and keeps the same ones. -/
theorem write_again_twoModules :
    let w := twoModules ["a"]
    ∃ report st report' st', w.write twoSources "a" = (.ok report, st) ∧
      w.write { st.disk with clock := 1 } "a" = (.ok report', st') ∧ report'.modules = ["a"] ∧
      (∀ n, n ∈ report'.reused ↔ n = "b") ∧
      ∀ p bytes, st'.disk.read p = .ok bytes ↔ st.disk.read p = .ok bytes := by
  intro w
  have hs : w.Sample twoSources := sample_twoModules
  obtain ⟨report, st, h⟩ := write_twoModules ["a"] (.inl rfl)
  obtain ⟨report', st', h', hread, hmodules, hreused⟩ :=
    write_again rfl hs.grounded hs.apart_prepared h 1
  refine ⟨report, st, report', st', h, h', hmodules, fun n => ?_, hread⟩
  rw [hreused, hs.prepared_eq, dependsOn_twoModules]
  simp only [true_and]
  constructor
  · rintro ⟨-, rfl | ⟨hab, -⟩⟩
    · rfl
    · exact absurd hab (by decide)
  · rintro rfl
    exact ⟨by decide, .inl rfl⟩

end DesignDeps.Writer
