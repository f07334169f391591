import DesignDeps.Proofs.Walk.Success

/-!
# What a walk covers

`write_covers`: a run that succeeds writes each module that it reaches without passing through a
trusted fragment, once, and nothing else. `Covers` is what holds of the state between two steps;
each step has a lemma that keeps it, and `covers_walk` puts them together along the walk.

Whatever exists is trusted here. Under a policy that looks at times, a fragment that was trusted may
be rewritten by the same run.
-/

namespace DesignDeps.Writer

open Text Walk Relation

/-- What holds of a walk over the sources of `d` from `root` between two steps. -/
structure Covers (w : Writer) (d : Disk) (root : String) (st : State) : Prop where
  alike : w.Alike d st.disk
  active : ∀ m ∈ st.context.active, m ∈ st.context.visited
  claimed : ∀ m ∈ st.context.report.modules, m ∈ st.context.visited
  finished : ∀ m ∈ st.context.report.modules, m ∉ st.context.active
  nodup : st.context.report.modules.Nodup
  fragments : st.context.report.fragments =
    st.context.report.modules.flatMap fun m => w.variants.map (w.fragmentPath m)
  reached : ∀ m ∈ st.context.visited,
    ReflTransGen (fun a b => w.DependsOn d a b ∧ b ∈ st.context.visited) root m
  closed : ∀ m ∈ st.context.report.modules, ∀ n, w.DependsOn d m n →
    n ∈ st.context.visited ∨ n ∈ st.context.report.reused
  trusted : ∀ m ∈ st.context.report.reused,
    m ∉ st.context.visited ∧ ∀ path, w.isFresh st.disk m path = true
  stale : ∀ m ∈ st.context.visited, m = root ∨ ∀ path, w.isFresh d m path = false

def Settled (st : State) : Prop :=
  ∀ n ∈ st.context.visited, n ∈ st.context.active ∨ n ∈ st.context.report.modules

/-- The module is claimed and nothing has been done for it; nothing else waits. -/
structure Awaits (st : State) (module : String) : Prop where
  claimed : module ∈ st.context.visited
  inactive : module ∉ st.context.active
  unwritten : module ∉ st.context.report.modules
  others : ∀ n ∈ st.context.visited,
    n = module ∨ n ∈ st.context.active ∨ n ∈ st.context.report.modules

section
variable {w : Writer} {d : Disk} {root module : String} {path : Path} {st st' : State}

theorem isFresh_mono (hw : w.freshness = .existing) {d d' : Disk} (h : d.Grows d') {source : Path}
    (hfresh : w.isFresh d module source = true) : w.isFresh d' module source = true := by
  unfold isFresh at hfresh ⊢
  split
  · next hv => simp [hv] at hfresh
  · next variant _ hv =>
    simp only [hv, hw, Freshness.existing] at hfresh ⊢
    exact h.exists? hfresh

theorem isFresh_congr (hw : w.freshness = .existing) {source source' : Path} :
    w.isFresh d module source = w.isFresh d module source' := by
  unfold isFresh
  rw [hw]
  rfl

-- ---------------------------------------------------------------------------
-- Steps
-- ---------------------------------------------------------------------------

theorem Covers.start (root : String) (log : List Log.Event) :
    w.Covers d root ⟨d, .new root, log⟩ where
  alike := .refl w d
  active := by simp [Context.new]
  claimed := by simp [Context.new, Report.new]
  finished := by simp [Context.new, Report.new]
  nodup := by simp [Context.new, Report.new]
  fragments := by simp [Context.new, Report.new]
  reached := by
    intro m hm
    rw [List.mem_singleton.1 hm]
  closed := by simp [Context.new, Report.new]
  trusted := by
    intro m hm
    exact absurd hm NameSet.not_mem_empty
  stale := by
    intro m hm
    exact .inl (List.mem_singleton.1 hm)

theorem Covers.enter {names : List String} (h : w.Covers d root st)
    (henter : w.enter module path st = (.ok names, st')) (hwait : Awaits st module) :
    w.Covers d root st' ∧ Settled st' := by
  obtain ⟨-, hdisk, hcontext, -⟩ := enter_eq_ok henter
  constructor
  · refine ⟨?_, ?_, ?_, ?_, ?_, ?_, ?_, ?_, ?_, ?_⟩ <;>
      simp only [hdisk, hcontext, active_push, visited_push, report_push]
    · exact h.alike
    · intro m hm
      rcases List.mem_append.1 hm with hm | hm
      · exact h.active m hm
      · exact List.mem_singleton.1 hm ▸ hwait.claimed
    · exact h.claimed
    · intro m hm hactive
      rcases List.mem_append.1 hactive with hactive | hm'
      · exact h.finished m hm hactive
      · exact hwait.unwritten (List.mem_singleton.1 hm' ▸ hm)
    · exact h.nodup
    · exact h.fragments
    · exact h.reached
    · exact h.closed
    · exact h.trusted
    · exact h.stale
  · intro n hn
    simp only [hcontext, visited_push, active_push, report_push, List.mem_append,
      List.mem_singleton] at hn ⊢
    rcases hwait.others n hn with rfl | hn | hn
    · exact .inl (.inr rfl)
    · exact .inl (.inl hn)
    · exact .inr hn

theorem Covers.pass {name : String} {edge : Edge} (h : w.Covers d root st)
    (hmeets : w.Meets st name edge) (hpass : ∀ source, edge ≠ .descend source)
    (hw : w.freshness = .existing) :
    w.Covers d root (w.settle module name edge st) := by
  have hvisited : ∀ n, n ∈ (w.settle module name edge st).context.visited ↔
      n ∈ st.context.visited := fun n => mem_visited_settle_of_pass hpass
  refine ⟨?_, ?_, ?_, ?_, ?_, ?_, ?_, ?_, ?_, ?_⟩ <;>
    simp only [disk_settle, active_settle, modules_settle, fragments_settle, hvisited]
  · exact h.alike
  · exact h.active
  · exact h.claimed
  · exact h.finished
  · exact h.nodup
  · exact h.fragments
  · exact h.reached
  · intro m hm n hn
    exact (h.closed m hm n hn).imp id fun hn => (mem_reused_settle ..).2 (.inr hn)
  · intro m hm
    rcases (mem_reused_settle ..).1 hm with ⟨rfl, rfl⟩ | hm
    · cases hmeets with
      | reused _ _ hv hfresh =>
        exact ⟨hv, fun path => (isFresh_congr hw).trans hfresh⟩
    · exact h.trusted m hm
  · exact h.stale

theorem Settled.pass {name : String} {edge : Edge} (h : Settled st)
    (hpass : ∀ source, edge ≠ .descend source) : Settled (w.settle module name edge st) := by
  intro n hn
  rw [active_settle, modules_settle]
  exact h n ((mem_visited_settle_of_pass hpass).1 hn)

theorem Covers.descend {name : String} {source : Path} (h : w.Covers d root st)
    (hmeets : w.Meets st name (.descend source)) (hsettled : Settled st)
    (hmodule : module ∈ st.context.visited) (hedge : w.DependsOn d module name)
    (hw : w.freshness = .existing) :
    w.Covers d root (w.settle module name (.descend source) st) ∧
      Awaits (w.settle module name (.descend source) st) name := by
  cases hmeets with
  | descend hactive hfound hv hfresh =>
    have hvisited : ∀ n, n ∈ (w.settle module name (.descend source) st).context.visited ↔
        n = name ∨ n ∈ st.context.visited := by
      intro n
      rw [mem_visited_settle_iff]
      simp
    have hreused : ∀ n, n ∈ (w.settle module name (.descend source) st).context.report.reused ↔
        n ∈ st.context.report.reused := by
      intro n
      rw [mem_reused_settle]
      simp
    constructor
    · refine ⟨?_, ?_, ?_, ?_, ?_, ?_, ?_, ?_, ?_, ?_⟩ <;>
        simp only [disk_settle, active_settle, modules_settle, fragments_settle, hvisited, hreused]
      · exact h.alike
      · exact fun m hm => .inr (h.active m hm)
      · exact fun m hm => .inr (h.claimed m hm)
      · exact h.finished
      · exact h.nodup
      · exact h.fragments
      · -- Ways that led through claimed modules still do; the way to `name` is one edge longer.
        have hold : ∀ m ∈ st.context.visited, ReflTransGen (fun a b =>
            w.DependsOn d a b ∧ (b = name ∨ b ∈ st.context.visited)) root m := fun m hm =>
          ReflTransGen.mono (fun _ _ h => ⟨h.1, .inr h.2⟩) _ _ (h.reached m hm)
        rintro m (rfl | hm)
        · exact (hold module hmodule).tail ⟨hedge, .inl rfl⟩
        · exact hold m hm
      · intro m hm n hn
        exact (h.closed m hm n hn).imp .inr id
      · intro m hm
        obtain ⟨hnot, htrust⟩ := h.trusted m hm
        refine ⟨?_, htrust⟩
        rintro (rfl | hm)
        · simp [htrust source] at hfresh
        · exact hnot hm
      · rintro m (rfl | hm)
        · -- What was fresh at the start would still be.
          refine .inr fun path => Bool.eq_false_iff.2 fun hthen => ?_
          have hnow := isFresh_mono hw h.alike.grows hthen
          rw [isFresh_congr hw, hfresh] at hnow
          cases hnow
        · exact h.stale m hm
    · refine ⟨(hvisited name).2 (.inl rfl), by simpa using hactive, ?_, ?_⟩
      · rw [modules_settle]
        exact fun hm => hv (h.claimed name hm)
      · intro n hn
        rw [active_settle, modules_settle]
        exact ((hvisited n).1 hn).imp id fun hn => hsettled n hn

theorem Covers.pop (h : w.Covers d root st) : w.Covers d root (st.inContext (·.pop)) where
  alike := h.alike
  active := fun m hm => h.active m ((List.dropLast_sublist _).subset hm)
  claimed := h.claimed
  finished := fun m hm hactive => h.finished m hm ((List.dropLast_sublist _).subset hactive)
  nodup := h.nodup
  fragments := h.fragments
  reached := h.reached
  closed := h.closed
  trusted := h.trusted
  stale := h.stale

theorem Covers.leave {kept : List String} (h : w.Covers d root st)
    (hleave : w.leave module path kept st = (.ok (), st')) (hw : w.freshness = .existing)
    (hsteady : w.Steady st st') (hwait : Awaits st module)
    (hclosed : ∀ n, w.DependsOn d module n →
      n ∈ st.context.visited ∨ n ∈ st.context.report.reused) :
    w.Covers d root st' ∧ Settled st' := by
  have hleaves := w.leaves_leave module path kept st
  rw [hleave] at hleaves
  cases hleaves with
  | finished hwrites hcontext =>
    constructor
    · refine ⟨h.alike.trans hsteady.alike, ?_, ?_, ?_, ?_, ?_, ?_, ?_, ?_, ?_⟩ <;>
        simp only [hcontext]
      · exact h.active
      · intro m hm
        rcases List.mem_append.1 hm with hm | hm
        · exact h.claimed m hm
        · exact List.mem_singleton.1 hm ▸ hwait.claimed
      · intro m hm
        rcases List.mem_append.1 hm with hm | hm
        · exact h.finished m hm
        · exact List.mem_singleton.1 hm ▸ hwait.inactive
      · rw [List.nodup_append]
        refine ⟨h.nodup, by simp, ?_⟩
        rintro m hm n hn rfl
        exact hwait.unwritten (List.mem_singleton.1 hn ▸ hm)
      · simp [h.fragments]
      · exact h.reached
      · intro m hm
        rcases List.mem_append.1 hm with hm | hm
        · exact h.closed m hm
        · exact List.mem_singleton.1 hm ▸ hclosed
      · intro m hm
        obtain ⟨hnot, htrust⟩ := h.trusted m hm
        exact ⟨hnot, fun path => isFresh_mono hw hsteady.alike.grows (htrust path)⟩
      · exact h.stale
    · intro n hn
      simp only [hcontext, List.mem_append, List.mem_singleton] at hn ⊢
      rcases hwait.others n hn with rfl | hn | hn
      · exact .inr (.inr rfl)
      · exact .inl hn
      · exact .inr (.inl hn)

theorem Covers.awaits {st₁ st₂ : State} (h : w.Covers d root st₂) (hsettled : Settled st₂)
    (hcontext : st₁.context = st.context.push module) (hsteady : w.Steady st₁ st₂)
    (hwait : Awaits st module) : Awaits (st₂.inContext (·.pop)) module := by
  have hactive : st₂.context.active = st.context.active ++ [module] := by
    rw [hsteady.active, hcontext, active_push]
  refine ⟨?_, ?_, ?_, ?_⟩
  · exact hsteady.visited module (by simpa [hcontext] using hwait.claimed)
  · simpa [hactive] using hwait.inactive
  · exact fun hm => h.finished module hm (by simp [hactive])
  · intro n hn
    simp only [context_inContext, active_pop, report_pop, hactive, List.dropLast_concat]
    rcases hsettled n hn with hn | hn
    · rw [hactive] at hn
      rcases List.mem_append.1 hn with hn | hn
      · exact .inr (.inl hn)
      · exact .inl (List.mem_singleton.1 hn)
    · exact .inr (.inr hn)

theorem awaits_start (w : Writer) (d : Disk) (root : String) : Awaits (w.start d root) root := by
  refine ⟨?_, ?_, ?_, ?_⟩ <;> simp [Writer.start, Context.new, Report.new]

-- ---------------------------------------------------------------------------
-- Walks
-- ---------------------------------------------------------------------------

theorem Covers.met {name : String} {edge : Edge} (h : w.Covers d root st)
    (hmeets : w.Meets st name edge) (hfinds : w.resolver.Finds name) :
    name ∈ (w.settle module name edge st).context.visited ∨
      name ∈ (w.settle module name edge st).context.report.reused := by
  obtain ⟨path, hpath⟩ := hfinds
  rw [mem_visited_settle_iff, mem_reused_settle]
  cases hmeets with
  | cut _ hactive => exact .inl (.inr (h.active name hactive))
  | excluded _ hres => simp [hpath] at hres
  | unresolved _ hres => simp [hpath] at hres
  | seen _ _ hv => exact .inl (.inr hv)
  | reused => exact .inr (.inl ⟨rfl, rfl⟩)
  | descend => exact .inl (.inl ⟨⟨_, rfl⟩, rfl⟩)

theorem covers_walk {S : String → Prop} (hw : w.freshness = .existing) (hS : w.Confined S)
    (hd : d.Grounded) (ha : w.Apart S d) :
    (∀ module path st st', w.visit module path st = (.ok (), st') → S module →
      w.resolver.resolve module = .found path → Awaits st module → w.Covers d root st →
      w.Covers d root st' ∧ Settled st') ∧
    ∀ module names kept st kept' st', w.visitAll module names kept st = (.ok kept', st') →
      (∀ n ∈ names, w.resolver.Finds n → S n ∧ w.DependsOn d module n) →
      module ∈ st.context.visited → Settled st → w.Covers d root st →
      w.Covers d root st' ∧ Settled st' ∧ ∀ n ∈ names, w.resolver.Finds n →
        n ∈ st'.context.visited ∨ n ∈ st'.context.report.reused := by
  have hwalk := w.walk_induct
    (P := fun module path st r => ∀ st', r = (.ok (), st') → S module →
      w.resolver.resolve module = .found path → Awaits st module → w.Covers d root st →
      w.Covers d root st' ∧ Settled st')
    (Q := fun module names _ st r => ∀ kept' st', r = (.ok kept', st') →
      (∀ n ∈ names, w.resolver.Finds n → S n ∧ w.DependsOn d module n) →
      module ∈ st.context.visited → Settled st → w.Covers d root st →
      w.Covers d root st' ∧ Settled st' ∧ ∀ n ∈ names, w.resolver.Finds n →
        n ∈ st'.context.visited ∨ n ∈ st'.context.report.reused)
    ?refused ?failed ?left ?done ?passed ?stopped ?descended
  · exact ⟨fun module path st st' h => hwalk.1 module path st st' h,
      fun module names kept st kept' st' h => hwalk.2 module names kept st kept' st' h⟩
  case refused => rintro module path st e st₁ _ st' ⟨⟩
  case failed => rintro module path st names st₁ e st₂ _ _ _ st' ⟨⟩
  case stopped => rintro module name names kept st source e st₁ _ _ _ _ kept' st' ⟨⟩
  case left =>
    intro module path st names st₁ kept st₂ h hall ih st' hleave hm hfound hwait hcovers
    obtain ⟨-, -, hcontext, -⟩ := enter_eq_ok h
    obtain ⟨-, -, -, hdeps, hin⟩ := hcovers.alike.names h hfound hS
    obtain ⟨hcovers₁, hsettled₁⟩ := hcovers.enter h hwait
    have hmodule : module ∈ st₁.context.visited := by simpa [hcontext] using hwait.claimed
    obtain ⟨hcovers₂, hsettled₂, hmet⟩ := ih kept st₂ rfl hin hmodule hsettled₁ hcovers₁
    have hsteady := steady_visitAll hall hcovers₁.alike hS hd ha fun n hn hfinds =>
      (hin n hn hfinds).1
    have hsteady' := (w.leaves_leave module path kept (st₂.inContext (·.pop))).steady
      hcovers₂.alike hd ha hm
    rw [hleave] at hsteady'
    exact hcovers₂.pop.leave hleave hw hsteady'
      (hcovers₂.awaits hsettled₂ hcontext hsteady hwait)
      fun n hn => hmet n (hdeps n hn).1 (hdeps n hn).2
  case done =>
    rintro module kept st kept' st' ⟨⟩ _ _ hsettled hcovers
    exact ⟨hcovers, hsettled, by simp⟩
  case passed =>
    intro module name names kept st edge r hmeets _ hpass hall ih kept' st' hr hin hmodule hsettled
      hcovers
    have hcovers₁ : w.Covers d root (w.settle module name edge st) := hcovers.pass hmeets hpass hw
    have hin' := fun n hn => hin n (List.mem_cons_of_mem _ hn)
    obtain ⟨hcovers', hsettled', hmet⟩ :=
      ih kept' st' hr hin' (mem_visited_settle hmodule) (hsettled.pass hpass) hcovers₁
    have hsteady := steady_visitAll (hall.trans hr) hcovers₁.alike hS hd ha fun n hn hfinds =>
      (hin' n hn hfinds).1
    refine ⟨hcovers', hsettled', fun n hn hfinds => ?_⟩
    rcases List.mem_cons.1 hn with rfl | hn
    · exact (hcovers.met hmeets hfinds).imp (hsteady.visited n) (hsteady.reused n)
    · exact hmet n hn hfinds
  case descended =>
    intro module name names kept st source st₁ r hmeets _ hvisit ih hall ih' kept' st' hr hin
      hmodule hsettled hcovers
    have hfound := hmeets.found
    obtain ⟨hname, hedge⟩ := hin name (by simp) ⟨source, hfound⟩
    obtain ⟨hcovers₀, hwait⟩ := hcovers.descend hmeets hsettled hmodule hedge hw
    obtain ⟨hcovers₁, hsettled₁⟩ := ih st₁ rfl hname hfound hwait hcovers₀
    have hin' := fun n hn => hin n (List.mem_cons_of_mem _ hn)
    have hsteady₁ := steady_visit hvisit hcovers₀.alike hS hd ha hname
    obtain ⟨hcovers', hsettled', hmet⟩ := ih' kept' st' hr hin'
      (hsteady₁.visited module (mem_visited_settle hmodule)) hsettled₁ hcovers₁
    have hsteady := steady_visitAll (hall.trans hr) hcovers₁.alike hS hd ha fun n hn hfinds =>
      (hin' n hn hfinds).1
    refine ⟨hcovers', hsettled', fun n hn hfinds => ?_⟩
    rcases List.mem_cons.1 hn with rfl | hn
    · have hsteady := hsteady₁.trans hsteady
      exact (hcovers.met hmeets hfinds).imp (hsteady.visited n) (hsteady.reused n)
    · exact hmet n hn hfinds

theorem covers_run {S : String → Prop} (hw : w.freshness = .existing) (hS : w.Confined S)
    (hd : (w.prepared d).Grounded) (ha : w.Apart S (w.prepared d)) (hm : S root)
    (hroot : w.resolver.resolve root = .found path)
    (h : w.visit root path (w.start d root) = (.ok (), st')) :
    w.Covers (w.prepared d) root st' ∧ root ∈ st'.context.visited ∧
      ∀ n ∈ st'.context.visited, n ∈ st'.context.report.modules := by
  have hwait := awaits_start w d root
  have hsteady := steady_visit h (.refl w _) hS hd ha hm
  obtain ⟨hcovers, hsettled⟩ :=
    (covers_walk hw hS hd ha).1 root path _ _ h hm hroot hwait (Covers.start root _)
  refine ⟨hcovers, hsteady.visited root hwait.claimed, fun n hn => ?_⟩
  have hactive : st'.context.active = [] := hsteady.active
  exact (hsettled n hn).resolve_left (by simp [hactive])

end

-- ---------------------------------------------------------------------------
-- The theorem
-- ---------------------------------------------------------------------------

/-- A run that succeeds writes exactly the modules that the root leads to along dependencies that
were not trusted, each once, with a fragment for each variant. -/
theorem write_covers {w : Writer} {d : Disk} {root : String} {report : Report} {st : State}
    (hw : w.freshness = .existing) (hd : d.Grounded)
    (ha : w.Apart w.resolver.Finds (w.prepared d)) (h : w.write d root = (.ok report, st)) :
    report.modules.Nodup ∧
    (∀ m, m ∈ report.modules ↔
      ReflTransGen (fun a b => w.DependsOn (w.prepared d) a b ∧ b ∉ report.reused) root m) ∧
    (∀ m ∈ report.reused, m ∉ report.modules) ∧
    report.fragments = report.modules.flatMap fun m => w.variants.map (w.fragmentPath m) := by
  obtain ⟨path, st₁, hroot, hvisit, rfl, -⟩ := write_eq_ok h
  have hgrounded := (Disk.extends_makeDirs d w.outDir).grows.grounded hd
  obtain ⟨hcovers, hvisited, hwritten⟩ :=
    covers_run hw w.confined_finds hgrounded ha ⟨path, hroot⟩ hroot hvisit
  refine ⟨hcovers.nodup, fun m => ⟨fun hm => ?_, fun hm => ?_⟩, ?_, hcovers.fragments⟩
  · -- Claimed modules are never trusted, so the walk's own way to `m` avoids what was trusted.
    refine ReflTransGen.mono ?_ _ _ (hcovers.reached m (hcovers.claimed m hm))
    exact fun a b ⟨hab, hb⟩ => ⟨hab, fun hreused => (hcovers.trusted b hreused).1 hb⟩
  · refine hwritten m ?_
    induction hm with
    | refl => exact hvisited
    | tail _ hbc ih =>
      exact (hcovers.closed _ (hwritten _ ih) _ hbc.1).resolve_right hbc.2
  · exact fun m hm hmodules => (hcovers.trusted m hm).1 (hcovers.claimed m hmodules)

theorem write_covers_twoModules :
    let w := twoModules ["a"]
    ∃ report st, w.write twoSources "a" = (.ok report, st) ∧ report.modules.Nodup ∧
      "a" ∈ report.modules ∧ "a" ∉ report.reused ∧
      report.fragments = report.modules.flatMap fun m => [w.fragmentPath m "sim"] := by
  intro w
  obtain ⟨report, st, h⟩ := write_twoModules ["a"] (.inl rfl)
  have hsample : w.Sample twoSources := sample_twoModules
  have ha : w.Apart w.resolver.Finds (w.prepared twoSources) := by
    rw [hsample.tidy.prepared_eq]
    exact fun m v n path l hm => hsample.apart m v n path l (hsample.slashFree hm)
  obtain ⟨hnodup, hmodules, hreused, hfragments⟩ := write_covers rfl hsample.grounded ha h
  have hmem := (hmodules "a").2 .refl
  exact ⟨report, st, h, hnodup, hmem, fun hr => hreused _ hr hmem, hfragments⟩

end DesignDeps.Writer
