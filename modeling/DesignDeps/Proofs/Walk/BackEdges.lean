import DesignDeps.Proofs.Walk.Order
import Mathlib.Data.List.Chain

/-!
# Cycles in a report

`write_cycles`: a run reports a cycle exactly when there is one among the modules that it writes,
each cycle that it reports is one, without a module twice, and all of them are open once the last
edge of each reported one is taken away.

One direction is about the active modules, of which each names the next one. The other is about the
order in which they are left: an edge that is not reported leads to a module that is written before.
-/

namespace DesignDeps

namespace Walk.Context

theorem cycle?_eq_some {c : Context} {module : String} {cycle : List String}
    (h : c.cycle? module = some cycle) :
    ∃ before after, c.active = before ++ module :: after ∧ cycle = module :: after ++ [module] := by
  unfold cycle? at h
  split at h
  · next hmem =>
    cases h
    obtain ⟨before, after, heq, hnot⟩ := List.eq_append_cons_of_mem hmem
    have hbefore : ∀ x ∈ before, (x != module) = true := fun x hx =>
      bne_iff_ne.2 fun hxm => hnot (hxm ▸ hx)
    refine ⟨before, after, heq, ?_⟩
    rw [heq, List.dropWhile_append_of_pos hbefore, List.dropWhile_cons_of_neg (by simp)]
  · cases h

end Walk.Context

namespace Writer

open Text Walk Relation

/-- A way along `R` that comes back to its first module, and to no other one twice. -/
def ClosedWay (R : String → String → Prop) (c : List String) : Prop :=
  ∃ m ms, c = m :: ms ++ [m] ∧ (m :: ms).Nodup ∧ c.IsChain R

theorem ClosedWay.transGen {R : String → String → Prop} {c : List String} (h : ClosedWay R c) :
    ∃ m, TransGen R m m := by
  obtain ⟨m, ms, rfl, -, hchain⟩ := h
  refine ⟨m, ?_⟩
  cases ms with
  | nil => exact .single (List.isChain_pair.1 hchain)
  | cons k ms =>
    obtain ⟨hmk, hchain⟩ := List.isChain_cons_cons.1 hchain
    exact .head' hmk (List.relationReflTransGen_of_exists_isChain_cons _ hchain (by simp))

theorem isChain_concat {R : String → String → Prop} {l : List String} {m n : String}
    (h : l.IsChain R) (hlast : l.getLast? = some m) (hmn : R m n) : (l ++ [n]).IsChain R :=
  List.isChain_append.2 ⟨h, List.isChain_singleton n, by simpa [hlast] using hmn⟩

-- ---------------------------------------------------------------------------
-- Walks
-- ---------------------------------------------------------------------------

/-- Each cycle that a walk reports leads along modules that name each other. -/
theorem cycles_walk (w : Writer) (M : String → Prop) (R : String → String → Prop) :
    (∀ module path st st', w.visit module path st = (.ok (), st') → Orderly st →
      Awaits st module → Orderly st' ∧ Settled st' ∧
      ((∀ x ∈ w.visits module path st, M x.module ∧ ∀ n ∈ x.names, M n → R x.module n) →
        M module ∧ ((∀ a ∈ st.context.active, M a) → (st.context.active ++ [module]).IsChain R →
          (∀ c ∈ st.context.report.cycles, ClosedWay R c) →
          ∀ c ∈ st'.context.report.cycles, ClosedWay R c))) ∧
    ∀ module names kept st kept' st', w.visitAll module names kept st = (.ok kept', st') →
      Orderly st → Settled st → Orderly st' ∧ Settled st' ∧
      ((∀ x ∈ w.visitsAll module names st, M x.module ∧ ∀ n ∈ x.names, M n → R x.module n) →
        (∀ n ∈ names, M n → R module n) → (∀ a ∈ st.context.active, M a) →
        st.context.active.IsChain R → st.context.active.getLast? = some module →
        (∀ c ∈ st.context.report.cycles, ClosedWay R c) →
        ∀ c ∈ st'.context.report.cycles, ClosedWay R c) := by
  refine w.visit_induct
    (P := fun module _ st st' vs =>
      (∀ x ∈ vs, M x.module ∧ ∀ n ∈ x.names, M n → R x.module n) →
      M module ∧ ((∀ a ∈ st.context.active, M a) → (st.context.active ++ [module]).IsChain R →
        (∀ c ∈ st.context.report.cycles, ClosedWay R c) →
        ∀ c ∈ st'.context.report.cycles, ClosedWay R c))
    (Q := fun module names _ st _ st' vs =>
      (∀ x ∈ vs, M x.module ∧ ∀ n ∈ x.names, M n → R x.module n) →
      (∀ n ∈ names, M n → R module n) → (∀ a ∈ st.context.active, M a) →
      st.context.active.IsChain R → st.context.active.getLast? = some module →
      (∀ c ∈ st.context.report.cycles, ClosedWay R c) →
      ∀ c ∈ st'.context.report.cycles, ClosedWay R c)
    ?left ?done ?passed ?descended
  case left =>
    intro module path st names st₁ kept st₂ st' vs henter _ _ _ _ _ hleave hQ hvs
    obtain ⟨-, -, hcontext, -⟩ := enter_eq_ok henter
    simp only [List.forall_mem_append, List.forall_mem_singleton] at hvs
    obtain ⟨hvs, hm, hnames⟩ := hvs
    have hleaves := w.leaves_leave module path kept (st₂.inContext (·.pop))
    rw [hleave] at hleaves
    cases hleaves with
    | finished _ hcontext' =>
      simp only [hcontext, active_push, report_push] at hQ
      simp only [hcontext', context_inContext, report_pop]
      refine ⟨hm, fun hactive hchain hcycles => hQ hvs hnames ?_ hchain (by simp) hcycles⟩
      simpa [or_imp, forall_and] using ⟨hactive, hm⟩
  case done =>
    intro module kept st _ _ _ _ _ hcycles
    exact hcycles
  case passed =>
    intro module name names kept st edge kept' st' vs hmeets hpass horderly _ _ hQ hvs hnames
      hactive hchain hlast hcycles
    obtain ⟨hname, hnames⟩ := List.forall_mem_cons.1 hnames
    simp only [active_settle] at hQ
    refine hQ hvs hnames hactive hchain hlast ?_
    cases hmeets with
    | @cut cycle hcycle hmem =>
      -- The new cycle is the end of the active modules, with the edge that was cut.
      obtain ⟨before, after, heq, rfl⟩ := Context.cycle?_eq_some hcycle
      have hclosed := isChain_concat hchain hlast (hname (hactive name hmem))
      have hpath := horderly.path
      rw [heq] at hclosed hpath
      have hnew : ClosedWay R (name :: after ++ [name]) :=
        ⟨name, after, rfl, (List.nodup_append.1 hpath).2.1,
          hclosed.suffix ⟨before, by simp⟩⟩
      simpa [settle, or_imp, forall_and] using ⟨hcycles, hnew⟩
    | descend => exact absurd rfl (hpass _)
    | excluded | unresolved | seen | reused => simpa [settle] using hcycles
  case descended =>
    intro module name names kept st source st₁ vs kept' st' vs' _ _ _ hvisit _ _ hP _ hQ hvs hnames
      hactive hchain hlast hcycles
    obtain ⟨hname, hnames⟩ := List.forall_mem_cons.1 hnames
    obtain ⟨hvs, hvs'⟩ := List.forall_mem_append.1 hvs
    have hcontinues := continues_visit hvisit
    simp only [active_settle] at hP
    obtain ⟨hm, hcycles₁⟩ := hP hvs
    have hcycles₁ := hcycles₁ hactive (isChain_concat hchain hlast (hname hm))
      (by simpa [settle] using hcycles)
    rw [hcontinues.active, active_settle] at hQ
    exact hQ hvs' hnames hactive hchain hlast hcycles₁

/-- What a visit finds and does not keep has closed a cycle. -/
theorem dropped_walk (w : Writer) :
    (∀ module path st st', w.visit module path st = (.ok (), st') → Orderly st →
      Awaits st module → Orderly st' ∧ Settled st' ∧
      ∀ x ∈ w.visits module path st, ∀ n ∈ x.names, w.resolver.Finds n →
        n ∈ x.kept ∨ ∃ c ∈ st'.context.report.cycles, [x.module, n] <:+ c) ∧
    ∀ module names kept st kept' st', w.visitAll module names kept st = (.ok kept', st') →
      Orderly st → Settled st → Orderly st' ∧ Settled st' ∧
      (∀ x ∈ w.visitsAll module names st, ∀ n ∈ x.names, w.resolver.Finds n →
        n ∈ x.kept ∨ ∃ c ∈ st'.context.report.cycles, [x.module, n] <:+ c) ∧
      (st.context.active.getLast? = some module → kept ⊆ kept' ∧
        ∀ n ∈ names, w.resolver.Finds n →
          n ∈ kept' ∨ ∃ c ∈ st'.context.report.cycles, [module, n] <:+ c) := by
  refine w.visit_induct
    (P := fun _ _ _ st' vs => ∀ x ∈ vs, ∀ n ∈ x.names, w.resolver.Finds n →
      n ∈ x.kept ∨ ∃ c ∈ st'.context.report.cycles, [x.module, n] <:+ c)
    (Q := fun module names kept st kept' st' vs =>
      (∀ x ∈ vs, ∀ n ∈ x.names, w.resolver.Finds n →
        n ∈ x.kept ∨ ∃ c ∈ st'.context.report.cycles, [x.module, n] <:+ c) ∧
      (st.context.active.getLast? = some module → kept ⊆ kept' ∧
        ∀ n ∈ names, w.resolver.Finds n →
          n ∈ kept' ∨ ∃ c ∈ st'.context.report.cycles, [module, n] <:+ c))
    ?left ?done ?passed ?descended
  case left =>
    rintro module path st names st₁ kept st₂ st' vs henter _ _ _ _ _ hleave ⟨hvs, hnames⟩ x hx
    obtain ⟨-, -, hcontext, -⟩ := enter_eq_ok henter
    have hleaves := w.leaves_leave module path kept (st₂.inContext (·.pop))
    rw [hleave] at hleaves
    cases hleaves with
    | finished _ hcontext' =>
      simp only [hcontext', context_inContext, report_pop]
      rcases List.mem_append.1 hx with hx | hx
      · exact hvs x hx
      · rw [List.mem_singleton.1 hx]
        exact (hnames (by simp [hcontext])).2
  case done =>
    intro module kept st
    exact ⟨by simp, fun _ => ⟨List.Subset.refl _, by simp⟩⟩
  case passed =>
    rintro module name names kept st edge kept' st' vs hmeets hpass _ _ hall ⟨hvs, hQ⟩
    refine ⟨hvs, fun hlast => ?_⟩
    obtain ⟨hsub, hnames⟩ := hQ (by simpa using hlast)
    have hcontinues := continues_visitAll hall
    refine ⟨fun n hn => hsub ?_, fun n hn hfinds => ?_⟩
    · split
      · exact List.mem_append_left _ hn
      · exact hn
    rcases List.mem_cons.1 hn with rfl | hn
    · obtain ⟨path, hfound⟩ := hfinds
      cases hmeets with
      | @cut cycle hcycle =>
        refine .inr ⟨cycle, hcontinues.cycles.subset (by simp [settle]), ?_⟩
        obtain ⟨before, after, heq, rfl⟩ := Context.cycle?_eq_some hcycle
        rw [heq, List.getLast?_append_of_ne_nil _ (List.cons_ne_nil _ _)] at hlast
        obtain ⟨front, hfront⟩ := List.getLast?_eq_some_iff.1 hlast
        exact ⟨front, by rw [hfront, List.append_assoc]; rfl⟩
      | excluded _ hres | unresolved _ hres => cases hfound.symm.trans hres
      | seen | reused => exact .inl (hsub (by simp [Edge.isKept]))
      | descend => exact absurd rfl (hpass _)
    · exact hnames n hn hfinds
  case descended =>
    rintro module name names kept st source st₁ vs kept' st' vs' _ _ _ hvisit _ _ hvs hall
      ⟨hvs', hQ⟩
    have hcontinues := continues_visitAll hall
    refine ⟨fun x hx n hn hfinds => ?_, fun hlast => ?_⟩
    · rcases List.mem_append.1 hx with hx | hx
      · rcases hvs x hx n hn hfinds with hkept | ⟨c, hc, hend⟩
        · exact .inl hkept
        · exact .inr ⟨c, hcontinues.cycles.subset hc, hend⟩
      · exact hvs' x hx n hn hfinds
    · obtain ⟨hsub, hnames⟩ := hQ (by
        rw [(continues_visit hvisit).active, active_settle]
        exact hlast)
      refine ⟨fun n hn => hsub (List.mem_append_left _ hn), fun n hn hfinds => ?_⟩
      rcases List.mem_cons.1 hn with rfl | hn
      · exact .inl (hsub (by simp))
      · exact hnames n hn hfinds

section
variable {w : Writer} {d : Disk} {root : String} {report : Report} {st : State}

-- ---------------------------------------------------------------------------
-- Whole runs
-- ---------------------------------------------------------------------------

/-- The graph on the modules that a run has written: `b` is named in what `a` was visited with, and
leads to a file. -/
def Graph (w : Writer) (d : Disk) (root : String) (report : Report) (a b : String) : Prop :=
  a ∈ report.modules ∧ b ∈ report.modules ∧ w.resolver.Finds b ∧
    ∃ x ∈ w.visitsOf d root, x.module = a ∧ b ∈ x.names

theorem mem_modules_iff (h : w.write d root = (.ok report, st)) {m : String} :
    m ∈ report.modules ↔ ∃ x ∈ w.visitsOf d root, x.module = m := by
  obtain ⟨hmodules, -⟩ := backward_visitsOf h
  simp [hmodules]

theorem finds_of_mem_modules (h : w.write d root = (.ok report, st)) {m : String}
    (hm : m ∈ report.modules) : w.resolver.Finds m := by
  obtain ⟨x, hx, rfl⟩ := (mem_modules_iff h).1 hm
  exact ⟨_, (sound_visitsOf h x hx).found⟩

theorem closedWays_of_ok (h : w.write d root = (.ok report, st)) :
    ∀ c ∈ report.cycles, ClosedWay (w.Graph d root report) c := by
  have hmem := @mem_modules_iff w d root report st h
  have hsound := sound_visitsOf h
  obtain ⟨path, st', -, hvisit, rfl, -, hvisits⟩ := visitsOf_of_ok h
  obtain ⟨-, -, hcycles⟩ := (w.cycles_walk (· ∈ st'.context.report.modules)
    (w.Graph d root st'.context.report)).1 root path _ st' hvisit (.start w d root)
    (awaits_start w d root)
  refine (hcycles fun x hx => ?_).2 (by simp [Writer.start, Context.new])
    (by simp [Writer.start, Context.new]) (by simp [Writer.start, Context.new, Report.new])
  rw [← hvisits] at hx
  refine ⟨hmem.2 ⟨x, hx, rfl⟩, fun n hn hwritten => ?_⟩
  obtain ⟨y, hy, rfl⟩ := hmem.1 hwritten
  exact ⟨hmem.2 ⟨x, hx, rfl⟩, hwritten, ⟨_, (hsound y hy).found⟩, x, hx, rfl, hn⟩

theorem dropped_of_ok (h : w.write d root = (.ok report, st)) :
    ∀ x ∈ w.visitsOf d root, ∀ n ∈ x.names, w.resolver.Finds n →
      n ∈ x.kept ∨ ∃ c ∈ report.cycles, [x.module, n] <:+ c := by
  obtain ⟨path, st', -, hvisit, rfl, -, hvisits⟩ := visitsOf_of_ok h
  obtain ⟨-, -, hdropped⟩ := w.dropped_walk.1 root path _ st' hvisit (.start w d root)
    (awaits_start w d root)
  exact hvisits ▸ hdropped

theorem kept_or_mem_of_found {x : Visit} {n : String} (h : w.write d root = (.ok report, st))
    (hx : x ∈ w.visitsOf d root) (hn : n ∈ x.names) (hfinds : w.resolver.Finds n) :
    n ∈ x.kept ∨ n ∈ report.modules := by
  refine (dropped_of_ok h x hx n hn hfinds).imp_right fun ⟨c, hc, hend⟩ => ?_
  obtain ⟨_, _, -, -, hchain⟩ := closedWays_of_ok h c hc
  exact (List.isChain_pair.1 (hchain.suffix hend)).2.1

theorem mem_of_dependsOn {m n : String} (hd : d.Grounded)
    (ha : w.Apart w.resolver.Finds (w.prepared d)) (h : w.write d root = (.ok report, st))
    (hm : m ∈ report.modules) (hmn : w.DependsOn (w.prepared d) m n) :
    n ∈ report.modules ∨ n ∈ report.reused := by
  obtain ⟨x, hx, rfl⟩ := (mem_modules_iff h).1 hm
  obtain ⟨hn, hfinds⟩ := (dependsOn_visitsOf hd ha h x hx n).1 hmn
  exact (kept_or_mem_of_found h hx hn hfinds).elim (mem_of_kept h hx) .inl

theorem Sample.not_mem_reused (hs : w.Sample d) (hw : w.freshness = .existing)
    (h : w.write d root = (.ok report, st)) (m : String) : m ∉ report.reused := by
  intro hm
  obtain ⟨hreused, hfresh⟩ := reused_of_ok (.existing hw) hs.grounded h
  obtain ⟨path, hfound, hfresh⟩ := hfresh m (.inr hm)
  obtain ⟨v, vs, hv, hexists⟩ := (isFresh_existing_iff hw).1 hfresh
  have hplain : SlashFree m := hs.slashFree ⟨path, hfound⟩
  have hmem : v ∈ w.variants := by simp [hv]
  have hsame := sameAt_fragment_of_ok hs.grounded h rfl (List.Subset.refl _)
    (hs.prepared_eq.symm ▸ hs.tidy.places)
    (fun m hm => hs.slashFree (finds_of_mem_modules h hm)) hplain hmem
    fun hnot => hreused m hnot.1 hm
  rw [hsame.exists?, hs.prepared_eq, hs.emptyOutput.exists?_eq hs.plain hplain hmem] at hexists
  cases hexists

-- ---------------------------------------------------------------------------
-- The theorem
-- ---------------------------------------------------------------------------

/-- In a run that succeeds under a policy whose trust lasts, as when whatever exists is trusted: a
cycle is reported if and only if there is one in the graph of the modules that are written, each one
that is reported leads along this graph, and the last edges of all of them are on every cycle. The
graph is the one of the sources, as long as no fragment has its place where a source is. -/
theorem write_cycles (hlasting : w.Lasting (w.prepared d)) (hd : d.Grounded)
    (h : w.write d root = (.ok report, st)) :
    (report.cycles = [] ↔ ∀ m, ¬TransGen (w.Graph d root report) m m) ∧
    (∀ c ∈ report.cycles, ClosedWay (w.Graph d root report) c) ∧
    (∀ m, ¬TransGen (fun a b => w.Graph d root report a b ∧ ∀ c ∈ report.cycles, ¬[a, b] <:+ c)
      m m) ∧
    (w.Apart w.resolver.Finds (w.prepared d) → ∀ a b, w.Graph d root report a b ↔
      a ∈ report.modules ∧ b ∈ report.modules ∧ w.DependsOn (w.prepared d) a b) := by
  obtain ⟨hmodules, hnodup, -, hback⟩ := backward_visitsOf h
  have hclosed := closedWays_of_ok h
  have hopen : ∀ m, ¬TransGen (fun a b => w.Graph d root report a b ∧
      ∀ c ∈ report.cycles, ¬[a, b] <:+ c) m m := by
    obtain ⟨hreused, -⟩ := reused_of_ok hlasting hd h
    refine hback.acyclic (hmodules ▸ hnodup) ?_
    rintro a b ⟨⟨-, hb, hfinds, x, hx, rfl, hn⟩, hnot⟩
    refine ⟨x, hx, rfl, ?_, hreused b hb⟩
    exact (dropped_of_ok h x hx b hn hfinds).resolve_right fun ⟨c, hc, hend⟩ => hnot c hc hend
  refine ⟨⟨fun hnone => ?_, fun hacyclic => ?_⟩, hclosed, hopen, fun ha a b => ?_⟩
  · simpa [hnone] using hopen
  · refine List.eq_nil_iff_forall_not_mem.2 fun c hc => ?_
    obtain ⟨m, hm⟩ := (hclosed c hc).transGen
    exact hacyclic m hm
  · have hdeps := dependsOn_visitsOf hd ha h
    constructor
    · rintro ⟨hma, hmb, hfinds, x, hx, rfl, hn⟩
      exact ⟨hma, hmb, (hdeps x hx b).2 ⟨hn, hfinds⟩⟩
    · rintro ⟨hma, hmb, hdep⟩
      obtain ⟨x, hx, rfl⟩ := (mem_modules_iff h).1 hma
      obtain ⟨hn, hfinds⟩ := (hdeps x hx b).1 hdep
      exact ⟨hma, hmb, hfinds, x, hx, rfl, hn⟩

end

/-- Two modules that name each other close a cycle. -/
theorem write_cycles_twoModules :
    let w := twoModules ["a"]
    ∃ report st, w.write twoSources "a" = (.ok report, st) ∧ report.cycles ≠ [] ∧
      (∀ c ∈ report.cycles, ClosedWay (w.Graph twoSources "a" report) c) ∧
      ∀ m, ¬TransGen (fun a b => w.Graph twoSources "a" report a b ∧
        ∀ c ∈ report.cycles, ¬[a, b] <:+ c) m m := by
  intro w
  have hs : w.Sample twoSources := sample_twoModules
  obtain ⟨report, st, h⟩ := write_twoModules ["a"] (.inl rfl)
  obtain ⟨hnone, hclosed, hopen, hgraph⟩ := write_cycles (.existing rfl) hs.grounded h
  refine ⟨report, st, h, fun hcycles => ?_, hclosed, hopen⟩
  have hapart := hs.apart_prepared
  have hedges : ∀ m n, m = "a" ∧ n = "b" ∨ m = "b" ∧ n = "a" →
      w.DependsOn (w.prepared twoSources) m n := by
    intro m n hmn
    rw [hs.prepared_eq]
    exact dependsOn_twoModules.2 (hmn.imp_right fun ⟨hm, hn⟩ => ⟨hm, by simp [hn]⟩)
  have ha := root_mem_of_ok h
  have hb : "b" ∈ report.modules :=
    (mem_of_dependsOn hs.grounded hapart h ha (hedges _ _ (.inl ⟨rfl, rfl⟩))).resolve_right
      (hs.not_mem_reused rfl h _)
  have hab := (hgraph hapart "a" "b").2 ⟨ha, hb, hedges _ _ (.inl ⟨rfl, rfl⟩)⟩
  have hba := (hgraph hapart "b" "a").2 ⟨hb, ha, hedges _ _ (.inr ⟨rfl, rfl⟩)⟩
  exact hnone.1 hcycles "a" (.head hab (.single hba))

end Writer

end DesignDeps
