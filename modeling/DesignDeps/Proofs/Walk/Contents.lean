import DesignDeps.Proofs.Walk.Coverage
import DesignDeps.Proofs.Walk.Output

/-!
# What a run leaves on the disk

`Outcome` compares the disk of a walk with the disk it started from: fragments of modules that the
walk has not written are as they were, and those that it has written list every dependency of their
module but the ones that were active then, each of which leads to the module. `outcome_walk` holds
for walks that fail as well, as long as it is not a fragment that they failed to write.
-/

namespace DesignDeps

instance (r : Resolver) : DecidablePred r.Finds := fun name =>
  decidable_of_iff ((r.resolve name).path?.isSome = true) <| by
    unfold Resolver.Finds
    cases r.resolve name <;> simp [Resolution.path?]

namespace Writer

open Text Walk Relation

def listed (w : Writer) (dropped names : List String) : List String :=
  names.filter fun n => n ∉ dropped ∧ w.resolver.Finds n

/-- What the fragment of a module says whose edges to the dropped modules are left out. -/
def FragmentOf (w : Writer) (d : Disk) (module : String) (dropped : List String) (variant : String)
    (bytes : ByteArray) : Prop :=
  ∃ path source, w.resolver.resolve module = .found path ∧ d.read path = .ok source ∧
    bytes = (record module path
      (w.listed dropped (w.namesIn path module (Utf8.lossy source)).toList) variant).render.toUTF8

def WriteFailure (w : Writer) (e : Error) : Prop :=
  ∃ m v cause, SlashFree m ∧ v ∈ w.variants ∧ e = .io (w.fragmentPath m v) cause

/-- A fragment of the module is on the disk. -/
def Present (w : Writer) (d : Disk) (module : String) : Prop :=
  ∃ v ∈ w.variants, d.exists? (w.fragmentPath module v) = true

/-- What has become of the disk `d` in a walk so far. -/
structure Outcome (w : Writer) (d : Disk) (st : State) : Prop where
  alike : w.Alike d st.disk
  untouched : ∀ {m v bytes}, SlashFree m → v ∈ w.variants → m ∉ st.context.report.modules →
    (st.disk.read (w.fragmentPath m v) = .ok bytes ↔ d.read (w.fragmentPath m v) = .ok bytes)
  written : ∀ m ∈ st.context.report.modules, SlashFree m ∧ ∃ dropped, m ∈ dropped ∧
    (∀ a ∈ dropped, ReflTransGen (w.DependsOn d) a m) ∧
    (∀ v ∈ w.variants, ∃ bytes, st.disk.read (w.fragmentPath m v) = .ok bytes ∧
      w.FragmentOf d m dropped v bytes) ∧
    ∀ n, w.DependsOn d m n → n ∉ dropped → w.Present st.disk n

-- ---------------------------------------------------------------------------
-- What a module lists
-- ---------------------------------------------------------------------------

section
variable {w : Writer} {S : String → Prop} {d : Disk}

/-- A module lists what it depends on and what was not active while its names were gone through. -/
theorem kept_visitAll {module : String} {names kept kept' : List String} {st st' : State}
    (h : w.visitAll module names kept st = (.ok kept', st')) (halike : w.Alike d st.disk)
    (hS : w.Confined S) (hd : d.Grounded) (ha : w.Apart S d)
    (hnames : ∀ n ∈ names, w.resolver.Finds n → S n) :
    kept' = kept ++ w.listed st.context.active names := by
  induction names generalizing kept st with
  | nil =>
    rw [visitAll_nil] at h
    cases h
    simp [listed]
  | cons name names ih =>
    have hmeets := w.meets_edge st name
    have hrest := fun n hn => hnames n (List.mem_cons_of_mem _ hn)
    have hpass : ∀ {edge kept₁}, w.visitAll module names kept₁ (w.settle module name edge st) =
        (.ok kept', st') → kept' = kept₁ ++ w.listed st.context.active names := by
      intro edge kept₁ h
      rw [ih h (by simpa using halike) hrest, active_settle]
    rw [visitAll_cons] at h
    generalize w.edge st name = edge at hmeets h
    cases hmeets with
    | cut _ hactive =>
      rw [hpass h]
      simp [listed, hactive, Edge.isKept]
    | excluded _ hres | unresolved _ hres =>
      rw [hpass h]
      simp [listed, Resolver.Finds, hres, Edge.isKept]
    | seen hactive hfound | reused hactive hfound =>
      have hfinds : w.resolver.Finds name := ⟨_, hfound⟩
      rw [hpass h]
      simp [listed, hactive, hfinds, Edge.isKept]
    | descend hactive hfound =>
      have hfinds : w.resolver.Finds name := ⟨_, hfound⟩
      dsimp only at h
      split at h
      · cases h
      · next st₁ hvisit =>
        have hsteady := steady_visit hvisit (by simpa using halike) hS hd ha
          (hnames name (by simp) hfinds)
        have halike₁ := hsteady.alike
        rw [disk_settle] at halike₁
        rw [ih h (halike.trans halike₁) hrest, hsteady.active, active_settle]
        simp [listed, hactive, hfinds]

end

-- ---------------------------------------------------------------------------
-- Steps
-- ---------------------------------------------------------------------------

section
variable {w : Writer} {d : Disk} {root module : String} {path : Path} {st st' : State}

theorem Present.mono {d' : Disk} (h : w.Present d module) (hd : d.Grows d') :
    w.Present d' module := by
  obtain ⟨v, hv, hexists⟩ := h
  exact ⟨v, hv, hd.exists? hexists⟩

theorem present_of_isFresh {source : Path} (hw : w.freshness = .existing)
    (h : w.isFresh d module source = true) : w.Present d module := by
  unfold isFresh at h
  split at h
  · cases h
  · next v _ hv =>
    rw [hw] at h
    exact ⟨v, by simp [hv], h⟩

theorem Outcome.present (h : w.Outcome d st) (hm : module ∈ st.context.report.modules)
    (hv : w.variants ≠ []) : w.Present st.disk module := by
  obtain ⟨v, hv⟩ := List.exists_mem_of_ne_nil _ hv
  obtain ⟨-, dropped, -, -, hread, -⟩ := h.written module hm
  obtain ⟨bytes, hbytes, -⟩ := hread v hv
  exact ⟨v, hv, Disk.exists?_of_read hbytes⟩

theorem Outcome.present_of_met {n : String} (h : w.Outcome d st) (hcovers : w.Covers d root st)
    (hw : w.freshness = .existing) (hv : w.variants ≠ [])
    (hwritten : n ∈ st.context.visited → n ∈ st.context.report.modules)
    (hmet : n ∈ st.context.visited ∨ n ∈ st.context.report.reused) : w.Present st.disk n := by
  rcases hmet with hvisited | hreused
  · exact h.present (hwritten hvisited) hv
  · exact present_of_isFresh hw ((hcovers.trusted n hreused).2 ⟨""⟩)

theorem Outcome.start (root : String) (log : List Log.Event) :
    w.Outcome d ⟨d, .new root, log⟩ :=
  ⟨.refl w d, fun _ _ _ => Iff.rfl, by simp [Context.new, Report.new]⟩

theorem Outcome.tidy (h : w.Outcome d st) (hd : w.Tidy d) : w.Tidy st.disk :=
  hd.of_alike h.alike

theorem Outcome.congr (h : w.Outcome d st) (hdisk : st'.disk = st.disk)
    (hmodules : st'.context.report.modules = st.context.report.modules) : w.Outcome d st' := by
  obtain ⟨halike, huntouched, hwritten⟩ := h
  rw [← hdisk] at halike
  rw [← hmodules, ← hdisk] at hwritten
  refine ⟨halike, ?_, hwritten⟩
  intro m v bytes hm hv hmod
  rw [hdisk]
  exact huntouched hm hv (hmodules ▸ hmod)

theorem Outcome.settle {name : String} {edge : Edge} (h : w.Outcome d st) :
    w.Outcome d (w.settle module name edge st) :=
  h.congr (by simp) (by simp)

theorem Outcome.leave {kept dropped : List String} {source : ByteArray} (h : w.Outcome d st)
    (hd : w.Tidy d) (hleave : w.leave module path kept st = (.ok (), st')) (hm : SlashFree module)
    (hunwritten : module ∉ st.context.report.modules)
    (hfound : w.resolver.resolve module = .found path) (hread : d.read path = .ok source)
    (hkept : kept = w.listed dropped (w.namesIn path module (Utf8.lossy source)).toList)
    (hself : module ∈ dropped) (hback : ∀ a ∈ dropped, ReflTransGen (w.DependsOn d) a module)
    (hclosed : ∀ n, w.DependsOn d module n → n ∉ dropped → w.Present st.disk n) :
    w.Outcome d st' := by
  have hleaves := w.leaves_leave module path kept st
  rw [hleave] at hleaves
  cases hleaves with
  | finished hwrites hcontext =>
    have hall := List.Subset.refl w.variants
    have hmodules : st'.context.report.modules = st.context.report.modules ++ [module] := by
      rw [hcontext]
    have htidy := h.tidy hd
    have halike := hwrites.alike htidy.grounded htidy.apart hm hall
    refine ⟨h.alike.trans halike, ?_, ?_⟩
    · -- Fragments of another module have other places.
      intro m v bytes hm' hv hmod
      simp only [hmodules, List.mem_append, List.mem_singleton, not_or] at hmod
      rw [(hwrites.sameAt_other htidy.grounded htidy.places hm hall hm' hv
        fun hne => hmod.2 hne.1.symm).read]
      exact h.untouched hm' hv hmod.1
    · intro m hmem
      rw [hmodules, List.mem_append, List.mem_singleton] at hmem
      rcases hmem with hmem | rfl
      · obtain ⟨hplain, dropped', hself', hback', hread', hclosed'⟩ := h.written m hmem
        refine ⟨hplain, dropped', hself', hback', fun v hv => ?_, fun n hn hnd => ?_⟩
        · obtain ⟨bytes, hb, hfragment⟩ := hread' v hv
          have hne : ¬(module = m ∧ v ∈ w.variants) := fun hne => hunwritten (hne.1 ▸ hmem)
          have hsame := hwrites.sameAt_other htidy.grounded htidy.places hm hall hplain hv hne
          exact ⟨bytes, hsame.read.2 hb, hfragment⟩
        · exact (hclosed' n hn hnd).mono halike.grows
      · refine ⟨hm, dropped, hself, hback, fun v hv => ?_, fun n hn hnd => ?_⟩
        · refine ⟨_, hwrites.read_self htidy.grounded htidy.places hm hall hv, path, source, hfound,
            hread, ?_⟩
          rw [hkept]
        · exact (hclosed n hn hnd).mono halike.grows

-- ---------------------------------------------------------------------------
-- Walks
-- ---------------------------------------------------------------------------

theorem outcome_walk (hw : w.freshness = .existing) (hS : w.Confined SlashFree)
    (hd : w.Tidy d) :
    (∀ module path st r st', w.visit module path st = (r, st') →
      (∀ e, r = .error e → ¬w.WriteFailure e) → SlashFree module →
      w.resolver.resolve module = .found path → Awaits st module → w.Covers d root st →
      (∀ a ∈ st.context.active, ReflTransGen (w.DependsOn d) a module) → w.Outcome d st →
      w.Outcome d st') ∧
    ∀ module names kept st r st', w.visitAll module names kept st = (r, st') →
      (∀ e, r = .error e → ¬w.WriteFailure e) →
      (∀ n ∈ names, w.resolver.Finds n → SlashFree n ∧ w.DependsOn d module n) →
      module ∈ st.context.visited → Settled st → w.Covers d root st →
      (∀ a ∈ st.context.active, ReflTransGen (w.DependsOn d) a module) → w.Outcome d st →
      w.Outcome d st' := by
  have hwalks := @covers_walk w d root SlashFree hw hS hd.grounded hd.apart
  have hwalk := w.walk_induct
    (P := fun module path st r => (∀ e, r.1 = .error e → ¬w.WriteFailure e) → SlashFree module →
      w.resolver.resolve module = .found path → Awaits st module → w.Covers d root st →
      (∀ a ∈ st.context.active, ReflTransGen (w.DependsOn d) a module) → w.Outcome d st →
      w.Outcome d r.2)
    (Q := fun module names _ st r => (∀ e, r.1 = .error e → ¬w.WriteFailure e) →
      (∀ n ∈ names, w.resolver.Finds n → SlashFree n ∧ w.DependsOn d module n) →
      module ∈ st.context.visited → Settled st → w.Covers d root st →
      (∀ a ∈ st.context.active, ReflTransGen (w.DependsOn d) a module) → w.Outcome d st →
      w.Outcome d r.2)
    ?refused ?failed ?left ?done ?passed ?stopped ?descended
  · refine ⟨fun module path st r st' h => ?_, fun module names kept st r st' h => ?_⟩
    · have houtcome := hwalk.1 module path st
      rwa [h] at houtcome
    · have houtcome := hwalk.2 module names kept st
      rwa [h] at houtcome
  case refused =>
    intro module path st e st₁ h _ _ _ _ _ _ houtcome
    obtain ⟨hdisk, hcontext, -⟩ := enter_eq_error h
    exact houtcome.congr hdisk (by rw [hcontext])
  case failed =>
    intro module path st names st₁ e st₂ h _ ih hfails hm hfound hwait hcovers hactive houtcome
    obtain ⟨-, hdisk, hcontext, -⟩ := enter_eq_ok h
    obtain ⟨-, -, -, -, hin⟩ := hcovers.alike.names h hfound hS
    obtain ⟨hcovers₁, hsettled₁⟩ := hcovers.enter h hwait
    have houtcome₁ : w.Outcome d st₁ :=
      houtcome.congr hdisk (by simp [hcontext])
    refine (ih (by simpa using hfails) hin ?_ hsettled₁ hcovers₁ ?_ houtcome₁).congr rfl rfl
    · simpa [hcontext] using hwait.claimed
    · simpa [hcontext, or_imp, forall_and] using ⟨hactive, ReflTransGen.refl⟩
  case left =>
    intro module path st names st₁ kept st₂ h hall ih hfails hm hfound hwait hcovers hactive
      houtcome
    obtain ⟨hvariants, hdisk, hcontext, -⟩ := enter_eq_ok h
    obtain ⟨source, hread, hnames, hdeps, hin⟩ := hcovers.alike.names h hfound hS
    obtain ⟨hcovers₁, hsettled₁⟩ := hcovers.enter h hwait
    have hplain := fun n hn hfinds => (hin n hn hfinds).1
    have houtcome₁ : w.Outcome d st₁ :=
      houtcome.congr hdisk (by simp [hcontext])
    have hactive₁ : st₁.context.active = st.context.active ++ [module] := by simp [hcontext]
    have hback : ∀ a ∈ st₁.context.active, ReflTransGen (w.DependsOn d) a module := by
      simpa [hactive₁, or_imp, forall_and] using ⟨hactive, ReflTransGen.refl⟩
    have hmodule : module ∈ st₁.context.visited := by simpa [hcontext] using hwait.claimed
    have houtcome₂ := ih (by simp) hin hmodule hsettled₁ hcovers₁ hback houtcome₁
    obtain ⟨hcovers₂, hsettled₂, hmet⟩ :=
      hwalks.2 module names [] st₁ kept st₂ hall hin hmodule hsettled₁ hcovers₁
    have hsteady := steady_visitAll hall hcovers₁.alike hS hd.grounded hd.apart hplain
    have hwait₂ := hcovers₂.awaits hsettled₂ hcontext hsteady hwait
    have hkept := kept_visitAll hall hcovers₁.alike hS hd.grounded hd.apart hplain
    rw [hnames, List.nil_append] at hkept
    have hclosed : ∀ n, w.DependsOn d module n → n ∉ st₁.context.active →
        w.Present st₂.disk n := by
      intro n hn hinactive
      rw [← hsteady.active] at hinactive
      exact houtcome₂.present_of_met hcovers₂ hw hvariants
        (fun hv => (hsettled₂ n hv).resolve_left hinactive) (hmet n (hdeps n hn).1 (hdeps n hn).2)
    have hpopped : w.Outcome d (st₂.inContext (·.pop)) := houtcome₂.congr rfl rfl
    have hleaves := w.leaves_leave module path kept (st₂.inContext (·.pop))
    generalize hr : w.leave module path kept (st₂.inContext (·.pop)) = r at hleaves hfails
    cases hleaves with
    | finished =>
      exact hpopped.leave hd hr hm hwait₂.unwritten hfound hread hkept (by simp [hactive₁]) hback
        hclosed
    | stopped hvs => exact absurd ⟨_, _, _, hm, by simp [hvs], rfl⟩ (hfails _ rfl)
  case done =>
    intro module kept st _ _ _ _ _ _ houtcome
    exact houtcome
  case passed =>
    intro module name names kept st edge r hmeets _ hpass hall ih hfails hin hmodule hsettled
      hcovers hactive houtcome
    exact ih hfails (fun n hn => hin n (List.mem_cons_of_mem _ hn)) (mem_visited_settle hmodule)
      (hsettled.pass hpass) (hcovers.pass hmeets hpass hw) (by simpa using hactive) houtcome.settle
  case stopped =>
    intro module name names kept st source e st₁ hmeets _ _ ih hfails hin hmodule hsettled hcovers
      hactive houtcome
    have hfound := hmeets.found
    obtain ⟨hname, hedge⟩ := hin name (by simp) ⟨source, hfound⟩
    obtain ⟨hcovers₀, hwait⟩ := hcovers.descend hmeets hsettled hmodule hedge hw
    refine ih (by simpa using hfails) hname hfound hwait hcovers₀ ?_ houtcome.settle
    simpa using fun a ha => (hactive a ha).tail hedge
  case descended =>
    intro module name names kept st source st₁ r hmeets _ hvisit ih hall ih' hfails hin hmodule
      hsettled hcovers hactive houtcome
    have hfound := hmeets.found
    obtain ⟨hname, hedge⟩ := hin name (by simp) ⟨source, hfound⟩
    obtain ⟨hcovers₀, hwait⟩ := hcovers.descend hmeets hsettled hmodule hedge hw
    obtain ⟨hcovers₁, hsettled₁⟩ := hwalks.1 name source _ st₁ hvisit hname hfound hwait hcovers₀
    have hsteady := steady_visit hvisit hcovers₀.alike hS hd.grounded hd.apart hname
    have houtcome₁ := ih (by simp) hname hfound hwait hcovers₀
      (by simpa using fun a ha => (hactive a ha).tail hedge) houtcome.settle
    refine ih' hfails (fun n hn => hin n (List.mem_cons_of_mem _ hn))
      (hsteady.visited module (mem_visited_settle hmodule)) hsettled₁ hcovers₁ ?_ houtcome₁
    simpa [hsteady.active] using hactive

theorem fragments_visit (h : w.visit module path st = (.ok (), st')) (hS : w.Confined SlashFree)
    (hd : w.Tidy d) (halike : w.Alike d st.disk) (hm : SlashFree module)
    (hfound : w.resolver.resolve module = .found path) {v : String} (hv : v ∈ w.variants) :
    ∃ bytes, st'.disk.read (w.fragmentPath module v) = .ok bytes ∧
      w.FragmentOf d module (st.context.active ++ [module]) v bytes := by
  rw [visit_eq] at h
  split at h
  · cases h
  · next names st₁ henter =>
    obtain ⟨-, hdisk, hcontext, -⟩ := enter_eq_ok henter
    obtain ⟨source, hread, hnames, -, hin⟩ := halike.names henter hfound hS
    have halike₁ : w.Alike d st₁.disk := hdisk ▸ halike
    have hplain := fun n hn hfinds => (hin n hn hfinds).1
    split at h
    · cases h
    · next kept st₂ hall =>
      have hsteady := steady_visitAll hall halike₁ hS hd.grounded hd.apart hplain
      have hkept := kept_visitAll hall halike₁ hS hd.grounded hd.apart hplain
      rw [hnames, hcontext, active_push, List.nil_append] at hkept
      have hleaves := w.leaves_leave module path kept (st₂.inContext (·.pop))
      rw [h] at hleaves
      cases hleaves with
      | finished hwrites =>
        have htidy := hd.of_alike (halike₁.trans hsteady.alike)
        exact ⟨_, hwrites.read_self htidy.grounded htidy.places hm (List.Subset.refl _) hv, path,
          source, hfound, hread, by rw [hkept]⟩

/-- A run that does not fail to write a fragment either ends before its walk, or its walk leaves
behind what `Outcome` says. -/
theorem write_outcome {r : Except Error Report} (h : w.write d root = (r, st))
    (hw : w.freshness = .existing) (hS : w.Confined SlashFree) (hd : w.Tidy (w.prepared d))
    (hroot : SlashFree root) (hfails : ∀ e, r = .error e → ¬w.WriteFailure e) :
    (st.disk = d ∧ ∃ e, r = .error e) ∨
    ∃ st', st'.disk = st.disk ∧ w.Outcome (w.prepared d) st' ∧ ∀ report, r = .ok report →
      w.variants ≠ [] ∧ w.Covers (w.prepared d) root st' ∧ root ∈ st'.context.visited ∧
        ∀ n ∈ st'.context.visited, n ∈ st'.context.report.modules := by
  have hwalk : ∀ {path r st'}, w.resolver.resolve root = .found path →
      w.visit root path (w.start d root) = (r, st') → (∀ e, r = .error e → ¬w.WriteFailure e) →
      w.Outcome (w.prepared d) st' := by
    intro path r st' hfound hvisit hfails
    exact (outcome_walk hw hS hd).1 root path _ r st' hvisit hfails hroot hfound
      (awaits_start w d root) (Covers.start root _) (by simp [Writer.start, Context.new])
      (Outcome.start root _)
  have hgoes := w.goes_write d root
  rw [h] at hgoes
  cases hgoes with
  | withoutVariants _ hdisk => exact .inl ⟨hdisk, _, rfl⟩
  | missing _ hdisk => exact .inl ⟨hdisk, _, rfl⟩
  | withoutDirectory _ _ hdisk =>
    exact .inr ⟨⟨w.prepared d, .new root, []⟩, hdisk.symm, .start root [], by simp⟩
  | failed hfound hvisit =>
    exact .inr ⟨st, rfl, hwalk hfound hvisit (by simpa using hfails), by simp⟩
  | @finished path st₁ _ hfound hvisit hdisk =>
    refine .inr ⟨st₁, hdisk.symm, hwalk hfound hvisit (by simp), fun report hreport => ?_⟩
    obtain ⟨hcovers, hvisited, hwritten⟩ :=
      covers_run hw hS hd.grounded hd.apart hroot hfound hvisit
    refine ⟨?_, hcovers, hvisited, hwritten⟩
    rintro hv
    simp [write, hv] at h

end

end Writer

end DesignDeps
