import DesignDeps.Proofs.Resolver
import DesignDeps.Proofs.Walk.BackEdges
import DesignDeps.Proofs.Walk.Journal

/-!
# What a report says of the names

Every name that is found in a written module is in one part of the report: it was written, trusted,
excluded or not resolved. `write_accounts`: it is in one part only, however often it is met, and no
other name is in the last three. `Accounts` says how the report grows along a walk by the names that
are met.

A name that closes a cycle is met without being resolved, and is in no part yet. It is being worked
on then, so it leads to a file and will be written.
-/

namespace DesignDeps

open Text

/-- What has become of a name. -/
inductive Fate
  | written
  | reused
  | excluded
  | unresolved
  deriving DecidableEq

/-- The report has the name in the part for such names. -/
def Report.Lists (r : Report) (name : String) : Fate → Prop
  | .written => name ∈ r.modules
  | .reused => name ∈ r.reused
  | .excluded => name ∈ r.excluded
  | .unresolved => name ∈ r.unresolved

-- ---------------------------------------------------------------------------
-- Resolution
-- ---------------------------------------------------------------------------

namespace Resolver

variable {r : Resolver} {name : String}

theorem not_finds_of_excluded (h : r.resolve name = .excluded) : ¬r.Finds name := by
  rintro ⟨path, hfound⟩
  cases h.symm.trans hfound

theorem not_finds_of_unresolved (h : r.resolve name = .unresolved) : ¬r.Finds name := by
  rintro ⟨path, hfound⟩
  cases h.symm.trans hfound

end Resolver

namespace Writer

open Walk

-- ---------------------------------------------------------------------------
-- Walks
-- ---------------------------------------------------------------------------

/-- The names that satisfy `met` have been met between the two reports, and no others. -/
structure Accounts (w : Writer) (met : String → Prop) (r r' : Report) : Prop where
  excluded : ∀ n, n ∈ r'.excluded ↔ n ∈ r.excluded ∨ met n ∧ w.resolver.resolve n = .excluded
  unresolved : ∀ n, n ∈ r'.unresolved ↔
    n ∈ r.unresolved ∨ met n ∧ w.resolver.resolve n = .unresolved
  reused : ∀ n, n ∈ r'.reused → n ∈ r.reused ∨ met n ∧ w.resolver.Finds n

section
variable {w : Writer} {met met' : String → Prop} {r r' r'' : Report}

theorem Accounts.nil (hexcluded : r'.excluded = r.excluded)
    (hunresolved : r'.unresolved = r.unresolved)
    (hreused : r'.reused = r.reused) : w.Accounts (fun _ => False) r r' := by
  refine ⟨fun n => ?_, fun n => ?_, fun n hn => ?_⟩
  · simp [hexcluded]
  · simp [hunresolved]
  · exact .inl (hreused ▸ hn)

theorem Accounts.trans (h : w.Accounts met r r') (h' : w.Accounts met' r' r'') :
    w.Accounts (fun n => met n ∨ met' n) r r'' := by
  refine ⟨fun n => ?_, fun n => ?_, fun n hn => ?_⟩
  · rw [h'.excluded, h.excluded, or_assoc, or_and_right]
  · rw [h'.unresolved, h.unresolved, or_assoc, or_and_right]
  · rcases h'.reused n hn with hn | ⟨hmet, hfinds⟩
    · exact (h.reused n hn).imp_right fun ⟨hmet, hfinds⟩ => ⟨.inl hmet, hfinds⟩
    · exact .inr ⟨.inr hmet, hfinds⟩

theorem Accounts.congr (h : w.Accounts met r r') (hmet : ∀ n, met n ↔ met' n) :
    w.Accounts met' r r' := by
  have heq : met = met' := funext fun n => propext (hmet n)
  exact heq ▸ h

variable {module name : String} {edge : Edge} {st : State}

theorem accounts_settle (hmeets : w.Meets st name edge)
    (hactive : ∀ a ∈ st.context.active, w.resolver.Finds a) :
    w.Accounts (· = name) st.context.report (w.settle module name edge st).context.report := by
  have heq : ∀ n res, n = name ∧ w.resolver.resolve n = res ↔
      n = name ∧ w.resolver.resolve name = res := fun n res => and_congr_right fun h => by rw [h]
  cases hmeets with
  | cut _ hmem =>
    obtain ⟨path, hfound⟩ := hactive name hmem
    refine ⟨fun n => ?_, fun n => ?_, fun n hn => ?_⟩
    · simp [settle, heq, hfound]
    · simp [settle, heq, hfound]
    · exact .inl (by simpa [settle] using hn)
  | excluded _ hres | unresolved _ hres =>
    refine ⟨fun n => ?_, fun n => ?_, fun n hn => ?_⟩
    · simp [settle, heq, hres, or_comm]
    · simp [settle, heq, hres, or_comm]
    · exact .inl (by simpa [settle] using hn)
  | seen _ hfound | descend _ hfound =>
    refine ⟨fun n => ?_, fun n => ?_, fun n hn => ?_⟩
    · simp [settle, heq, hfound]
    · simp [settle, heq, hfound]
    · exact .inl (by simpa [settle] using hn)
  | reused _ hfound =>
    refine ⟨fun n => ?_, fun n => ?_, fun n hn => ?_⟩
    · simp [settle, heq, hfound]
    · simp [settle, heq, hfound]
    · rcases (mem_reused_settle ..).1 hn with ⟨-, rfl⟩ | hn
      · exact .inr ⟨rfl, _, hfound⟩
      · exact .inl hn

theorem accounts_walk (w : Writer) :
    (∀ module path st st', w.visit module path st = (.ok (), st') → Orderly st →
      Awaits st module → Orderly st' ∧ Settled st' ∧
      (w.resolver.Finds module → (∀ a ∈ st.context.active, w.resolver.Finds a) →
        w.Accounts (fun n => ∃ x ∈ w.visits module path st, n ∈ x.names) st.context.report
          st'.context.report)) ∧
    ∀ module names kept st kept' st', w.visitAll module names kept st = (.ok kept', st') →
      Orderly st → Settled st → Orderly st' ∧ Settled st' ∧
      ((∀ a ∈ st.context.active, w.resolver.Finds a) →
        w.Accounts (fun n => n ∈ names ∨ ∃ x ∈ w.visitsAll module names st, n ∈ x.names)
          st.context.report st'.context.report) := by
  refine w.visit_induct
    (P := fun module _ st st' vs => w.resolver.Finds module →
      (∀ a ∈ st.context.active, w.resolver.Finds a) →
      w.Accounts (fun n => ∃ x ∈ vs, n ∈ x.names) st.context.report st'.context.report)
    (Q := fun _ names _ st _ st' vs => (∀ a ∈ st.context.active, w.resolver.Finds a) →
      w.Accounts (fun n => n ∈ names ∨ ∃ x ∈ vs, n ∈ x.names) st.context.report
        st'.context.report)
    ?left ?done ?passed ?descended
  case left =>
    intro module path st names st₁ kept st₂ st' vs henter _ _ _ _ _ hleave hvs hm hactive
    obtain ⟨-, -, hcontext, -⟩ := enter_eq_ok henter
    have hleaves := w.leaves_leave module path kept (st₂.inContext (·.pop))
    rw [hleave] at hleaves
    cases hleaves with
    | finished _ hcontext' =>
      have hbelow := hvs (by simpa [hcontext, or_imp, forall_and] using ⟨hactive, hm⟩)
      have hleft : w.Accounts (fun _ => False) st₂.context.report st'.context.report := by
        apply Accounts.nil <;> simp [hcontext']
      rw [hcontext, report_push] at hbelow
      refine (hbelow.trans hleft).congr fun n => ?_
      simp [or_comm, or_and_right, exists_or]
  case done =>
    intro module kept st _
    exact (Accounts.nil rfl rfl rfl).congr (by simp)
  case passed =>
    intro module name names kept st edge kept' st' vs hmeets _ _ _ _ hvs hactive
    refine ((accounts_settle hmeets hactive).trans (hvs (by simpa using hactive))).congr fun n => ?_
    simp [or_assoc]
  case descended =>
    intro module name names kept st source st₁ vs kept' st' vs' hmeets _ _ hvisit _ _ hvs _ hvs'
      hactive
    have hactive₁ : ∀ a ∈ st₁.context.active, w.resolver.Finds a := by
      rw [(continues_visit hvisit).active, active_settle]
      exact hactive
    have hbelow := hvs ⟨source, hmeets.found⟩ (by simpa using hactive)
    refine (((accounts_settle hmeets hactive).trans hbelow).trans (hvs' hactive₁)).congr fun n => ?_
    simp only [List.mem_cons, List.mem_append, or_and_right, exists_or]
    exact or_or_or_comm

end

-- ---------------------------------------------------------------------------
-- Whole runs
-- ---------------------------------------------------------------------------

/-- The name is found in a module that the run writes. -/
def Names (w : Writer) (d : Disk) (root name : String) : Prop :=
  ∃ x ∈ w.visitsOf d root, name ∈ x.names

def fate (w : Writer) (report : Report) (name : String) : Fate :=
  match w.resolver.resolve name with
  | .excluded => .excluded
  | .unresolved => .unresolved
  | .found _ => if name ∈ report.modules then .written else .reused

section
variable {w : Writer} {d : Disk} {root : String} {report : Report} {st : State} {n : String}

theorem accounts_of_ok (h : w.write d root = (.ok report, st)) :
    (n ∈ report.excluded ↔ w.Names d root n ∧ w.resolver.resolve n = .excluded) ∧
    (n ∈ report.unresolved ↔ w.Names d root n ∧ w.resolver.resolve n = .unresolved) ∧
    (n ∈ report.reused → w.Names d root n ∧ w.resolver.Finds n) := by
  obtain ⟨path, st', hfound, hvisit, rfl, -, hvisits⟩ := visitsOf_of_ok h
  obtain ⟨-, -, haccounts⟩ := w.accounts_walk.1 root path _ st' hvisit (.start w d root)
    (awaits_start w d root)
  obtain ⟨hexcluded, hunresolved, hreused⟩ :=
    haccounts ⟨path, hfound⟩ (by simp [Writer.start, Context.new])
  unfold Names
  rw [hvisits]
  simp only [Writer.start, Context.new, Report.new, NameSet.not_mem_empty, false_or] at *
  exact ⟨hexcluded n, hunresolved n, hreused n⟩

theorem mem_of_names (h : w.write d root = (.ok report, st)) (hn : w.Names d root n)
    (hfinds : w.resolver.Finds n) : n ∈ report.modules ∨ n ∈ report.reused := by
  obtain ⟨x, hx, hn⟩ := hn
  rcases kept_or_mem_of_found h hx hn hfinds with hkept | hwritten
  · exact mem_of_kept h hx hkept
  · exact .inl hwritten

theorem fate_of_lists {a : Fate} (hw : w.freshness = .existing) (hd : d.Grounded)
    (h : w.write d root = (.ok report, st)) (ha : report.Lists n a) : a = w.fate report n := by
  obtain ⟨hexcluded, hunresolved, hreused⟩ := accounts_of_ok (n := n) h
  unfold fate
  cases a with
  | written =>
    obtain ⟨path, hfound⟩ := finds_of_mem_modules h ha
    rw [hfound]
    exact (if_pos ha).symm
  | reused =>
    obtain ⟨-, path, hfound⟩ := hreused ha
    rw [hfound]
    exact (if_neg fun hm => (reused_of_ok (.existing hw) hd h).1 n hm ha).symm
  | excluded => rw [(hexcluded.1 ha).2]
  | unresolved => rw [(hunresolved.1 ha).2]

theorem lists_fate (h : w.write d root = (.ok report, st)) (hn : w.Names d root n) :
    report.Lists n (w.fate report n) := by
  obtain ⟨hexcluded, hunresolved, -⟩ := accounts_of_ok (n := n) h
  unfold fate
  cases hres : w.resolver.resolve n with
  | excluded => exact hexcluded.2 ⟨hn, hres⟩
  | unresolved => exact hunresolved.2 ⟨hn, hres⟩
  | found path =>
    dsimp only
    split
    · next hm => exact hm
    · next hm => exact (mem_of_names h hn ⟨path, hres⟩).resolve_left hm

-- ---------------------------------------------------------------------------
-- The theorem
-- ---------------------------------------------------------------------------

/-- In a run that succeeds where whatever exists is trusted: no name is in two parts of the report,
a name that is found in a written module is in one, and the trusted, the excluded and the unresolved
names are all found in such modules. The excluded ones are those with an override that excludes
them, the unresolved ones those with no override and no path that contains what they ask for, and no
record that is written lists any of them. The written modules are those that were visited, with the
names of their sources, as long as no fragment has its place where a source is. -/
theorem write_accounts (hw : w.freshness = .existing) (hd : d.Grounded)
    (h : w.write d root = (.ok report, st)) :
    (∀ n a b, report.Lists n a → report.Lists n b → a = b) ∧
    (∀ n, w.Names d root n → ∃! a, report.Lists n a) ∧
    (∀ n a, report.Lists n a → a ≠ .written → w.Names d root n) ∧
    (∀ n, n ∈ report.excluded ↔
      w.Names d root n ∧ w.resolver.overrides.get? n = some .excluded) ∧
    (∀ n, n ∈ report.unresolved ↔ w.Names d root n ∧ w.resolver.overrides.get? n = none ∧
      ∀ p ∈ w.resolver.index.paths, ¬(matchToken n).toList <:+: p.text.toList) ∧
    (∀ r ∈ w.journalOf d root, ∀ n ∈ r.dependencies,
      n ∉ report.excluded ∧ n ∉ report.unresolved) ∧
    report.modules = (w.visitsOf d root).map Visit.module ∧
    (w.Apart w.resolver.Finds (w.prepared d) → ∀ x ∈ w.visitsOf d root,
      w.resolver.resolve x.module = .found x.source ∧
        ∃ bytes, (w.prepared d).read x.source = .ok bytes ∧
          x.names = (w.namesIn x.source x.module (Utf8.lossy bytes)).toList) := by
  have haccounts := fun n => accounts_of_ok (n := n) h
  obtain ⟨hmodules, -⟩ := backward_visitsOf h
  refine ⟨fun n a b ha hb => ?_, fun n hn => ?_, fun n a ha hne => ?_, fun n => ?_, fun n => ?_,
    fun r hr n hn => ?_, hmodules, fun ha x hx => ?_⟩
  · exact (fate_of_lists hw hd h ha).trans (fate_of_lists hw hd h hb).symm
  · exact ⟨w.fate report n, lists_fate h hn, fun a ha => fate_of_lists hw hd h ha⟩
  · obtain ⟨hexcluded, hunresolved, hreused⟩ := haccounts n
    cases a with
    | written => exact absurd rfl hne
    | reused => exact (hreused ha).1
    | excluded => exact (hexcluded.1 ha).1
    | unresolved => exact (hunresolved.1 ha).1
  · rw [(haccounts n).1, Resolver.resolve_eq_excluded_iff]
  · rw [(haccounts n).2.1, Resolver.resolve_eq_unresolved_iff]
  · -- Records keep names that lead to a file only.
    obtain ⟨x, hx, v, -, rfl⟩ := (mem_journalOf h).1 hr
    obtain ⟨-, hfinds⟩ := (sound_visitsOf h x hx).kept n hn
    obtain ⟨hexcluded, hunresolved, -⟩ := haccounts n
    exact ⟨fun hn => Resolver.not_finds_of_excluded (hexcluded.1 hn).2 hfinds,
      fun hn => Resolver.not_finds_of_unresolved (hunresolved.1 hn).2 hfinds⟩
  · exact ⟨(sound_visitsOf h x hx).found, scanned_visitsOf hd ha h x hx⟩

end

/-- The name that the second of two modules names has no file. -/
theorem write_accounts_twoModules :
    let w := twoModules ["c"]
    ∃ report st, w.write twoSources "a" = (.ok report, st) ∧ "c" ∈ report.unresolved ∧
      (∀ n, w.Names twoSources "a" n → ∃! a, report.Lists n a) ∧
      ∀ r ∈ w.journalOf twoSources "a", "c" ∉ r.dependencies := by
  intro w
  have hs : w.Sample twoSources := sample_twoModules
  obtain ⟨report, st, h⟩ := write_twoModules ["c"] (.inl rfl)
  obtain ⟨-, hone, -, -, hunresolved, hrecords, -, hvisits⟩ := write_accounts rfl hs.grounded h
  have hb : "b" ∈ report.modules :=
    (mem_of_dependsOn hs.grounded hs.apart_prepared h (root_mem_of_ok h)
      (hs.prepared_eq.symm ▸ dependsOn_twoModules.2 (.inl ⟨rfl, rfl⟩))).resolve_right
      (hs.not_mem_reused rfl h _)
  obtain ⟨x, hx, hxb⟩ := (mem_modules_iff h).1 hb
  obtain ⟨hfound, bytes, -, hnames⟩ := hvisits hs.apart_prepared x hx
  have hc : w.Names twoSources "a" "c" := by
    refine ⟨x, hx, ?_⟩
    rw [hnames, ← NameSet.mem_iff, hs.namesIn hfound]
    simp [w, twoModules, hxb]
  have hlisted := (hunresolved "c").2 ⟨hc, by decide, by simp [twoModules]⟩
  exact ⟨report, st, h, hlisted, hone, fun r hr hn => (hrecords r hr "c" hn).2 hlisted⟩

end Writer

end DesignDeps
