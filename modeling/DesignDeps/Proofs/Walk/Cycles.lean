import DesignDeps.Proofs.Fragment.Prerequisites
import DesignDeps.Proofs.Walk.Incremental
import DesignDeps.Proofs.Walk.Success

/-!
# Cycles on the disk

Within one run an edge that would close a cycle is left out. `acyclic_runs_iff` says for which
sources that is enough to keep the fragments of several runs free of cycles: those in which no two
modules that one run reaches depend on each other. As soon as there are two, a run from each of them
writes a fragment that lists the other, since only the active modules of its own run are left out.
-/

namespace DesignDeps.Writer

open Text Walk Relation

/-- No variant breaks a line, nor does a name that leads to a file, nor the file's path. -/
def LineFree (w : Writer) : Prop :=
  (∀ v ∈ w.variants, '\n' ∉ v.toList) ∧ ∀ name path, w.resolver.resolve name = .found path →
    '\n' ∉ name.toList ∧ '\n' ∉ path.text.toList

/-- The fragment of `m` on the disk lists `n` as a prerequisite. -/
def Lists (w : Writer) (d : Disk) (v m n : String) : Prop :=
  SlashFree m ∧ ∃ text : String, d.read (w.fragmentPath m v) = .ok text.toUTF8 ∧
    n ∈ Fragment.prerequisites v text

/-- Every run has returned a report. -/
def Successful (history : List (String × Except Error Report)) : Prop :=
  ∀ run ∈ history, ∃ report, run.2 = .ok report

/-- What the fragments on a disk are that successful runs have left. -/
structure Built (w : Writer) (d d' : Disk) : Prop where
  alike : w.Alike d d'
  records : ∀ {m}, SlashFree m → w.Present d' m → ∃ dropped, m ∈ dropped ∧
    ∀ v ∈ w.variants, ∃ bytes, d'.read (w.fragmentPath m v) = .ok bytes ∧
      w.FragmentOf d m dropped v bytes
  closed : ∀ {m n}, SlashFree m → w.Present d' m → w.DependsOn d m n → w.Present d' n

def Whole (w : Writer) (d d' : Disk) (m : String) : Prop :=
  ∀ v ∈ w.variants, ∃ bytes, d'.read (w.fragmentPath m v) = .ok bytes ∧
    w.FragmentOf d m [m] v bytes

section
variable {w : Writer} {d d' : Disk} {st : State} {root m n v : String} {dropped : List String}
  {bytes : ByteArray} {history : List (String × Except Error Report)}

theorem lists_iff (hlines : w.LineFree) (hS : w.Confined SlashFree) (hm : SlashFree m)
    (hv : v ∈ w.variants) (hread : d'.read (w.fragmentPath m v) = .ok bytes)
    (h : w.FragmentOf d m dropped v bytes) :
    w.Lists d' v m n ↔ w.DependsOn d m n ∧ n ∉ dropped := by
  obtain ⟨path, source, hfound, hsource, rfl⟩ := h
  generalize hdeps : w.listed dropped (w.namesIn path m (Utf8.lossy source)).toList = deps at hread
  have hlisted : n ∈ deps ↔ w.DependsOn d m n ∧ n ∉ dropped := by
    rw [← hdeps]
    simp only [listed, List.mem_filter, decide_eq_true_eq]
    constructor
    · rintro ⟨hn, hnd, hfinds⟩
      exact ⟨⟨path, source, hfound, hsource, hn, hfinds⟩, hnd⟩
    · rintro ⟨⟨path', source', hfound', hsource', hn, hfinds⟩, hnd⟩
      cases hfound.symm.trans hfound'
      cases hsource.symm.trans hsource'
      exact ⟨hn, hnd, hfinds⟩
  have hlegible : Fragment.Legible (record m path deps v) := by
    refine ⟨⟨hm, (hlines.2 m path hfound).1⟩, (hlines.2 m path hfound).2, hlines.1 v hv, ?_⟩
    intro n hn
    obtain ⟨hmem, hn⟩ := List.mem_filter.1 (hdeps ▸ hn)
    obtain ⟨-, hfinds⟩ : n ∉ dropped ∧ w.resolver.Finds n := by simpa using hn
    exact ⟨hS path m _ n hmem hfinds, (hlines.2 n _ hfinds.choose_spec).1⟩
  have hback : Fragment.prerequisites v (record m path deps v).render = deps :=
    Fragment.prerequisites_render (r := record m path deps v) hlegible
  rw [← hlisted]
  constructor
  · rintro ⟨-, text, htext, hn⟩
    have heq := Except.ok.inj (hread.symm.trans htext)
    rwa [← String.toByteArray_inj.1 heq, hback] at hn
  · intro hn
    exact ⟨hm, _, hread, by rwa [hback]⟩

-- ---------------------------------------------------------------------------
-- What successful runs leave
-- ---------------------------------------------------------------------------

theorem Built.exists? (h : w.Built d d') (hm : SlashFree m) (hpresent : w.Present d' m)
    (hv : v ∈ w.variants) : d'.exists? (w.fragmentPath m v) = true := by
  obtain ⟨dropped, -, hread⟩ := h.records hm hpresent
  obtain ⟨bytes, hbytes, -⟩ := hread v hv
  exact Disk.exists?_of_read hbytes

theorem Built.isFresh (h : w.Built d d') (hw : w.freshness = .existing) (hm : SlashFree m)
    (hpresent : w.Present d' m) (path : Path) : w.isFresh d' m path = true := by
  unfold Writer.isFresh
  split
  · next hv =>
    obtain ⟨v, hmem, -⟩ := hpresent
    simp [hv] at hmem
  · next v _ hv =>
    rw [hw]
    exact h.exists? hm hpresent (by simp [hv])

theorem Built.below (h : w.Built d d') (hS : w.Confined SlashFree) (hm : SlashFree m)
    (hpresent : w.Present d' m) (hn : ReflTransGen (w.DependsOn d) m n) :
    SlashFree n ∧ w.Present d' n := by
  induction hn with
  | refl => exact ⟨hm, hpresent⟩
  | tail _ hedge ih => exact ⟨hedge.plain hS, h.closed ih.1 ih.2 hedge⟩

theorem Built.buildable (h : w.Built d d') (hd : w.Tidy d) (hspared : ∀ m, w.Spared m)
    (hm : SlashFree m) (hpresent : w.Present d' m) : w.Buildable d m := by
  obtain ⟨dropped, -, hread⟩ := h.records hm hpresent
  have hgrounded := h.alike.grows.grounded hd.grounded
  have hplace : ∀ v ∈ w.variants, ∃ l, d.reach .create (w.fragmentPath m v) = .ok l := by
    intro v hv
    obtain ⟨bytes, hbytes, -⟩ := hread v hv
    obtain ⟨l, modified, hl, hfile⟩ := Disk.read_eq_ok_iff.1 hbytes
    exact ⟨l, h.alike.adds.reach_create.1 (Disk.reach_create_of_file hgrounded hl hfile)⟩
  obtain ⟨v, hv, -⟩ := hpresent
  obtain ⟨_, -, path, source, hfound, hsource, -⟩ := hread v hv
  exact ⟨path, source, hfound, hsource, hplace, hspared m⟩

theorem Built.start (hempty : w.EmptyOutput d) (hw : w.PlainVariants) : w.Built d d := by
  have hnone : ∀ {m}, SlashFree m → ¬w.Present d m := by
    rintro m hm ⟨v, hmem, hexists⟩
    simp [hempty.exists?_eq hw hm hmem] at hexists
  exact ⟨.refl w d, fun hm h => absurd h (hnone hm), fun hm h => absurd h (hnone hm)⟩

theorem FragmentOf.alike (h : w.FragmentOf d' m dropped v bytes) (halike : w.Alike d d') :
    w.FragmentOf d m dropped v bytes := by
  obtain ⟨path, source, hfound, hread, heq⟩ := h
  exact ⟨path, source, hfound, (halike.source hfound).1 hread, heq⟩

theorem Built.run (h : w.Built d d') (hd : w.Tidy d) (hw : w.freshness = .existing)
    (hv : w.variants ≠ []) (hout : w.Outcome d' st) (hcovers : w.Covers d' root st)
    (hwritten : ∀ n ∈ st.context.visited, n ∈ st.context.report.modules) :
    w.Built d st.disk := by
  have htidy := hd.of_alike h.alike
  have hbefore : ∀ {m}, SlashFree m → w.Present st.disk m → m ∉ st.context.report.modules →
      w.Present d' m := by
    rintro m hm ⟨v, hmem, hexists⟩ hmod
    exact ⟨v, hmem, hout.present_before htidy hm hmem hexists hmod⟩
  refine ⟨h.alike.trans hout.alike, ?_, ?_⟩
  · intro m hm hpresent
    by_cases hmod : m ∈ st.context.report.modules
    · obtain ⟨-, dropped, hself, -, hread, -⟩ := hout.written m hmod
      refine ⟨dropped, hself, fun v hmem => ?_⟩
      obtain ⟨bytes, hbytes, hfragment⟩ := hread v hmem
      exact ⟨bytes, hbytes, hfragment.alike h.alike⟩
    · obtain ⟨dropped, hself, hread⟩ := h.records hm (hbefore hm hpresent hmod)
      refine ⟨dropped, hself, fun v hmem => ?_⟩
      obtain ⟨bytes, hbytes, hfragment⟩ := hread v hmem
      exact ⟨bytes, (hout.untouched hm hmem hmod).2 hbytes, hfragment⟩
  · intro m n hm hpresent hn
    by_cases hmod : m ∈ st.context.report.modules
    · exact hout.present_of_met hcovers hw hv (hwritten n)
        (hcovers.closed m hmod n (h.alike.dependsOn.2 hn))
    · exact (h.closed hm (hbefore hm hpresent hmod) hn).mono hout.alike.grows

-- ---------------------------------------------------------------------------
-- Running again
-- ---------------------------------------------------------------------------

theorem Whole.keep (h : w.Whole d d' m) (hm : SlashFree m) (hout : w.Outcome d' st)
    (hmod : m ∉ st.context.report.modules) : w.Whole d st.disk m := by
  intro v hv
  obtain ⟨bytes, hread, hfragment⟩ := h v hv
  exact ⟨bytes, (hout.untouched hm hv hmod).2 hread, hfragment⟩

/-- A run from a module that is on the disk writes this module only, and all its edges but those to
itself. -/
theorem Built.rerun (h : w.Built d d') (hd : w.Tidy d) (hspared : ∀ m, w.Spared m)
    (hw : w.freshness = .existing) (hS : w.Confined SlashFree) (hv : w.PlainVariants)
    (hne : w.variants ≠ [])
    (hm : SlashFree m) (hpresent : w.Present d' m) :
    ∃ report st, w.write d' m = (.ok report, st) ∧ w.Built d st.disk ∧ d'.Grows st.disk ∧
      w.Whole d st.disk m ∧
      ∀ n, SlashFree n → n ≠ m → w.Whole d d' n → w.Whole d st.disk n := by
  have htidy := hd.of_alike h.alike
  have hgraph := h.alike.dependsOn_eq
  have hbuild : ∀ n, ReflTransGen (w.DependsOn d') m n → w.Buildable d' n := by
    intro n hn
    obtain ⟨hplain, hpresent'⟩ := h.below hS hm hpresent (hgraph ▸ hn)
    exact (h.buildable hd hspared hplain hpresent').alike h.alike
  obtain ⟨report, st, hwrite⟩ := write_succeeds hS hv htidy hne hm hbuild
  have hprepared := htidy.prepared_eq
  obtain ⟨-, e, he⟩ | ⟨st', hdisk, hout, hok⟩ :=
    write_outcome hwrite hw hS (hprepared.symm ▸ htidy) hm (by simp)
  · cases he
  obtain ⟨-, hcovers, -, hwritten⟩ := hok report rfl
  rw [hprepared] at hout hcovers
  obtain ⟨path, st₁, hfound, hvisit, -, hdisk₁⟩ := write_eq_ok hwrite
  have hstart : (w.start d' m).disk = d' := hprepared
  have honly : ∀ n ∈ st'.context.report.modules, n = m := by
    intro n hn
    refine (hcovers.stale n (hcovers.claimed n hn)).resolve_right fun hstale => ?_
    have hreach : ReflTransGen (w.DependsOn d) m n :=
      ReflTransGen.mono (fun a b hab => hgraph ▸ hab.1) _ _
        (hcovers.reached n (hcovers.claimed n hn))
    obtain ⟨hplain, hpresent'⟩ := h.below hS hm hpresent hreach
    cases (h.isFresh hw hplain hpresent' path).symm.trans (hstale path)
  refine ⟨report, st, hwrite, hdisk ▸ h.run hd hw hne hout hcovers hwritten,
    hdisk ▸ hout.alike.grows, fun v hmem => ?_, fun n hn hnm hwhole => ?_⟩
  · obtain ⟨bytes, hread, hfragment⟩ := fragments_visit hvisit hS htidy
      (by rw [hstart]; exact .refl w d') hm hfound hmem
    exact ⟨bytes, hdisk₁ ▸ hread, hfragment.alike h.alike⟩
  · exact hdisk ▸ hwhole.keep hn hout fun hmod => hnm (honly n hmod)

theorem Built.rerunAll (h : w.Built d d') (hd : w.Tidy d) (hspared : ∀ m, w.Spared m)
    (hw : w.freshness = .existing) (hS : w.Confined SlashFree) (hv : w.PlainVariants)
    (hne : w.variants ≠ [])
    (hruns : w.Runs d history d') (hok : Successful history) (names : List String)
    (hnames : ∀ n ∈ names, SlashFree n ∧ w.Present d' n) :
    ∃ history d'', w.Runs d history d'' ∧ Successful history ∧ d'.Grows d'' ∧ w.Built d d'' ∧
      ∀ n ∈ names, w.Whole d d'' n := by
  induction names with
  | nil => exact ⟨history, d', hruns, hok, .refl d', h, by simp⟩
  | cons m names ih =>
    obtain ⟨history', d₁, hruns₁, hok₁, hgrows₁, hbuilt₁, hwhole₁⟩ :=
      ih fun n hn => hnames n (List.mem_cons_of_mem _ hn)
    obtain ⟨hm, hpresent⟩ := hnames m List.mem_cons_self
    obtain ⟨report, st, hwrite, hbuilt, hgrows, hself, hothers⟩ :=
      hbuilt₁.rerun hd hspared hw hS hv hne hm (hpresent.mono hgrows₁)
    refine ⟨_, _, hruns₁.run hm hwrite (by simp), ?_, hgrows₁.trans hgrows, hbuilt, ?_⟩
    · intro run hrun
      rcases List.mem_cons.1 hrun with rfl | hrun
      · exact ⟨report, rfl⟩
      · exact hok₁ run hrun
    · intro n hn
      by_cases hnm : n = m
      · exact hnm ▸ hself
      · have hn := (List.mem_cons.1 hn).resolve_left hnm
        exact hothers n (hnames n (List.mem_cons_of_mem _ hn)).1 hnm (hwhole₁ n hn)

-- ---------------------------------------------------------------------------
-- The theorem
-- ---------------------------------------------------------------------------

theorem lists_of_reach (hlines : w.LineFree) (hS : w.Confined SlashFree) (hv : v ∈ w.variants)
    (hwhole : ∀ a, ReflTransGen (w.DependsOn d) m a → SlashFree a ∧ w.Whole d d' a)
    (h : ReflTransGen (w.DependsOn d) m n) : ReflTransGen (w.Lists d' v) m n := by
  induction h with
  | refl => exact .refl
  | @tail a b hreach hedge ih =>
    by_cases hab : b = a
    · exact hab ▸ ih
    · obtain ⟨hplain, hall⟩ := hwhole a hreach
      obtain ⟨bytes, hread, hfragment⟩ := hall v hv
      exact ih.tail ((lists_iff hlines hS hplain hv hread hfragment).2 ⟨hedge, by simpa using hab⟩)

/-- Two modules that depend on each other end up listing each other, directly or not, after a run
from every module below the root. -/
theorem cycle_of_mutual {a b : String} {report : Report} (hw : w.freshness = .existing)
    (hspared : ∀ m, w.Spared m) (hv : w.PlainVariants) (hlines : w.LineFree)
    (hS : w.Confined SlashFree) (hd : d.Grounded) (hempty : w.EmptyOutput d) (ha : w.Apart SlashFree d)
    (hroot : SlashFree root) (hwrite : w.write d root = (.ok report, st))
    (hra : ReflTransGen (w.DependsOn d) root a) (hab : TransGen (w.DependsOn d) a b)
    (hba : TransGen (w.DependsOn d) b a) (hne : a ≠ b) :
    ∃ history d', w.Runs d history d' ∧ Successful history ∧
      ∃ v ∈ w.variants, TransGen (w.Lists d' v) a a := by
  have htidy := hempty.tidy hv hd ha
  have hprepared := htidy.prepared_eq
  obtain ⟨-, e, he⟩ | ⟨st', hdisk, hout, hok⟩ :=
    write_outcome hwrite hw hS (hprepared.symm ▸ htidy) hroot (by simp)
  · cases he
  obtain ⟨hvariants, hcovers, hvisited, hwritten⟩ := hok report rfl
  rw [hprepared] at hout hcovers
  have hbuilt := (Built.start hempty hv).run htidy hw hvariants hout hcovers hwritten
  have hpresent := hout.present (hwritten root hvisited) hvariants
  rw [hdisk] at hbuilt hpresent
  -- All modules below the root, of which there are finitely many.
  classical
  let names := w.resolver.resolvable.filter fun n => ReflTransGen (w.DependsOn d) root n
  have hmem : ∀ n, ReflTransGen (w.DependsOn d) root n → n ∈ names := by
    intro n hn
    refine List.mem_filter.2 ⟨?_, by simpa using hn⟩
    obtain ⟨hplain, hpresent'⟩ := hbuilt.below hS hroot hpresent hn
    obtain ⟨path, -, hfound, -⟩ := hbuilt.buildable htidy hspared hplain hpresent'
    exact Resolver.mem_resolvable_of_found hfound
  have hnames : ∀ n ∈ names, SlashFree n ∧ w.Present st.disk n := fun n hn =>
    hbuilt.below hS hroot hpresent (by simpa using (List.mem_filter.1 hn).2)
  have hfirst : w.Runs d [(root, .ok report)] st.disk := .run .none hroot hwrite (by simp)
  obtain ⟨history, d', hruns, hsuccess, -, -, hwhole⟩ :=
    hbuilt.rerunAll htidy hspared hw hS hv hvariants hfirst (by simp [Successful]) names hnames
  obtain ⟨v, hv⟩ := List.exists_mem_of_ne_nil _ hvariants
  refine ⟨history, d', hruns, hsuccess, v, hv, ?_⟩
  have hbelow : ∀ {m}, ReflTransGen (w.DependsOn d) root m → ∀ n,
      ReflTransGen (w.DependsOn d) m n → SlashFree n ∧ w.Whole d d' n := fun hm n hn =>
    ⟨(hnames n (hmem n (hm.trans hn))).1, hwhole n (hmem n (hm.trans hn))⟩
  have hab' := lists_of_reach hlines hS hv (hbelow hra) hab.to_reflTransGen
  have hba' := lists_of_reach hlines hS hv (hbelow (hra.trans hab.to_reflTransGen))
    hba.to_reflTransGen
  obtain heq | hab' := reflTransGen_iff_eq_or_transGen.1 hab'
  · exact absurd heq.symm hne
  · exact hab'.trans_left hba'

theorem lists_le (hbuilt : w.Built d d') (hlines : w.LineFree) (hS : w.Confined SlashFree)
    (hv : v ∈ w.variants) (h : w.Lists d' v m n) :
    w.Present d' m ∧ w.DependsOn d m n ∧ n ≠ m := by
  obtain ⟨hm, text, hread, -⟩ := id h
  have hpresent : w.Present d' m := ⟨v, hv, Disk.exists?_of_read hread⟩
  obtain ⟨dropped, hself, hread⟩ := hbuilt.records hm hpresent
  obtain ⟨bytes, hbytes, hfragment⟩ := hread v hv
  obtain ⟨hedge, hnd⟩ := (lists_iff hlines hS hm hv hbytes hfragment).1 h
  exact ⟨hpresent, hedge, fun heq => hnd (heq ▸ hself)⟩

theorem built_of_runs (hw : w.freshness = .existing) (hS : w.Confined SlashFree)
    (hv : w.PlainVariants) (hd : w.Tidy d) (hempty : w.EmptyOutput d) (h : w.Runs d history d')
    (hok : Successful history) : w.Built d d' := by
  induction h with
  | none => exact .start hempty hv
  | @run history d' root r st _ hroot hwrite hfails ih =>
    have hbuilt := ih fun run hrun => hok run (List.mem_cons_of_mem _ hrun)
    obtain ⟨report, hr⟩ := hok _ List.mem_cons_self
    have htidy := hd.of_alike hbuilt.alike
    have hprepared := htidy.prepared_eq
    obtain ⟨-, e, he⟩ | ⟨st', hdisk, hout, hok⟩ :=
      write_outcome hwrite hw hS (hprepared.symm ▸ htidy) hroot hfails
    · cases he.symm.trans hr
    · obtain ⟨hvariants, hcovers, -, hwritten⟩ := hok report hr
      rw [hprepared] at hout hcovers
      exact hdisk ▸ hbuilt.run hd hw hvariants hout hcovers hwritten

/-- Exactly when no successful run reaches two modules that depend on each other, the fragments on
the disk are free of cycles after any number of successful runs from any roots. -/
theorem acyclic_runs_iff (hw : w.freshness = .existing) (hspared : ∀ m, w.Spared m)
    (hv : w.PlainVariants) (hlines : w.LineFree) (hS : w.Confined SlashFree) (hd : d.Grounded)
    (hempty : w.EmptyOutput d) (ha : w.Apart SlashFree d) :
    (∀ history d', w.Runs d history d' → Successful history →
      ∀ v ∈ w.variants, ∀ m, ¬TransGen (w.Lists d' v) m m) ↔
    ∀ root report st, SlashFree root → w.write d root = (.ok report, st) →
      ∀ a b, ReflTransGen (w.DependsOn d) root a → TransGen (w.DependsOn d) a b →
        TransGen (w.DependsOn d) b a → a = b := by
  have htidy := hempty.tidy hv hd ha
  constructor
  · intro h root report st hroot hwrite a b hra hab hba
    by_contra hne
    obtain ⟨history, d', hruns, hok, v, hmem, hcycle⟩ :=
      cycle_of_mutual hw hspared hv hlines hS hd hempty ha hroot hwrite hra hab hba hne
    exact h history d' hruns hok v hmem a hcycle
  · intro h history d' hruns hok v hmem m hcycle
    have hbuilt := built_of_runs hw hS hv htidy hempty hruns hok
    obtain ⟨n, hmn, hnm⟩ := TransGen.head'_iff.1 hcycle
    obtain ⟨hpresent, hedge, hne⟩ := lists_le hbuilt hlines hS hmem hmn
    have hm : SlashFree m := hmn.1
    have hback : ReflTransGen (w.DependsOn d) n m :=
      ReflTransGen.mono (fun a b hab => (lists_le hbuilt hlines hS hmem hab).2.1) _ _ hnm
    have hbuild : ∀ k, ReflTransGen (w.DependsOn d) m k → w.Buildable d k := by
      intro k hk
      obtain ⟨hplain, hpresent'⟩ := hbuilt.below hS hm hpresent hk
      exact hbuilt.buildable htidy hspared hplain hpresent'
    obtain ⟨report, st, hwrite⟩ :=
      write_succeeds hS hv htidy (List.ne_nil_of_mem hmem) hm hbuild
    refine hne (h m report st hm hwrite m n .refl (.single hedge) ?_).symm
    exact (reflTransGen_iff_eq_or_transGen.1 hback).resolve_left fun heq => hne heq.symm

end

theorem lineFree_twoModules {below : List String} : (twoModules below).LineFree := by
  refine ⟨fun v hv => ?_, fun name path h => ?_⟩
  · obtain rfl : v = "sim" := by simpa [twoModules] using hv
    decide
  · rcases found_twoModules h with ⟨rfl, rfl⟩ | ⟨rfl, rfl⟩ <;> decide

/-- Without an edge back from `b`, nothing that the runs write has a cycle. -/
theorem acyclic_runs_iff_twoModules :
    let w := twoModules []
    (∃ report st, w.write twoSources "a" = (.ok report, st)) ∧
      ∀ history d', w.Runs twoSources history d' → Successful history →
        ∀ v ∈ w.variants, ∀ m, ¬TransGen (w.Lists d' v) m m := by
  intro w
  refine ⟨write_twoModules [] (.inl rfl), ?_⟩
  have hsample : w.Sample twoSources := sample_twoModules
  refine (acyclic_runs_iff rfl hsample.spared hsample.plain lineFree_twoModules hsample.confined
    hsample.grounded hsample.emptyOutput hsample.apart).2 ?_
  intro root report st _ _ a b _ hab hba
  have hto : ∀ {m n}, TransGen (w.DependsOn twoSources) m n → n = "b" := by
    intro m n h
    obtain ⟨k, -, hedge⟩ := TransGen.tail'_iff.1 h
    simpa [and_comm] using (dependsOn_twoModules.1 hedge).imp And.right And.right
  exact (hto hba).trans (hto hab).symm

/-- Two modules that depend on each other, each the root of a run: both fragments list the other. -/
theorem runs_close_cycle :
    let w := twoModules ["a"]
    w.EmptyOutput twoSources ∧ ∃ history d', w.Runs twoSources history d' ∧
      Successful history ∧ ∃ v ∈ w.variants, TransGen (w.Lists d' v) "a" "a" := by
  intro w
  have hab : w.DependsOn twoSources "a" "b" := dependsOn_twoModules.2 (.inl ⟨rfl, rfl⟩)
  have hba : w.DependsOn twoSources "b" "a" := dependsOn_twoModules.2 (.inr (by simp))
  obtain ⟨report, st, h⟩ := write_twoModules ["a"] (.inl rfl)
  have hsample : w.Sample twoSources := sample_twoModules
  exact ⟨hsample.emptyOutput, cycle_of_mutual rfl hsample.spared hsample.plain lineFree_twoModules
    hsample.confined hsample.grounded hsample.emptyOutput hsample.apart
    (by decide) h .refl (.single hab) (.single hba) (by decide)⟩

end DesignDeps.Writer
