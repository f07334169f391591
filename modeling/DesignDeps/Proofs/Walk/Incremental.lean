import DesignDeps.Proofs.Walk.Contents

/-!
# Runs one after the other

Each run trusts what the runs before it have left. `runs_incremental`: as long as the dependencies
form no cycle this is as good as starting over, whatever the roots and however many runs fail on the
way. Every fragment on the disk is the one that its module has by itself, and below a module on the
disk nothing is missing.

With a cycle among the dependencies neither holds: which edge is left out depends on the root.
-/

namespace DesignDeps.Writer

open Text Walk Relation

/-- Runs that begin with the disk `d`, the latest first. None of them failed to write a fragment. -/
inductive Runs (w : Writer) (d : Disk) : List (String × Except Error Report) → Disk → Prop
  | none : Runs w d [] d
  | run {history d' root r st} : Runs w d history d' → SlashFree root →
      w.write d' root = (r, st) → (∀ e, r = .error e → ¬w.WriteFailure e) →
      Runs w d ((root, r) :: history) st.disk

/-- No module depends on itself, directly or not. -/
def Acyclic (w : Writer) (d : Disk) : Prop :=
  ∀ m, ¬TransGen (w.DependsOn d) m m

/-- Every fragment on the disk is that of its module in `d` with no edge left out, and none is
missing beside it or below it. -/
structure Clean (w : Writer) (d d' : Disk) : Prop where
  alike : w.Alike d d'
  tidy : w.Tidy d'
  exact : ∀ {m v}, SlashFree m → v ∈ w.variants → d'.exists? (w.fragmentPath m v) = true →
    ∃ bytes, d'.read (w.fragmentPath m v) = .ok bytes ∧ w.FragmentOf d m [] v bytes
  complete : ∀ {m v}, SlashFree m → w.Present d' m → v ∈ w.variants →
    d'.exists? (w.fragmentPath m v) = true
  closed : ∀ {m n}, SlashFree m → w.Present d' m → w.DependsOn d m n → w.Present d' n

section
variable {w : Writer} {d d' : Disk} {st : State} {m n v : String} {dropped : List String}
  {bytes : ByteArray}

theorem not_mem_dropped (hacyclic : w.Acyclic d)
    (hback : ∀ a ∈ dropped, ReflTransGen (w.DependsOn d) a m) (hn : w.DependsOn d m n) :
    n ∉ dropped :=
  fun hmem => hacyclic m (TransGen.head' hn (hback n hmem))

theorem FragmentOf.congr (h : w.FragmentOf d' m dropped v bytes) (halike : w.Alike d d')
    (hnot : ∀ n, w.DependsOn d m n → n ∉ dropped) : w.FragmentOf d m [] v bytes := by
  obtain ⟨path, source, hfound, hread, rfl⟩ := h
  have hsource := (halike.source hfound).1 hread
  refine ⟨path, source, hfound, hsource, ?_⟩
  suffices heq : w.listed dropped (w.namesIn path m (Utf8.lossy source)).toList =
      w.listed [] (w.namesIn path m (Utf8.lossy source)).toList by
    rw [heq]
  refine List.filter_congr fun n hn => ?_
  by_cases hfinds : w.resolver.Finds n
  · simp [hfinds, hnot n ⟨path, source, hfound, hsource, hn, hfinds⟩]
  · simp [hfinds]

theorem FragmentOf.unique {bytes' : ByteArray} (h : w.FragmentOf d m dropped v bytes)
    (h' : w.FragmentOf d m dropped v bytes') : bytes = bytes' := by
  obtain ⟨path, source, hfound, hread, rfl⟩ := h
  obtain ⟨path', source', hfound', hread', rfl⟩ := h'
  cases hfound.symm.trans hfound'
  cases hread.symm.trans hread'
  rfl

theorem DependsOn.plain (h : w.DependsOn d m n) (hS : w.Confined SlashFree) : SlashFree n := by
  obtain ⟨path, source, -, -, hn, hfinds⟩ := h
  exact hS path m _ n hn hfinds

theorem Clean.start (hempty : w.EmptyOutput d) (hv : w.PlainVariants) (hd : d.Grounded)
    (ha : w.Apart SlashFree d) : w.Clean d d := by
  have hnone : ∀ {m}, SlashFree m → ¬w.Present d m := by
    rintro m hm ⟨v, hmem, hexists⟩
    simp [hempty.exists?_eq hv hm hmem] at hexists
  refine ⟨.refl w d, hempty.tidy hv hd ha, fun hm hmem hexists => ?_, fun hm h => ?_,
    fun hm h => ?_⟩
  · exact absurd ⟨_, hmem, hexists⟩ (hnone hm)
  · exact absurd h (hnone hm)
  · exact absurd h (hnone hm)

theorem Outcome.present_before (h : w.Outcome d' st) (hd : w.Tidy d') (hm : SlashFree m)
    (hv : v ∈ w.variants) (hexists : st.disk.exists? (w.fragmentPath m v) = true)
    (hmod : m ∉ st.context.report.modules) : d'.exists? (w.fragmentPath m v) = true := by
  obtain ⟨bytes, hread⟩ := (h.tidy hd).regular hm hv hexists
  exact Disk.exists?_of_read ((h.untouched hm hv hmod).1 hread)

theorem Clean.run (h : w.Clean d d') (hacyclic : w.Acyclic d) (hout : w.Outcome d' st) :
    w.Clean d st.disk := by
  have hgraph := h.alike.dependsOn_eq
  refine ⟨h.alike.trans hout.alike, hout.tidy h.tidy, ?_, ?_, ?_⟩
  · intro m v hm hv hexists
    by_cases hmod : m ∈ st.context.report.modules
    · obtain ⟨-, dropped, -, hback, hread, -⟩ := hout.written m hmod
      obtain ⟨bytes, hbytes, hfragment⟩ := hread v hv
      rw [hgraph] at hback
      exact ⟨bytes, hbytes, hfragment.congr h.alike fun n hn => not_mem_dropped hacyclic hback hn⟩
    · obtain ⟨bytes, hbytes, hfragment⟩ :=
        h.exact hm hv (hout.present_before h.tidy hm hv hexists hmod)
      exact ⟨bytes, (hout.untouched hm hv hmod).2 hbytes, hfragment⟩
  · intro m v hm hpresent hv
    by_cases hmod : m ∈ st.context.report.modules
    · obtain ⟨-, dropped, -, -, hread, -⟩ := hout.written m hmod
      obtain ⟨bytes, hbytes, -⟩ := hread v hv
      exact Disk.exists?_of_read hbytes
    · obtain ⟨v', hv', hexists⟩ := hpresent
      refine hout.alike.grows.exists? (h.complete hm ⟨v', hv', ?_⟩ hv)
      exact hout.present_before h.tidy hm hv' hexists hmod
  · intro m n hm hpresent hn
    by_cases hmod : m ∈ st.context.report.modules
    · obtain ⟨-, dropped, -, hback, -, hclosed⟩ := hout.written m hmod
      rw [hgraph] at hback hclosed
      exact hclosed n hn (not_mem_dropped hacyclic hback hn)
    · obtain ⟨v', hv', hexists⟩ := hpresent
      refine (h.closed hm ⟨v', hv', ?_⟩ hn).mono hout.alike.grows
      exact hout.present_before h.tidy hm hv' hexists hmod

/-- What holds between two runs. A run that ends before its walk may not even have made the output
directory. -/
theorem clean_of_runs {history : List (String × Except Error Report)}
    (h : w.Runs d history d') (hw : w.freshness = .existing) (hS : w.Confined SlashFree)
    (hclean : w.Clean (w.prepared d) (w.prepared d)) (hacyclic : w.Acyclic (w.prepared d)) :
    (d' = d ∨ w.prepared d' = d') ∧ w.Clean (w.prepared d) (w.prepared d') ∧
      ∀ root report, (root, .ok report) ∈ history → SlashFree root ∧ w.Present d' root := by
  induction h with
  | none => exact ⟨.inl rfl, hclean, by simp⟩
  | @run history d' root r st hruns hroot hwrite hfails ih =>
    obtain ⟨hplace, hclean', hroots⟩ := ih
    rcases write_outcome hwrite hw hS hclean'.tidy hroot hfails with
      ⟨hdisk, e, rfl⟩ | ⟨st', hdisk, hout, hok⟩
    · -- Nothing has changed.
      rw [hdisk]
      exact ⟨hplace, hclean', by simpa using hroots⟩
    · have hprepared : w.prepared st.disk = st.disk := by
        rw [← hdisk]
        exact (hout.tidy hclean'.tidy).prepared_eq
      have hgrows : d'.Grows st.disk := by
        rw [← hdisk]
        exact (Disk.extends_makeDirs d' w.outDir).grows.trans hout.alike.grows
      refine ⟨.inr hprepared, ?_, fun root' report hmem => ?_⟩
      · rw [hprepared, ← hdisk]
        exact hclean'.run hacyclic hout
      · rcases List.mem_cons.1 hmem with heq | hmem
        · cases heq
          obtain ⟨hv, -, hvisited, hwritten⟩ := hok report rfl
          exact ⟨hroot, hdisk ▸ hout.present (hwritten root hvisited) hv⟩
        · obtain ⟨hplain, hpresent⟩ := hroots root' report hmem
          exact ⟨hplain, hpresent.mono hgrows⟩

/-- As long as the dependencies form no cycle, it does not matter for a fragment which runs have
written it: what is on the disk after any number of them, some of which may have failed, is what the
modules have by themselves, with everything below what is there. -/
theorem runs_incremental {history : List (String × Except Error Report)}
    (hw : w.freshness = .existing) (hv : w.PlainVariants) (hS : w.Confined SlashFree)
    (hd : d.Grounded) (hempty : w.EmptyOutput (w.prepared d))
    (ha : w.Apart SlashFree (w.prepared d)) (hacyclic : w.Acyclic (w.prepared d))
    (h : w.Runs d history d') :
    (∀ m v, SlashFree m → v ∈ w.variants → d'.exists? (w.fragmentPath m v) = true →
      ∃ bytes, d'.read (w.fragmentPath m v) = .ok bytes ∧
        w.FragmentOf (w.prepared d) m [] v bytes) ∧
    (∀ m, SlashFree m → w.Present d' m →
      (∀ v ∈ w.variants, d'.exists? (w.fragmentPath m v) = true) ∧
      ∀ n, w.DependsOn (w.prepared d) m n → w.Present d' n) ∧
    (∀ root report, (root, .ok report) ∈ history →
      ∀ m, ReflTransGen (w.DependsOn (w.prepared d)) root m → w.Present d' m) ∧
    ∀ history₂ d₂, w.Runs d history₂ d₂ → ∀ m v, SlashFree m → v ∈ w.variants →
      d'.exists? (w.fragmentPath m v) = true → d₂.exists? (w.fragmentPath m v) = true →
      d'.read (w.fragmentPath m v) = d₂.read (w.fragmentPath m v) := by
  have hclean₀ := Clean.start hempty hv ((Disk.extends_makeDirs d w.outDir).grows.grounded hd) ha
  have hclean : ∀ {history d' m}, w.Runs d history d' → SlashFree m → w.Present d' m →
      w.Clean (w.prepared d) d' := by
    intro history d' m h hm hpresent
    obtain ⟨rfl | hprepared, hclean, -⟩ := clean_of_runs h hw hS hclean₀ hacyclic
    · obtain ⟨v, hmem, hexists⟩ := hpresent
      have hexists := (Disk.extends_makeDirs d' w.outDir).grows.exists? hexists
      exact absurd (hempty.exists?_eq hv hm hmem) (by simpa [prepared] using hexists)
    · rwa [hprepared] at hclean
  have hexact : ∀ {history d'}, w.Runs d history d' → ∀ m v, SlashFree m → v ∈ w.variants →
      d'.exists? (w.fragmentPath m v) = true → ∃ bytes,
        d'.read (w.fragmentPath m v) = .ok bytes ∧ w.FragmentOf (w.prepared d) m [] v bytes :=
    fun h m v hm hmem hexists => (hclean h hm ⟨v, hmem, hexists⟩).exact hm hmem hexists
  refine ⟨hexact h, fun m hm hpresent => ?_, fun root report hmem m hreach => ?_, ?_⟩
  · have hclean := hclean h hm hpresent
    exact ⟨fun v hmem => hclean.complete hm hpresent hmem, fun n => hclean.closed hm hpresent⟩
  · obtain ⟨-, -, hroots⟩ := clean_of_runs h hw hS hclean₀ hacyclic
    suffices hall : SlashFree m ∧ w.Present d' m from hall.2
    induction hreach with
    | refl => exact hroots root report hmem
    | tail _ hedge ih =>
      exact ⟨hedge.plain hS, (hclean h ih.1 ih.2).closed ih.1 ih.2 hedge⟩
  · intro history₂ d₂ h₂ m v hm hmem hexists hexists₂
    obtain ⟨bytes, hread, hfragment⟩ := hexact h m v hm hmem hexists
    obtain ⟨bytes₂, hread₂, hfragment₂⟩ := hexact h₂ m v hm hmem hexists₂
    rw [hread, hread₂, hfragment.unique hfragment₂]

end

/-- After a run for a name that leads nowhere and one from `a`, both modules are there. -/
theorem runs_incremental_twoModules :
    let w := twoModules []
    ∃ history d', w.Runs twoSources history d' ∧ history.length = 2 ∧
      ("c", .error (.missingRoot "c")) ∈ history ∧ w.Present d' "b" ∧
      d'.exists? (w.fragmentPath "a" "sim") = true := by
  intro w
  obtain ⟨report, st, h⟩ := write_twoModules [] (.inl rfl)
  obtain ⟨st₀, hmissing, hdisk⟩ := write_missing [] (show "c" ≠ "a" by decide) (by decide)
  have hruns : w.Runs twoSources [("a", .ok report), ("c", .error (.missingRoot "c"))] st.disk := by
    refine .run (.run .none (by decide) hmissing ?_) (by decide)
      (hdisk.symm ▸ h) (by simp)
    rintro e he ⟨m, v, cause, -, -, rfl⟩
    cases he
  have hsample : w.Sample twoSources := sample_twoModules
  have hprepared : w.prepared twoSources = twoSources := hsample.tidy.prepared_eq
  have hacyclic : w.Acyclic twoSources := by
    have hto : ∀ {m n}, TransGen (w.DependsOn twoSources) m n → n = "b" ∧ m = "a" := by
      intro m n h
      induction h with
      | single hedge => simpa [and_comm] using dependsOn_twoModules.1 hedge
      | tail _ hedge ih => simpa [ih.1] using dependsOn_twoModules.1 hedge
    intro m hm
    obtain ⟨rfl, heq⟩ := hto hm
    simp at heq
  obtain ⟨-, hclosed, hroots, -⟩ := runs_incremental (w := w) rfl hsample.plain
    hsample.confined hsample.grounded (hprepared.symm ▸ hsample.emptyOutput)
    (hprepared.symm ▸ hsample.apart) (hprepared.symm ▸ hacyclic) hruns
  have ha := hroots "a" report (by simp) "a" .refl
  refine ⟨_, _, hruns, rfl, by simp, (hclosed "a" (by decide) ha).2 "b" ?_,
    (hclosed "a" (by decide) ha).1 "sim" (by simp [w, twoModules])⟩
  rw [hprepared]
  exact dependsOn_twoModules.2 (.inl ⟨rfl, rfl⟩)

end DesignDeps.Writer
