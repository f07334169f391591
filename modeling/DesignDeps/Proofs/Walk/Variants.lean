import DesignDeps.Proofs.Walk.BackEdges

/-!
# Fragments in every variant

Whether a fragment is trusted depends on its first variant alone. `write_variants`: after a run that
succeeds, every dependency that a written module lists has a fragment of the first variant, and one
of each variant unless it was trusted.

A trusted module may lack the other variants if a run with fewer of them came before
(`variant_missing`), or one that failed in between. Trust is misplaced even where that run failed in
the middle of the first variant, since the file is there. If nothing of this has happened a module
with a fragment of the first variant has one of each (`Complete`).
-/

namespace DesignDeps.Writer

open Text Walk Relation

/-- A module that has a fragment of the first variant has one of each. -/
def Complete (w : Writer) (d : Disk) : Prop :=
  ∀ m v v', SlashFree m → w.variants.head? = some v → v' ∈ w.variants →
    d.exists? (w.fragmentPath m v) = true → d.exists? (w.fragmentPath m v') = true

/-- The second writer writes into the directory of the first one. If it writes the first of the
other's variants, it writes all of them. -/
structure Joins (w w' : Writer) : Prop where
  outDir : w'.outDir = w.outDir
  plain : w'.PlainVariants
  confined : w'.Confined SlashFree
  variants : ∀ v, w.variants.head? = some v → v ∈ w'.variants → w.variants ⊆ w'.variants

def Cuts (w : Writer) (m v : String) (cause : IoError) : Prop :=
  ∃ d bytes, w.faults.writing d (w.fragmentPath m v) = some (.cut bytes cause)

/-- When the second writer failed on a fragment, it had put the first variant of the other writer on
the disk for that module, but not all of them. The fragment itself counts as put there, if it can be
cut off, and as missing. -/
def Torn (w w' : Writer) (e : Error) : Prop :=
  ∃ m before v after cause put first, w'.variants = before ++ v :: after ∧
    e = .io (w'.fragmentPath m v) cause ∧ (put = before ∨ put = before ++ [v] ∧ w'.Cuts m v cause) ∧
    w.variants.head? = some first ∧ first ∈ put ∧ ¬w.variants ⊆ put

/-- Runs into the directory of `w` that begin with the disk `d`. None of them has left a module with
the first variant of `w` and without the others, neither by its own variants nor by a failure. -/
inductive Earlier (w : Writer) (d : Disk) : Disk → Prop
  | none : Earlier w d d
  | run {w' d' root r st} : Earlier w d d' → w.Joins w' → SlashFree root →
      w'.write d' root = (r, st) → (∀ e, r = .error e → ¬w.Torn w' e) → Earlier w d st.disk

def plus (w : Writer) (variants : List String) : Writer :=
  { w with variants := w.variants ++ variants }

section
variable {w w' : Writer} {d d' : Disk} {root module v : String} {st st' : State} {path : Path}
  {kept variants put : List String}

theorem Joins.refl (hv : w.PlainVariants) (hS : w.Confined SlashFree) : w.Joins w :=
  ⟨rfl, hv, hS, fun _ _ _ => List.Subset.refl _⟩

theorem Joins.fragmentPath (h : w.Joins w') (m v : String) :
    w'.fragmentPath m v = w.fragmentPath m v := by
  unfold Writer.fragmentPath
  rw [h.outDir]

theorem Joins.prepared (h : w.Joins w') (d : Disk) : w'.prepared d = w.prepared d := by
  unfold Writer.prepared
  rw [h.outDir]

theorem Joins.separate (h : w.Joins w') (hempty : w.EmptyOutput d) (hv : w.PlainVariants) :
    (w.plus w'.variants).Separate d := by
  refine EmptyOutput.separate (w := w.plus w'.variants) hempty fun v hmem => ?_
  exact (List.mem_append.1 hmem).elim (hv v) (h.plain v)

-- ---------------------------------------------------------------------------
-- All variants or none
-- ---------------------------------------------------------------------------

theorem EmptyOutput.complete (h : w.EmptyOutput d) (hv : w.PlainVariants) : w.Complete d := by
  intro m v v' hm hhead _ hexists
  simp [h.exists?_eq hv hm (List.mem_of_head? hhead)] at hexists

theorem Complete.after (hcomplete : w.Complete d) (module : String) (hgrows : d.Grows d')
    (hall : ∀ v, w.variants.head? = some v → v ∈ put → w.variants ⊆ put)
    (hput : ∀ v ∈ put, d'.exists? (w.fragmentPath module v) = true)
    (hsame : ∀ m v, SlashFree m → v ∈ w.variants → ¬(module = m ∧ v ∈ put) →
      d.SameAt d' (w.fragmentPath m v)) : w.Complete d' := by
  intro m v v' hplain hhead hv' hexists
  by_cases hnew : module = m ∧ v ∈ put
  · obtain ⟨rfl, hmem⟩ := hnew
    exact hput v' (hall v hhead hmem hv')
  · -- The first variant has been there before, and with it the others.
    rw [(hsame m v hplain (List.mem_of_head? hhead) hnew).exists?] at hexists
    exact hgrows.exists? (hcomplete m v v' hplain hhead hv' hexists)

theorem Joins.place_ne {m u : String} (hjoins : w.Joins w') (hs : (w.plus w'.variants).Separate d)
    (hm : SlashFree module) (hu : u ∈ w'.variants) (hplain : SlashFree m) (hv : v ∈ w.variants)
    (hne : ¬(module = m ∧ u = v)) (l : Location)
    (hl : d.reach .create (w'.fragmentPath module u) = .ok l) :
    d.reach .create (w.fragmentPath m v) ≠ .ok l := by
  intro hl'
  rw [hjoins.fragmentPath] at hl
  exact hne
    (hs module u m v l hm (List.mem_append_right _ hu) hplain (List.mem_append_left _ hv) hl hl')

theorem Writes.complete (hjoins : w.Joins w') (h : w'.Writes module path kept variants d d')
    (hd : d.Grounded) (hs : (w.plus w'.variants).Separate d) (hm : SlashFree module)
    (hsub : variants ⊆ w'.variants)
    (hall : ∀ v, w.variants.head? = some v → v ∈ variants → w.variants ⊆ variants)
    (hcomplete : w.Complete d) : w.Complete d' := by
  refine hcomplete.after module (h.since hd).adds.grows hall (fun v hv => ?_)
    fun m v hplain hv hne => ?_
  · rw [← hjoins.fragmentPath]
    exact h.exists? hd hv
  · exact h.sameAt hd fun u hu => hjoins.place_ne hs hm (hsub hu) hplain hv fun h =>
      hne ⟨h.1, h.2 ▸ hu⟩

theorem Writes.complete_cut {u : String} {content : ByteArray} {d₁ : Disk} (hjoins : w.Joins w')
    (h : w'.Writes module path kept variants d d₁)
    (hcut : d₁.Stores (w'.fragmentPath module u) content d') (hd : d.Grounded)
    (hs : (w.plus w'.variants).Separate d) (hm : SlashFree module)
    (hsub : variants ⊆ w'.variants) (hu : u ∈ w'.variants)
    (hall : ∀ v, w.variants.head? = some v → v ∈ variants ++ [u] → w.variants ⊆ variants ++ [u])
    (hcomplete : w.Complete d) : w.Complete d' := by
  have hsince := h.since hd
  have hgrows := (hcut.adds hsince.grounded).grows
  refine hcomplete.after module (hsince.adds.grows.trans hgrows) hall (fun v hv => ?_)
    fun m v hplain hv hne => ?_
  · rw [← hjoins.fragmentPath]
    rcases List.mem_append.1 hv with hv | hv
    · exact hgrows.exists? (h.exists? hd hv)
    · obtain rfl := List.mem_singleton.1 hv
      exact Disk.exists?_iff_entry.2 ⟨_, hcut.entry?_self hsince.grounded⟩
  · have hsame : d.SameAt d₁ (w.fragmentPath m v) :=
      h.sameAt hd fun x hx => hjoins.place_ne hs hm (hsub hx) hplain hv fun h =>
        hne ⟨h.1, List.mem_append_left _ (h.2 ▸ hx)⟩
    exact hsame.trans (hcut.sameAt hsince.grounded
      (hjoins.place_ne (hs.of_addsFiles hsince.adds) hm hu hplain hv fun h =>
        hne ⟨h.1, by simp [h.2]⟩))

theorem Step.complete (hjoins : w.Joins w') (h : w'.Step SlashFree (fun e => ¬w.Torn w' e) st st')
    (hd : st.disk.Grounded) (hs : (w.plus w'.variants).Separate st.disk)
    (hcomplete : w.Complete st.disk) : w.Complete st'.disk := by
  rcases h.idle_or_leaves with
    ⟨hdisk, -⟩ | ⟨_, _, _, hm, hleaves⟩ | ⟨module, _, _, _, hm, hnot, hleave⟩
  · exact hdisk ▸ hcomplete
  · cases hleaves with
    | finished hwrites =>
      exact hwrites.complete hjoins hd hs hm (List.Subset.refl _) hjoins.variants hcomplete
  · cases leaves_of_leave hleave with
    | @stopped written variant after disk cause _ hvariants hwrites hfails =>
      have hsub : written ⊆ w'.variants := by simp [hvariants]
      have hall {put : List String} (hput : put = written ∨
          put = written ++ [variant] ∧ w'.Cuts module variant cause) (first : String)
          (hhead : w.variants.head? = some first) (hfirst : first ∈ put) :
          w.variants ⊆ put := by
        by_contra hmissing
        exact hnot ⟨module, written, variant, after, cause, put, first, hvariants, rfl, hput, hhead,
          hfirst, hmissing⟩
      rcases hfails.cases with hsame | ⟨bytes, hmishap, hcut⟩
      · rw [hsame]
        exact hwrites.complete hjoins hd hs hm hsub (hall (.inl rfl)) hcomplete
      · exact hwrites.complete_cut hjoins hcut hd hs hm hsub (by simp [hvariants])
          (hall (.inr ⟨rfl, disk, bytes, hmishap⟩)) hcomplete

theorem Steps.complete (hjoins : w.Joins w')
    (h : w'.Steps SlashFree (fun e => ¬w.Torn w' e) st st') (hd : st.disk.Grounded)
    (hs : (w.plus w'.variants).Separate st.disk) (hcomplete : w.Complete st.disk) :
    w.Complete st'.disk :=
  (h.invariant (I := fun s => (w.plus w'.variants).Separate s.disk ∧ w.Complete s.disk) hd
    (fun hstep hd ⟨hs, hcomplete⟩ =>
      ⟨hs.of_addsFiles (hstep.since hd).adds, hstep.complete hjoins hd hs hcomplete⟩)
    ⟨hs, hcomplete⟩).2

theorem Earlier.complete (h : w.Earlier d d') (hd : d.Grounded)
    (hempty : w.EmptyOutput (w.prepared d)) (hv : w.PlainVariants) :
    d'.Grounded ∧ (w.prepared d).AddsFiles (w.prepared d') ∧ w.Complete (w.prepared d') := by
  induction h with
  | none => exact ⟨hd, .refl _, hempty.complete hv⟩
  | @run w' d' root r st _ hjoins hroot hwrite hfails ih =>
    obtain ⟨hd', hadds, hcomplete⟩ := ih
    rcases steps_write hjoins.confined hroot hd' hwrite hfails with hdisk | ⟨st', hdisk, hsteps⟩
    · rw [hdisk]
      exact ⟨hd', hadds, hcomplete⟩
    · have hs := (hjoins.separate hempty hv).of_addsFiles hadds
      have hgrounded := w.grounded_prepared hd'
      have hstart : (w'.start d' root).disk = w.prepared d' := hjoins.prepared d'
      have hadds' := hadds.trans (hstart ▸ (Steps.since hsteps (hstart ▸ hgrounded)).adds)
      have hprepared : w.prepared st'.disk = st'.disk := by
        obtain ⟨o, ho, -⟩ := hempty
        exact (ho.grows hadds'.grows).makeDirs_disk
      rw [← hdisk, hprepared]
      refine ⟨?_, hadds', ?_⟩
      · exact hadds'.grows.grounded (w.grounded_prepared hd)
      · exact Steps.complete hjoins hsteps (hstart ▸ hgrounded) (hstart ▸ hs) (hstart ▸ hcomplete)

-- ---------------------------------------------------------------------------
-- What one run writes
-- ---------------------------------------------------------------------------

/-- All fragments of the modules that a run has written are there when it ends, wherever their
places are. -/
theorem exists?_of_mem_modules {report : Report} (hd : d.Grounded)
    (h : w.write d root = (.ok report, st)) {m v : String} (hm : m ∈ report.modules)
    (hv : v ∈ w.variants) : st.disk.exists? (w.fragmentPath m v) = true := by
  obtain ⟨st', rfl, hdisk, hsteps⟩ := steps_of_ok hd h
  have hgrounded := w.grounded_prepared hd
  rw [← hdisk]
  refine hsteps.invariant (I := fun s => ∀ m ∈ s.context.report.modules, ∀ v ∈ w.variants,
    s.disk.exists? (w.fragmentPath m v) = true) hgrounded ?_
    (by simp [Writer.start, Context.new, Report.new]) m hm v hv
  intro a b hstep hd hwritten m hm v hv
  rcases hstep.idle_or_leaves with
    ⟨hdisk, hmodules⟩ | ⟨_, _, _, -, hleaves⟩ | ⟨_, _, _, _, -, he, -⟩
  · exact hdisk ▸ hwritten m (hmodules ▸ hm) v hv
  · cases hleaves with
    | finished hwrites hcontext =>
      simp only [hcontext] at hm
      rcases List.mem_append.1 hm with hm | hm
      · exact (hwrites.since hd).adds.grows.exists? (hwritten m hm v hv)
      · exact List.mem_singleton.1 hm ▸ hwrites.exists? hd hv
  · cases he

/-- What a walk with the given visits does to the fragments of plain names: those of modules that
were written before stay as they are, and the new ones say what their visits have kept. -/
structure Rendered (w : Writer) (st st' : State) (vs : List Visit) : Prop where
  adds : st.disk.AddsFiles st'.disk
  modules : st.context.report.modules ⊆ st'.context.report.modules
  old : ∀ m ∈ st.context.report.modules, SlashFree m → ∀ v ∈ w.variants,
    st.disk.SameAt st'.disk (w.fragmentPath m v)
  new : ∀ x ∈ vs, SlashFree x.module ∧ x.module ∈ st'.context.report.modules ∧
    ∀ v ∈ w.variants, st'.disk.read (w.fragmentPath x.module v) =
      .ok (record x.module x.source x.kept v).render.toUTF8

theorem Rendered.nil (hdisk : st'.disk = st.disk)
    (hmodules : st'.context.report.modules = st.context.report.modules) :
    w.Rendered st st' [] := by
  refine ⟨hdisk ▸ .refl _, hmodules ▸ List.Subset.refl _, fun _ _ _ _ _ => ?_, by simp⟩
  rw [hdisk]
  exact .refl _ _

theorem Rendered.append {st₁ : State} {vs vs' : List Visit} (h : w.Rendered st st₁ vs)
    (h' : w.Rendered st₁ st' vs') : w.Rendered st st' (vs ++ vs') := by
  refine ⟨h.adds.trans h'.adds, List.Subset.trans h.modules h'.modules, fun m hm hplain v hv => ?_,
    fun x hx => ?_⟩
  · exact (h.old m hm hplain v hv).trans (h'.old m (h.modules hm) hplain v hv)
  · rcases List.mem_append.1 hx with hx | hx
    · obtain ⟨hplain, hwritten, hread⟩ := h.new x hx
      refine ⟨hplain, h'.modules hwritten, fun v hv => ?_⟩
      rw [(h'.old x.module hwritten hplain v hv).read]
      exact hread v hv
    · exact h'.new x hx

theorem Rendered.leave (names : List String)
    (hd : st.disk.Grounded) (hs : w.Separate st.disk) (hm : SlashFree module)
    (hunwritten : module ∉ st.context.report.modules)
    (hleave : w.leave module path kept st = (.ok (), st')) :
    w.Rendered st st' [⟨module, path, names, kept⟩] := by
  have hleaves := w.leaves_leave module path kept st
  rw [hleave] at hleaves
  cases hleaves with
  | finished hwrites hcontext =>
    have hall := List.Subset.refl w.variants
    refine ⟨(hwrites.since hd).adds, by simp [hcontext], fun m hmem hplain v hv => ?_,
      fun x hx => ?_⟩
    · exact hwrites.sameAt_other hd hs hm hall hplain hv fun h => hunwritten (h.1 ▸ hmem)
    · rw [List.mem_singleton.1 hx]
      exact ⟨hm, by simp [hcontext], fun v hv => hwrites.read_self hd hs hm hall hv⟩

theorem rendered_walk (hS : w.Confined SlashFree) :
    (∀ module path st st', w.visit module path st = (.ok (), st') → Orderly st →
      Awaits st module → Orderly st' ∧ Settled st' ∧
      (SlashFree module → st.disk.Grounded → w.Separate st.disk →
        w.Rendered st st' (w.visits module path st))) ∧
    ∀ module names kept st kept' st', w.visitAll module names kept st = (.ok kept', st') →
      Orderly st → Settled st → Orderly st' ∧ Settled st' ∧
      ((∀ n ∈ names, w.resolver.Finds n → SlashFree n) → st.disk.Grounded →
        w.Separate st.disk → w.Rendered st st' (w.visitsAll module names st)) := by
  refine w.visit_induct
    (P := fun module _ st st' vs => SlashFree module → st.disk.Grounded →
      w.Separate st.disk → w.Rendered st st' vs)
    (Q := fun _ names _ st _ st' vs => (∀ n ∈ names, w.resolver.Finds n → SlashFree n) →
      st.disk.Grounded → w.Separate st.disk → w.Rendered st st' vs)
    ?left ?done ?passed ?descended
  case left =>
    intro module path st names st₁ kept st₂ st' vs henter _ hwait hall horderly₂ hsettled₂ hleave
      hvs hm hd hs
    obtain ⟨-, hdisk, hcontext, bytes, -, hnames⟩ := enter_eq_ok henter
    have hentered : w.Rendered st st₁ [] := .nil hdisk (by simp [hcontext])
    have hbelow := hvs (hnames ▸ hS path module _) (hdisk ▸ hd) (hdisk ▸ hs)
    have hpopped : w.Rendered st₂ (st₂.inContext (·.pop)) [] := .nil rfl rfl
    have hbefore := (hentered.append hbelow).append hpopped
    have hwait₂ := horderly₂.awaits hsettled₂ hcontext (continues_visitAll hall) hwait
    have hleft := hbefore.append (.leave names (hbefore.adds.grows.grounded hd)
      (hs.of_addsFiles hbefore.adds) hm hwait₂.unwritten hleave)
    simpa using hleft
  case done =>
    intro module kept st _ _ _
    exact .nil rfl rfl
  case passed =>
    intro module name names kept st edge kept' st' vs _ _ _ _ _ hvs hnames hd hs
    have hsettle : w.Rendered st (w.settle module name edge st) [] := .nil (by simp) (by simp)
    exact hsettle.append (hvs (fun n hn => hnames n (List.mem_cons_of_mem _ hn)) (by simpa using hd)
      (by simpa using hs))
  case descended =>
    intro module name names kept st source st₁ vs kept' st' vs' hmeets _ _ _ _ _ hvs _ hvs' hnames
      hd hs
    have hsettle : w.Rendered st (w.settle module name (.descend source) st) [] :=
      .nil (by simp) (by simp)
    have hbelow := hsettle.append (hvs (hnames name List.mem_cons_self ⟨source, hmeets.found⟩)
      (by simpa using hd) (by simpa using hs))
    exact hbelow.append (hvs' (fun n hn => hnames n (List.mem_cons_of_mem _ hn))
      (hbelow.adds.grows.grounded hd) (hs.of_addsFiles hbelow.adds))

theorem rendered_of_ok {report : Report} (hS : w.Confined SlashFree) (hroot : SlashFree root)
    (hd : d.Grounded) (hs : w.Separate (w.prepared d)) (h : w.write d root = (.ok report, st)) :
    ∀ x ∈ w.visitsOf d root, ∀ v ∈ w.variants, st.disk.read (w.fragmentPath x.module v) =
      .ok (record x.module x.source x.kept v).render.toUTF8 := by
  obtain ⟨path, st', -, hvisit, -, hdisk, hvisits⟩ := visitsOf_of_ok h
  obtain ⟨-, -, hrendered⟩ := (w.rendered_walk hS).1 root path _ st' hvisit (.start w d root)
    (awaits_start w d root)
  intro x hx v hv
  rw [← hdisk]
  exact ((hrendered hroot (w.grounded_prepared hd) hs).new x (hvisits ▸ hx)).2.2 v hv

-- ---------------------------------------------------------------------------
-- The theorem
-- ---------------------------------------------------------------------------

/-- After a run that succeeds where whatever exists is trusted, a dependency in the record of a
written module has a fragment of the first variant, and one of each variant unless it was trusted.
If the runs before this one began with an empty directory, and none of them has left the first
variant of a module without the others, then each record is on the disk in every variant, and so is
a fragment of each dependency in it. -/
theorem write_variants {report : Report} (hw : w.freshness = .existing) (hd : d.Grounded)
    (h : w.write d root = (.ok report, st)) :
    report.modules = (w.visitsOf d root).map Visit.module ∧
    (∀ x ∈ w.visitsOf d root, ∀ n ∈ x.kept,
      (∀ v, w.variants.head? = some v → st.disk.exists? (w.fragmentPath n v) = true) ∧
      (n ∉ report.reused → ∀ v ∈ w.variants, st.disk.exists? (w.fragmentPath n v) = true)) ∧
    ∀ d₀, d₀.Grounded → w.EmptyOutput (w.prepared d₀) → w.Earlier d₀ d → w.PlainVariants →
      w.Confined SlashFree → SlashFree root → ∀ x ∈ w.visitsOf d root, ∀ v ∈ w.variants,
        st.disk.read (w.fragmentPath x.module v) =
          .ok (record x.module x.source x.kept v).render.toUTF8 ∧
        ∀ n ∈ x.kept, st.disk.exists? (w.fragmentPath n v) = true := by
  obtain ⟨hmodules, -⟩ := backward_visitsOf h
  have hheads : ∀ x ∈ w.visitsOf d root, ∀ n ∈ x.kept, ∀ v, w.variants.head? = some v →
      st.disk.exists? (w.fragmentPath n v) = true := by
    intro x hx n hn v hv
    rcases mem_of_kept h hx hn with hn | hn
    · exact exists?_of_mem_modules hd h hn (List.mem_of_head? hv)
    · obtain ⟨path, -, hfresh⟩ := (reused_of_ok (.existing hw) hd h).2 n (.inr hn)
      obtain ⟨v', vs, hvs, hexists⟩ := (isFresh_existing_iff hw).1 hfresh
      simp only [hvs, List.head?_cons, Option.some.injEq] at hv
      exact hv ▸ hexists
  refine ⟨hmodules, fun x hx n hn => ⟨hheads x hx n hn, fun hreused v hv => ?_⟩, ?_⟩
  · exact exists?_of_mem_modules hd h ((mem_of_kept h hx hn).resolve_right hreused) hv
  intro d₀ hd₀ hempty hearlier hplain hS hroot x hx v hv
  obtain ⟨-, hadds, hcomplete⟩ := hearlier.complete hd₀ hempty hplain
  have hgrounded := w.grounded_prepared hd
  refine ⟨?_, fun n hn => ?_⟩
  · exact rendered_of_ok hS hroot hd ((hempty.separate hplain).of_addsFiles hadds) h x hx v hv
  · -- The run itself leaves no first variant without the others either.
    have hjoins : w.Joins w := .refl hplain hS
    obtain ⟨path, st', hfound, hvisit, -, hdisk, -⟩ := visitsOf_of_ok h
    have hsteps := steps_visit (E := fun e => ¬w.Torn w e) hS hroot hfound hgrounded hvisit
      (by simp)
    have hafter := Steps.complete hjoins hsteps hgrounded
      ((hjoins.separate hempty hplain).of_addsFiles hadds) hcomplete
    rw [hdisk] at hafter
    obtain ⟨bytes, hnames⟩ := (sound_visitsOf h x hx).scanned
    obtain ⟨hmem, hfinds⟩ := (sound_visitsOf h x hx).kept n hn
    have hn' : SlashFree n := hS x.source x.module _ n (hnames ▸ hmem) hfinds
    obtain ⟨v₀, vs, hvs⟩ := List.exists_cons_of_ne_nil (List.ne_nil_of_mem hv)
    exact hafter n v₀ v hn' (by simp [hvs]) hv (hheads x hx n hn v₀ (by simp [hvs]))

end

-- ---------------------------------------------------------------------------
-- Two variants
-- ---------------------------------------------------------------------------

def twoVariants : Writer :=
  { twoModules [] with variants := ["sim", "syn"] }

theorem sample_twoVariants : twoVariants.Sample twoSources where
  outDir := rfl
  variants := by simp [twoVariants]
  found := (@sample_twoModules []).found
  cwd := rfl
  sources := rfl
  output := rfl
  empty := (@sample_twoModules []).empty
  spared := fun _ _ _ _ => rfl

theorem finds_twoVariants {name : String} :
    twoVariants.resolver.Finds name ↔ name = "a" ∨ name = "b" :=
  @finds_twoModules [] name

/-- The second run trusts what the first one has written, in both variants. -/
theorem write_variants_twoVariants :
    let w := twoVariants
    ∃ report st report' st', w.write twoSources "b" = (.ok report, st) ∧
      w.write st.disk "a" = (.ok report', st') ∧ ∀ x ∈ w.visitsOf st.disk "a", ∀ v ∈ w.variants,
        ∀ n ∈ x.kept, st'.disk.exists? (w.fragmentPath n v) = true := by
  intro w
  have hs : w.Sample twoSources := sample_twoVariants
  have hne : w.variants ≠ [] := by simp [w, twoVariants]
  have hb : w.resolver.Finds "b" := finds_twoVariants.2 (.inr rfl)
  have ha : w.resolver.Finds "a" := finds_twoVariants.2 (.inl rfl)
  obtain ⟨report, st, h⟩ := hs.write_succeeds hne hb
  have halike := hs.alike_of_ok h
  obtain ⟨report', st', h'⟩ := hs.write_later hne halike ha
  have hearlier : w.Earlier twoSources st.disk :=
    .run .none (.refl hs.plain hs.confined) (by decide) h (by simp)
  obtain ⟨-, -, hvariants⟩ := write_variants rfl (hs.tidy.of_alike halike).grounded h'
  refine ⟨report, st, report', st', h, h', fun x hx v hv => ?_⟩
  exact (hvariants twoSources hs.grounded (hs.prepared_eq.symm ▸ hs.emptyOutput) hearlier hs.plain
    hs.confined (by decide) x hx v hv).2

section
variable {report report' : Report} {st st' : State}

theorem alike_twoVariants (h : (twoModules []).write twoSources "a" = (.ok report, st)) :
    twoVariants.Alike twoSources st.disk := by
  have halike := sample_twoModules.alike_of_ok h
  exact ⟨halike.adds, halike.source⟩

theorem dependsOn_twoVariants : twoVariants.DependsOn twoSources "a" "b" :=
  (@dependsOn_twoModules [] "a" "b").2 (.inl ⟨rfl, rfl⟩)

theorem not_mem_twoVariants (h : (twoModules []).write twoSources "a" = (.ok report, st))
    (h' : twoVariants.write st.disk "a" = (.ok report', st')) : "b" ∉ report'.modules := by
  have hs : (twoModules []).Sample twoSources := sample_twoModules
  have htidy := sample_twoVariants.tidy.of_alike (alike_twoVariants h)
  have hmem := mem_of_dependsOn hs.grounded hs.apart_prepared h (root_mem_of_ok h)
    (hs.prepared_eq.symm ▸ dependsOn_twoVariants)
  obtain ⟨path, hfound, hfresh⟩ := (reused_of_ok (.existing rfl) hs.grounded h).2 "b" hmem
  obtain ⟨v, vs, hv, hexists⟩ := (isFresh_existing_iff rfl).1 hfresh
  cases hv
  refine not_mem_modules_of_isFresh (.existing rfl) htidy.grounded h' (by decide) hfound ?_
  rw [htidy.prepared_eq]
  exact (isFresh_existing_iff rfl).2 ⟨"sim", ["syn"], rfl, hexists⟩

theorem exists?_twoVariants (h : (twoModules []).write twoSources "a" = (.ok report, st))
    (h' : twoVariants.write st.disk "a" = (.ok report', st')) :
    st'.disk.exists? (twoVariants.fragmentPath "b" "syn") = false := by
  have hs : (twoModules []).Sample twoSources := sample_twoModules
  have hs' := sample_twoVariants
  have htidy := hs'.tidy.of_alike (alike_twoVariants h)
  have hsyn : "syn" ∈ twoVariants.variants := by simp [twoVariants]
  have hfirst : twoSources.SameAt st.disk (twoVariants.fragmentPath "b" "syn") := by
    have hplaces : twoVariants.Separate ((twoModules []).prepared twoSources) :=
      hs.prepared_eq.symm ▸ hs'.tidy.places
    have hdir : twoVariants.outDir = (twoModules []).outDir := rfl
    have hsame := sameAt_fragment_of_ok hs.grounded h hdir (by simp [twoModules, twoVariants])
      hplaces (fun m hm => hs.slashFree (finds_of_mem_modules h hm)) (m := "b") (by decide) hsyn
      (by simp [twoModules])
    rwa [hs.prepared_eq] at hsame
  have hsecond := sameAt_fragment_of_ok htidy.grounded h' rfl (List.Subset.refl _)
    (htidy.prepared_eq.symm ▸ htidy.places)
    (fun m hm => hs'.slashFree (finds_of_mem_modules h' hm)) (m := "b") (by decide) hsyn
    fun hnot => not_mem_twoVariants h h' hnot.1
  rw [htidy.prepared_eq] at hsecond
  rw [hsecond.exists?, hfirst.exists?]
  exact hs'.emptyOutput.exists?_eq hs'.plain (by decide) hsyn

end

/-- The first run writes one variant of `b`. The second one trusts it, and lists it in the other
variant of `a`, where it has no fragment. -/
theorem variant_missing :
    let w := twoModules []
    let w' := twoVariants
    ∃ report st report' st', w.EmptyOutput twoSources ∧
      w.write twoSources "a" = (.ok report, st) ∧ w'.write st.disk "a" = (.ok report', st') ∧
      "a" ∈ report'.modules ∧ ∃ source kept, "b" ∈ kept ∧
        st'.disk.read (w'.fragmentPath "a" "syn") =
          .ok (record "a" source kept "syn").render.toUTF8 ∧
        st'.disk.exists? (w'.fragmentPath "b" "syn") = false := by
  intro w w'
  have hs' : w'.Sample twoSources := sample_twoVariants
  obtain ⟨report, st, h⟩ := write_twoModules [] (.inl rfl)
  have halike : w'.Alike twoSources st.disk := alike_twoVariants h
  have hfinds : w'.resolver.Finds "a" := finds_twoVariants.2 (.inl rfl)
  obtain ⟨report', st', h'⟩ := hs'.write_later (by simp [w', twoVariants]) halike hfinds
  have htidy := hs'.tidy.of_alike halike
  have hprepared := htidy.prepared_eq
  obtain ⟨x, hx, hxa⟩ := (mem_modules_iff h').1 (root_mem_of_ok h')
  have hnames := (dependsOn_visitsOf htidy.grounded (hs'.apart_later halike) h' x hx "b").1
    (hprepared.symm ▸ hxa.symm ▸ halike.dependsOn.2 dependsOn_twoVariants)
  refine ⟨report, st, report', st', sample_twoModules.emptyOutput, h, h', root_mem_of_ok h',
    x.source, x.kept, ?_, ?_, exists?_twoVariants h h'⟩
  · exact (kept_or_mem_of_found h' hx hnames.1 hnames.2).resolve_right (not_mem_twoVariants h h')
  · exact hxa ▸ rendered_of_ok hs'.confined (by decide) htidy.grounded
      (hprepared.symm ▸ htidy.places) h' x hx "syn" (by simp [w', twoVariants])

end DesignDeps.Writer
