import DesignDeps.Proofs.Disk.Flat
import DesignDeps.Proofs.Fragment.Prerequisites
import DesignDeps.Proofs.Walk.Journal
import DesignDeps.Proofs.Walk.Variants

/-!
# Fragments of what is named

A build that reads a fragment asks for the fragments of everything that is listed in it. `Closed`
says that they are there, in the variant by which freshness is judged. `write_closed`: if nobody but
the runs writes to the output directory, this holds whenever a fragment has been written, in the
middle of a run as well as after a run that has failed or has been interrupted. A run that fails in
the middle of a fragment leaves the first part of its text, which lists less.

A record is `Supported` where it is written if what it lists is on the disk by then. The journal of
every walk is supported (`supported_walk`), and supported records keep a directory closed
(`Sealed.stores`), also where they replace other ones.
-/

namespace DesignDeps.Writer

open Text Walk

-- ---------------------------------------------------------------------------
-- Closed directories
-- ---------------------------------------------------------------------------

def fragmentIn (out : Path) (f m : String) : Path :=
  out.join ⟨m ++ "." ++ f ++ ".d"⟩

/-- The module has a fragment in the variant `f`. -/
def HasFragment (out : Path) (f : String) (d : Disk) (m : String) : Prop :=
  SlashFree m ∧ d.exists? (fragmentIn out f m) = true

def Mentions (r : Fragment.Record) (content : ByteArray) (n : String) : Prop :=
  n ∈ r.dependencies ∨ Fragment.Legible r ∧ Fragment.Lists r.variant content n

/-- Each fragment in the variant `f` is the text of one of the records, which may be cut off, and
everything that it names has a fragment in this variant. -/
def Closed (out : Path) (f : String) (rs : List Fragment.Record) (d : Disk) : Prop :=
  ∀ m, HasFragment out f d m → ∃ r ∈ rs, ∃ bytes, r.module = m ∧ r.variant = f ∧
    d.read (fragmentIn out f m) = .ok (r.render.toUTF8.extract 0 bytes) ∧
    ∀ n, Mentions r (r.render.toUTF8.extract 0 bytes) n → HasFragment out f d n

structure Sealed (out : Path) (f : String) (rs : List Fragment.Record) (d : Disk) : Prop where
  grounded : d.Grounded
  flat : d.Flat out
  closed : Closed out f rs d

section
variable {w : Writer} {out : Path} {f m : String} {rs rs' : List Fragment.Record}
  {r : Fragment.Record} {bytes : Nat} {d d' : Disk}

theorem HasFragment.grows (h : HasFragment out f d m) (hd : d.Grows d') : HasFragment out f d' m :=
  ⟨h.1, hd.exists? h.2⟩

theorem Closed.mono (h : Closed out f rs d) (hsub : rs ⊆ rs') : Closed out f rs' d := by
  intro m hm
  obtain ⟨r, hr, hrest⟩ := h m hm
  exact ⟨r, hsub hr, hrest⟩

theorem mem_of_mentions {n : String}
    (h : Mentions r (r.render.toUTF8.extract 0 bytes) n) : n ∈ r.dependencies := by
  rcases h with hn | ⟨hlegible, hn⟩
  · exact hn
  · exact hlegible.mem_of_lists hn

theorem Sealed.stores (h : Sealed w.outDir f rs d) (hplain : w.PlainVariants)
    (hf : f ∈ w.variants) (hm : SlashFree r.module) (hv : r.variant ∈ w.variants)
    (hdeps : r.variant = f → ∀ n ∈ r.dependencies, HasFragment w.outDir f d n)
    (hstores : d.Stores (w.recordPath r) (r.render.toUTF8.extract 0 bytes) d') :
    Sealed w.outDir f (rs ++ [r]) d' := by
  obtain ⟨hd, hflat, hclosed⟩ := h
  have hgrows := (hstores.adds hd).grows
  have hself := segment_fragmentName hm (hplain _ hv).2
  refine ⟨hgrows.grounded hd, hflat.stores hd hself hstores, fun m hpresent => ?_⟩
  have hother := segment_fragmentName hpresent.1 (hplain f hf).2
  by_cases hnew : r.module = m ∧ r.variant = f
  · obtain ⟨rfl, rfl⟩ := hnew
    refine ⟨r, by simp, bytes, rfl, rfl, ?_, fun n hn => ?_⟩
    · exact Disk.read_iff_entry.2 ⟨_, hstores.entry?_self hd⟩
    · exact (hdeps rfl n (mem_of_mentions hn)).grows hgrows
  · -- The record has gone to another place.
    have hsame : d.SameAt d' (fragmentIn w.outDir f m) := by
      refine hstores.sameAt hd fun l hl hl' => hnew ?_
      exact fragmentName_inj (hplain _ hv).1 (hplain f hf).1
        (hflat.place_inj hself hother hl hl')
    obtain ⟨r', hr', bytes', hm', hv', hread, hdeps'⟩ :=
      hclosed m ⟨hpresent.1, hsame.exists? ▸ hpresent.2⟩
    exact ⟨r', List.mem_append_left _ hr', bytes', hm', hv', hsame.read.2 hread,
      fun n hn => (hdeps' n hn).grows hgrows⟩

theorem Sealed.of_holds (h : Sealed out f rs d) (hv : '/' ∉ f.toList) (hd : d'.Grounded)
    (hsame : ∀ name entry, d'.Holds out name entry ↔ d.Holds out name entry) :
    Sealed out f rs d' := by
  have hfragment : ∀ {m}, SlashFree m → d.SameAt d' (fragmentIn out f m) :=
    fun hm => h.flat.sameAt (segment_fragmentName hm hv) hsame
  refine ⟨hd, fun name entry hholds => h.flat name entry ((hsame name entry).1 hholds), ?_⟩
  intro m ⟨hm, hexists⟩
  rw [(hfragment hm).exists?] at hexists
  obtain ⟨r, hr, bytes, hmodule, hvariant, hread, hdeps⟩ := h.closed m ⟨hm, hexists⟩
  refine ⟨r, hr, bytes, hmodule, hvariant, (hfragment hm).read.2 hread, fun n hn => ?_⟩
  obtain ⟨hn, hexists⟩ := hdeps n hn
  exact ⟨hn, (hfragment hn).exists?.trans hexists⟩

theorem sealed_of_forall_not_holds (hv : '/' ∉ f.toList) (hd : d.Grounded)
    (h : ∀ name entry, ¬d.Holds out name entry) : Sealed out f rs d := by
  have hflat := Disk.flat_of_forall_not_holds h
  refine ⟨hd, hflat, fun m ⟨hm, hexists⟩ => ?_⟩
  obtain ⟨entry, hentry⟩ := Disk.exists?_iff_entry.1 hexists
  exact absurd ((hflat.entry?_iff (segment_fragmentName hm hv)).1 hentry).2 (h _ _)

-- ---------------------------------------------------------------------------
-- Supported records
-- ---------------------------------------------------------------------------

/-- When one of the records is written, after those in front of it, everything that it lists has a
fragment. Only records in the variant `f` need that. -/
def Supported (w : Writer) (f : String) (d : Disk) : List Fragment.Record → Prop
  | [] => True
  | r :: rs => SlashFree r.module ∧ r.variant ∈ w.variants ∧
      (r.variant = f → ∀ n ∈ r.dependencies, HasFragment w.outDir f d n) ∧
      ∀ d', w.writeRecord d r = .ok d' → w.Supported f d' rs

variable {js js' before : List Fragment.Record}

theorem since_writeRecords (hd : d.Grounded) (h : w.writeRecords d rs = .ok d') : Since d d' := by
  induction rs generalizing d with
  | nil =>
    cases h
    exact .refl hd
  | cons r rs ih =>
    obtain ⟨d₁, hwrite, hrest⟩ := writeRecords_eq_ok h
    have hfirst := (Since.refl hd).stores (writeRecord_eq_ok hwrite)
    exact hfirst.trans (ih hfirst.grounded hrest)

theorem Attempts.since (hd : d.Grounded) (h : w.Attempts rs d d') : Since d d' := by
  cases h with
  | written h => exact since_writeRecords hd h
  | failed _ hbefore hfails =>
    have hsince := since_writeRecords hd hbefore
    rcases Disk.write_eq_error hfails with rfl | ⟨bytes, -, hcut⟩
    · exact hsince
    · exact hsince.stores hcut

theorem Supported.append (h : w.Supported f d js)
    (h' : ∀ d', w.writeRecords d js = .ok d' → w.Supported f d' js') :
    w.Supported f d (js ++ js') := by
  induction js generalizing d with
  | nil => exact h' d rfl
  | cons r js ih =>
    obtain ⟨hm, hv, hdeps, hrest⟩ := h
    refine ⟨hm, hv, hdeps, fun d₁ hwrite => ih (hrest d₁ hwrite) fun d' hd' => h' d' ?_⟩
    rw [writeRecords_cons hwrite, hd']

theorem Supported.of_append (h : w.Supported f d (js ++ js'))
    (hwrite : w.writeRecords d js = .ok d') : w.Supported f d' js' := by
  induction js generalizing d with
  | nil =>
    cases hwrite
    exact h
  | cons r js ih =>
    obtain ⟨d₁, hfirst, hwrite⟩ := writeRecords_eq_ok hwrite
    exact ih (h.2.2.2 d₁ hfirst) hwrite

theorem Sealed.writeRecords (h : Sealed w.outDir f rs d) (hplain : w.PlainVariants)
    (hf : f ∈ w.variants) (hjs : w.Supported f d (before ++ js))
    (hwrite : w.writeRecords d before = .ok d') : Sealed w.outDir f (rs ++ before) d' := by
  induction before generalizing d rs with
  | nil =>
    cases hwrite
    simpa using h
  | cons r before ih =>
    obtain ⟨hm, hv, hdeps, hrest⟩ := hjs
    obtain ⟨d₁, hfirst, hwrite⟩ := writeRecords_eq_ok hwrite
    have hstores := writeRecord_eq_ok hfirst
    rw [← ByteArray.extract_zero_size (b := r.render.toUTF8)] at hstores
    have hsealed := h.stores hplain hf hm hv hdeps hstores
    simpa using ih hsealed (hrest d₁ hfirst) hwrite

theorem Sealed.attempts (h : Sealed w.outDir f rs d) (hplain : w.PlainVariants)
    (hf : f ∈ w.variants) (hjs : w.Supported f d (before ++ js))
    (hattempts : w.Attempts before d d') : Sealed w.outDir f (rs ++ before) d' := by
  cases hattempts with
  | written hwrite => exact h.writeRecords hplain hf hjs hwrite
  | failed hsplit hbefore hfails =>
    rw [hsplit, List.append_assoc] at hjs
    have hsealed := h.writeRecords hplain hf hjs hbefore
    obtain ⟨hm, hv, hdeps, -⟩ := hjs.of_append hbefore
    rw [hsplit, ← List.append_assoc]
    rcases Disk.write_eq_error hfails with rfl | ⟨bytes, -, hcut⟩
    · exact ⟨hsealed.grounded, hsealed.flat, hsealed.closed.mono (List.subset_append_left ..)⟩
    · exact hsealed.stores hplain hf hm hv hdeps hcut

end

-- ---------------------------------------------------------------------------
-- Walks
-- ---------------------------------------------------------------------------

structure Laid (w : Writer) (f : String) (st : State) : Prop where
  orderly : Orderly st
  grounded : st.disk.Grounded
  written : ∀ m ∈ st.context.report.modules, HasFragment w.outDir f st.disk m

/-- Fragments in plain variants, of the names that are found in sources, with `f` as the variant
whose freshness counts. -/
structure Serves (w : Writer) (out : Path) (f : String) : Prop where
  outDir : w.outDir = out
  first : w.variants.head? = some f
  plain : w.PlainVariants
  extractor : w.extractor = .lexical
  freshness : ∃ s : Staleness, w.freshness = s.freshness

section
variable {w : Writer} {out : Path} {f module name root : String} {path : Path}
  {kept variants : List String} {d d' : Disk} {st st' : State}

theorem Serves.exists?_of_isFresh (h : w.Serves out f) (hfresh : w.isFresh d name path = true) :
    d.exists? (fragmentIn out f name) = true := by
  obtain ⟨rfl, hfirst, -, -, s, hs⟩ := h
  cases s with
  | existing =>
    obtain ⟨v, vs, hvs, hexists⟩ := (isFresh_existing_iff hs).1 hfresh
    cases hfirst.symm.trans (congrArg List.head? hvs)
    exact hexists
  | mtime =>
    obtain ⟨v, vs, hvs, time, htime, -⟩ := (isFresh_sourceTime_iff hs).1 hfresh
    cases hfirst.symm.trans (congrArg List.head? hvs)
    exact Disk.exists?_of_modified? htime

theorem Laid.onDisk (h : w.Laid f st) (horderly : Orderly st') (hsince : Since st.disk st'.disk)
    (hmodules : st'.context.report.modules = st.context.report.modules) : w.Laid f st' := by
  refine ⟨horderly, hsince.grounded, fun m hm => ?_⟩
  exact (h.written m (hmodules ▸ hm)).grows hsince.adds.grows

theorem Laid.settle {edge : Edge} (h : w.Laid f st) : w.Laid f (w.settle module name edge st) :=
  h.onDisk h.orderly.settle (by simpa using .refl h.grounded) (by simp)

theorem Laid.enter {names : List String} (h : w.Laid f st) (hw : w.Serves out f)
    (hwait : Awaits st module) (henter : w.enter module path st = (.ok names, st')) :
    w.Laid f st' ∧ Settled st' ∧ st'.disk = st.disk ∧
      ∀ n ∈ names, w.resolver.Finds n → SlashFree n := by
  obtain ⟨-, hdisk, hcontext, bytes, -, rfl⟩ := enter_eq_ok henter
  obtain ⟨horderly, hsettled⟩ := h.orderly.enter hwait hcontext
  have hsince : Since st.disk st'.disk := hdisk.symm ▸ .refl h.grounded
  have hlaid := h.onDisk horderly hsince (by simp [hcontext])
  exact ⟨hlaid, hsettled, hdisk, confined_lexical hw.extractor path module _⟩

theorem Laid.leave (h : w.Laid f st) (hf : f ∈ w.variants) (hwait : Awaits st module)
    (hm : SlashFree module) (hleave : w.leave module path kept st = (.ok (), st')) :
    w.Laid f st' ∧ Settled st' ∧ module ∈ st'.context.report.modules := by
  obtain ⟨horderly, hsettled⟩ := h.orderly.leave hwait hleave
  cases leaves_of_leave hleave with
  | finished hwrites hcontext =>
    have hsince := hwrites.since h.grounded
    have hmodules : st'.context.report.modules = st.context.report.modules ++ [module] := by
      rw [hcontext]
    refine ⟨⟨horderly, hsince.grounded, fun m hmem => ?_⟩, hsettled, by simp [hmodules]⟩
    rw [hmodules] at hmem
    rcases List.mem_append.1 hmem with hmem | hmem
    · exact (h.written m hmem).grows hsince.adds.grows
    · obtain rfl := List.mem_singleton.1 hmem
      exact ⟨hm, hwrites.exists? h.grounded hf⟩

theorem Laid.hasFragment {edge : Edge} (h : w.Laid f st) (hw : w.Serves out f)
    (hsettled : Settled st)
    (hmeets : w.Meets st name edge) (hpass : ∀ source, edge ≠ .descend source)
    (hkept : edge.isKept = true) (hname : w.resolver.Finds name → SlashFree name) :
    HasFragment w.outDir f st.disk name := by
  cases hmeets with
  | cut | excluded | unresolved => cases hkept
  | seen hactive _ hv => exact h.written name ((hsettled name hv).resolve_left hactive)
  | reused _ hfound _ hfresh =>
    exact ⟨hname ⟨_, hfound⟩, hw.outDir ▸ hw.exists?_of_isFresh hfresh⟩
  | descend => exact absurd rfl (hpass _)

theorem supported_begun (hm : SlashFree module) (hsub : variants ⊆ w.variants)
    (hd : d.Grounded) (hkept : ∀ n ∈ kept, HasFragment w.outDir f d n) :
    w.Supported f d (w.begun d (variants.map (record module path kept))) := by
  induction variants generalizing d with
  | nil => trivial
  | cons v variants ih =>
    obtain ⟨hv, hsub⟩ := List.cons_subset.1 hsub
    refine ⟨hm, hv, fun _ => hkept, fun d₁ hwrite => ?_⟩
    have hsince := (Since.refl hd).stores (writeRecord_eq_ok hwrite)
    rw [hwrite]
    exact ih hsub hsince.grounded fun n hn => (hkept n hn).grows hsince.adds.grows

/-- Everything that a walk keeps in a module has a fragment when the module is left. -/
theorem supported_walk (hw : w.Serves out f) :
    (∀ module path st, w.Laid f st → Awaits st module → SlashFree module →
      w.Supported f st.disk (w.journal module path st) ∧
        ((w.visit module path st).1 = .ok () → w.Laid f (w.visit module path st).2 ∧
          Settled (w.visit module path st).2 ∧
          module ∈ (w.visit module path st).2.context.report.modules)) ∧
    ∀ module names kept st, w.Laid f st → Settled st →
      (∀ n ∈ names, w.resolver.Finds n → SlashFree n) →
      (∀ n ∈ kept, HasFragment w.outDir f st.disk n) →
      w.Supported f st.disk (w.journalAll module names st) ∧
        ∀ kept', (w.visitAll module names kept st).1 = .ok kept' →
          w.Laid f (w.visitAll module names kept st).2 ∧
          Settled (w.visitAll module names kept st).2 ∧
          ∀ n ∈ kept', HasFragment w.outDir f (w.visitAll module names kept st).2.disk n := by
  have hf : f ∈ w.variants := List.mem_of_head? hw.first
  refine w.walk_induct
    (P := fun module path st r => w.Laid f st → Awaits st module → SlashFree module →
      w.Supported f st.disk (w.journal module path st) ∧
        (r.1 = .ok () → w.Laid f r.2 ∧ Settled r.2 ∧ module ∈ r.2.context.report.modules))
    (Q := fun module names kept st r => w.Laid f st → Settled st →
      (∀ n ∈ names, w.resolver.Finds n → SlashFree n) →
      (∀ n ∈ kept, HasFragment w.outDir f st.disk n) →
      w.Supported f st.disk (w.journalAll module names st) ∧
        ∀ kept', r.1 = .ok kept' → w.Laid f r.2 ∧ Settled r.2 ∧
          ∀ n ∈ kept', HasFragment w.outDir f r.2.disk n)
    ?refused ?failed ?left ?done ?passed ?stopped ?descended
  case refused =>
    intro module path st e st₁ henter _ _ _
    rw [journal_of_refused henter]
    exact ⟨trivial, by simp⟩
  case failed =>
    intro module path st names st₁ e st₂ henter hall ih hlaid hwait _
    obtain ⟨hlaid₁, hsettled₁, hdisk, hnames⟩ := hlaid.enter hw hwait henter
    rw [journal_of_failed henter hall, ← hdisk]
    exact ⟨(ih hlaid₁ hsettled₁ hnames (by simp)).1, by simp⟩
  case left =>
    intro module path st names st₁ kept st₂ henter hall ih hlaid hwait hm
    obtain ⟨hlaid₁, hsettled₁, hdisk, hnames⟩ := hlaid.enter hw hwait henter
    obtain ⟨hsupported, hok⟩ := ih hlaid₁ hsettled₁ hnames (by simp)
    obtain ⟨hlaid₂, hsettled₂, hkept⟩ := hok kept rfl
    rw [journal_of_left henter hall, ← hdisk]
    refine ⟨hsupported.append fun d' hd' => ?_, fun hleave => ?_⟩
    · -- The records of the module itself are written to the disk that the walk below has left.
      have hrecords := ((w.journal_walk.2 module names [] st₁).records kept (by rw [hall])).disk
      rw [hall] at hrecords
      cases hrecords.symm.trans hd'
      exact supported_begun hm (List.Subset.refl _) hlaid₂.grounded hkept
    · obtain ⟨-, -, hcontext, -⟩ := enter_eq_ok henter
      have hwait₂ := hlaid₂.orderly.awaits hsettled₂ hcontext (continues_visitAll hall) hwait
      have hpopped : w.Laid f (st₂.inContext (·.pop)) :=
        hlaid₂.onDisk hlaid₂.orderly.pop (.refl hlaid₂.grounded) rfl
      exact hpopped.leave hf hwait₂ hm (Prod.ext hleave rfl)
  case done =>
    intro module kept st hlaid hsettled _ hkept
    rw [journalAll_nil]
    refine ⟨trivial, fun kept' hok => ?_⟩
    cases hok
    exact ⟨hlaid, hsettled, hkept⟩
  case passed =>
    intro module name names kept st edge r hmeets hedge hpass _ ih hlaid hsettled hnames hkept
    have hpresent := hlaid.hasFragment hw hsettled hmeets hpass
    rw [journalAll_of_pass hedge hpass]
    have hbelow := ih hlaid.settle (hsettled.pass hpass)
      (fun n hn => hnames n (List.mem_cons_of_mem _ hn)) (fun n hn => ?_)
    · rwa [disk_settle] at hbelow
    · rw [disk_settle]
      split at hn
      · next hk =>
        rcases List.mem_append.1 hn with hn | hn
        · exact hkept n hn
        · exact List.mem_singleton.1 hn ▸ hpresent hk (hnames name List.mem_cons_self)
      · exact hkept n hn
  case stopped =>
    intro module name names kept st source e st₁ hmeets hedge hvisit ih hlaid hsettled hnames _
    have hname := hnames name List.mem_cons_self ⟨source, hmeets.found⟩
    obtain ⟨hsupported, -⟩ := ih hlaid.settle (hlaid.orderly.descend hsettled hmeets) hname
    rw [disk_settle] at hsupported
    rw [journalAll_of_stop hedge hvisit]
    exact ⟨hsupported, by simp⟩
  case descended =>
    intro module name names kept st source st₁ r hmeets hedge hvisit ih _ ih' hlaid hsettled hnames
      hkept
    have hname := hnames name List.mem_cons_self ⟨source, hmeets.found⟩
    obtain ⟨hsupported, hok⟩ := ih hlaid.settle (hlaid.orderly.descend hsettled hmeets) hname
    obtain ⟨hlaid₁, hsettled₁, hmem⟩ := hok rfl
    have hjournals := w.journal_walk.1 name source (w.settle module name (.descend source) st)
    have hrecords := (hjournals.records () (by rw [hvisit])).disk
    rw [hvisit] at hrecords
    rw [disk_settle] at hsupported hrecords
    have hgrows := (since_writeRecords hlaid.grounded hrecords).adds.grows
    obtain ⟨hsupported', hok'⟩ := ih' hlaid₁ hsettled₁
      (fun n hn => hnames n (List.mem_cons_of_mem _ hn)) (fun n hn => by
        rcases List.mem_append.1 hn with hn | hn
        · exact (hkept n hn).grows hgrows
        · exact List.mem_singleton.1 hn ▸ hlaid₁.written name hmem)
    rw [journalAll_of_descend hedge hvisit]
    refine ⟨hsupported.append fun d' hd' => ?_, hok'⟩
    cases hrecords.symm.trans hd'
    exact hsupported'

theorem supported_journalOf (hw : w.Serves out f) (hroot : SlashFree root) (hd : d.Grounded) :
    w.Supported f (w.prepared d) (w.journalOf d root) := by
  unfold journalOf
  split
  · next path _ _ =>
    have hlaid : w.Laid f (w.start d root) :=
      ⟨.start w d root, w.grounded_prepared hd, by simp [start, Context.new, Report.new]⟩
    exact ((supported_walk hw).1 root path _ hlaid (awaits_start w d root) hroot).1
  · trivial

end

-- ---------------------------------------------------------------------------
-- Runs one after the other
-- ---------------------------------------------------------------------------

/-- When a run on the disk `e` has made the directory, the same is in it as on the disk `d`. -/
def SameOutput (w : Writer) (d e : Disk) : Prop :=
  ∀ name entry, (w.prepared e).Holds w.outDir name entry ↔ d.Holds w.outDir name entry

/-- What can be on the disk after runs into a directory that was empty, and the records that they
have begun. Before each run everything outside of the directory may change, and so may the writer.
A run may fail, or be interrupted after any record. -/
inductive History (out : Path) (f : String) : List Fragment.Record → Disk → Prop
  | empty {d : Disk} : d.Grounded → (∀ name entry, ¬d.Holds out name entry) → History out f [] d
  | run {w : Writer} {rs d root r} {e : Disk} {st : State} : History out f rs d → w.Serves out f →
      SlashFree root → e.Grounded → w.SameOutput d e → w.write e root = (r, st) →
      History out f (rs ++ w.journalOf e root) st.disk
  | interrupted {w : Writer} {rs d root before} {e e' : Disk} : History out f rs d →
      w.Serves out f → SlashFree root → e.Grounded → w.SameOutput d e →
      before <+: w.journalOf e root → w.writeRecords (w.prepared e) before = .ok e' →
      History out f (rs ++ before) e'

section
variable {w : Writer} {out : Path} {f root : String} {rs before : List Fragment.Record}
  {d e e' : Disk} {r : Except Error Report} {st : State}

theorem Serves.slashFree (h : w.Serves out f) : '/' ∉ f.toList :=
  (h.plain f (List.mem_of_head? h.first)).2

theorem Sealed.atStart (h : Sealed out f rs d) (hw : w.Serves out f) (he : e.Grounded)
    (hsame : w.SameOutput d e) : Sealed out f rs e ∧ Sealed out f rs (w.prepared e) := by
  have hv := hw.slashFree
  obtain rfl := hw.outDir
  have hprepared := h.of_holds hv (w.grounded_prepared he) hsame
  refine ⟨?_, hprepared⟩
  by_cases hthere : ∃ l, e.Enters w.outDir l
  · obtain ⟨l, hl⟩ := hthere
    have hsame : w.prepared e = e := hl.makeDirs_disk
    rwa [hsame] at hprepared
  · exact sealed_of_forall_not_holds hv he fun name entry ⟨l, hl, _⟩ => hthere ⟨l, hl⟩

theorem Sealed.during (h : Sealed out f rs d) (hw : w.Serves out f) (hroot : SlashFree root)
    (he : e.Grounded) (hsame : w.SameOutput d e) (hpre : before <+: w.journalOf e root)
    (hattempts : w.Attempts before (w.prepared e) e') : Sealed out f (rs ++ before) e' := by
  have hsupported := supported_journalOf hw hroot he
  have hstart := (h.atStart hw he hsame).2
  obtain ⟨js, hjournal⟩ := hpre
  rw [← hjournal] at hsupported
  obtain ⟨rfl, hfirst, hplain, -⟩ := hw
  exact hstart.attempts hplain (List.mem_of_head? hfirst) hsupported hattempts

theorem Sealed.after (h : Sealed out f rs d) (hw : w.Serves out f) (hroot : SlashFree root)
    (he : e.Grounded) (hsame : w.SameOutput d e) (hwrite : w.write e root = (r, st)) :
    Sealed out f (rs ++ w.journalOf e root) st.disk := by
  rcases journalOf_write hwrite with ⟨hdisk, hnone⟩ | hattempts
  · rw [hdisk, hnone, List.append_nil]
    exact (h.atStart hw he hsame).1
  · exact h.during hw hroot he hsame (List.prefix_refl _) hattempts

theorem History.sealed (h : History out f rs d) (hv : '/' ∉ f.toList) : Sealed out f rs d := by
  induction h with
  | empty hd hnone => exact sealed_of_forall_not_holds hv hd hnone
  | run _ hw hroot he hsame hwrite ih => exact ih.after hw hroot he hsame hwrite
  | interrupted _ hw hroot he hsame hpre hwrite ih =>
    exact ih.during hw hroot he hsame hpre (.written hwrite)

-- ---------------------------------------------------------------------------
-- The theorem
-- ---------------------------------------------------------------------------

/-- Whatever has happened before, and however the run ends: it writes its journal record by record
up to a failure, unless it ends before its walk, and at every point in between the directory is
closed. -/
theorem write_closed (hist : History out f rs d) (hw : w.Serves out f) (hroot : SlashFree root)
    (he : e.Grounded) (hsame : w.SameOutput d e) (h : w.write e root = (r, st)) :
    Closed out f rs e ∧
    ((st.disk = e ∧ w.journalOf e root = []) ∨
      w.Attempts (w.journalOf e root) (w.prepared e) st.disk) ∧
    (∀ report, r = .ok report →
      w.writeRecords (w.prepared e) (w.journalOf e root) = .ok st.disk ∧
      report.fragments = (w.journalOf e root).map w.recordPath) ∧
    (∀ before, before <+: w.journalOf e root → before ≠ w.journalOf e root →
      ∃ e', w.writeRecords (w.prepared e) before = .ok e' ∧ Closed out f (rs ++ before) e') ∧
    Closed out f (rs ++ w.journalOf e root) st.disk := by
  have hsealed := hist.sealed hw.slashFree
  have hjournal := journalOf_write h
  refine ⟨(hsealed.atStart hw he hsame).1.closed, hjournal,
    fun report hok => records_of_ok (hok ▸ h), fun before hpre hne => ?_,
    (hsealed.after hw hroot he hsame h).closed⟩
  rcases hjournal with ⟨-, hnone⟩ | hattempts
  · rw [hnone] at hpre hne
    exact absurd (List.prefix_nil.1 hpre) hne
  · obtain ⟨e', he'⟩ := hattempts.written_of_prefix hpre hne
    exact ⟨e', he', (hsealed.during hw hroot he hsame hpre (.written he')).closed⟩

end

-- ---------------------------------------------------------------------------
-- A source that changes
-- ---------------------------------------------------------------------------

def twoSearched : Writer :=
  { twoModules [] with extractor := .lexical }

def edited (d : Disk) : Disk :=
  d.put ["s", "a.v"] (.file "b::x".toUTF8 d.clock)

theorem sample_twoSearched : twoSearched.Sample twoSources where
  outDir := rfl
  variants := by simp [twoSearched, twoModules]
  found := (@sample_twoModules []).found
  cwd := rfl
  sources := rfl
  output := rfl
  empty := (@sample_twoModules []).empty
  spared := fun _ _ _ _ => rfl

theorem serves_twoSearched : twoSearched.Serves ⟨"/o"⟩ "sim" :=
  ⟨rfl, rfl, sample_twoSearched.plain, rfl, .existing, rfl⟩

section
variable {d : Disk}

theorem takesFile_edited (h : twoSources.AddsFiles d) : d.TakesFile ["s", "a.v"] := by
  refine ⟨by simp, fun he => ?_⟩
  rcases h.others he with hfile | he
  · exact hfile
  · cases he
    exact ⟨_, _, rfl⟩

theorem sameOutput_edited (h : twoSources.AddsFiles d) : twoSearched.SameOutput d (edited d) := by
  have hadds : d.AddsFiles (edited d) := Disk.addsFiles_put (takesFile_edited h)
  have henters := sample_twoSearched.enters.grows h.grows
  have henters' := henters.grows hadds.grows
  have hprepared : twoSearched.prepared (edited d) = edited d := henters'.makeDirs_disk
  intro name entry
  rw [hprepared, Disk.holds_of_enters henters', Disk.holds_of_enters henters]
  unfold edited
  rw [Disk.get?_put_of_ne (by simp)]

end

/-- `b` is built from an empty directory, and `a` after its source has changed. -/
theorem write_closed_twoSearched :
    let w := twoSearched
    ∃ report st r st', w.write twoSources "b" = (.ok report, st) ∧
      w.write (edited st.disk) "a" = (r, st') ∧ HasFragment ⟨"/o"⟩ "sim" st'.disk "b" ∧
      Closed ⟨"/o"⟩ "sim" (w.journalOf twoSources "b" ++ w.journalOf (edited st.disk) "a")
        st'.disk := by
  intro w
  have hs : w.Sample twoSources := sample_twoSearched
  have hw : w.Serves ⟨"/o"⟩ "sim" := serves_twoSearched
  obtain ⟨report, st, h⟩ := hs.write_succeeds (by simp [w, twoSearched, twoModules])
    ((@finds_twoModules [] "b").2 (.inr rfl))
  have hprepared := hs.prepared_eq
  have hadds : twoSources.AddsFiles st.disk := (hs.alike_of_ok h).adds
  have hedited : st.disk.AddsFiles (edited st.disk) := Disk.addsFiles_put (takesFile_edited hadds)
  have hgrounded := (hadds.trans hedited).grows.grounded hs.grounded
  have hempty : ∀ name entry, ¬twoSources.Holds w.outDir name entry := by
    intro name entry hholds
    rw [Disk.holds_of_enters hs.enters, hs.empty] at hholds
    cases hholds
  have hsame : w.SameOutput twoSources twoSources := by
    intro name entry
    rw [hprepared]
  have hist := (History.empty hs.grounded hempty).run hw (by decide) hs.grounded hsame h
  generalize hwrite : w.write (edited st.disk) "a" = result
  obtain ⟨r, st'⟩ := result
  obtain ⟨-, hjournal, -, -, hclosed⟩ := write_closed hist hw (by decide) hgrounded
    (sameOutput_edited hadds) hwrite
  have hb : st.disk.exists? (w.fragmentPath "b" "sim") = true :=
    exists?_of_mem_modules hs.grounded h (root_mem_of_ok h) (by simp [w, twoSearched, twoModules])
  have hgrows : (edited st.disk).Grows st'.disk := by
    have hprepared := (Disk.extends_makeDirs (edited st.disk) w.outDir).grows
    rcases hjournal with ⟨hdisk, -⟩ | hattempts
    · exact hdisk ▸ .refl _
    · exact hprepared.trans (hattempts.since (w.grounded_prepared hgrounded)).adds.grows
  have hb' := (hedited.grows.trans hgrows).exists? hb
  exact ⟨report, st, r, st', h, hwrite, ⟨by decide, hb'⟩, hclosed⟩

end DesignDeps.Writer
