import DesignDeps.Proofs.Disk.Entries
import DesignDeps.Proofs.Walk.Steps
import Mathlib.Logic.Relation

/-!
# Sources under a walk

`DependsOn` is the graph that walks go through. It is read off the disk, and the same walks write to
that disk: `steady_visit` shows that a walk leaves the graph as it was, in whatever way it ends, as
long as no fragment has its place where a source is (`Apart`). It also takes no claim back and
leaves the active modules as it found them.
-/

namespace DesignDeps

/-- The name leads to a file. -/
def Resolver.Finds (r : Resolver) (name : String) : Prop :=
  ∃ path, r.resolve name = .found path

namespace Writer

open Text Walk

/-- The file that `m` leads to names `n`, which leads to a file too. -/
def DependsOn (w : Writer) (d : Disk) (m n : String) : Prop :=
  ∃ path bytes, w.resolver.resolve m = .found path ∧ d.read path = .ok bytes ∧
    n ∈ w.namesIn path m (Utf8.lossy bytes) ∧ w.resolver.Finds n

/-- No fragment of a module in `S` has its place where a source is. -/
def Apart (w : Writer) (S : String → Prop) (d : Disk) : Prop :=
  ∀ m v n path l, S m → v ∈ w.variants → w.resolver.resolve n = .found path →
    d.reach .create (w.fragmentPath m v) = .ok l → d.reach .create path ≠ .ok l

/-- Walks that start in `S` stay there. -/
def Confined (w : Writer) (S : String → Prop) : Prop :=
  ∀ path module text, ∀ n ∈ w.namesIn path module text, w.resolver.Finds n → S n

theorem confined_finds (w : Writer) : w.Confined w.resolver.Finds :=
  fun _ _ _ _ _ h => h

-- ---------------------------------------------------------------------------
-- Disks with the same sources
-- ---------------------------------------------------------------------------

structure Alike (w : Writer) (d d' : Disk) : Prop where
  adds : d.AddsFiles d'
  source : ∀ {n path bytes}, w.resolver.resolve n = .found path →
    (d'.read path = .ok bytes ↔ d.read path = .ok bytes)

section
variable {w : Writer} {S : String → Prop} {d d' d'' : Disk}

theorem Alike.refl (w : Writer) (d : Disk) : w.Alike d d :=
  ⟨.refl d, fun _ => Iff.rfl⟩

theorem Alike.trans (h : w.Alike d d') (h' : w.Alike d' d'') : w.Alike d d'' :=
  ⟨h.adds.trans h'.adds, fun hn => (h'.source hn).trans (h.source hn)⟩

theorem Alike.grows (h : w.Alike d d') : d.Grows d' :=
  h.adds.grows

theorem Alike.apart (h : w.Alike d d') (hd : w.Apart S d) : w.Apart S d' := by
  intro m v n path l hm hv hn hl
  rw [h.adds.reach_create] at hl
  rw [ne_eq, h.adds.reach_create]
  exact hd m v n path l hm hv hn hl

theorem Alike.dependsOn (h : w.Alike d d') {m n : String} :
    w.DependsOn d' m n ↔ w.DependsOn d m n := by
  constructor
  · rintro ⟨path, bytes, hm, hread, hn⟩
    exact ⟨path, bytes, hm, (h.source hm).1 hread, hn⟩
  · rintro ⟨path, bytes, hm, hread, hn⟩
    exact ⟨path, bytes, hm, (h.source hm).2 hread, hn⟩

theorem Alike.dependsOn_eq (h : w.Alike d d') : w.DependsOn d' = w.DependsOn d := by
  funext m n
  exact propext h.dependsOn

theorem alike_stores {m v : String} {content : ByteArray} (hd : d.Grounded) (ha : w.Apart S d)
    (hm : S m) (hv : v ∈ w.variants) (h : d.Stores (w.fragmentPath m v) content d') :
    w.Alike d d' := by
  obtain ⟨l, hl, htakes, rfl⟩ := h.takesFile hd
  refine ⟨Disk.addsFiles_put htakes, fun {n path bytes} hn => ?_⟩
  exact Disk.read_put hd htakes (ha m v n path l hm hv hn hl)

theorem dependsOn_of_enter {module n : String} {path : Path} {st st' : State} {names : List String}
    (h : w.enter module path st = (.ok names, st')) (hm : w.resolver.resolve module = .found path) :
    w.DependsOn st.disk module n ↔ n ∈ names ∧ w.resolver.Finds n := by
  obtain ⟨-, -, -, bytes, hread, rfl⟩ := enter_eq_ok h
  constructor
  · rintro ⟨path', bytes', hm', hread', hn, hfinds⟩
    cases hm.symm.trans hm'
    cases hread.symm.trans hread'
    exact ⟨hn, hfinds⟩
  · rintro ⟨hn, hfinds⟩
    exact ⟨path, bytes, hm, hread, hn, hfinds⟩

theorem Alike.names {module : String} {path : Path} {st st' : State} {names : List String}
    (h : w.Alike d st.disk) (henter : w.enter module path st = (.ok names, st'))
    (hfound : w.resolver.resolve module = .found path) (hS : w.Confined S) :
    ∃ source, d.read path = .ok source ∧
      names = (w.namesIn path module (Utf8.lossy source)).toList ∧
      (∀ n, w.DependsOn d module n → n ∈ names ∧ w.resolver.Finds n) ∧
      ∀ n ∈ names, w.resolver.Finds n → S n ∧ w.DependsOn d module n := by
  obtain ⟨-, -, -, source, hread, hnames⟩ := enter_eq_ok henter
  refine ⟨source, (h.source hfound).1 hread, hnames, fun n hn => ?_, fun n hn hfinds => ?_⟩
  · exact (dependsOn_of_enter henter hfound).1 (h.dependsOn.2 hn)
  · refine ⟨hS path module (Utf8.lossy source) n ?_ hfinds, h.dependsOn.1 ?_⟩
    · rwa [NameSet.mem_iff, ← hnames]
    · exact (dependsOn_of_enter henter hfound).2 ⟨hn, hfinds⟩

end

-- ---------------------------------------------------------------------------
-- Fragments of one module
-- ---------------------------------------------------------------------------

abbrev contentOf (module : String) (path : Path) (kept : List String) (variant : String) :
    ByteArray :=
  (record module path kept variant).render.toUTF8

/-- The fragments of a module are written for some variants one after the other. -/
inductive Writes (w : Writer) (module : String) (path : Path) (kept : List String) :
    List String → Disk → Disk → Prop
  | nil {d} : Writes w module path kept [] d d
  | cons {variant variants d d₁ d₂} :
      d.Stores (w.fragmentPath module variant) (contentOf module path kept variant) d₁ →
      Writes w module path kept variants d₁ d₂ →
      Writes w module path kept (variant :: variants) d d₂

def Fails (w : Writer) (module : String) (path : Path) (kept : List String) (variant : String)
    (d : Disk) (cause : IoError) (d' : Disk) : Prop :=
  d.write (w.fragmentPath module variant) (contentOf module path kept variant)
    (w.faults.writing d (w.fragmentPath module variant)) = .error (cause, d')

/-- Nothing befalls the writing of the module's fragments. -/
def Spared (w : Writer) (module : String) : Prop :=
  ∀ v ∈ w.variants, ∀ d, w.faults.writing d (w.fragmentPath module v) = none

/-- The fragments of the module can be written. -/
structure TakesFragments (w : Writer) (d : Disk) (module : String) : Prop where
  places : ∀ v ∈ w.variants, d.Writable (w.fragmentPath module v)
  spared : w.Spared module

theorem TakesFragments.adds {w : Writer} {d d' : Disk} {module : String}
    (h : w.TakesFragments d module) (hadds : d.AddsFiles d') : w.TakesFragments d' module :=
  ⟨fun v hv => hadds.writable (h.places v hv), h.spared⟩

section
variable {w : Writer} {S : String → Prop} {module variant : String} {path : Path}
  {kept variants : List String} {d d' : Disk} {cause : IoError}

theorem Fails.not_writable (h : w.Fails module path kept variant d cause d')
    (hspared : w.Spared module) (hv : variant ∈ w.variants) :
    ¬d.Writable (w.fragmentPath module variant) := by
  intro hplace
  obtain ⟨d₁, hstores⟩ := hplace.stores (contentOf module path kept variant)
  cases h.symm.trans (Disk.write_eq_ok_iff.2 ⟨hspared variant hv d, hstores⟩)

theorem Fails.cases (h : w.Fails module path kept variant d cause d') :
    d' = d ∨ ∃ bytes,
      w.faults.writing d (w.fragmentPath module variant) = some (.cut bytes cause) ∧
      d.Stores (w.fragmentPath module variant)
        ((contentOf module path kept variant).extract 0 bytes) d' :=
  Disk.write_eq_error h

theorem Fails.keeps {I : Disk → Prop} (h : w.Fails module path kept variant d cause d')
    (hstores : ∀ {content}, d.Stores (w.fragmentPath module variant) content d' → I d')
    (hI : I d) : I d' := by
  rcases h.cases with rfl | ⟨bytes, -, hcut⟩
  · exact hI
  · exact hstores hcut

theorem Writes.alike (h : w.Writes module path kept variants d d') (hd : d.Grounded)
    (ha : w.Apart S d) (hm : S module) (hv : variants ⊆ w.variants) : w.Alike d d' := by
  induction h with
  | nil => exact .refl w _
  | cons hwrite _ ih =>
    obtain ⟨hv, hvs⟩ := List.cons_subset.1 hv
    have halike := alike_stores hd ha hm hv hwrite
    exact halike.trans (ih (halike.grows.grounded hd) (halike.apart ha) hvs)

theorem writeFragments_cases {st st' : State} {r : Except Error Unit}
    (h : w.writeFragments module path kept variants st = (r, st')) :
    ∃ written disk, w.Writes module path kept written st.disk disk ∧
      st'.context = { st.context with report := { st.context.report with
        fragments := st.context.report.fragments ++ written.map (w.fragmentPath module) } } ∧
      (r = .ok () ∧ written = variants ∧ st'.disk = disk ∨
        ∃ variant after cause, variants = written ++ variant :: after ∧
          r = .error (.io (w.fragmentPath module variant) cause) ∧
          w.Fails module path kept variant disk cause st'.disk) := by
  induction variants generalizing st with
  | nil =>
    cases h
    exact ⟨[], _, .nil, by simp, .inl ⟨rfl, rfl, rfl⟩⟩
  | cons variant variants ih =>
    simp only [writeFragments] at h
    split at h
    · next cause disk hwrite =>
      cases h
      exact ⟨[], _, .nil, by simp, .inr ⟨variant, variants, cause, rfl, rfl, hwrite⟩⟩
    · next disk hwrite =>
      obtain ⟨written, disk', hwrites, hcontext, hresult⟩ := ih h
      refine ⟨variant :: written, disk', .cons (Disk.write_eq_ok_iff.1 hwrite).2 hwrites, ?_, ?_⟩
      · rw [hcontext]
        simp
      · rcases hresult with ⟨hok, rfl, hdisk⟩ | ⟨v, after, cause, rfl, hr, hfails⟩
        · exact .inl ⟨hok, rfl, hdisk⟩
        · exact .inr ⟨v, after, cause, rfl, hr, hfails⟩

end

/-- The ways in which leaving a module can go. -/
inductive Leaves (w : Writer) (module : String) (path : Path) (kept : List String) (st : State) :
    Except Error Unit × State → Prop
  | finished {st'} : w.Writes module path kept w.variants st.disk st'.disk →
      st'.context = { st.context with report := { st.context.report with
        modules := st.context.report.modules ++ [module]
        fragments := st.context.report.fragments ++ w.variants.map (w.fragmentPath module) } } →
      Leaves w module path kept st (.ok (), st')
  | stopped {written variant after disk cause st'} : w.variants = written ++ variant :: after →
      w.Writes module path kept written st.disk disk →
      w.Fails module path kept variant disk cause st'.disk →
      st'.context = { st.context with report := { st.context.report with
        fragments := st.context.report.fragments ++ written.map (w.fragmentPath module) } } →
      Leaves w module path kept st (.error (.io (w.fragmentPath module variant) cause), st')

theorem leaves_leave (w : Writer) (module : String) (path : Path) (kept : List String)
    (st : State) : w.Leaves module path kept st (w.leave module path kept st) := by
  unfold leave
  split
  · next h =>
    obtain ⟨written, disk, hwrites, hcontext, ⟨hok, -⟩ | ⟨v, after, cause, hvs, herror, hfails⟩⟩ :=
      writeFragments_cases h
    · cases hok
    · cases herror
      exact .stopped hvs hwrites hfails hcontext
  · next h =>
    obtain ⟨written, disk, hwrites, hcontext, ⟨-, rfl, rfl⟩ | ⟨v, after, cause, -, herror, -⟩⟩ :=
      writeFragments_cases h
    · refine .finished hwrites ?_
      simp only [State.inReport, context_inContext, hcontext]
    · cases herror

-- ---------------------------------------------------------------------------
-- Whole walks
-- ---------------------------------------------------------------------------

/-- What no walk changes: sources and active modules stay, and so does every claim and every trust
placed in a fragment. -/
structure Steady (w : Writer) (st st' : State) : Prop where
  alike : w.Alike st.disk st'.disk
  active : st'.context.active = st.context.active
  visited : ∀ n ∈ st.context.visited, n ∈ st'.context.visited
  reused : ∀ n ∈ st.context.report.reused, n ∈ st'.context.report.reused

theorem Steady.refl (w : Writer) (st : State) : w.Steady st st :=
  ⟨.refl w _, rfl, fun _ => id, fun _ => id⟩

theorem Steady.trans {w : Writer} {a b c : State} (h : w.Steady a b) (h' : w.Steady b c) :
    w.Steady a c :=
  ⟨h.alike.trans h'.alike, h'.active.trans h.active, fun n hn => h'.visited n (h.visited n hn),
    fun n hn => h'.reused n (h.reused n hn)⟩

theorem steady_settle (w : Writer) (module name : String) (edge : Edge) (st : State) :
    w.Steady st (w.settle module name edge st) := by
  refine ⟨?_, by simp, fun n hn => mem_visited_settle hn, fun n hn => ?_⟩
  · simpa using Alike.refl w st.disk
  · exact (mem_reused_settle w module name edge st).2 (.inr hn)

theorem Steady.ofPushed {w : Writer} {module : String} {st st₁ st₂ : State}
    (hdisk : st₁.disk = st.disk) (hcontext : st₁.context = st.context.push module)
    (h : w.Steady st₁ st₂) : w.Steady st (st₂.inContext (·.pop)) := by
  refine ⟨?_, ?_, ?_, ?_⟩
  · simpa [hdisk] using h.alike
  · simp [h.active, hcontext]
  · simpa [hcontext] using h.visited
  · simpa [hcontext] using h.reused

theorem Leaves.steady {w : Writer} {S : String → Prop} {module : String} {path : Path}
    {kept : List String} {d : Disk} {st : State} {r : Except Error Unit × State}
    (h : w.Leaves module path kept st r) (halike : w.Alike d st.disk) (hd : d.Grounded)
    (ha : w.Apart S d) (hm : S module) : w.Steady st r.2 := by
  have hd' := halike.grows.grounded hd
  have ha' := halike.apart ha
  cases h with
  | finished hwrites hcontext =>
    exact ⟨hwrites.alike hd' ha' hm (List.Subset.refl _), by simp [hcontext], by simp [hcontext],
      by simp [hcontext]⟩
  | @stopped written variant after _ _ _ hvs hwrites hfails hcontext =>
    have hsub : written ⊆ w.variants := by simp [hvs]
    have halike := hwrites.alike hd' ha' hm hsub
    refine ⟨hfails.keeps (fun hstores => halike.trans ?_) halike, by simp [hcontext],
      by simp [hcontext], by simp [hcontext]⟩
    exact alike_stores (halike.grows.grounded hd') (halike.apart ha') hm (by simp [hvs]) hstores

section
variable {w : Writer} {S : String → Prop} {d : Disk}

theorem steady_walk (hS : w.Confined S) (hd : d.Grounded) (ha : w.Apart S d) :
    (∀ module path st, S module → w.Alike d st.disk → w.Steady st (w.visit module path st).2) ∧
    ∀ module names kept st, (∀ n ∈ names, w.resolver.Finds n → S n) → w.Alike d st.disk →
      w.Steady st (w.visitAll module names kept st).2 := by
  -- Sources stay as they are in every step, so both assumptions hold again in the next one.
  refine w.walk_induct
    (P := fun module path st r => S module → w.Alike d st.disk → w.Steady st r.2)
    (Q := fun module names kept st r => (∀ n ∈ names, w.resolver.Finds n → S n) →
      w.Alike d st.disk → w.Steady st r.2)
    ?refused ?failed ?left ?done ?passed ?stopped ?descended
  case refused =>
    intro module path st e st₁ h _ _
    obtain ⟨hdisk, hcontext, -⟩ := enter_eq_error h
    refine ⟨?_, by simp [hcontext], by simp [hcontext], by simp [hcontext]⟩
    simpa [hdisk] using Alike.refl w st.disk
  case failed =>
    intro module path st names st₁ e st₂ h _ ih _ halike
    obtain ⟨-, hdisk, hcontext, bytes, -, rfl⟩ := enter_eq_ok h
    exact .ofPushed hdisk hcontext (ih (hS path module _) (hdisk ▸ halike))
  case left =>
    intro module path st names st₁ kept st₂ h _ ih hm halike
    obtain ⟨-, hdisk, hcontext, bytes, -, rfl⟩ := enter_eq_ok h
    have hsteady := Steady.ofPushed hdisk hcontext (ih (hS path module _) (hdisk ▸ halike))
    apply hsteady.trans
    exact (w.leaves_leave module path kept _).steady (halike.trans hsteady.alike) hd ha hm
  case done =>
    intro module kept st _ _
    exact .refl w st
  case passed =>
    intro module name names kept st edge r _ _ _ _ ih hnames halike
    rw [disk_settle] at ih
    exact (steady_settle w module name edge st).trans
      (ih (fun n hn => hnames n (List.mem_cons_of_mem _ hn)) halike)
  case stopped =>
    intro module name names kept st source e st₁ hmeets _ _ ih hnames halike
    rw [disk_settle] at ih
    exact (steady_settle w module name _ st).trans
      (ih (hnames name (by simp) ⟨source, hmeets.found⟩) halike)
  case descended =>
    intro module name names kept st source st₁ r hmeets _ _ ih _ ih' hnames halike
    rw [disk_settle] at ih
    have hsteady := (steady_settle w module name _ st).trans
      (ih (hnames name (by simp) ⟨source, hmeets.found⟩) halike)
    apply hsteady.trans
    exact ih' (fun n hn => hnames n (List.mem_cons_of_mem _ hn)) (halike.trans hsteady.alike)

variable {module : String} {path : Path} {st st' : State}

theorem steady_visit {r : Except Error Unit} (h : w.visit module path st = (r, st'))
    (halike : w.Alike d st.disk) (hS : w.Confined S) (hd : d.Grounded) (ha : w.Apart S d)
    (hm : S module) : w.Steady st st' := by
  have hsteady := (steady_walk hS hd ha).1 module path st hm halike
  rwa [h] at hsteady

theorem steady_visitAll {names kept : List String} {r : Except Error (List String)}
    (h : w.visitAll module names kept st = (r, st')) (halike : w.Alike d st.disk)
    (hS : w.Confined S) (hd : d.Grounded) (ha : w.Apart S d)
    (hnames : ∀ n ∈ names, w.resolver.Finds n → S n) : w.Steady st st' := by
  have hsteady := (steady_walk hS hd ha).2 module names kept st hnames halike
  rwa [h] at hsteady

end

end Writer

end DesignDeps
