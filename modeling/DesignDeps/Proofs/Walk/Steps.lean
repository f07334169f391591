import DesignDeps.Walk
import Mathlib.Data.List.Basic

/-!
# Steps of a walk

A walk consists of entering a module, meeting its dependencies one after the other, and leaving it.
`Meets` lists what a dependency can be met as and what is known then; `enter_eq_ok` and
`enter_eq_error` say what entering does. `walk_induct` is the induction over a walk: what holds of
every step, given the same of the walks inside it, holds of every walk, whether it succeeds or not.
-/

namespace DesignDeps.Writer

open Text Walk

-- ---------------------------------------------------------------------------
-- States
-- ---------------------------------------------------------------------------

@[simp] theorem disk_note (st : State) (events : List Log.Event) :
    (st.note events).disk = st.disk := rfl

@[simp] theorem disk_inReport (st : State) (f : Report → Report) :
    (st.inReport f).disk = st.disk := rfl

@[simp] theorem disk_inContext (st : State) (f : Context → Context) :
    (st.inContext f).disk = st.disk := rfl

@[simp] theorem context_inContext (st : State) (f : Context → Context) :
    (st.inContext f).context = f st.context := rfl

@[simp] theorem active_inReport (st : State) (f : Report → Report) :
    (st.inReport f).context.active = st.context.active := rfl

@[simp] theorem report_inReport (st : State) (f : Report → Report) :
    (st.inReport f).context.report = f st.context.report := rfl

@[simp] theorem visited_pop (c : Context) : c.pop.visited = c.visited := rfl

@[simp] theorem report_pop (c : Context) : c.pop.report = c.report := rfl

@[simp] theorem active_pop (c : Context) : c.pop.active = c.active.dropLast := rfl

@[simp] theorem visited_push (c : Context) (module : String) :
    (c.push module).visited = c.visited := rfl

@[simp] theorem report_push (c : Context) (module : String) :
    (c.push module).report = c.report := rfl

@[simp] theorem active_push (c : Context) (module : String) :
    (c.push module).active = c.active ++ [module] := rfl

@[simp] theorem active_mark (c : Context) (module : String) :
    (c.mark module).active = c.active := by
  unfold Context.mark
  split <;> rfl

@[simp] theorem report_mark (c : Context) (module : String) :
    (c.mark module).report = c.report := by
  unfold Context.mark
  split <;> rfl

section
variable (w : Writer) (module name : String) (edge : Edge) (st : State)

@[simp] theorem disk_settle : (w.settle module name edge st).disk = st.disk := by
  cases edge <;> rfl

@[simp] theorem active_settle :
    (w.settle module name edge st).context.active = st.context.active := by
  cases edge <;> simp [settle]

@[simp] theorem modules_settle :
    (w.settle module name edge st).context.report.modules = st.context.report.modules := by
  cases edge <;> simp [settle]

@[simp] theorem fragments_settle :
    (w.settle module name edge st).context.report.fragments = st.context.report.fragments := by
  cases edge <;> simp [settle]

theorem mem_reused_settle {n : String} :
    n ∈ (w.settle module name edge st).context.report.reused ↔
      edge = .reused ∧ n = name ∨ n ∈ st.context.report.reused := by
  cases edge <;> simp [settle]

theorem mem_visited_settle_iff {n : String} :
    n ∈ (w.settle module name edge st).context.visited ↔
      (∃ path, edge = .descend path) ∧ n = name ∨ n ∈ st.context.visited := by
  cases edge <;> simp [settle, Context.mem_visited_mark]

end

theorem mem_visited_settle_of_pass {w : Writer} {module name n : String} {edge : Edge} {st : State}
    (hpass : ∀ source, edge ≠ .descend source) :
    n ∈ (w.settle module name edge st).context.visited ↔ n ∈ st.context.visited := by
  rw [mem_visited_settle_iff]
  exact or_iff_right fun ⟨⟨source, hs⟩, _⟩ => hpass source hs

-- ---------------------------------------------------------------------------
-- Entering a module
-- ---------------------------------------------------------------------------

theorem enter_eq_ok {w : Writer} {module : String} {path : Path} {st st' : State}
    {names : List String} (h : w.enter module path st = (.ok names, st')) :
    w.variants ≠ [] ∧ st'.disk = st.disk ∧ st'.context = st.context.push module ∧
      ∃ bytes, st.disk.read path = .ok bytes ∧
        names = (w.namesIn path module (Utf8.lossy bytes)).toList := by
  unfold enter at h
  split at h
  · cases h
  · next hv =>
    dsimp only at h
    split at h
    · cases h
    · next bytes hread =>
      cases h
      exact ⟨hv, rfl, rfl, bytes, hread, rfl⟩

inductive Refusal (w : Writer) (path : Path) (st : State) : Error → Prop
  | withoutVariants : w.variants = [] → Refusal w path st (.invalidConfig .writerWithoutVariants)
  | unreadable {cause} : st.disk.read path = .error cause → Refusal w path st (.io path cause)

theorem enter_eq_error {w : Writer} {module : String} {path : Path} {st st' : State} {e : Error}
    (h : w.enter module path st = (.error e, st')) :
    st'.disk = st.disk ∧ st'.context = st.context ∧ w.Refusal path st e := by
  unfold enter at h
  split at h
  · next hv =>
    cases h
    exact ⟨rfl, rfl, .withoutVariants hv⟩
  · dsimp only at h
    split at h
    · next hread =>
      cases h
      exact ⟨rfl, rfl, .unreadable hread⟩
    · cases h

-- ---------------------------------------------------------------------------
-- Meeting a dependency
-- ---------------------------------------------------------------------------

/-- What a dependency is met as, and what is known of it then. -/
inductive Meets (w : Writer) (st : State) (name : String) : Edge → Prop
  | cut {cycle} : st.context.cycle? name = some cycle → name ∈ st.context.active →
      Meets w st name (.cut cycle)
  | excluded : name ∉ st.context.active → w.resolver.resolve name = .excluded →
      Meets w st name .excluded
  | unresolved : name ∉ st.context.active → w.resolver.resolve name = .unresolved →
      Meets w st name .unresolved
  | seen {path} : name ∉ st.context.active → w.resolver.resolve name = .found path →
      name ∈ st.context.visited → Meets w st name .seen
  | reused {path} : name ∉ st.context.active → w.resolver.resolve name = .found path →
      name ∉ st.context.visited → w.isFresh st.disk name path = true → Meets w st name .reused
  | descend {path} : name ∉ st.context.active → w.resolver.resolve name = .found path →
      name ∉ st.context.visited → w.isFresh st.disk name path = false →
      Meets w st name (.descend path)

theorem Meets.found {w : Writer} {st : State} {name : String} {path : Path}
    (h : w.Meets st name (.descend path)) : w.resolver.resolve name = .found path := by
  cases h with
  | descend _ hfound => exact hfound

theorem meets_edge (w : Writer) (st : State) (name : String) :
    w.Meets st name (w.edge st name) := by
  unfold edge
  split
  · next cycle hcycle =>
    refine .cut hcycle ?_
    by_contra hactive
    simp [Context.cycle?_eq_none_iff.2 hactive] at hcycle
  · next hcycle =>
    have hactive := Context.cycle?_eq_none_iff.1 hcycle
    split
    · next h => exact .excluded hactive h
    · next h => exact .unresolved hactive h
    · next path h =>
      split
      · next hv => exact .seen hactive h (Context.isVisited_iff.1 hv)
      · next hv =>
        have hv : name ∉ st.context.visited := fun hm => hv (Context.isVisited_iff.2 hm)
        split
        · next hfresh => exact .reused hactive h hv hfresh
        · next hfresh => exact .descend hactive h hv (by simpa using hfresh)

-- ---------------------------------------------------------------------------
-- Whole runs
-- ---------------------------------------------------------------------------

/-- The disk as a walk finds it, with the directory for the fragments made. -/
def prepared (w : Writer) (d : Disk) : Disk :=
  (d.makeDirs w.outDir).2

/-- Where the walk of a run starts. -/
def start (w : Writer) (d : Disk) (root : String) : State :=
  ⟨w.prepared d, .new root, (w.resolver.events root).reverse⟩

theorem start_of_makeDirs {w : Writer} {d disk : Disk} {root : String} {r : Except IoError Unit}
    (h : d.makeDirs w.outDir = (r, disk)) :
    (⟨disk, .new root, (w.resolver.events root).reverse ++ []⟩ : State) = w.start d root := by
  simp [start, prepared, h]

/-- The ways in which a run can go. -/
inductive Goes (w : Writer) (d : Disk) (root : String) : Except Error Report × State → Prop
  | withoutVariants {st} : w.variants = [] → st.disk = d →
      Goes w d root (.error (.invalidConfig .writerWithoutVariants), st)
  | missing {st} : (∀ path, w.resolver.resolve root ≠ .found path) → st.disk = d →
      Goes w d root (.error (.missingRoot root), st)
  | withoutDirectory {path cause st} : w.resolver.resolve root = .found path →
      (d.makeDirs w.outDir).1 = .error cause → st.disk = w.prepared d →
      Goes w d root (.error (.io w.outDir cause), st)
  | failed {path e st} : w.resolver.resolve root = .found path →
      w.visit root path (w.start d root) = (.error e, st) → Goes w d root (.error e, st)
  | finished {path st st'} : w.resolver.resolve root = .found path →
      w.visit root path (w.start d root) = (.ok (), st) → st'.disk = st.disk →
      Goes w d root (.ok st.context.report, st')

theorem goes_write (w : Writer) (d : Disk) (root : String) : w.Goes d root (w.write d root) := by
  unfold write
  dsimp only
  split
  · next hv => exact .withoutVariants hv rfl
  · split
    · next h => exact .missing (by simp [h]) rfl
    · next h => exact .missing (by simp [h]) rfl
    · next path h =>
      split
      · next e disk hdirs =>
        exact .withoutDirectory h (by rw [hdirs]) (by simp [prepared, hdirs])
      · next disk hdirs =>
        simp only [State.note]
        rw [start_of_makeDirs hdirs]
        split
        · next hvisit => exact .failed h hvisit
        · next hvisit => exact .finished h hvisit rfl

theorem write_eq_ok {w : Writer} {d : Disk} {root : String} {report : Report} {st' : State}
    (h : w.write d root = (.ok report, st')) :
    ∃ path st, w.resolver.resolve root = .found path ∧
      w.visit root path (w.start d root) = (.ok (), st) ∧ st.context.report = report ∧
      st'.disk = st.disk := by
  have hgoes := w.goes_write d root
  rw [h] at hgoes
  cases hgoes with
  | finished hroot hvisit hdisk => exact ⟨_, _, hroot, hvisit, rfl, hdisk⟩

-- ---------------------------------------------------------------------------
-- Induction
-- ---------------------------------------------------------------------------

section
variable {w : Writer}
  {P : String → Path → State → Except Error Unit × State → Prop}
  {Q : String → List String → List String → State → Except Error (List String) × State → Prop}

/-- Induction over a walk. `P` is about the work on a module, `Q` about a part of the names found in
one. -/
theorem walk_induct
    (refused : ∀ {module path st e st₁}, w.enter module path st = (.error e, st₁) →
      P module path st (.error e, st₁))
    (failed : ∀ {module path st names st₁ e st₂}, w.enter module path st = (.ok names, st₁) →
      w.visitAll module names [] st₁ = (.error e, st₂) → Q module names [] st₁ (.error e, st₂) →
      P module path st (.error e, st₂.inContext (·.pop)))
    (left : ∀ {module path st names st₁ kept st₂}, w.enter module path st = (.ok names, st₁) →
      w.visitAll module names [] st₁ = (.ok kept, st₂) → Q module names [] st₁ (.ok kept, st₂) →
      P module path st (w.leave module path kept (st₂.inContext (·.pop))))
    (done : ∀ {module kept st}, Q module [] kept st (.ok kept, st))
    (passed : ∀ {module name names kept st edge r}, w.Meets st name edge →
      w.edge st name = edge → (∀ source, edge ≠ .descend source) →
      w.visitAll module names (if edge.isKept then kept ++ [name] else kept)
        (w.settle module name edge st) = r →
      Q module names (if edge.isKept then kept ++ [name] else kept)
        (w.settle module name edge st) r →
      Q module (name :: names) kept st r)
    (stopped : ∀ {module name names kept st source e st₁}, w.Meets st name (.descend source) →
      w.edge st name = .descend source →
      w.visit name source (w.settle module name (.descend source) st) = (.error e, st₁) →
      P name source (w.settle module name (.descend source) st) (.error e, st₁) →
      Q module (name :: names) kept st (.error e, st₁))
    (descended : ∀ {module name names kept st source st₁ r}, w.Meets st name (.descend source) →
      w.edge st name = .descend source →
      w.visit name source (w.settle module name (.descend source) st) = (.ok (), st₁) →
      P name source (w.settle module name (.descend source) st) (.ok (), st₁) →
      w.visitAll module names (kept ++ [name]) st₁ = r → Q module names (kept ++ [name]) st₁ r →
      Q module (name :: names) kept st r) :
    (∀ module path st, P module path st (w.visit module path st)) ∧
      ∀ module names kept st, Q module names kept st (w.visitAll module names kept st) := by
  -- The number of names still to be claimed bounds how deep the walk can go.
  have bounded : ∀ n,
      (∀ module path st, w.resolver.unclaimed st.context.visited ≤ n →
        P module path st (w.visit module path st)) ∧
      ∀ module names kept st, w.resolver.unclaimed st.context.visited ≤ n →
        Q module names kept st (w.visitAll module names kept st) := by
    intro n
    induction n using Nat.strongRecOn with
    | ind n ih =>
      have hall : ∀ module names kept st, w.resolver.unclaimed st.context.visited ≤ n →
          Q module names kept st (w.visitAll module names kept st) := by
        intro module names
        induction names with
        | nil =>
          intro kept st _
          rw [visitAll_nil]
          exact done
        | cons name names ihn =>
          intro kept st hst
          have hmeets := w.meets_edge st name
          have hkeep : ∀ edge, w.resolver.unclaimed
              (w.settle module name edge st).context.visited ≤ n := fun edge =>
            Nat.le_trans (Resolver.unclaimed_le fun _ hm => mem_visited_settle hm) hst
          rw [visitAll_cons]
          split
          · next source hedge =>
            have hlt : w.resolver.unclaimed
                (w.settle module name (.descend source) st).context.visited <
                  w.resolver.unclaimed st.context.visited := unclaimed_settle_lt hedge
            have hvisit := (ih _ (Nat.lt_of_lt_of_le hlt hst)).1 name source _ (Nat.le_refl _)
            have hmem : ∀ m ∈ (w.settle module name (.descend source) st).context.visited,
                m ∈ (w.visit name source
                  (w.settle module name (.descend source) st)).2.context.visited :=
              fun _ hm => mem_visited_visit hm
            rw [hedge] at hmeets
            split
            · next h =>
              rw [h] at hvisit
              exact stopped hmeets hedge h hvisit
            · next h =>
              rw [h] at hvisit hmem
              refine descended hmeets hedge h hvisit rfl (ihn _ _ ?_)
              exact Nat.le_trans (Resolver.unclaimed_le hmem) (hkeep _)
          · next hedge =>
            exact passed hmeets rfl hedge rfl (ihn _ _ (hkeep _))
      refine ⟨fun module path st hst => ?_, hall⟩
      rw [visit_eq]
      split
      · next h => exact refused h
      · next names st₁ h =>
        have hv := w.visited_enter module path st
        rw [h] at hv
        have hQ := hall module names [] st₁ (by rw [hv]; exact hst)
        split
        · next h' =>
          rw [h'] at hQ
          exact failed h h' hQ
        · next h' =>
          rw [h'] at hQ
          exact left h h' hQ
  exact ⟨fun module path st => (bounded _).1 module path st (Nat.le_refl _),
    fun module names kept st => (bounded _).2 module names kept st (Nat.le_refl _)⟩

end

end DesignDeps.Writer
