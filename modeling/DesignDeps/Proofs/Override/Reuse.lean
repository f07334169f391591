import DesignDeps.Proofs.Override.Loading

/-!
# Loading again

What a loader has reported has no influence on what it does (`loadFile_onto`), and a load leaves
nothing else behind, whether it succeeds or not. So a loader that has been used is as good as a new
one: `loadEach_new`.
-/

namespace DesignDeps.Override.Loader

-- ---------------------------------------------------------------------------
-- Earlier events
-- ---------------------------------------------------------------------------

def onto (l : Loader) (log : List Log.Event) : Loader :=
  { l with log := l.log ++ log }

section
variable (d : Disk) (l : Loader) (log : List Log.Event)

@[simp] theorem base_onto : (l.onto log).base = l.base := rfl

@[simp] theorem stack_onto : (l.onto log).stack = l.stack := rfl

@[simp] theorem push_onto (file : Path) : (l.onto log).push file = (l.push file).onto log := rfl

@[simp] theorem pop_onto : (l.onto log).pop = l.pop.onto log := rfl

@[simp] theorem note_onto (events : List Log.Event) :
    (l.onto log).note events = (l.note events).onto log := by
  simp [note, onto]

theorem openFile_onto (file : Path) :
    openFile d (l.onto log) file = ((openFile d l file).1, (openFile d l file).2.onto log) := by
  unfold openFile
  simp only [stack_onto, note_onto]
  split
  · rfl
  · split
    · rfl
    · split <;> rfl

end

theorem files_onto (d : Disk) :
    (∀ l file log, loadFile d (onto l log) file =
      ((loadFile d l file).1, (loadFile d l file).2.onto log)) ∧
    ∀ l files table log, loadListed d (onto l log) files table =
      ((loadListed d l files table).1, (loadListed d l files table).2.onto log) := by
  refine load_induct (d := d)
    (P := fun l file r => ∀ log, loadFile d (l.onto log) file = (r.1, r.2.onto log))
    (Q := fun l files table r =>
      ∀ log, loadListed d (l.onto log) files table = (r.1, r.2.onto log))
    ?unopened ?failed ?loaded ?done ?stopped ?merged
  case unopened =>
    intro l file e l₁ h log
    rw [loadFile_eq, openFile_onto, h]
  case failed =>
    intro l file parsed l₁ e l₂ h _ ih log
    rw [loadFile_eq, openFile_onto, h]
    simp only [push_onto, ih, pop_onto]
  case loaded =>
    intro l file parsed l₁ table l₂ h _ ih log
    rw [loadFile_eq, openFile_onto, h]
    simp only [push_onto, ih, pop_onto, note_onto, base_onto]
  case done => exact fun {l table} log => loadListed_nil d _ table
  case stopped =>
    intro l file files table e l₁ _ ih log
    rw [loadListed_cons, base_onto, ih]
  case merged =>
    intro l file files table nested l₁ r _ ih _ ih' log
    rw [loadListed_cons, base_onto, ih]
    exact ih' log

theorem loadFile_onto (d : Disk) (l : Loader) (log : List Log.Event) (file : Path) :
    loadFile d (l.onto log) file = ((loadFile d l file).1, (loadFile d l file).2.onto log) :=
  (files_onto d).1 l file log

-- ---------------------------------------------------------------------------
-- Loads one after another
-- ---------------------------------------------------------------------------

/-- Loads files in order, each from the disk as it is then, and goes on after failures. -/
def loadEach (l : Loader) : List (Disk × Path) → List (Except Error Table) × Loader
  | [] => ([], l)
  | (d, file) :: loads =>
    let (r, l) := loadFile d l file
    let (rs, l) := loadEach l loads
    (r :: rs, l)

/-- One load by a loader that is not at work: the result is that of a new loader, and the loader is
not at work afterwards. -/
theorem loadFile_new_onto (d : Disk) (base : Path) (log : List Log.Event) (file : Path) :
    loadFile d ((new base).onto log) file =
      ((loadFile d (new base) file).1,
        (new base).onto ((loadFile d (new base) file).2.log ++ log)) := by
  rw [loadFile_onto]
  cases hload : loadFile d (new base) file with
  | mk r l =>
    obtain ⟨hbase, hstack⟩ := keeps_of_loadFile hload
    cases l
    cases hbase
    cases hstack
    rfl

theorem loadEach_onto (base : Path) (log : List Log.Event) (loads : List (Disk × Path)) :
    loadEach ((new base).onto log) loads =
      (loads.map fun (d, file) => (loadFile d (new base) file).1,
        (new base).onto ((loads.flatMap fun (d, file) =>
          (loadFile d (new base) file).2.events).reverse ++ log)) := by
  induction loads generalizing log with
  | nil => rfl
  | cons load loads ih =>
    obtain ⟨d, file⟩ := load
    simp only [loadEach, loadFile_new_onto, ih]
    simp [events]

/-- Whatever the loads before it came to, each load gives what a new loader gives, with the same
events, and leaves nothing open. -/
theorem loadEach_new (base : Path) (loads : List (Disk × Path)) :
    (loadEach (new base) loads).1 = loads.map (fun (d, file) => (loadFile d (new base) file).1) ∧
      (loadEach (new base) loads).2.base = base ∧ (loadEach (new base) loads).2.stack = [] ∧
      (loadEach (new base) loads).2.events =
        loads.flatMap fun (d, file) => (loadFile d (new base) file).2.events := by
  have honto : loadEach (new base) loads = _ := loadEach_onto base [] loads
  rw [honto]
  exact ⟨rfl, rfl, rfl, by simp [events, onto, new]⟩

end DesignDeps.Override.Loader
