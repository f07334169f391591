import DesignDeps.Override.Loader

/-!
# Loading overrides, file by file

`fileAt?` is what a file says by itself, and `openFile_eq_ok_iff` when a load gets to see it.
`load_induct` is the induction over the files that a load goes through: what holds of every step,
given the same of the files listed in it, holds of every load, whether it succeeds or not.
`failure_of_load` uses it to say what a load can fail on.
-/

namespace DesignDeps.Override

open Text

variable {d : Disk}

-- ---------------------------------------------------------------------------
-- Single files
-- ---------------------------------------------------------------------------

theorem toOption_eq_some_iff {ε α : Type} {x : Except ε α} {a : α} :
    x.toOption = some a ↔ x = .ok a := by
  cases x <;> simp [Except.toOption]

def fileAt? (d : Disk) (file : Path) : Option File :=
  (d.readText file).toOption.bind fun text => (File.ofText? text).toOption

theorem fileAt?_eq_some_iff {file : Path} {parsed : File} :
    fileAt? d file = some parsed ↔
      ∃ text, d.readText file = .ok text ∧ File.ofText? text = .ok parsed := by
  simp only [fileAt?, Option.bind_eq_some_iff, toOption_eq_some_iff]

namespace Loader

theorem openFile_eq_ok_iff {l l' : Loader} {file : Path} {parsed : File} :
    openFile d l file = (.ok parsed, l') ↔
      l.stack.any (·.same (d.fileKey file)) = false ∧ fileAt? d file = some parsed ∧
        l' = l.note [.readingOverrides file] := by
  rw [fileAt?_eq_some_iff]
  unfold openFile
  split
  · next hstack => simp [hstack]
  · next hstack =>
    rw [Bool.not_eq_true] at hstack
    dsimp only
    split
    · next hread => simp [hread]
    · next text hread =>
      split
      · next hparse => simp [hread, hparse]
      · next hparse => simp [hread, hparse, hstack, eq_comm]

theorem base_openFile (d : Disk) (l : Loader) (file : Path) :
    (openFile d l file).2.base = l.base := by
  unfold openFile
  split
  · rfl
  · dsimp only
    split
    · rfl
    · split <;> rfl

-- ---------------------------------------------------------------------------
-- Induction
-- ---------------------------------------------------------------------------

section
variable {P : Loader → Path → Except Error Table × Loader → Prop}
  {Q : Loader → List String → Table → Except Error Table × Loader → Prop}

/-- Induction over a load. `P` is about the load of a file, `Q` about a part of the files listed in
one, on top of a table. -/
theorem load_induct
    (unopened : ∀ {l file e l₁}, openFile d l file = (.error e, l₁) → P l file (.error e, l₁))
    (failed : ∀ {l file parsed l₁ e l₂}, openFile d l file = (.ok parsed, l₁) →
      loadListed d (l₁.push (d.fileKey file)) parsed.includes ∅ = (.error e, l₂) →
      Q (l₁.push (d.fileKey file)) parsed.includes ∅ (.error e, l₂) →
      P l file (.error e, l₂.pop))
    (loaded : ∀ {l file parsed l₁ table l₂}, openFile d l file = (.ok parsed, l₁) →
      loadListed d (l₁.push (d.fileKey file)) parsed.includes ∅ = (.ok table, l₂) →
      Q (l₁.push (d.fileKey file)) parsed.includes ∅ (.ok table, l₂) →
      P l file (.ok (enterAll l.base parsed.entries table),
        l₂.pop.note (parsed.entries.map fun e => .fileOverride file e.1 e.2)))
    (done : ∀ {l table}, Q l [] table (.ok table, l))
    (stopped : ∀ {l file files table e l₁},
      loadFile d l (l.base.join ⟨file⟩) = (.error e, l₁) →
      P l (l.base.join ⟨file⟩) (.error e, l₁) → Q l (file :: files) table (.error e, l₁))
    (merged : ∀ {l file files table nested l₁ r},
      loadFile d l (l.base.join ⟨file⟩) = (.ok nested, l₁) →
      P l (l.base.join ⟨file⟩) (.ok nested, l₁) →
      loadListed d l₁ files (table.extend nested) = r → Q l₁ files (table.extend nested) r →
      Q l (file :: files) table r) :
    (∀ l file, P l file (loadFile d l file)) ∧
      ∀ l files table, Q l files table (loadListed d l files table) := by
  -- The files of the disk that are not being loaded bound how deep the lists can go.
  have bounded : ∀ n,
      (∀ l file, d.unopened l.stack ≤ n → P l file (loadFile d l file)) ∧
      ∀ l files table, d.unopened l.stack ≤ n →
        Q l files table (loadListed d l files table) := by
    intro n
    induction n using Nat.strongRecOn with
    | ind n ih =>
      have hfile : ∀ l file, d.unopened l.stack ≤ n → P l file (loadFile d l file) := by
        intro l file hn
        rw [loadFile_eq]
        split
        · next h => exact unopened h
        · next parsed l₁ h =>
          have hlt : d.unopened (l₁.push (d.fileKey file)).stack < n :=
            Nat.lt_of_lt_of_le (unopened_openFile h) hn
          have hlisted := (ih _ hlt).2 _ parsed.includes ∅ (Nat.le_refl _)
          split
          · next h' =>
            rw [h'] at hlisted
            exact failed h h' hlisted
          · next h' =>
            rw [h'] at hlisted
            exact loaded h h' hlisted
      refine ⟨hfile, fun l files => ?_⟩
      induction files generalizing l with
      | nil =>
        intro table _
        rw [loadListed_nil]
        exact done
      | cons file files ihf =>
        intro table hn
        have hfirst := hfile l (l.base.join ⟨file⟩) hn
        have hstack := stack_loadFile d l (l.base.join ⟨file⟩)
        rw [loadListed_cons]
        split
        · next h =>
          rw [h] at hfirst
          exact stopped h hfirst
        · next h =>
          rw [h] at hfirst hstack
          exact merged h hfirst rfl (ihf _ _ (hstack ▸ hn))
  exact ⟨fun l file => (bounded _).1 l file (Nat.le_refl _),
    fun l files table => (bounded _).2 l files table (Nat.le_refl _)⟩

end

theorem base_of_files (d : Disk) :
    (∀ l file, (loadFile d l file).2.base = l.base) ∧
    ∀ l files table, (loadListed d l files table).2.base = l.base := by
  refine load_induct (d := d) (P := fun l _ r => r.2.base = l.base)
    (Q := fun l _ _ r => r.2.base = l.base) ?unopened ?failed ?loaded ?done ?stopped ?merged
  case unopened =>
    intro l file e l₁ h
    simpa [h] using base_openFile d l file
  case failed =>
    intro l file parsed l₁ e l₂ h _ ih
    obtain ⟨-, -, rfl⟩ := openFile_eq_ok_iff.1 h
    exact ih
  case loaded =>
    intro l file parsed l₁ table l₂ h _ ih
    obtain ⟨-, -, rfl⟩ := openFile_eq_ok_iff.1 h
    exact ih
  case done => exact fun {_ _} => rfl
  case stopped => exact fun {_ _ _ _ _ _} _ ih => ih
  case merged => exact fun {_ _ _ _ _ _ _} _ ih _ ih' => ih'.trans ih

theorem keeps_of_loadFile {l l' : Loader} {file : Path} {r : Except Error Table}
    (h : loadFile d l file = (r, l')) : l'.base = l.base ∧ l'.stack = l.stack := by
  have hbase := (base_of_files d).1 l file
  have hstack := stack_loadFile d l file
  rw [h] at hbase hstack
  exact ⟨hbase, hstack⟩

-- ---------------------------------------------------------------------------
-- Failures
-- ---------------------------------------------------------------------------

/-- What a load can fail on. -/
inductive Failure (d : Disk) : Error → Prop
  | recurring {file} : Failure d (.overrideCycle file)
  | unreadable {file cause} : d.readText file = .error cause → Failure d (.io file cause)
  | malformed {file text} : d.readText file = .ok text →
      (∀ parsed, File.ofText? text ≠ .ok parsed) → Failure d (.malformedOverrides file)

theorem Failure.ne_invalidConfig {e : Error} {fault : ConfigFault} (h : Failure d e) :
    e ≠ .invalidConfig fault := by
  rintro rfl
  cases h

section
variable {l l' : Loader} {file : Path} {e : Error}

theorem failure_of_openFile (h : openFile d l file = (.error e, l')) : Failure d e := by
  unfold openFile at h
  split at h
  · cases h
    exact .recurring
  · dsimp only at h
    split at h
    · next hread =>
      cases h
      exact .unreadable hread
    · next hread =>
      split at h
      · next hparse =>
        cases h
        exact .malformed hread fun parsed hok => by cases hparse.symm.trans hok
      · cases h

theorem failure_of_files (d : Disk) :
    (∀ l file e, (loadFile d l file).1 = .error e → Failure d e) ∧
    ∀ l files table e, (loadListed d l files table).1 = .error e → Failure d e := by
  have hload := load_induct (d := d)
    (P := fun _ _ r => ∀ e, r.1 = .error e → Failure d e)
    (Q := fun _ _ _ r => ∀ e, r.1 = .error e → Failure d e)
    ?unopened ?failed ?loaded ?done ?stopped ?merged
  · exact ⟨hload.1, fun l files table => hload.2 l files table⟩
  case unopened =>
    rintro l file e l₁ h _ ⟨⟩
    exact failure_of_openFile h
  case failed =>
    intro l file parsed l₁ e l₂ _ _ ih e' he
    exact ih e' he
  case loaded => rintro l file parsed l₁ table l₂ _ _ _ e ⟨⟩
  case done => rintro l table e ⟨⟩
  case stopped =>
    intro l file files table e l₁ _ ih e' he
    exact ih e' he
  case merged =>
    intro l file files table nested l₁ r _ _ _ ih e he
    exact ih e he

theorem failure_of_loadOnto {table : Table} {sources : List Source}
    (h : (loadOnto d l table sources).1 = .error e) : Failure d e := by
  induction sources generalizing l table with
  | nil => cases h
  | cons source sources ih =>
    cases source with
    | direct module path => exact ih h
    | file file =>
      unfold loadOnto at h
      split at h
      · next hfile =>
        cases h
        exact (failure_of_files d).1 _ file _ (by rw [hfile])
      · exact ih h

theorem failure_of_load {sources : List Source} (h : (load d l sources).1 = .error e) :
    Failure d e :=
  failure_of_loadOnto h

end

end Loader

end DesignDeps.Override
