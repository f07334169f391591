import DesignDeps.Proofs.Override.Loading
import Mathlib

/-!
# Overrides read one after the other

A list of sources comes to one list of assignments: an override file stands for what the files that
it lists come to, followed by its own entries in ascending order of their keys. `Flattens` says so
without tables, stacks or failures. `load_flattens` is the main statement: a table that is loaded
holds for every module the last assignment to it, and nothing for the others.
-/

namespace DesignDeps.Override

open Text

-- ---------------------------------------------------------------------------
-- Assignments
-- ---------------------------------------------------------------------------

abbrev Assignment := String × Target

def assigned (base : Path) : Option String → Target
  | none => .excluded
  | some value => if trim value = "" then .excluded else .file (base.join ⟨trim value⟩)

theorem ofText_eq_assigned (base : Path) (value : Option String) :
    Target.ofText base value = assigned base value := by
  cases value with
  | none => rfl
  | some value =>
    simp only [Target.ofText, assigned, Option.map_some]
    split
    · contradiction
    · next h =>
      rw [if_pos (Option.some.inj h)]
    · next p hne h =>
      obtain rfl := Option.some.inj h
      rw [if_neg fun hp => hne (by rw [hp])]

/-- The entries of a file itself, in ascending order of the keys as they are written. -/
def File.assignments (base : Path) (file : File) : List Assignment :=
  (file.entries.mergeSort fun e e' => e.1 ≤ e'.1).map fun e => (trim e.1, assigned base e.2)

def lastAssigned (assignments : List Assignment) (module : String) : Option Target :=
  assignments.reverse.lookup module

section
variable {as bs : List Assignment} {module : String} {target : Target}

theorem lastAssigned_append :
    lastAssigned (as ++ bs) module = (lastAssigned bs module).or (lastAssigned as module) := by
  rw [lastAssigned, List.reverse_append, List.lookup_append]
  rfl

theorem lastAssigned_cons {a : Assignment} :
    lastAssigned (a :: as) module =
      (lastAssigned as module).or (if module = a.1 then some a.2 else none) := by
  rw [← List.singleton_append, lastAssigned_append]
  congr 1
  exact Table.lookup_cons

theorem lastAssigned_eq_none_iff :
    lastAssigned as module = none ↔ module ∉ as.map Prod.fst := by
  induction as with
  | nil => simp [lastAssigned]
  | cons a as ih => simp [lastAssigned_cons, ih, and_comm]

theorem lastAssigned_eq_some_iff :
    lastAssigned as module = some target ↔
      ∃ before after, as = before ++ (module, target) :: after ∧ module ∉ after.map Prod.fst := by
  constructor
  · intro h
    induction as with
    | nil => simp [lastAssigned] at h
    | cons a as ih =>
      rw [lastAssigned_cons] at h
      cases hlast : lastAssigned as module with
      | some t =>
        obtain rfl : t = target := by simpa [hlast] using h
        obtain ⟨before, after, rfl, hafter⟩ := ih hlast
        exact ⟨a :: before, after, rfl, hafter⟩
      | none =>
        rw [hlast, Option.none_or] at h
        split at h
        · next hname =>
          obtain rfl := Option.some.inj h
          exact ⟨[], as, by rw [hname]; rfl, lastAssigned_eq_none_iff.1 hlast⟩
        · cases h
  · rintro ⟨before, after, rfl, hafter⟩
    simp [lastAssigned_append, lastAssigned_cons, lastAssigned_eq_none_iff.2 hafter]

end

-- ---------------------------------------------------------------------------
-- Tables
-- ---------------------------------------------------------------------------

namespace Table

/-- The table has an entry for the modules that something is assigned to, and for each of them the
last thing that is. -/
def HoldsLast (table : Table) (assignments : List Assignment) : Prop :=
  ∀ module,
    (table.contains module = true ↔ module ∈ assignments.map Prod.fst) ∧
    ∀ target, table.get? module = some target ↔
      ∃ before after, assignments = before ++ (module, target) :: after ∧
        module ∉ after.map Prod.fst

variable {t u : Table} {es : List Assignment} {k : String}

theorem get?_insertAll :
    (es.foldl (fun t e => t.insert e.1 e.2) t).get? k = (lastAssigned es k).or (t.get? k) := by
  induction es generalizing t with
  | nil => rfl
  | cons e es ih =>
    rw [List.foldl_cons, ih, lastAssigned_cons, get?_insert, Option.or_assoc]
    split <;> rfl

theorem lastAssigned_of_ascending (h : (es.map Prod.fst).Pairwise (· < ·)) :
    lastAssigned es k = es.lookup k := by
  induction es with
  | nil => rfl
  | cons e es ih =>
    obtain ⟨hfirst, hrest⟩ := List.pairwise_cons.1 h
    rw [lastAssigned_cons, lookup_cons, ← ih hrest]
    split
    · next hk =>
      have hnone : lastAssigned es k = none :=
        lastAssigned_eq_none_iff.2 fun hmem => String.lt_irrefl _ (hk ▸ hfirst k hmem)
      rw [hnone, Option.none_or]
    · rw [Option.or_none]

theorem get?_extend : (t.extend u).get? k = (u.get? k).or (t.get? k) := by
  rw [extend, get?_insertAll, lastAssigned_of_ascending u.ascending]
  rfl

end Table

-- ---------------------------------------------------------------------------
-- Entries of a file
-- ---------------------------------------------------------------------------

namespace File

section
variable {name k : String} {path : Option String} {es : List (String × Option String)}

theorem mem_keys_insertEntry :
    k ∈ (insertEntry name path es).map Prod.fst ↔ k = name ∨ k ∈ es.map Prod.fst := by
  induction es with
  | nil => simp [insertEntry]
  | cons e es ih =>
    unfold insertEntry
    split
    · simp
    · split
      · next h => simp [h]
      · simp only [List.map_cons, List.mem_cons, ih, or_left_comm]

theorem pairwise_insertEntry (h : (es.map Prod.fst).Pairwise (· < ·)) :
    ((insertEntry name path es).map Prod.fst).Pairwise (· < ·) := by
  induction es with
  | nil => simp [insertEntry]
  | cons e es ih =>
    obtain ⟨hfirst, hrest⟩ := List.pairwise_cons.1 h
    unfold insertEntry
    split
    · next hlt =>
      refine List.pairwise_cons.2 ⟨fun k hk => ?_, h⟩
      rcases List.mem_cons.1 hk with rfl | hk
      · exact hlt
      · exact String.lt_trans hlt (hfirst k hk)
    · split
      · next heq => exact List.pairwise_cons.2 ⟨fun k hk => heq ▸ hfirst k hk, hrest⟩
      · next hlt hne =>
        refine List.pairwise_cons.2 ⟨fun k hk => ?_, ih hrest⟩
        rcases mem_keys_insertEntry.1 hk with rfl | hk
        · exact lt_of_not_lt_of_ne hlt hne
        · exact hfirst k hk

end

theorem ascending_file (draft : Draft) : (draft.file.entries.map Prod.fst).Pairwise (· < ·) := by
  unfold Draft.file
  dsimp only
  induction draft.entries with
  | nil => exact .nil
  | cons e es ih => exact pairwise_insertEntry ih

theorem ascending_of_ofNodes? {document : List Node} {file : File}
    (h : ofNodes? document = .ok file) : (file.entries.map Prod.fst).Pairwise (· < ·) := by
  unfold ofNodes? at h
  split at h
  · cases h
    exact .nil
  · generalize readMapping _ _ _ _ = read at h
    cases read with
    | error e => cases h
    | ok draft =>
      cases h
      exact ascending_file draft
  · split at h
    · cases h
      exact .nil
    · cases h
  · cases h

theorem ascending_of_ofText? {text : String} {file : File} (h : ofText? text = .ok file) :
    (file.entries.map Prod.fst).Pairwise (· < ·) := by
  unfold ofText? at h
  split at h
  · cases h
    exact .nil
  · simp only [bind, Except.bind] at h
    split at h
    · cases h
    · split at h
      · cases h
      · split at h
        · cases h
        · split at h
          · cases h
          · exact ascending_of_ofNodes? h

theorem mergeSort_entries {file : File} (h : (file.entries.map Prod.fst).Pairwise (· < ·)) :
    file.entries.mergeSort (fun e e' => e.1 ≤ e'.1) = file.entries := by
  refine List.mergeSort_of_pairwise ((List.pairwise_map.1 h).imp fun hlt => ?_)
  simpa using hlt.le

end File

-- ---------------------------------------------------------------------------
-- Flattening
-- ---------------------------------------------------------------------------

def File.listed (base : Path) (file : File) : List Source :=
  file.includes.map fun name => .file (base.join ⟨name⟩)

/-- What a list of sources comes to, assignment by assignment. -/
inductive Flattens (d : Disk) (base : Path) : List Source → List Assignment → Prop
  | nil : Flattens d base [] []
  | direct {module path sources as} : Flattens d base sources as →
      Flattens d base (.direct module path :: sources) ((module, assigned base path) :: as)
  | file {file parsed listed sources as} : fileAt? d file = some parsed →
      Flattens d base (parsed.listed base) listed → Flattens d base sources as →
      Flattens d base (.file file :: sources) (listed ++ parsed.assignments base ++ as)

section
variable {d : Disk} {base : Path} {sources others : List Source} {as bs : List Assignment}

theorem Flattens.append (h : Flattens d base sources as) (h' : Flattens d base others bs) :
    Flattens d base (sources ++ others) (as ++ bs) := by
  induction h with
  | nil => exact h'
  | direct _ ih => exact .direct ih
  | file hfile hlisted _ _ ih =>
    rw [List.append_assoc]
    exact .file hfile hlisted ih

theorem Flattens.unique (h : Flattens d base sources as) (h' : Flattens d base sources bs) :
    bs = as := by
  induction h generalizing bs with
  | nil =>
    cases h'
    rfl
  | direct _ ih =>
    cases h' with
    | direct hrest => rw [ih hrest]
  | file hfile _ _ ihlisted ih =>
    cases h' with
    | file hfile' hlisted hrest =>
      obtain rfl := Option.some.inj (hfile.symm.trans hfile')
      rw [ihlisted hlisted, ih hrest]

end

-- ---------------------------------------------------------------------------
-- Loading
-- ---------------------------------------------------------------------------

namespace Loader

variable {d : Disk} {l l' : Loader} {table table' : Table} {sources : List Source}

theorem get?_enterAll {base : Path} {parsed : File} {module : String}
    (h : (parsed.entries.map Prod.fst).Pairwise (· < ·)) :
    (enterAll base parsed.entries table).get? module =
      (lastAssigned (parsed.assignments base) module).or (table.get? module) := by
  rw [← Table.get?_insertAll, File.assignments, File.mergeSort_entries h, List.foldl_map, enterAll]
  simp only [ofText_eq_assigned]

theorem flattens_of_files (d : Disk) :
    (∀ l file table, (loadFile d l file).1 = .ok table →
      ∃ as, Flattens d l.base [.file file] as ∧
        ∀ module, table.get? module = lastAssigned as module) ∧
    ∀ l files table table', (loadListed d l files table).1 = .ok table' →
      ∃ as, Flattens d l.base (files.map fun name => .file (l.base.join ⟨name⟩)) as ∧
        ∀ module, table'.get? module = (lastAssigned as module).or (table.get? module) := by
  refine load_induct (d := d)
    (P := fun l file r => ∀ table, r.1 = .ok table →
      ∃ as, Flattens d l.base [.file file] as ∧
        ∀ module, table.get? module = lastAssigned as module)
    (Q := fun l files table r => ∀ table', r.1 = .ok table' →
      ∃ as, Flattens d l.base (files.map fun name => .file (l.base.join ⟨name⟩)) as ∧
        ∀ module, table'.get? module = (lastAssigned as module).or (table.get? module))
    ?unopened ?failed ?loaded ?done ?stopped ?merged
  case unopened => rintro l file e l₁ _ table ⟨⟩
  case failed => rintro l file parsed l₁ e l₂ _ _ _ table ⟨⟩
  case loaded =>
    rintro l file parsed l₁ table l₂ h _ ih _ ⟨⟩
    obtain ⟨-, hfile, rfl⟩ := openFile_eq_ok_iff.1 h
    obtain ⟨listed, hlisted, hget⟩ := ih table rfl
    refine ⟨_, .file hfile hlisted .nil, fun module => ?_⟩
    obtain ⟨text, -, hparse⟩ := fileAt?_eq_some_iff.1 hfile
    rw [get?_enterAll (File.ascending_of_ofText? hparse), hget, List.append_nil,
      lastAssigned_append, Table.get?_empty, Option.or_none]
  case done =>
    rintro l table _ ⟨⟩
    exact ⟨[], .nil, fun module => rfl⟩
  case stopped => rintro l file files table e l₁ _ _ table' ⟨⟩
  case merged =>
    intro l file files table nested l₁ r h ih _ ih' table' hr
    obtain ⟨as, has, hget⟩ := ih nested rfl
    obtain ⟨bs, hbs, hget'⟩ := ih' table' hr
    rw [(keeps_of_loadFile h).1] at hbs
    refine ⟨as ++ bs, has.append hbs, fun module => ?_⟩
    rw [hget', Table.get?_extend, hget, lastAssigned_append, Option.or_assoc]

theorem flattens_of_loadOnto (h : (loadOnto d l table sources).1 = .ok table') :
    ∃ as, Flattens d l.base sources as ∧
      ∀ module, table'.get? module = (lastAssigned as module).or (table.get? module) := by
  induction sources generalizing l table with
  | nil =>
    cases h
    exact ⟨[], .nil, fun module => rfl⟩
  | cons source sources ih =>
    cases source with
    | direct module path =>
      obtain ⟨as, has, hget⟩ := ih h
      refine ⟨_, .direct has, fun k => ?_⟩
      rw [hget, Table.get?_insert, lastAssigned_cons, Option.or_assoc, ofText_eq_assigned]
      congr 1
      split <;> rfl
    | file file =>
      unfold loadOnto at h
      split at h
      · cases h
      · next nested l₁ hfile =>
        obtain ⟨as, has, hget⟩ := (flattens_of_files d).1 l file nested (by rw [hfile])
        obtain ⟨bs, hbs, hget'⟩ := ih h
        rw [(keeps_of_loadFile hfile).1] at hbs
        refine ⟨as ++ bs, has.append hbs, fun module => ?_⟩
        rw [hget', Table.get?_extend, hget, lastAssigned_append, Option.or_assoc]

/-- The sources of a load that succeeds come to one list of assignments, of which the table holds
the last for each module. -/
theorem load_flattens (h : (load d l sources).1 = .ok table) :
    ∃ assignments, Flattens d l.base sources assignments ∧
      (∀ others, Flattens d l.base sources others → others = assignments) ∧
      table.HoldsLast assignments := by
  obtain ⟨as, has, hget⟩ := flattens_of_loadOnto h
  have hlast : ∀ module, table.get? module = lastAssigned as module := by
    intro module
    rw [hget, Table.get?_empty, Option.or_none]
  refine ⟨as, has, fun others hothers => has.unique hothers, fun module => ⟨?_, fun target => ?_⟩⟩
  · rw [Table.contains, hlast, Option.isSome_iff_ne_none, ne_eq, lastAssigned_eq_none_iff, not_not]
  · rw [hlast, lastAssigned_eq_some_iff]

end Loader

-- ---------------------------------------------------------------------------
-- A file over another
-- ---------------------------------------------------------------------------

def layered : Disk where
  entries :=
    [(["o"], .dir),
      (["o", "top.yml"], .file "include: [o/base.yml]\nm: b.sv\nn:\n".toUTF8 0),
      (["o", "base.yml"], .file "m: a.sv\nk: c.sv\n".toUTF8 0)]
  cwd := []
  clock := 0

theorem fileAt?_top : fileAt? layered ⟨"/o/top.yml"⟩ =
    some ⟨["o/base.yml"], [("m", some "b.sv"), ("n", none)]⟩ := by
  have hread : layered.readText ⟨"/o/top.yml"⟩ =
      .ok "include: [o/base.yml]\nm: b.sv\nn:\n" := by cbv
  exact fileAt?_eq_some_iff.2 ⟨_, hread, toOption_eq_some_iff.1 (by decide +kernel)⟩

theorem fileAt?_base : fileAt? layered ⟨"/o/base.yml"⟩ =
    some ⟨[], [("k", some "c.sv"), ("m", some "a.sv")]⟩ := by
  have hread : layered.readText ⟨"/o/base.yml"⟩ = .ok "m: a.sv\nk: c.sv\n" := by cbv
  exact fileAt?_eq_some_iff.2 ⟨_, hread, toOption_eq_some_iff.1 (by decide +kernel)⟩

theorem load_layered : ∃ table : Table,
    (Loader.load layered (.new ⟨"/"⟩) [.file ⟨"/o/top.yml"⟩, .direct "k" none]).1 = .ok table ∧
      table.entries = [("k", .excluded), ("m", .file ⟨"/b.sv"⟩), ("n", .excluded)] := by
  have htop : layered.fileKey ⟨"/o/top.yml"⟩ = ⟨"/o/top.yml"⟩ := by cbv
  have hbase : layered.fileKey ⟨"/o/base.yml"⟩ = ⟨"/o/base.yml"⟩ := by cbv
  have hjoin (l : Loader) (h : l.base = ⟨"/"⟩) : l.base.join ⟨"o/base.yml"⟩ = ⟨"/o/base.yml"⟩ := by
    rw [h]
    decide
  simp only [Loader.load, Loader.loadOnto, Loader.loadFile_eq]
  rw [Loader.openFile_eq_ok_iff.2 ⟨by simp [Loader.new], fileAt?_top, rfl⟩]
  simp only [Loader.loadListed_cons, Loader.loadListed_nil, Loader.loadFile_eq]
  rw [htop, hjoin _ rfl, Loader.openFile_eq_ok_iff.2 ⟨by rw [hbase]; decide, fileAt?_base, rfl⟩]
  simp only [Loader.loadListed_nil]
  exact ⟨_, rfl, by decide⟩

theorem load_flattens_layered : ∃ table : Table,
    (Loader.load layered (.new ⟨"/"⟩) [.file ⟨"/o/top.yml"⟩, .direct "k" none]).1 = .ok table ∧
      table.entries = [("k", .excluded), ("m", .file ⟨"/b.sv"⟩), ("n", .excluded)] ∧
      ∃ assignments,
        Flattens layered ⟨"/"⟩ [.file ⟨"/o/top.yml"⟩, .direct "k" none] assignments ∧
        (∀ others, Flattens layered ⟨"/"⟩ [.file ⟨"/o/top.yml"⟩, .direct "k" none] others →
          others = assignments) ∧
        table.HoldsLast assignments := by
  obtain ⟨table, hload, hentries⟩ := load_layered
  exact ⟨table, hload, hentries, Loader.load_flattens hload⟩

end DesignDeps.Override
