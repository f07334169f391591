import DesignDeps.Proofs.Override.Cycles

/-!
# Loads end

`loadWithin` is the load of an override file with a bound on how deep it may go, which it gives up
at, and with a list of the loads it makes for listed files. Nothing in it refers to what is left on
the disk. `loadFile_terminates`: a bound above the number of entries of the disk that are not open
is never reached, whatever the files list and however they spell it, because every load is made by
the load of a file that can be read and was not open before (`Nested`).
-/

namespace DesignDeps.Override

open Relation

/-- A load, with the files that are open when it is made. -/
structure Call where
  file : Path
  stack : List Path
  deriving DecidableEq

/-- The load of `b` makes the one of `c`, for a file that it lists. Before, it has put one more
place on the stack, where a file stands that can be read. -/
structure Nested (d : Disk) (base : Path) (b c : Call) : Prop where
  lists : Lists d base b.file c.file
  stands : ∃ l parsed, d.canonical b.file = .ok l.path ∧ d.fileKey b.file = l.path ∧
    Stands d l parsed
  unopened : ∀ k ∈ b.stack, k.same (d.fileKey b.file) = false
  opened : c.stack = d.fileKey b.file :: b.stack

namespace Loader

def loadListedWith (below : Loader → Path → Option (List Call × Except Error Table × Loader)) :
    Loader → List String → Table → Option (List Call × Except Error Table × Loader)
  | l, [], table => some ([], .ok table, l)
  | l, name :: names, table =>
    let call : Call := ⟨l.base.join ⟨name⟩, l.stack⟩
    match below l call.file with
    | none => none
    | some (calls, .error e, l₁) => some (call :: calls, .error e, l₁)
    | some (calls, .ok nested, l₁) =>
      match loadListedWith below l₁ names (table.extend nested) with
      | none => none
      | some (more, r) => some (call :: calls ++ more, r)

/-- The load that gives up at the given depth. -/
def loadWithin (d : Disk) :
    Nat → Loader → Path → Option (List Call × Except Error Table × Loader)
  | 0, _, _ => none
  | depth + 1, l, file =>
    match openFile d l file with
    | (.error e, l₁) => some ([], .error e, l₁)
    | (.ok parsed, l₁) =>
      match loadListedWith (loadWithin d depth) (l₁.push (d.fileKey file)) parsed.includes ∅ with
      | none => none
      | some (calls, .error e, l₂) => some (calls, .error e, l₂.pop)
      | some (calls, .ok table, l₂) =>
        some (calls, .ok (enterAll l.base parsed.entries table),
          l₂.pop.note (parsed.entries.map fun e => .fileOverride file e.1 e.2))

variable {d : Disk} {base : Path} {b c : Call} {calls more : List Call}

-- ---------------------------------------------------------------------------
-- Calls
-- ---------------------------------------------------------------------------

theorem nested_listed {l l₁ : Loader} {file : Path} {parsed : File} {name : String}
    (h : openFile d l file = (.ok parsed, l₁)) (hname : name ∈ parsed.includes) :
    Nested d l.base ⟨file, l.stack⟩ ⟨l.base.join ⟨name⟩, d.fileKey file :: l.stack⟩ := by
  obtain ⟨hstack, hfile, -⟩ := openFile_eq_ok_iff.1 h
  obtain ⟨k, hreach, hstands⟩ := fileAt?_iff_stands.1 hfile
  have hlocate := locate_of_reach hreach
  refine ⟨lists_listed hfile hname, ⟨k, parsed, ?_, fileKey_of_locate hlocate, hstands⟩, ?_, rfl⟩
  · simp [Disk.canonical, hlocate, Except.map]
  · exact fun k hk => by simpa using List.any_eq_false.1 hstack k hk

theorem length_add_unopened_le (h : Nested d base b c) :
    c.stack.length + d.unopened c.stack ≤ b.stack.length + d.unopened b.stack := by
  obtain ⟨parsed, hfile, -⟩ := h.lists
  obtain ⟨text, hread, -⟩ := fileAt?_eq_some_iff.1 hfile
  have hstack : ¬b.stack.any (·.same (d.fileKey b.file)) = true := by
    simpa using h.unopened
  have hlt := Disk.unopened_lt hread hstack
  rw [h.opened, List.length_cons]
  omega

theorem length_add_unopened_le_of_transGen (h : TransGen (Nested d base) b c) :
    c.stack.length + d.unopened c.stack ≤ b.stack.length + d.unopened b.stack := by
  induction h with
  | single h => exact length_add_unopened_le h
  | tail _ h ih => exact (length_add_unopened_le h).trans ih

def Grown (d : Disk) (base : Path) (b : Call) (calls : List Call) : Prop :=
  ∀ c ∈ calls, TransGen (Nested d base) b c ∧ ∃ a ∈ b :: calls, Nested d base a c

theorem grown_nil : Grown d base b [] := by simp [Grown]

theorem Grown.cons (hc : Nested d base b c) (h : Grown d base c calls) :
    Grown d base b (c :: calls) := by
  intro c' hc'
  rcases List.mem_cons.1 hc' with rfl | hmem
  · exact ⟨.single hc, b, List.mem_cons_self, hc⟩
  · obtain ⟨hway, a, ha, hnested⟩ := h c' hmem
    exact ⟨.head hc hway, a, List.mem_cons_of_mem _ ha, hnested⟩

theorem Grown.append (h : Grown d base b calls) (h' : Grown d base b more) :
    Grown d base b (calls ++ more) := by
  intro c hc
  rcases List.mem_append.1 hc with hc | hc
  · obtain ⟨hway, a, ha, hnested⟩ := h c hc
    refine ⟨hway, a, ?_, hnested⟩
    rw [← List.cons_append]
    exact List.mem_append_left _ ha
  · obtain ⟨hway, a, ha, hnested⟩ := h' c hc
    refine ⟨hway, a, ?_, hnested⟩
    rcases List.mem_cons.1 ha with rfl | ha
    · exact List.mem_cons_self
    · exact List.mem_cons_of_mem _ (List.mem_append_right _ ha)

-- ---------------------------------------------------------------------------
-- The bound is not reached
-- ---------------------------------------------------------------------------

def FileWithin (d : Disk) (l : Loader) (file : Path) (r : Except Error Table × Loader) : Prop :=
  ∀ depth, d.unopened l.stack < depth →
    ∃ calls, loadWithin d depth l file = some (calls, r) ∧ Grown d l.base ⟨file, l.stack⟩ calls

def ListedWithin (d : Disk) (l : Loader) (names : List String) (table : Table)
    (r : Except Error Table × Loader) : Prop :=
  ∀ depth, d.unopened l.stack < depth →
    ∀ b, (∀ name ∈ names, Nested d l.base b ⟨l.base.join ⟨name⟩, l.stack⟩) →
      ∃ calls, loadListedWith (loadWithin d depth) l names table = some (calls, r) ∧
        Grown d l.base b calls

theorem ListedWithin.of_openFile {l l₁ : Loader} {file : Path} {parsed : File}
    {r : Except Error Table × Loader} {depth : Nat} (h : openFile d l file = (.ok parsed, l₁))
    (hlisted : ListedWithin d (l₁.push (d.fileKey file)) parsed.includes ∅ r)
    (hdepth : d.unopened l.stack < depth + 1) :
    ∃ calls, loadListedWith (loadWithin d depth) (l₁.push (d.fileKey file)) parsed.includes ∅ =
        some (calls, r) ∧ Grown d l.base ⟨file, l.stack⟩ calls := by
  have hlt : d.unopened (l₁.push (d.fileKey file)).stack < depth :=
    Nat.lt_of_lt_of_le (unopened_openFile h) (Nat.le_of_lt_succ hdepth)
  have hnested := fun name (hname : name ∈ parsed.includes) => nested_listed h hname
  obtain ⟨-, -, rfl⟩ := openFile_eq_ok_iff.1 h
  exact hlisted depth hlt ⟨file, l.stack⟩ hnested

theorem within_complete (d : Disk) :
    (∀ l file, FileWithin d l file (loadFile d l file)) ∧
    ∀ l names table, ListedWithin d l names table (loadListed d l names table) := by
  refine load_induct (d := d) (P := FileWithin d) (Q := ListedWithin d)
    ?unopened ?failed ?loaded ?done ?stopped ?merged
  case unopened =>
    intro l file e l₁ h depth hdepth
    cases depth with
    | zero => omega
    | succ depth => exact ⟨[], by simp [loadWithin, h], grown_nil⟩
  case failed =>
    intro l file parsed l₁ e l₂ h _ ih depth hdepth
    cases depth with
    | zero => omega
    | succ depth =>
      obtain ⟨calls, heq, hcalls⟩ := ListedWithin.of_openFile h ih hdepth
      exact ⟨calls, by simp [loadWithin, h, heq], hcalls⟩
  case loaded =>
    intro l file parsed l₁ table l₂ h _ ih depth hdepth
    cases depth with
    | zero => omega
    | succ depth =>
      obtain ⟨calls, heq, hcalls⟩ := ListedWithin.of_openFile h ih hdepth
      exact ⟨calls, by simp [loadWithin, h, heq], hcalls⟩
  case done =>
    intro l table depth _ b _
    exact ⟨[], rfl, grown_nil⟩
  case stopped =>
    intro l name names table e l₁ _ ih depth hdepth b hlisted
    obtain ⟨calls, heq, hcalls⟩ := ih depth hdepth
    exact ⟨_, by simp [loadListedWith, heq], hcalls.cons (hlisted name List.mem_cons_self)⟩
  case merged =>
    intro l name names table nested l₁ r h ih _ ih' depth hdepth b hlisted
    obtain ⟨hbase, hstack⟩ := keeps_of_loadFile h
    rw [ListedWithin, hbase, hstack] at ih'
    obtain ⟨calls, heq, hcalls⟩ := ih depth hdepth
    obtain ⟨more, heq', hmore⟩ :=
      ih' depth hdepth b fun name hname => hlisted name (List.mem_cons_of_mem _ hname)
    exact ⟨_, by simp [loadListedWith, heq, heq'],
      (hcalls.cons (hlisted name List.mem_cons_self)).append hmore⟩

-- ---------------------------------------------------------------------------
-- The theorem
-- ---------------------------------------------------------------------------

/-- Every load ends, from any stack and on any disk: within any bound above the number of entries
that are not open it returns what it returns without one. Each load on its way is made by one that
has put another place on the stack, so that no stack gets longer than the disk allows. -/
theorem loadFile_terminates (d : Disk) (l : Loader) (file : Path) {depth : Nat}
    (hdepth : d.unopened l.stack < depth) :
    ∃ calls, loadWithin d depth l file = some (calls, loadFile d l file) ∧
      ∀ c ∈ calls, (∃ b ∈ ⟨file, l.stack⟩ :: calls, Nested d l.base b c) ∧
        c.stack.length ≤ l.stack.length + d.entries.length := by
  obtain ⟨calls, heq, hcalls⟩ := (within_complete d).1 l file depth hdepth
  refine ⟨calls, heq, fun c hc => ?_⟩
  obtain ⟨hway, hcaller⟩ := hcalls c hc
  have hle : c.stack.length + d.unopened c.stack ≤ l.stack.length + d.unopened l.stack :=
    length_add_unopened_le_of_transGen hway
  have hentries : d.unopened l.stack ≤ d.entries.length := List.countP_le_length
  exact ⟨hcaller, by omega⟩

theorem loadFile_terminates_circular :
    circular.unopened [] < 5 ∧
    ∃ calls, loadWithin circular 5 (.new ⟨"/"⟩) ⟨"/o/../o/again.yml"⟩ =
        some (calls, loadFile circular (.new ⟨"/"⟩) ⟨"/o/../o/again.yml"⟩) ∧
      ∀ c ∈ calls, (∃ b ∈ ⟨⟨"/o/../o/again.yml"⟩, []⟩ :: calls, Nested circular ⟨"/"⟩ b c) ∧
        c.stack.length ≤ 4 := by
  have hdepth : circular.unopened (Loader.new ⟨"/"⟩).stack < 5 := by decide
  exact ⟨hdepth, loadFile_terminates circular (.new ⟨"/"⟩) ⟨"/o/../o/again.yml"⟩ hdepth⟩

end Loader

end DesignDeps.Override
