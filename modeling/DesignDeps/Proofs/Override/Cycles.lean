import DesignDeps.Proofs.Disk.Canonical
import DesignDeps.Proofs.Disk.Files
import DesignDeps.Proofs.Override.Loading
import Mathlib

/-!
# Override files that come back to themselves

The files that list each other are a graph, in which paths that lead to the same place are one file:
`Cyclic` is about this graph. A load goes along paths instead and keeps no record of the files it is
done with, only of those it has not finished. What it can find is `Recurs`, a path that comes back
to the place of an earlier one, and both are the same where everything can be read
(`recurs_iff_cyclic`). So the load of a file fails exactly when a cycle can be reached from it,
however often files are shared (`loadFile_cyclic_iff`).
-/

namespace DesignDeps.Override

open Relation Text

def SameFile (d : Disk) (p q : Path) : Prop :=
  (d.fileKey p).same (d.fileKey q) = true

/-- The file at `p` lists the path `q`, seen from `base`. -/
def Lists (d : Disk) (base p q : Path) : Prop :=
  ∃ parsed, fileAt? d p = some parsed ∧ ∃ name ∈ parsed.includes, q = base.join ⟨name⟩

def Recurs (d : Disk) (base start : Path) : Prop :=
  ∃ p q, ReflTransGen (Lists d base) start p ∧ TransGen (Lists d base) p q ∧ SameFile d p q

def Includes (d : Disk) (base : Path) (l k : Location) : Prop :=
  ∃ p q, d.locate .follow p = .ok l ∧ Lists d base p q ∧ d.locate .follow q = .ok k

/-- From the file at `start` one can get onto a cycle of files. -/
def Cyclic (d : Disk) (base start : Path) : Prop :=
  ∃ l k, d.locate .follow start = .ok l ∧ ReflTransGen (Includes d base) l k ∧
    TransGen (Includes d base) k k

section
variable {d : Disk} {base p q : Path}

theorem lists_listed {parsed : File} {name : String} (hfile : fileAt? d p = some parsed)
    (hname : name ∈ parsed.includes) : Lists d base p (base.join ⟨name⟩) :=
  ⟨parsed, hfile, name, hname, rfl⟩

theorem exists_listed {parsed : File} (hfile : fileAt? d p = some parsed)
    (h : Lists d base p q) : ∃ name ∈ parsed.includes, q = base.join ⟨name⟩ := by
  obtain ⟨parsed', hfile', hname⟩ := h
  obtain rfl := Option.some.inj (hfile.symm.trans hfile')
  exact hname

end

-- ---------------------------------------------------------------------------
-- Paths and places
-- ---------------------------------------------------------------------------

def Stands (d : Disk) (l : Location) (parsed : File) : Prop :=
  ∃ content modified text, d.get? l = some (.file content modified) ∧
    Utf8.strict? content = some text ∧ File.ofText? text = .ok parsed

section
variable {d : Disk} {base p q start : Path} {l k : Location} {parsed parsed' : File}

theorem Stands.unique (h : Stands d l parsed) (h' : Stands d l parsed') : parsed' = parsed := by
  obtain ⟨content, modified, text, hget, htext, hparse⟩ := h
  obtain ⟨content', modified', text', hget', htext', hparse'⟩ := h'
  obtain ⟨rfl, rfl⟩ := Entry.file.inj (Option.some.inj (hget.symm.trans hget'))
  obtain rfl := Option.some.inj (htext.symm.trans htext')
  exact Except.ok.inj (hparse'.symm.trans hparse)

theorem fileAt?_iff_stands :
    fileAt? d p = some parsed ↔ ∃ l, d.reach .follow p = .ok l ∧ Stands d l parsed := by
  rw [fileAt?_eq_some_iff]
  constructor
  · rintro ⟨text, hread, hparse⟩
    unfold Disk.readText at hread
    split at hread
    · cases hread
    · next content hcontent =>
      obtain ⟨l, modified, hreach, hget⟩ := Disk.read_eq_ok_iff.1 hcontent
      split at hread
      · cases hread
      · next htext =>
        cases hread
        exact ⟨l, hreach, content, modified, text, hget, htext, hparse⟩
  · rintro ⟨l, hreach, content, modified, text, hget, htext, hparse⟩
    have hcontent : d.read p = .ok content := Disk.read_eq_ok_iff.2 ⟨l, modified, hreach, hget⟩
    exact ⟨text, by simp [Disk.readText, hcontent, htext], hparse⟩

theorem locate_of_reach (h : d.reach .follow p = .ok l) : d.locate .follow p = .ok l := by
  unfold Disk.reach at h
  split at h
  · cases h
  · exact h

theorem fileKey_of_locate (h : d.locate .follow p = .ok l) : d.fileKey p = l.path := by
  simp [Disk.fileKey, Disk.canonical, h, Except.map]

theorem sameFile_iff (hcwd : Location.Proper d.cwd) (hp : d.locate .follow p = .ok l)
    (hq : d.locate .follow q = .ok k) : SameFile d p q ↔ l = k := by
  rw [SameFile, fileKey_of_locate hp, fileKey_of_locate hq]
  exact Location.same_path_iff (Disk.proper_of_locate hcwd hp) (Disk.proper_of_locate hcwd hq)

theorem lists_of_includes (hfile : fileAt? d p = some parsed) (hp : d.locate .follow p = .ok l)
    (h : Includes d base l k) : ∃ q, Lists d base p q ∧ d.locate .follow q = .ok k := by
  obtain ⟨p', q, hp', ⟨parsed', hfile', hname⟩, hq⟩ := h
  obtain ⟨m, hm, hstands⟩ := fileAt?_iff_stands.1 hfile
  obtain ⟨m', hm', hstands'⟩ := fileAt?_iff_stands.1 hfile'
  obtain rfl := Except.ok.inj (hp.symm.trans (locate_of_reach hm))
  obtain rfl := Except.ok.inj (hp'.symm.trans (locate_of_reach hm'))
  obtain rfl := hstands.unique hstands'
  exact ⟨q, ⟨_, hfile, hname⟩, hq⟩

/-- Every file that one gets to from `start` can be read. -/
def Legible (d : Disk) (base start : Path) : Prop :=
  ∀ p, ReflTransGen (Lists d base) start p → ∃ parsed, fileAt? d p = some parsed

theorem Legible.of_reach (h : Legible d base p) (hreach : ReflTransGen (Lists d base) p q) :
    Legible d base q :=
  fun _ hreach' => h _ (hreach.trans hreach')

theorem Legible.locate (h : Legible d base p) : ∃ l, d.locate .follow p = .ok l := by
  obtain ⟨parsed, hparsed⟩ := h p .refl
  obtain ⟨l, hl, -⟩ := fileAt?_iff_stands.1 hparsed
  exact ⟨l, locate_of_reach hl⟩

theorem Legible.includes (h : Legible d base p) (hreach : ReflTransGen (Lists d base) p q)
    (hp : d.locate .follow p = .ok l) (hq : d.locate .follow q = .ok k) :
    ReflTransGen (Includes d base) l k := by
  induction hreach generalizing k with
  | refl =>
    obtain rfl := Except.ok.inj (hp.symm.trans hq)
    exact .refl
  | tail hreach hlists ih =>
    obtain ⟨m, hm⟩ := (h.of_reach hreach).locate
    exact (ih hm).tail ⟨_, _, hm, hlists, hq⟩

theorem Legible.lists (h : Legible d base p) (hp : d.locate .follow p = .ok l)
    (hreach : ReflTransGen (Includes d base) l k) :
    ∃ q, ReflTransGen (Lists d base) p q ∧ d.locate .follow q = .ok k := by
  induction hreach with
  | refl => exact ⟨p, .refl, hp⟩
  | tail _ hincludes ih =>
    obtain ⟨q, hreach, hq⟩ := ih
    obtain ⟨parsed, hparsed⟩ := h q hreach
    obtain ⟨r, hlists, hr⟩ := lists_of_includes hparsed hq hincludes
    exact ⟨r, hreach.tail hlists, hr⟩

theorem recurs_iff_cyclic (hcwd : Location.Proper d.cwd) (h : Legible d base start) :
    Recurs d base start ↔ Cyclic d base start := by
  constructor
  · rintro ⟨p, q, hreach, hway, hsame⟩
    have hp := h.of_reach hreach
    obtain ⟨l, hl⟩ := h.locate
    obtain ⟨k, hk⟩ := hp.locate
    obtain ⟨r, hlists, hrest⟩ := TransGen.head'_iff.1 hway
    have hr := hp.of_reach (.single hlists)
    obtain ⟨m, hm⟩ := hr.locate
    obtain ⟨k', hk'⟩ := (hp.of_reach hway.to_reflTransGen).locate
    obtain rfl := (sameFile_iff hcwd hk hk').1 hsame
    exact ⟨l, k, hl, h.includes hreach hl hk,
      .head' ⟨p, r, hk, hlists, hm⟩ (hr.includes hrest hm hk')⟩
  · rintro ⟨l, k, hl, hreach, hway⟩
    obtain ⟨p, hp, hk⟩ := h.lists hl hreach
    obtain ⟨m, hincludes, hrest⟩ := TransGen.head'_iff.1 hway
    obtain ⟨parsed, hparsed⟩ := h p hp
    obtain ⟨r, hlists, hm⟩ := lists_of_includes hparsed hk hincludes
    obtain ⟨q, hq, hk'⟩ := (h.of_reach (hp.tail hlists)).lists hm hrest
    exact ⟨p, q, hp, .head' hlists hq, (sameFile_iff hcwd hk hk').2 rfl⟩

end

namespace Loader

variable {d : Disk}

-- ---------------------------------------------------------------------------
-- Loads that succeed
-- ---------------------------------------------------------------------------

/-- Nothing that one gets to from `file` is on the stack, or on a cycle. -/
structure Clear (d : Disk) (base : Path) (stack : List Path) (file : Path) : Prop where
  unopened : ∀ p, ReflTransGen (Lists d base) file p → ∀ k ∈ stack, ¬k.same (d.fileKey p) = true
  acyclic : ¬Recurs d base file

theorem clear_of_listed {base file : Path} {stack : List Path} {parsed : File}
    (hfile : fileAt? d file = some parsed)
    (hstack : stack.any (·.same (d.fileKey file)) = false)
    (h : ∀ name ∈ parsed.includes, Clear d base (d.fileKey file :: stack) (base.join ⟨name⟩)) :
    Clear d base stack file := by
  constructor
  · intro p hreach k hk
    rcases hreach.cases_head with rfl | ⟨q, hlists, hreach⟩
    · exact List.any_eq_false.1 hstack k hk
    · obtain ⟨name, hname, rfl⟩ := exists_listed hfile hlists
      exact (h name hname).unopened p hreach k (List.mem_cons_of_mem _ hk)
  · rintro ⟨p, q, hreach, hway, hsame⟩
    rcases hreach.cases_head with rfl | ⟨r, hlists, hreach⟩
    · -- The cycle goes through the file itself, which is open while the listed ones are loaded.
      obtain ⟨r, hlists, hreach⟩ := TransGen.head'_iff.1 hway
      obtain ⟨name, hname, rfl⟩ := exists_listed hfile hlists
      exact (h name hname).unopened q hreach _ List.mem_cons_self hsame
    · obtain ⟨name, hname, rfl⟩ := exists_listed hfile hlists
      exact (h name hname).acyclic ⟨p, q, hreach, hway, hsame⟩

theorem clear_of_files (d : Disk) :
    (∀ l file table, (loadFile d l file).1 = .ok table → Clear d l.base l.stack file) ∧
    ∀ l files table table', (loadListed d l files table).1 = .ok table' →
      ∀ name ∈ files, Clear d l.base l.stack (l.base.join ⟨name⟩) := by
  refine load_induct (d := d)
    (P := fun l file r => ∀ table, r.1 = .ok table → Clear d l.base l.stack file)
    (Q := fun l files _ r => ∀ table', r.1 = .ok table' →
      ∀ name ∈ files, Clear d l.base l.stack (l.base.join ⟨name⟩))
    ?unopened ?failed ?loaded ?done ?stopped ?merged
  case unopened => rintro l file e l₁ _ table ⟨⟩
  case failed => rintro l file parsed l₁ e l₂ _ _ _ table ⟨⟩
  case loaded =>
    intro l file parsed l₁ table l₂ h _ ih _ _
    obtain ⟨hstack, hfile, rfl⟩ := openFile_eq_ok_iff.1 h
    exact clear_of_listed hfile hstack (ih table rfl)
  case done =>
    intro l table table' _ name hname
    cases hname
  case stopped => rintro l file files table e l₁ _ _ table' ⟨⟩
  case merged =>
    intro l file files table nested l₁ r h ih _ ih' table' hr name hname
    obtain ⟨hbase, hstack⟩ := keeps_of_loadFile h
    rcases List.mem_cons.1 hname with rfl | hname
    · exact ih nested rfl
    · have hrest := ih' table' hr name hname
      rwa [hstack, hbase] at hrest

-- ---------------------------------------------------------------------------
-- Cycles that are reported
-- ---------------------------------------------------------------------------

def Leading (d : Disk) (base : Path) (stack : List Path) (start file : Path) : Prop :=
  ∀ k ∈ stack, ∃ p, d.fileKey p = k ∧ ReflTransGen (Lists d base) start p ∧
    TransGen (Lists d base) p file

theorem Leading.listed {base start file : Path} {stack : List Path} {parsed : File} {name : String}
    (h : Leading d base stack start file) (hstart : ReflTransGen (Lists d base) start file)
    (hfile : fileAt? d file = some parsed) (hname : name ∈ parsed.includes) :
    Leading d base (d.fileKey file :: stack) start (base.join ⟨name⟩) := by
  have hlists : Lists d base file (base.join ⟨name⟩) := lists_listed hfile hname
  intro k hk
  rcases List.mem_cons.1 hk with rfl | hk
  · exact ⟨file, rfl, hstart, .single hlists⟩
  · obtain ⟨p, hkey, hp, hway⟩ := h k hk
    exact ⟨p, hkey, hp, hway.tail hlists⟩

theorem open_of_openFile_cycle {l l' : Loader} {file f : Path}
    (h : openFile d l file = (.error (.overrideCycle f), l')) :
    l.stack.any (·.same (d.fileKey file)) = true := by
  unfold openFile at h
  split at h
  · assumption
  · dsimp only at h
    split at h
    · cases h
    · split at h <;> cases h

theorem recurs_of_files (d : Disk) (start : Path) :
    (∀ l file f, (loadFile d l file).1 = .error (.overrideCycle f) →
      ReflTransGen (Lists d l.base) start file → Leading d l.base l.stack start file →
      Recurs d l.base start) ∧
    ∀ l files table f, (loadListed d l files table).1 = .error (.overrideCycle f) →
      (∀ name ∈ files, ReflTransGen (Lists d l.base) start (l.base.join ⟨name⟩) ∧
        Leading d l.base l.stack start (l.base.join ⟨name⟩)) →
      Recurs d l.base start := by
  refine load_induct (d := d)
    (P := fun l file r => ∀ f, r.1 = .error (.overrideCycle f) →
      ReflTransGen (Lists d l.base) start file → Leading d l.base l.stack start file →
      Recurs d l.base start)
    (Q := fun l files _ r => ∀ f, r.1 = .error (.overrideCycle f) →
      (∀ name ∈ files, ReflTransGen (Lists d l.base) start (l.base.join ⟨name⟩) ∧
        Leading d l.base l.stack start (l.base.join ⟨name⟩)) →
      Recurs d l.base start)
    ?unopened ?failed ?loaded ?done ?stopped ?merged
  case unopened =>
    rintro l file _ l₁ h f ⟨⟩ hstart hlead
    obtain ⟨k, hk, hsame⟩ := List.any_eq_true.1 (open_of_openFile_cycle h)
    obtain ⟨p, rfl, hp, hway⟩ := hlead k hk
    exact ⟨p, file, hp, hway, hsame⟩
  case failed =>
    intro l file parsed l₁ e l₂ h _ ih f hf hstart hlead
    obtain ⟨-, hfile, rfl⟩ := openFile_eq_ok_iff.1 h
    exact ih f hf fun name hname =>
      ⟨hstart.tail (lists_listed hfile hname), hlead.listed hstart hfile hname⟩
  case loaded => rintro l file parsed l₁ table l₂ _ _ _ f ⟨⟩
  case done => rintro l table f ⟨⟩
  case stopped =>
    intro l file files table e l₁ _ ih f hf hlead
    obtain ⟨hstart, hlead⟩ := hlead file List.mem_cons_self
    exact ih f hf hstart hlead
  case merged =>
    intro l file files table nested l₁ r h _ _ ih' f hf hlead
    obtain ⟨hbase, hstack⟩ := keeps_of_loadFile h
    rw [hstack, hbase] at ih'
    exact ih' f hf fun name hname => hlead name (List.mem_cons_of_mem _ hname)

-- ---------------------------------------------------------------------------
-- Other failures
-- ---------------------------------------------------------------------------

theorem cycle_of_openFile {l l' : Loader} {file : Path} {e : Error}
    (h : openFile d l file = (.error e, l')) :
    (∃ f, e = .overrideCycle f) ∨ fileAt? d file = none := by
  unfold openFile at h
  split at h
  · cases h
    exact .inl ⟨file, rfl⟩
  · dsimp only at h
    split at h
    · next hread => exact .inr (by simp [fileAt?, hread, Except.toOption])
    · next hread =>
      split at h
      · next hparse => exact .inr (by simp [fileAt?, hread, hparse, Except.toOption])
      · cases h

theorem cycle_of_files (d : Disk) :
    (∀ l file e, (loadFile d l file).1 = .error e →
      (∃ f, e = .overrideCycle f) ∨
        ∃ p, ReflTransGen (Lists d l.base) file p ∧ fileAt? d p = none) ∧
    ∀ l files table e, (loadListed d l files table).1 = .error e →
      (∃ f, e = .overrideCycle f) ∨
        ∃ name ∈ files, ∃ p, ReflTransGen (Lists d l.base) (l.base.join ⟨name⟩) p ∧
          fileAt? d p = none := by
  refine load_induct (d := d)
    (P := fun l file r => ∀ e, r.1 = .error e →
      (∃ f, e = .overrideCycle f) ∨
        ∃ p, ReflTransGen (Lists d l.base) file p ∧ fileAt? d p = none)
    (Q := fun l files _ r => ∀ e, r.1 = .error e →
      (∃ f, e = .overrideCycle f) ∨
        ∃ name ∈ files, ∃ p, ReflTransGen (Lists d l.base) (l.base.join ⟨name⟩) p ∧
          fileAt? d p = none)
    ?unopened ?failed ?loaded ?done ?stopped ?merged
  case unopened =>
    rintro l file e l₁ h _ ⟨⟩
    exact (cycle_of_openFile h).imp_right fun hnone => ⟨file, .refl, hnone⟩
  case failed =>
    intro l file parsed l₁ e l₂ h _ ih e' he
    obtain ⟨-, hfile, rfl⟩ := openFile_eq_ok_iff.1 h
    refine (ih e' he).imp_right ?_
    rintro ⟨name, hname, p, hreach, hnone⟩
    exact ⟨p, hreach.head (lists_listed hfile hname), hnone⟩
  case loaded => rintro l file parsed l₁ table l₂ _ _ _ e ⟨⟩
  case done => rintro l table e ⟨⟩
  case stopped =>
    intro l file files table e l₁ _ ih e' he
    exact (ih e' he).imp_right fun h => ⟨file, List.mem_cons_self, h⟩
  case merged =>
    intro l file files table nested l₁ r h _ _ ih' e he
    rw [(keeps_of_loadFile h).1] at ih'
    refine (ih' e he).imp_right ?_
    rintro ⟨name, hname, h⟩
    exact ⟨name, List.mem_cons_of_mem _ hname, h⟩

-- ---------------------------------------------------------------------------
-- Exactly the cycles
-- ---------------------------------------------------------------------------

/-- If every file that one gets to can be read, a load reports a cycle when there is one, and
succeeds when there is none. -/
theorem loadFile_cyclic_iff {base start : Path} (hcwd : Location.Proper d.cwd)
    (h : Legible d base start) :
    ((∃ f, (loadFile d (.new base) start).1 = .error (.overrideCycle f)) ↔ Cyclic d base start) ∧
    (¬Cyclic d base start → ∃ table, (loadFile d (.new base) start).1 = .ok table) := by
  rw [← recurs_iff_cyclic hcwd h]
  have hcycle : ∀ f, (loadFile d (.new base) start).1 = .error (.overrideCycle f) →
      Recurs d base start := by
    intro f hf
    refine (recurs_of_files d start).1 (.new base) start f hf .refl fun k hk => ?_
    cases hk
  have herror : ∀ e, (loadFile d (.new base) start).1 = .error e → ∃ f, e = .overrideCycle f := by
    intro e he
    rcases (cycle_of_files d).1 (.new base) start e he with hcycle | ⟨p, hreach, hnone⟩
    · exact hcycle
    · obtain ⟨parsed, hparsed⟩ := h p hreach
      rw [hnone] at hparsed
      cases hparsed
  cases hload : (loadFile d (.new base) start).1 with
  | error e =>
    obtain ⟨f, rfl⟩ := herror e hload
    have hrecurs := hcycle f hload
    exact ⟨⟨fun _ => hrecurs, fun _ => ⟨f, rfl⟩⟩, fun hnot => absurd hrecurs hnot⟩
  | ok table =>
    have hclear := ((clear_of_files d).1 (.new base) start table hload).acyclic
    refine ⟨⟨?_, fun hrecurs => absurd hrecurs hclear⟩, fun _ => ⟨table, rfl⟩⟩
    rintro ⟨f, ⟨⟩⟩

end Loader

-- ---------------------------------------------------------------------------
-- A link to the file that lists it
-- ---------------------------------------------------------------------------

def circular : Disk where
  entries :=
    [(["o"], .dir),
      (["o", "top.yml"], .file "include: [o/m.yml, o/../o/m.yml, o/again.yml]\n".toUTF8 0),
      (["o", "m.yml"], .file "m: a.sv\n".toUTF8 0),
      (["o", "again.yml"], .link ⟨"top.yml"⟩)]
  cwd := []
  clock := 0

theorem reach_circular {file : Path} (h : file = ⟨"/o/top.yml"⟩ ∨ file = ⟨"/o/again.yml"⟩) :
    circular.reach .follow file = .ok ["o", "top.yml"] := by
  have ho : Disk.IsName "o" := ⟨by decide, by decide, by decide, by decide +kernel⟩
  have htop : Disk.IsName "top.yml" := ⟨by decide, by decide, by decide, by decide +kernel⟩
  have hagain : Disk.IsName "again.yml" := ⟨by decide, by decide, by decide, by decide +kernel⟩
  have hfile : Disk.Leads circular .follow 39 ["o"] (Disk.steps ⟨"top.yml"⟩ ++ []) 39
      ["o", "top.yml"] := by
    rw [show Disk.steps ⟨"top.yml"⟩ = ["top.yml"] by cbv]
    exact .file htop rfl
  rcases h with rfl | rfl
  · cbv
  · refine Disk.reach_eq_ok_iff.2 ⟨by decide +kernel, 39, ?_⟩
    rw [show Disk.steps ⟨"/o/again.yml"⟩ = ["o", "again.yml"] by cbv]
    exact .dir ho (by simp) rfl (.link hagain (by simp) (by simp) rfl hfile)

theorem fileAt?_circular {file : Path} (h : file = ⟨"/o/top.yml"⟩ ∨ file = ⟨"/o/again.yml"⟩) :
    fileAt? circular file = some ⟨["o/m.yml", "o/../o/m.yml", "o/again.yml"], []⟩ := by
  have htext : Utf8.strict? "include: [o/m.yml, o/../o/m.yml, o/again.yml]\n".toUTF8 =
      some "include: [o/m.yml, o/../o/m.yml, o/again.yml]\n" := by cbv
  exact fileAt?_iff_stands.2 ⟨_, reach_circular h, _, 0, _, rfl, htext,
    toOption_eq_some_iff.1 (by decide +kernel)⟩

theorem fileAt?_circular_listed {file : Path}
    (h : file = ⟨"/o/m.yml"⟩ ∨ file = ⟨"/o/../o/m.yml"⟩) :
    fileAt? circular file = some ⟨[], [("m", some "a.sv")]⟩ := by
  have hread : circular.readText file = .ok "m: a.sv\n" := by
    rcases h with rfl | rfl <;> cbv
  exact fileAt?_eq_some_iff.2 ⟨_, hread, toOption_eq_some_iff.1 (by decide +kernel)⟩

theorem readable_circular {p : Path}
    (h : ReflTransGen (Lists circular ⟨"/"⟩) ⟨"/o/top.yml"⟩ p) :
    (p = ⟨"/o/top.yml"⟩ ∨ p = ⟨"/o/again.yml"⟩) ∨
      p = ⟨"/o/m.yml"⟩ ∨ p = ⟨"/o/../o/m.yml"⟩ := by
  have hm : (⟨"/"⟩ : Path).join ⟨"o/m.yml"⟩ = ⟨"/o/m.yml"⟩ := by decide
  have hm' : (⟨"/"⟩ : Path).join ⟨"o/../o/m.yml"⟩ = ⟨"/o/../o/m.yml"⟩ := by decide
  have hagain : (⟨"/"⟩ : Path).join ⟨"o/again.yml"⟩ = ⟨"/o/again.yml"⟩ := by decide
  induction h with
  | refl => exact .inl (.inl rfl)
  | tail _ hlists ih =>
    rcases ih with hp | hp
    · obtain ⟨name, hname, rfl⟩ := exists_listed (fileAt?_circular hp) hlists
      simp only [List.mem_cons, List.not_mem_nil, or_false] at hname
      rcases hname with rfl | rfl | rfl
      · exact .inr (.inl hm)
      · exact .inr (.inr hm')
      · exact .inl (.inr hagain)
    · obtain ⟨name, hname, -⟩ := exists_listed (fileAt?_circular_listed hp) hlists
      cases hname

theorem loadFile_cyclic_circular :
    Location.Proper circular.cwd ∧ Legible circular ⟨"/"⟩ ⟨"/o/top.yml"⟩ ∧
    Cyclic circular ⟨"/"⟩ ⟨"/o/top.yml"⟩ ∧
    ∃ f, (Loader.loadFile circular (.new ⟨"/"⟩) ⟨"/o/top.yml"⟩).1 = .error (.overrideCycle f) := by
  have hcwd : Location.Proper circular.cwd := fun _ hname => absurd hname List.not_mem_nil
  have hlegible : Legible circular ⟨"/"⟩ ⟨"/o/top.yml"⟩ := by
    intro p hp
    rcases readable_circular hp with hp | hp
    · exact ⟨_, fileAt?_circular hp⟩
    · exact ⟨_, fileAt?_circular_listed hp⟩
  have hlists : Lists circular ⟨"/"⟩ ⟨"/o/top.yml"⟩ ⟨"/o/again.yml"⟩ :=
    ⟨_, fileAt?_circular (.inl rfl), "o/again.yml", by simp, by decide⟩
  have htop := locate_of_reach (reach_circular (.inl rfl))
  have hagain := locate_of_reach (reach_circular (.inr rfl))
  have hcyclic : Cyclic circular ⟨"/"⟩ ⟨"/o/top.yml"⟩ :=
    ⟨_, _, htop, .refl, .single ⟨_, _, htop, hlists, hagain⟩⟩
  exact ⟨hcwd, hlegible, hcyclic, (Loader.loadFile_cyclic_iff hcwd hlegible).1.2 hcyclic⟩

end DesignDeps.Override
