import DesignDeps.Proofs.Disk.FileNames
import DesignDeps.Proofs.Fragment.Statements
import DesignDeps.Proofs.Generation.Fragments

/-!
# Two tests for headers

Files are listed and searched by the kind that their extension gives them, whatever its case.
Fragments are made by what a name ends with, and there case matters. The tests agree on all names
but `Misfit` ones (`agrees_iff`), and so the fragments of a run sort its modules by kind exactly
where no misfit is among them (`write_sorts`). A header that is named in capitals is built like a
module (`upperHeader_built`).
-/

namespace DesignDeps

open Text

-- ---------------------------------------------------------------------------
-- Names
-- ---------------------------------------------------------------------------

def HeaderExtension (ext : String) : Prop :=
  ext = "svh" ∨ ext = "vh"

instance {ext : String} : Decidable (HeaderExtension ext) :=
  inferInstanceAs (Decidable (_ ∨ _))

def lower (s : String) : String :=
  String.ofList (s.toList.map Char.toLower)

/-- Names that one of the tests takes for a header and the other does not. -/
inductive Misfit (name : String) : Prop
  /-- Nothing is in front of the dot, so what is behind it is no extension. -/
  | bare (ext : String) (header : HeaderExtension ext)
    (file : Path.fileName? ⟨name⟩ = some ("." ++ ext)) (last : endsWith name ("." ++ ext) = true)
  /-- The extension has capitals in it. -/
  | cased (ext : String) (file : Path.extension? ⟨name⟩ = some ext)
    (header : HeaderExtension (lower ext)) (capitals : ¬HeaderExtension ext)
  /-- Separators stand behind the file name. -/
  | followed (ext : String) (file : Path.extension? ⟨name⟩ = some ext)
    (header : HeaderExtension ext) (notLast : endsWith name ("." ++ ext) = false)

section
variable {name ext : String} {p : Path}

theorem HeaderExtension.lower_eq (h : HeaderExtension ext) : lower ext = ext := by
  rcases h with rfl | rfl <;> decide

theorem HeaderExtension.dotFree (h : HeaderExtension ext) : '.' ∉ ext.toList := by
  rcases h with rfl | rfl <;> decide

theorem ofPath_eq_header_iff : SourceKind.ofPath p = .header ↔
    ∃ ext, p.extension? = some ext ∧ HeaderExtension (lower ext) := by
  have hkind : ∀ ext, SourceKind.ofExtension ext = .header ↔ HeaderExtension (lower ext) := by
    intro ext
    simp only [SourceKind.ofExtension, Bool.or_eq_true, decide_eq_true_eq, HeaderExtension, lower]
    split
    · next h => rcases h with h | h <;> simp [h]
    · split <;> simp [*]
  unfold SourceKind.ofPath
  cases hext : p.extension? with
  | none => simp
  | some ext => simp [hkind]

theorem isHeaderName_iff : isHeaderName name = true ↔
    ∃ ext, HeaderExtension ext ∧ endsWith name ("." ++ ext) = true := by
  have hsvh : "." ++ "svh" = ".svh" := by decide
  have hvh : "." ++ "vh" = ".vh" := by decide
  simp [isHeaderName, HeaderExtension, or_and_right, exists_or, hsvh, hvh]

theorem extension_of_endsWith (h : HeaderExtension ext)
    (hend : endsWith name ("." ++ ext) = true) :
    Path.fileName? ⟨name⟩ = some ("." ++ ext) ∨ Path.extension? ⟨name⟩ = some ext := by
  obtain ⟨front, hfront⟩ := endsWith_iff.1 hend
  obtain ⟨stem, hstem, hcut⟩ := Path.exists_last_part front
  have hslash : '/' ∉ ext.toList := by rcases h with rfl | rfl <;> decide
  have hsegment : Disk.Segment (String.ofList stem ++ "." ++ ext) := by
    have hlast : ∀ s : String, s.toList.getLast? ≠ some 'h' →
        String.ofList stem ++ "." ++ ext ≠ s := by
      rintro s hs rfl
      rcases h with rfl | rfl <;> simp at hs
    exact ⟨hlast _ (by decide), hlast _ (by decide), hlast _ (by decide), by simp [hstem, hslash]⟩
  have hfile : Path.fileName? ⟨name⟩ = some (String.ofList stem ++ "." ++ ext) := by
    rcases hcut with rfl | ⟨dir, rfl⟩
    · have hname : name = String.ofList front ++ "." ++ ext :=
        String.toList_inj.1 (by simp [← hfront])
      rw [hname]
      exact Path.fileName?_of_segment hsegment
    · exact Path.fileName?_of_slash (s := dir) hsegment (by simp [← hfront])
  by_cases hne : stem = []
  · subst hne
    exact .inl (by simpa using hfile)
  · exact .inr (Path.extension?_eq_some_iff.2 ⟨_, by simpa using hne, h.dotFree, hfile⟩)

theorem extension?_of_bare (h : HeaderExtension ext)
    (hfile : p.fileName? = some ("." ++ ext)) : p.extension? = none := by
  simp [Path.extension?, hfile, Path.splitAtDot_bare h.dotFree]

theorem agrees_iff : (isHeaderName name = true ↔ SourceKind.ofPath ⟨name⟩ = .header) ↔
    ¬Misfit name := by
  rw [isHeaderName_iff, ofPath_eq_header_iff]
  constructor
  · intro hagree hmisfit
    cases hmisfit with
    | bare ext hext hfile hend =>
      obtain ⟨ext', hext', -⟩ := hagree.1 ⟨ext, hext, hend⟩
      rw [extension?_of_bare hext hfile] at hext'
      cases hext'
    | cased ext hfile hlower hcase =>
      obtain ⟨ext', hext', hend⟩ := hagree.2 ⟨ext, hfile, hlower⟩
      rcases extension_of_endsWith hext' hend with hbare | hsame
      · cases hfile.symm.trans (extension?_of_bare hext' hbare)
      · cases hfile.symm.trans hsame
        exact hcase hext'
    | followed ext hfile hext hend =>
      obtain ⟨ext', hext', hend'⟩ := hagree.2 ⟨ext, hfile, hext.lower_eq.symm ▸ hext⟩
      rcases extension_of_endsWith hext' hend' with hbare | hsame
      · cases hfile.symm.trans (extension?_of_bare hext' hbare)
      · cases hfile.symm.trans hsame
        cases hend.symm.trans hend'
  · intro hfits
    constructor
    · rintro ⟨ext, hext, hend⟩
      rcases extension_of_endsWith hext hend with hbare | hfile
      · exact absurd (.bare ext hext hbare hend) hfits
      · exact ⟨ext, hfile, hext.lower_eq.symm ▸ hext⟩
    · rintro ⟨ext, hfile, hlower⟩
      by_cases hext : HeaderExtension ext
      · refine ⟨ext, hext, ?_⟩
        by_contra hend
        exact hfits (.followed ext hfile hext (Bool.eq_false_iff.2 hend))
      · exact absurd (.cased ext hfile hlower hext) hfits

/-- A name that is no path is a misfit if it consists of a dot and the extension of a header, or if
it has such an extension with capitals. -/
theorem misfit_iff_of_segment (h : Disk.Segment name) : Misfit name ↔
    (∃ ext, HeaderExtension ext ∧ name = "." ++ ext) ∨
    ∃ stem ext, stem ≠ "" ∧ '.' ∉ ext.toList ∧ name = stem ++ "." ++ ext ∧
      HeaderExtension (lower ext) ∧ ¬HeaderExtension ext := by
  have hname : Path.fileName? ⟨name⟩ = some name := Path.fileName?_of_segment h
  constructor
  · intro hmisfit
    cases hmisfit with
    | bare ext hext hfile => exact .inl ⟨ext, hext, Option.some.inj (hname.symm.trans hfile)⟩
    | cased ext hext hlower hcase =>
      obtain ⟨stem, hstem, hdot, hfile⟩ := Path.extension?_eq_some_iff.1 hext
      exact .inr ⟨stem, ext, hstem, hdot, Option.some.inj (hname.symm.trans hfile), hlower, hcase⟩
    | followed ext hext _ hend =>
      obtain ⟨stem, -, -, hfile⟩ := Path.extension?_eq_some_iff.1 hext
      have hlast : endsWith name ("." ++ ext) = true := by
        refine endsWith_iff.2 ⟨stem.toList, ?_⟩
        simp [Option.some.inj (hname.symm.trans hfile)]
      cases hend.symm.trans hlast
  · rintro (⟨ext, hext, rfl⟩ | ⟨stem, ext, hstem, hdot, rfl, hlower, hcase⟩)
    · exact .bare ext hext hname (endsWith_iff.2 (List.suffix_refl _))
    · exact .cased ext (Path.extension?_eq_some_iff.2 ⟨stem, hstem, hdot, hname⟩) hlower hcase

end

-- ---------------------------------------------------------------------------
-- Fragments
-- ---------------------------------------------------------------------------

namespace Fragment

def Term.text : Term → String
  | .ref name => "$(" ++ name ++ ")"
  | .word text => text

namespace Record

/-- What the record puts into one of its variables. -/
def terms (r : Record) (headers : Bool) : List Term :=
  r.dependencies.flatMap (termsOf headers)

/-- The name stands in the variable of its kind, and does not stand in the other one. -/
def Sorts (r : Record) (n : String) : Prop :=
  let headers := decide (SourceKind.ofPath ⟨n⟩ = .header)
  .word n ∈ r.terms headers ∧ .word n ∉ r.terms (!headers)

/-- The fragment begins with the block of a header. -/
def Announces (r : Record) : Prop :=
  ∃ dir, (includeDirBlock dir).toList <+: r.render.toList

section
variable {r : Record} {n : String} {headers : Bool}

theorem word_mem_terms (hn : n ∈ r.dependencies) :
    .word n ∈ r.terms headers ↔ isHeaderName n = headers := by
  have hword : ∀ d, .word n ∈ termsOf headers d ↔ isHeaderName d = headers ∧ n = d := by
    intro d
    unfold termsOf
    split <;> simp [*]
  simp [terms, hword, hn]

theorem sorts_iff (hn : n ∈ r.dependencies) : r.Sorts n ↔ ¬Misfit n := by
  rw [← agrees_iff, Sorts]
  simp only [word_mem_terms hn]
  cases isHeaderName n <;> simp

theorem announces_iff : r.Announces ↔ isHeaderName r.module = true := by
  constructor
  · rintro ⟨dir, rest, hrender⟩
    have hhead := Config.head?_render r
    rw [← hrender, List.head?_append, Config.head?_includeDirBlock, Option.some_or] at hhead
    by_contra hname
    simp [hname] at hhead
  · intro hname
    have hblock : r.headerBlock = includeDirBlock ((r.source.parent?.map Path.text).getD "") :=
      if_pos hname
    refine ⟨(r.source.parent?.map Path.text).getD "", ?_⟩
    rw [← hblock]
    simp only [render, objectRule, String.toList_append, List.append_assoc]
    exact List.prefix_append _ _

theorem assignmentLineOf_eq (r : Record) (headers : Bool) : r.assignmentLineOf headers =
    assignmentLine (variableOf headers r.module) ((r.terms headers).map Term.text) := by
  have hwords : wordsOf headers = fun d => (termsOf headers d).map Term.text := by
    funext d
    unfold wordsOf termsOf
    split <;> rfl
  simp only [assignmentLineOf, terms, List.map_flatMap, hwords]

theorem render_eq_assignments (r : Record) : ∃ front, r.render = front ++ unlines
    [assignmentLine (variableOf false r.module) ((r.terms false).map Term.text),
      assignmentLine (variableOf true r.module) ((r.terms true).map Term.text)] := by
  refine ⟨unlines (r.objectLines ++ ["", r.depLine, ""] ++ r.inclusionsLines ++ [""]), ?_⟩
  rw [← unlines_append, ← unlines_lines, ← assignmentLineOf_eq, ← assignmentLineOf_eq]
  simp [lines, otherLines]

end

end Record

end Fragment

-- ---------------------------------------------------------------------------
-- The theorem
-- ---------------------------------------------------------------------------

namespace Writer

open Walk Fragment Record

/-- In the fragments of a run that succeeds, a dependency stands in the variable of its kind and not
in the other one exactly if its name is no misfit, and a module has the block of a header if and
only if it is one, exactly if its own name is none. -/
theorem write_sorts {w : Writer} {d : Disk} {root : String} {report : Report} {st : State}
    (h : w.write d root = (.ok report, st)) :
    report.modules = (w.visitsOf d root).map Visit.module ∧
    w.writeRecords (w.prepared d) (w.journalOf d root) = .ok st.disk ∧
    ∀ x ∈ w.visitsOf d root, ∀ v ∈ w.variants,
      let r := record x.module x.source x.kept v
      r ∈ w.journalOf d root ∧
      (∃ front, r.render = front ++ unlines
        [assignmentLine (x.module ++ "_DEPS") ((r.terms false).map Term.text),
          assignmentLine (x.module ++ "_INCLUDE") ((r.terms true).map Term.text)]) ∧
      (∀ n ∈ x.kept, r.Sorts n ↔ ¬Misfit n) ∧
      ((r.Announces ↔ SourceKind.ofPath ⟨x.module⟩ = .header) ↔ ¬Misfit x.module) := by
  obtain ⟨hmodules, -⟩ := backward_visitsOf h
  refine ⟨hmodules, (records_of_ok h).1, fun x hx v hv => ?_⟩
  refine ⟨(mem_journalOf h).2 ⟨x, hx, v, hv, rfl⟩, render_eq_assignments _,
    fun n hn => sorts_iff hn, ?_⟩
  rw [announces_iff]
  exact agrees_iff

/-- A header that is named in small letters announces itself, and the module that includes it
does not. -/
theorem write_sorts_headed :
    let w := Config.headedWriter ["sim"]
    ∃ report st, w.write Config.headedTree "x" = (.ok report, st) ∧
      report.modules = ["x.svh", "x"] ∧ ∀ x ∈ w.visitsOf Config.headedTree "x",
        (record x.module x.source x.kept "sim").Announces ↔ x.module = "x.svh" := by
  intro w
  obtain ⟨report, st, -, h, hmodules, -⟩ := Config.write_headed ["sim"] (by simp) (by simp)
  obtain ⟨hvisits, -, hsorts⟩ := write_sorts h
  refine ⟨report, st, h, hmodules, fun x hx => ?_⟩
  have hmem : x.module = "x.svh" ∨ x.module = "x" := by
    have hmem := hvisits ▸ List.mem_map_of_mem (f := Visit.module) hx
    simpa [hmodules] using hmem
  have hfits : ¬Misfit x.module := by
    rcases hmem with hm | hm <;> exact hm ▸ agrees_iff.1 (by decide)
  obtain ⟨-, -, -, hannounces⟩ := hsorts x hx "sim" List.mem_cons_self
  rw [hannounces.2 hfits]
  rcases hmem with hm | hm <;> rw [hm] <;> decide

-- ---------------------------------------------------------------------------
-- A header in capitals
-- ---------------------------------------------------------------------------

def upperTree : Disk :=
  ⟨[(["o"], .dir), (["s"], .dir), (["s", "x.sv"], .file "`include \"DEFS.SVH\"".toUTF8 0),
    (["s", "DEFS.SVH"], .file ⟨#[]⟩ 0)], [], 0⟩

def upperWriter : Writer where
  resolver := ⟨⟨[⟨"/s/DEFS.SVH"⟩, ⟨"/s/x.sv"⟩]⟩, ∅⟩
  extractor := .lexical
  freshness := .existing
  variants := ["sim"]
  outDir := ⟨"/o"⟩

theorem place_upper {m : String} (hm : m = "x" ∨ m = "DEFS.SVH") :
    upperTree.reach .create (upperWriter.fragmentPath m "sim") =
      .ok (["o"] ++ [m ++ "." ++ "sim" ++ ".d"]) ∧
    upperTree.get? (["o"] ++ [m ++ "." ++ "sim" ++ ".d"]) = none ∧
    upperTree.exists? (upperWriter.fragmentPath m "sim") = false := by
  have henters : upperTree.Enters ⟨"/o"⟩ ["o"] := enters_output rfl
  have hempty : upperTree.get? (["o"] ++ [m ++ "." ++ "sim" ++ ".d"]) = none := by
    simp [Disk.get?, Disk.lookupIn, upperTree]
  have hsegment : Disk.Segment (m ++ "." ++ "sim" ++ ".d") :=
    segment_fragmentName (by rcases hm with rfl | rfl <;> decide) (by decide)
  refine ⟨Disk.reach_join henters hsegment ?_ ?_ hempty, hempty,
    Disk.exists?_join henters hsegment hempty⟩
  · rcases hm with rfl | rfl <;> decide
  · rcases hm with rfl | rfl <;> decide

/-- Its fragment counts the header among the modules, and that of the header has no block. -/
theorem upperHeader_built :
    SourceKind.ofPath ⟨"DEFS.SVH"⟩ = .header ∧
    ∃ report st, upperWriter.write upperTree "x" = (.ok report, st) ∧
      report.modules = ["DEFS.SVH", "x"] ∧
      let r := record "x" ⟨"/s/x.sv"⟩ ["DEFS.SVH"] "sim"
      st.disk.read ⟨"/o/x.sim.d"⟩ = .ok r.render.toUTF8 ∧
      r.assignmentLineOf false = "x_DEPS := $(call uniq, $(DEFS.SVH_DEPS) DEFS.SVH)" ∧
      r.assignmentLineOf true = "x_INCLUDE := $(call uniq, $(DEFS.SVH_INCLUDE))" ∧
      ¬r.Sorts "DEFS.SVH" ∧ ∀ source kept, ¬(record "DEFS.SVH" source kept "sim").Announces := by
  have hd : upperTree.Grounded := upperTree.dirs_root
  have henters : upperTree.Enters ⟨"/o"⟩ ["o"] := enters_output rfl
  have hdirs : upperTree.makeDirs ⟨"/o"⟩ = (.ok (), upperTree) :=
    Prod.ext (henters.makeDirs_ok hd (show "/o".utf8ByteSize < 4096 by decide))
      henters.makeDirs_disk
  have hroot : upperWriter.resolver.resolve "x" = .found ⟨"/s/x.sv"⟩ := by cbv
  have hheader : upperWriter.resolver.resolve "DEFS.SVH" = .found ⟨"/s/DEFS.SVH"⟩ := by cbv
  have hnames : (Dependencies.ofText "x"
      (Utf8.lossy "`include \"DEFS.SVH\"".toUTF8)).all.toList = ["DEFS.SVH"] := by decide +kernel
  have hnames' : (Dependencies.ofText "DEFS.SVH" (Utf8.lossy ⟨#[]⟩)).all.toList = [] := by
    decide +kernel
  have hnamesIn : ∀ {path : Path} {m text}, (SourceKind.ofPath path).isHdl = true →
      upperWriter.namesIn path m text = (Dependencies.ofText m text).all := fun hhdl => if_pos hhdl
  have hread : upperTree.read ⟨"/s/x.sv"⟩ = .ok "`include \"DEFS.SVH\"".toUTF8 := by cbv
  have hread' : upperTree.read ⟨"/s/DEFS.SVH"⟩ = .ok ⟨#[]⟩ := by cbv
  obtain ⟨report, st, e, hwrite, hmodules, he, hadds, hwrites⟩ :=
    write_of_leaf_below (w := upperWriter) rfl hd (by simp [upperWriter]) hdirs (by decide) hroot
      hread (by rw [hnamesIn (by decide), hnames]) hheader hread'
      (by rw [hnamesIn (by decide), hnames'])
      (fun v hv => by cases hv; exact (place_upper (.inr rfl)).2.2)
      (fun m hm => ⟨fun v hv => by
        obtain rfl : v = "sim" := List.mem_singleton.1 hv
        obtain ⟨hplace, hempty, -⟩ := place_upper hm
        exact ⟨_, hplace, by rw [hempty]; simp⟩, fun _ _ _ => rfl⟩)
  have hpath : upperWriter.fragmentPath "x" "sim" = ⟨"/o/x.sim.d"⟩ := by decide
  have hplace := hadds.reach_create.2 (place_upper (.inl rfl)).1
  have hmisfit : Misfit "DEFS.SVH" :=
    (misfit_iff_of_segment ⟨by decide, by decide, by decide, by decide⟩).2
      (.inr ⟨"DEFS", "SVH", by decide, by decide, by decide, by decide, by decide⟩)
  refine ⟨by decide, report, st, hwrite, hmodules, ?_, by decide, by decide,
    fun hsorts => (sorts_iff List.mem_cons_self).1 hsorts hmisfit, fun source kept => ?_⟩
  · rw [← hpath]
    cases hwrites with
    | cons hfirst hnone =>
      cases hnone
      exact hfirst.read he hplace hplace
  · have hname : ¬isHeaderName "DEFS.SVH" = true := by decide
    exact fun hannounces => hname (announces_iff.1 hannounces)

end Writer

end DesignDeps
