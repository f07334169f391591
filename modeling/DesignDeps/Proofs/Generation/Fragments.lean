import DesignDeps.Proofs.Generation.Frame
import DesignDeps.Proofs.Walk.Closure

/-!
# Fragments with files of their own

A fragment is named after its module and its variant, with a dot between them. Names that come from
inclusions have dots, and so may variants, so that a name can be cut in more than one way.

`generate_fragments`: the fragments of a run have files of their own exactly if the modules that it
writes and the variants do not `Clash`, and each file has the record of its module then. Where they
do, one module's record is lost (`fragment_replaced`).
-/

namespace DesignDeps

namespace Writer

open Text Walk

-- ---------------------------------------------------------------------------
-- Names
-- ---------------------------------------------------------------------------

/-- A module is called like another one with a suffix, and one variant has that suffix in front of
another variant. -/
def Clash (modules variants : List String) : Prop :=
  ∃ m s v, m ∈ modules ∧ m ++ "." ++ s ∈ modules ∧ s ++ "." ++ v ∈ variants ∧ v ∈ variants

section
variable {m v m' v' : String}

theorem eq_or_suffix {a : List Char} (hm : m'.toList = m.toList ++ a)
    (hv : '.' :: v.toList = a ++ '.' :: v'.toList) :
    m = m' ∧ v = v' ∨ ∃ s, m' = m ++ "." ++ s ∧ v = s ++ "." ++ v' := by
  cases a with
  | nil =>
    rw [List.append_nil] at hm
    exact .inl ⟨String.toList_inj.1 hm.symm, String.toList_inj.1 (List.cons.inj hv).2⟩
  | cons c s =>
    obtain ⟨rfl, htail⟩ : '.' = c ∧ v.toList = s ++ '.' :: v'.toList := List.cons.inj hv
    exact .inr ⟨String.ofList s, String.toList_inj.1 (by simp [hm]),
      String.toList_inj.1 (by simp [htail])⟩

theorem append_dot_eq_iff : m ++ "." ++ v = m' ++ "." ++ v' ↔
    m = m' ∧ v = v' ∨ (∃ s, m' = m ++ "." ++ s ∧ v = s ++ "." ++ v') ∨
      ∃ s, m = m' ++ "." ++ s ∧ v' = s ++ "." ++ v := by
  constructor
  · intro h
    have hlist : m.toList ++ '.' :: v.toList = m'.toList ++ '.' :: v'.toList := by
      simpa using congrArg String.toList h
    rcases List.append_eq_append_iff.1 hlist with ⟨a, hm, hv⟩ | ⟨a, hm, hv⟩
    · exact (eq_or_suffix hm hv).imp_right .inl
    · exact (eq_or_suffix hm hv).imp (fun ⟨hm, hv⟩ => ⟨hm.symm, hv.symm⟩) .inr
  · rintro (⟨rfl, rfl⟩ | ⟨s, rfl, rfl⟩ | ⟨s, rfl, rfl⟩) <;> simp [String.append_assoc]

end

theorem not_clash {modules variants : List String} (h : ∀ v ∈ variants, '.' ∉ v.toList) :
    ¬Clash modules variants := by
  rintro ⟨m, s, v, -, -, hsv, -⟩
  exact h _ hsv (by simp)

/-- The fragments of the modules in all variants have paths of their own. -/
def PathsDiffer (w : Writer) (modules : List String) : Prop :=
  ∀ m v m' v', m ∈ modules → v ∈ w.variants → m' ∈ modules → v' ∈ w.variants →
    (w.fragmentPath m v).same (w.fragmentPath m' v') = true → m = m' ∧ v = v'

section
variable {w : Writer} {modules : List String} {m v m' v' : String}

theorem same_fragmentPath (hm : SlashFree m) (hv : '/' ∉ v.toList) (hm' : SlashFree m')
    (hv' : '/' ∉ v'.toList) : (w.fragmentPath m v).same (w.fragmentPath m' v') = true ↔
      m ++ "." ++ v = m' ++ "." ++ v' := by
  unfold fragmentPath
  rw [Path.same_join (segment_fragmentName hm hv) (segment_fragmentName hm' hv')]
  exact ⟨String.append_left_inj .. |>.1, congrArg (· ++ ".d")⟩

theorem pathsDiffer_iff (hplain : ∀ m ∈ modules, SlashFree m)
    (hv : ∀ v ∈ w.variants, '/' ∉ v.toList) :
    w.PathsDiffer modules ↔ ¬Clash modules w.variants := by
  constructor
  · rintro hdiffer ⟨m, s, v, hm, hms, hsv, hv'⟩
    have hsame := (same_fragmentPath (w := w) (hplain m hm) (hv _ hsv) (hplain _ hms) (hv v hv')).2
      (append_dot_eq_iff.2 (.inr (.inl ⟨s, rfl, rfl⟩)))
    obtain ⟨hself, -⟩ := hdiffer m _ _ v hm hsv hms hv' hsame
    simpa using congrArg (·.toList.length) hself
  · intro hclash m v m' v' hm hmv hm' hmv' hsame
    have hname := (same_fragmentPath (hplain m hm) (hv v hmv) (hplain m' hm') (hv v' hmv')).1 hsame
    rcases append_dot_eq_iff.1 hname with heq | ⟨s, rfl, rfl⟩ | ⟨s, rfl, rfl⟩
    · exact heq
    · exact absurd ⟨m, s, v', hm, hm', hmv, hmv'⟩ hclash
    · exact absurd ⟨m', s, v, hm', hm, hmv', hmv⟩ hclash

end

-- ---------------------------------------------------------------------------
-- Files
-- ---------------------------------------------------------------------------

section
variable {w : Writer} {d d' : Disk} {root : String} {report : Report} {st : State}
  {rs : List Fragment.Record} {r : Fragment.Record}

/-- Where records have a place in common with those of their own path only, a place holds the last
of those that are written to it. -/
theorem read_of_writeRecords (hd : d.Grounded)
    (hplaces : ∀ r ∈ rs, ∀ r' ∈ rs, ∀ l, d.reach .create (w.recordPath r) = .ok l →
      d.reach .create (w.recordPath r') = .ok l → w.recordPath r = w.recordPath r')
    (h : w.writeRecords d rs = .ok d') (hr : r ∈ rs) : ∃ before last after,
      rs = before ++ last :: after ∧ w.recordPath last = w.recordPath r ∧
      (∀ r' ∈ after, w.recordPath r' ≠ w.recordPath r) ∧
      d'.read (w.recordPath r) = .ok last.render.toUTF8 := by
  induction rs using List.reverseRecOn generalizing d' with
  | nil => cases hr
  | append_singleton rs s ih =>
    obtain ⟨e, he⟩ := writeRecords_of_prefix (List.prefix_append rs [s]) h
    have hsince := since_writeRecords hd he
    obtain ⟨d₁, hwrite, hrest⟩ := writeRecords_eq_ok ((writeRecords_append he).symm.trans h)
    cases hrest
    have hstores := writeRecord_eq_ok hwrite
    by_cases hs : w.recordPath s = w.recordPath r
    · refine ⟨rs, s, [], rfl, hs, by simp, ?_⟩
      rw [← hs]
      exact Disk.read_iff_entry.2 ⟨_, hstores.entry?_self hsince.grounded⟩
    · have hr' : r ∈ rs := by
        rcases List.mem_append.1 hr with hr | hr
        · exact hr
        · exact absurd (congrArg _ (List.mem_singleton.1 hr).symm) hs
      have hplaces' := fun a ha b hb =>
        hplaces a (List.mem_append_left _ ha) b (List.mem_append_left _ hb)
      obtain ⟨before, last, after, heq, hlast, hafter, hread⟩ := ih hplaces' he hr'
      have hsame : e.SameAt d' (w.recordPath r) := by
        refine hstores.sameAt hsince.grounded fun l hl hl' => hs ?_
        exact hplaces s (by simp) r hr l (hsince.adds.reach_create.1 hl)
          (hsince.adds.reach_create.1 hl')
      refine ⟨before, last, after ++ [s], by simp [heq], hlast, fun r' hr' => ?_,
        hsame.read.2 hread⟩
      rcases List.mem_append.1 hr' with hr' | hr'
      · exact hafter r' hr'
      · exact List.mem_singleton.1 hr' ▸ hs

theorem last_of_ok (hS : w.Confined SlashFree) (hroot : SlashFree root)
    (hv : ∀ v ∈ w.variants, '/' ∉ v.toList) (hd : d.Grounded)
    (hlinks : (w.prepared d).LinkFree w.outDir) (h : w.write d root = (.ok report, st))
    (hr : r ∈ w.journalOf d root) : ∃ before last after,
      w.journalOf d root = before ++ last :: after ∧ w.recordPath last = w.recordPath r ∧
      (∀ r' ∈ after, w.recordPath r' ≠ w.recordPath r) ∧
      st.disk.read (w.recordPath r) = .ok last.render.toUTF8 := by
  have hsegment : ∀ r ∈ w.journalOf d root,
      Disk.Segment (r.module ++ "." ++ r.variant ++ ".d") := by
    intro r hr
    obtain ⟨x, hx, v, hmem, rfl⟩ := (mem_journalOf h).1 hr
    exact segment_fragmentName (confined_visitsOf hS hroot h x hx) (hv v hmem)
  refine read_of_writeRecords (w.grounded_prepared hd) (fun a ha b hb l hl hl' => ?_)
    (records_of_ok h).1 hr
  exact congrArg (fun name => w.outDir.join ⟨name⟩)
    (hlinks.place_inj (hsegment a ha) (hsegment b hb) hl hl')

theorem read_of_pathsDiffer (hS : w.Confined SlashFree) (hroot : SlashFree root)
    (hv : ∀ v ∈ w.variants, '/' ∉ v.toList) (hd : d.Grounded)
    (hlinks : (w.prepared d).LinkFree w.outDir) (h : w.write d root = (.ok report, st))
    (hdiffer : w.PathsDiffer report.modules) {x : Visit} (hx : x ∈ w.visitsOf d root) {v : String}
    (hmem : v ∈ w.variants) : st.disk.read (w.fragmentPath x.module v) =
      .ok (record x.module x.source x.kept v).render.toUTF8 := by
  obtain ⟨before, last, after, heq, hlast, -, hread⟩ := last_of_ok hS hroot hv hd hlinks h
    ((mem_journalOf h).2 ⟨x, hx, v, hmem, rfl⟩)
  obtain ⟨x', hx', v', hmem', rfl⟩ :=
    (mem_journalOf h).1 (heq ▸ List.mem_append_right before List.mem_cons_self)
  have hsame : (w.fragmentPath x'.module v').same (w.fragmentPath x.module v) = true :=
    (congrArg (·.same (w.fragmentPath x.module v)) hlast).trans (beq_self_eq_true _)
  obtain ⟨hmodule, rfl⟩ := hdiffer _ _ _ _ ((mem_modules_iff h).2 ⟨x', hx', rfl⟩) hmem'
    ((mem_modules_iff h).2 ⟨x, hx, rfl⟩) hmem hsame
  obtain rfl : x' = x := visit_unique h hx' hx hmodule
  exact hread

end

end Writer

namespace Config

open Text Walk Writer

-- ---------------------------------------------------------------------------
-- The theorem
-- ---------------------------------------------------------------------------

section
variable {c : Config} {d : Disk} {faults : Faults} {report : Report}

/-- After a run that succeeds, the fragments of the written modules have paths of their own exactly
if modules and variants do not clash, and then each of them is the record of its module. In any case
a fragment is the last record that the run has written to its path. No link may be in the output
directory as the run finds or makes it. -/
theorem generate_fragments (hvalid : c.validate = .ok ()) (hd : d.Grounded)
    (hroot : SlashFree c.rootModule) (hlinks : (d.makeDirs c.outputDir).2.LinkFree c.outputDir)
    (h : (c.generate d faults).result = .ok report) :
    ∃ index overrides, (c.lister.list d faults.unlisted).1 = .ok index ∧
      (c.loadOverrides d).1 = .ok overrides ∧
      let w := c.writer index overrides faults
      report.modules = (w.visitsOf d c.rootModule).map Visit.module ∧
      (w.PathsDiffer report.modules ↔ ¬Clash report.modules c.variants) ∧
      (¬Clash report.modules c.variants → ∀ x ∈ w.visitsOf d c.rootModule, ∀ v ∈ c.variants,
        (c.generate d faults).disk.read (w.fragmentPath x.module v) =
          .ok (record x.module x.source x.kept v).render.toUTF8) ∧
      ∀ r ∈ w.journalOf d c.rootModule, ∃ before last after,
        w.journalOf d c.rootModule = before ++ last :: after ∧
        w.recordPath last = w.recordPath r ∧
        (∀ r' ∈ after, w.recordPath r' ≠ w.recordPath r) ∧
        (c.generate d faults).disk.read (w.recordPath r) = .ok last.render.toUTF8 := by
  have hgenerates := c.generates_generate d faults
  generalize c.generate d faults = g at h hgenerates
  cases hgenerates with
  | rejected | unlisted | unloaded => cases h
  | @written index _ overrides _ _ st _ hlist hload hwrite =>
    cases h
    have hS : (c.writer index overrides faults).Confined SlashFree := confined_lexical rfl
    have hv := slash_not_mem_of_validate hvalid
    have hplain : ∀ m ∈ report.modules, SlashFree m := by
      intro m hm
      obtain ⟨x, hx, rfl⟩ := (mem_modules_iff hwrite).1 hm
      exact confined_visitsOf hS hroot hwrite x hx
    have hdiffer := pathsDiffer_iff (w := c.writer index overrides faults) hplain hv
    obtain ⟨hmodules, -⟩ := backward_visitsOf hwrite
    refine ⟨index, overrides, by rw [hlist], by rw [hload], hmodules, hdiffer,
      fun hclash x hx v hmem => ?_, fun r hr => ?_⟩
    · exact read_of_pathsDiffer hS hroot hv hd hlinks hwrite (hdiffer.2 hclash) hx hmem
    · exact last_of_ok hS hroot hv hd hlinks hwrite hr

end

-- ---------------------------------------------------------------------------
-- A module and its header
-- ---------------------------------------------------------------------------

def headed (variants : List String) : Config :=
  { Config.new ⟨"/s"⟩ ⟨"/o"⟩ "x" with variants, ignoreFile := "i" }

def inclusion : ByteArray :=
  "`include \"x.svh\"".toUTF8

def headedTree : Disk :=
  ⟨[(["o"], .dir), (["s"], .dir), (["s", "x.sv"], .file inclusion 0),
    (["s", "x.svh"], .file ⟨#[]⟩ 0)], [], 0⟩

def headedWriter (variants : List String) : Writer :=
  (headed variants).writer ⟨[⟨"/s/x.sv"⟩, ⟨"/s/x.svh"⟩]⟩ ∅

section
variable {variants : List String} {m v : String}

theorem list_headed (variants : List String) :
    ((headed variants).lister.list headedTree).1 = .ok ⟨[⟨"/s/x.sv"⟩, ⟨"/s/x.svh"⟩]⟩ := by
  have hroot : headedTree.locate .follow (headed variants).lister.root = .ok ["s"] := by cbv
  have hchildren : headedTree.children ["s"] = ["x.sv", "x.svh"] := by cbv
  have hpath : Location.path ["s"] = ⟨"/s"⟩ := by decide
  have hmodule : Location.path (["s"] ++ ["x.sv"]) = ⟨"/s/x.sv"⟩ := by decide
  have hheader : Location.path (["s"] ++ ["x.svh"]) = ⟨"/s/x.svh"⟩ := by decide
  have hmark : (headed variants).lister.isMarked headedTree (Location.path ["s"]) = false := by
    have hjoin : (Location.path ["s"]).join ⟨"i"⟩ = ⟨"/s/i"⟩ := by decide
    have hnone : headedTree.exists? ⟨"/s/i"⟩ = false := by cbv
    exact (congrArg headedTree.exists? hjoin).trans hnone
  have hdir : Lister.holdsFile headedTree ["s"] = false := by cbv
  have hfile : Lister.holdsFile headedTree (["s"] ++ ["x.sv"]) = true := by cbv
  have hfile' : Lister.holdsFile headedTree (["s"] ++ ["x.svh"]) = true := by cbv
  have hhdl : (SourceKind.ofPath ⟨"/s/x.sv"⟩).isHdl = true := by decide
  have hhdl' : (SourceKind.ofPath ⟨"/s/x.svh"⟩).isHdl = true := by decide
  have hindex : FileIndex.ofPaths [⟨"/s/x.sv"⟩, ⟨"/s/x.svh"⟩] = ⟨[⟨"/s/x.sv"⟩, ⟨"/s/x.svh"⟩]⟩ := by
    cbv
  have hread : headedTree.readDir (Location.path ["s"]) = .ok [⟨"/s/x.sv"⟩, ⟨"/s/x.svh"⟩] := by
    rw [hpath]
    cbv
  rw [Lister.list_of_level hroot rfl rfl rfl hmark hread (by rw [hchildren]; decide), hchildren]
  simp only [List.map_cons, List.map_nil, List.filter_cons, List.filter_nil, hpath, hmodule,
    hheader, hdir, hfile, hfile', hhdl, hhdl', Bool.false_and, Bool.true_and, if_true]
  exact congrArg Except.ok hindex

theorem enters_headed (variants : List String) :
    headedTree.Enters (headed variants).outputDir ["o"] :=
  enters_output rfl

theorem linkFree_headed (variants : List String) :
    (headedTree.makeDirs (headed variants).outputDir).2.LinkFree (headed variants).outputDir := by
  rw [(enters_headed variants).makeDirs_disk]
  exact Disk.linkFree_of_enters (enters_headed variants)
    (by simp [Disk.get?, Disk.lookupIn, headedTree])

theorem namesIn_headed (variants : List String) {path : Path} {text : String}
    (hhdl : (SourceKind.ofPath path).isHdl = true) :
    (headedWriter variants).namesIn path m text = (Dependencies.ofText m text).all :=
  if_pos hhdl

theorem segment_headed (hm : m = "x" ∨ m = "x.svh") (hv : v = "sim" ∨ v = "svh.sim") :
    Disk.Segment (m ++ "." ++ v ++ ".d") := by
  refine segment_fragmentName ?_ ?_
  · rcases hm with rfl | rfl <;> decide
  · rcases hv with rfl | rfl <;> decide

theorem empty_headed : headedTree.get? (["o"] ++ [m ++ "." ++ v ++ ".d"]) = none := by
  simp [Disk.get?, Disk.lookupIn, headedTree]

theorem place_headed (variants : List String) (hm : m = "x" ∨ m = "x.svh")
    (hv : v = "sim" ∨ v = "svh.sim") :
    headedTree.reach .create ((headedWriter variants).fragmentPath m v) =
      .ok (["o"] ++ [m ++ "." ++ v ++ ".d"]) := by
  refine Disk.reach_join (enters_headed variants) (segment_headed hm hv) ?_ ?_ empty_headed
  · rcases hm with rfl | rfl <;> rcases hv with rfl | rfl <;> decide
  · have hdir : (headedWriter variants).outDir = ⟨"/o"⟩ := rfl
    rw [hdir]
    rcases hm with rfl | rfl <;> rcases hv with rfl | rfl <;> decide

theorem write_headed (variants : List String) (hne : variants ≠ [])
    (hvs : ∀ v ∈ variants, v = "sim" ∨ v = "svh.sim") :
    ∃ report st e, (headedWriter variants).write headedTree "x" = (.ok report, st) ∧
      report.modules = ["x.svh", "x"] ∧ e.Grounded ∧ headedTree.AddsFiles e ∧
      (headedWriter variants).Writes "x" ⟨"/s/x.sv"⟩ ["x.svh"] variants e st.disk := by
  let w := headedWriter variants
  have hd : headedTree.Grounded := headedTree.dirs_root
  have hdirs : headedTree.makeDirs w.outDir = (.ok (), headedTree) :=
    Prod.ext ((enters_headed variants).makeDirs_ok hd (show "/o".utf8ByteSize < 4096 by decide))
      (enters_headed variants).makeDirs_disk
  have hmodule : w.resolver.resolve "x" = .found ⟨"/s/x.sv"⟩ := by cbv
  have hheader : w.resolver.resolve "x.svh" = .found ⟨"/s/x.svh"⟩ := by cbv
  have hnames : (Dependencies.ofText "x" (Utf8.lossy inclusion)).all.toList = ["x.svh"] := by
    decide +kernel
  have hnames' : (Dependencies.ofText "x.svh" (Utf8.lossy ⟨#[]⟩)).all.toList = [] := by
    decide +kernel
  have hread : headedTree.read ⟨"/s/x.sv"⟩ = .ok inclusion := by cbv
  have hread' : headedTree.read ⟨"/s/x.svh"⟩ = .ok ⟨#[]⟩ := by cbv
  refine write_of_leaf_below rfl hd hne hdirs (by decide) hmodule hread
    (by rw [namesIn_headed variants (by decide), hnames]) hheader hread'
    (by rw [namesIn_headed variants (by decide), hnames']) (fun v hv => ?_)
    fun m hm => ⟨fun v hv => ?_, fun _ _ _ => rfl⟩
  · exact Disk.exists?_join (enters_headed variants)
      (segment_headed (.inr rfl) (hvs v (List.mem_of_head? hv))) empty_headed
  · exact ⟨_, place_headed variants hm (hvs v hv), by rw [empty_headed]; simp⟩

theorem generate_headed (hvalid : (headed variants).validate = .ok ()) :
    ((headed variants).generate headedTree).result =
      ((headedWriter variants).write headedTree "x").1 ∧
    ((headed variants).generate headedTree).disk =
      ((headedWriter variants).write headedTree "x").2.disk := by
  have hload : ((headed variants).loadOverrides headedTree).1 = .ok ∅ := by cbv
  exact generate_of_ok {} hvalid (list_headed variants) hload

end

/-- One variant without a dot: the fragments of the module and of its header are apart. -/
theorem generate_fragments_headed :
    let c := headed ["sim"]
    c.validate = .ok () ∧ SlashFree c.rootModule ∧
    ∃ report, (c.generate headedTree).result = .ok report ∧ report.modules = ["x.svh", "x"] ∧
      ∃ index overrides, let w := c.writer index overrides
        w.PathsDiffer report.modules ∧ ∀ x ∈ w.visitsOf headedTree "x",
          (c.generate headedTree).disk.read (w.fragmentPath x.module "sim") =
            .ok (record x.module x.source x.kept "sim").render.toUTF8 := by
  intro c
  have hvalid : c.validate = .ok () := by cbv
  have hroot : SlashFree c.rootModule := by decide
  obtain ⟨report, st, -, hwrite, hmodules, -⟩ :=
    write_headed ["sim"] (by simp) (by simp)
  obtain ⟨hresult, -⟩ := generate_headed hvalid
  rw [hwrite] at hresult
  obtain ⟨index, overrides, -, -, -, hdiffer, hfragments, -⟩ :=
    generate_fragments hvalid headedTree.dirs_root hroot (linkFree_headed _) hresult
  have hclash : ¬Clash report.modules c.variants := not_clash (by decide)
  exact ⟨hvalid, hroot, report, hresult, hmodules, index, overrides, hdiffer.2 hclash,
    fun x hx => hfragments hclash x hx "sim" (by decide)⟩

open Fragment.Record in
theorem head?_includeDirBlock (dir : String) : (includeDirBlock dir).toList.head? = some 'i' := by
  have hconditional : "ifeq (,$(findstring +".toList.head? = some 'i' := by decide
  unfold includeDirBlock
  simp only [String.toList_append, List.append_assoc, List.head?_append, hconditional,
    Option.some_or]

open Fragment.Record in
theorem head?_render (r : Fragment.Record) :
    r.render.toList.head? = some (if isHeaderName r.module then 'i' else '$') := by
  have hrule : depDir.toList.head? = some '$' := by decide
  have hstart : (r.headerBlock.toList ++ (objectOf r.module r.variant).toList).head? =
      some (if isHeaderName r.module then 'i' else '$') := by
    unfold headerBlock
    by_cases h : isHeaderName r.module = true
    · rw [if_pos h, if_pos h, List.head?_append, head?_includeDirBlock, Option.some_or]
    · rw [if_neg h, if_neg h]
      unfold objectOf
      simp only [String.toList_append, List.append_assoc, List.head?_append, hrule,
        Option.some_or, String.toList_empty, List.head?_nil, Option.none_or]
  have hprefix : r.headerBlock.toList ++ (objectOf r.module r.variant).toList <+:
      r.render.toList := by
    simp only [render, objectRule, String.toList_append, List.append_assoc]
    exact (List.prefix_append_right_inj _).2 (List.prefix_append _ _)
  obtain ⟨rest, heq⟩ := hprefix
  rw [← heq, List.head?_append, hstart]
  rfl

/-- With the suffix of the header in a second variant, the fragment of the header is replaced by one
of the module. -/
theorem fragment_replaced :
    let c := headed ["sim", "svh.sim"]
    let w := headedWriter ["sim", "svh.sim"]
    c.validate = .ok () ∧ SlashFree c.rootModule ∧
    (headedTree.makeDirs c.outputDir).2.LinkFree c.outputDir ∧
    ∃ report, (c.generate headedTree).result = .ok report ∧ report.modules = ["x.svh", "x"] ∧
      w.fragmentPath "x.svh" "sim" = w.fragmentPath "x" "svh.sim" ∧
      (c.generate headedTree).disk.read (w.fragmentPath "x.svh" "sim") =
        .ok (record "x" ⟨"/s/x.sv"⟩ ["x.svh"] "svh.sim").render.toUTF8 ∧
      ∀ source kept, (c.generate headedTree).disk.read (w.fragmentPath "x.svh" "sim") ≠
        .ok (record "x.svh" source kept "sim").render.toUTF8 := by
  intro c w
  have hvalid : c.validate = .ok () := by cbv
  obtain ⟨report, st, e, hwrite, hmodules, he, hadds, hwrites⟩ :=
    write_headed ["sim", "svh.sim"] (by simp) (by simp)
  obtain ⟨hresult, hdisk⟩ := generate_headed hvalid
  rw [hwrite] at hresult hdisk
  have hpath : w.fragmentPath "x.svh" "sim" = w.fragmentPath "x" "svh.sim" := by decide
  have hplace := place_headed ["sim", "svh.sim"] (.inl rfl) (.inr rfl)
  have hread : st.disk.read (w.fragmentPath "x" "svh.sim") =
      .ok (record "x" ⟨"/s/x.sv"⟩ ["x.svh"] "svh.sim").render.toUTF8 := by
    cases hwrites with
    | cons hfirst hrest =>
      cases hrest with
      | cons hsecond hnone =>
        cases hnone
        have hadds₁ := hfirst.adds he
        have hplace₁ := (hadds.trans hadds₁).reach_create.2 hplace
        exact hsecond.read (hadds₁.grows.grounded he) hplace₁ hplace₁
  refine ⟨hvalid, by decide, linkFree_headed _, report, hresult, hmodules, hpath, ?_,
    fun source kept hsame => ?_⟩
  · rw [hdisk, hpath]
    exact hread
  · rw [hdisk, hpath, hread] at hsame
    have hrender := String.toByteArray_inj.1 (Except.ok.inj hsame)
    have hhead := congrArg (·.toList.head?) hrender
    have hne : some (if isHeaderName "x" then 'i' else '$') ≠
        some (if isHeaderName "x.svh" then 'i' else '$') := by decide
    simp only [head?_render] at hhead
    exact hne hhead

end Config

end DesignDeps
