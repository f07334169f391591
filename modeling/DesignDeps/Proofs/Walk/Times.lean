import DesignDeps.Proofs.Walk.BackEdges

/-!
# Fragments and times

`write_upToDate`: after a run that trusts a fragment while it is not older than its source, every
module that was written or trusted is up to date, and so is everything that the root leads to
through modules whose fragments were not trusted.

Below a trusted fragment nothing is looked at, so that an old fragment stays there
(`old_below_trusted`).
-/

namespace DesignDeps.Writer

open Text Walk Relation

/-- The fragment of the first variant is there, and not older than the file that the module leads
to. -/
def UpToDate (w : Writer) (d : Disk) (m : String) : Prop :=
  ∃ v path time since, w.variants.head? = some v ∧ w.resolver.resolve m = .found path ∧
    d.modified? (w.fragmentPath m v) = some time ∧ d.modified? path = some since ∧ since ≤ time

section
variable {w : Writer} {d : Disk} {root : String} {report : Report} {st : State}

theorem upToDate_of_isFresh {m : String} {path : Path} (hw : w.freshness = .sourceTime)
    (hfound : w.resolver.resolve m = .found path) (hfresh : w.isFresh d m path = true) :
    w.UpToDate d m := by
  obtain ⟨v, vs, hv, time, htime, since, hsince, hle⟩ := (isFresh_sourceTime_iff hw).1 hfresh
  exact ⟨v, path, time, since, by simp [hv], hfound, htime, hsince, hle⟩

theorem reached_of_ok (hlasting : w.Lasting (w.prepared d)) (hd : d.Grounded)
    (ha : w.Apart w.resolver.Finds (w.prepared d)) (h : w.write d root = (.ok report, st))
    {m : String} (hm : m ∈ report.modules) :
    ReflTransGen (fun a b => w.DependsOn (w.prepared d) a b ∧ b ∉ report.reused) root m := by
  obtain ⟨x, hx, rfl⟩ := (mem_modules_iff h).1 hm
  have hmem := @mem_modules_iff w d root report st h
  have hdeps := dependsOn_visitsOf hd ha h
  have hsound := sound_visitsOf h
  obtain ⟨hreused, -⟩ := reused_of_ok hlasting hd h
  obtain ⟨path, st', -, hvisit, -, -, hvisits⟩ := visitsOf_of_ok h
  obtain ⟨-, -, hreached⟩ := (w.reached_walk (· ∈ report.modules)
    (fun a b => w.DependsOn (w.prepared d) a b ∧ b ∉ report.reused)).1 root path _ st' hvisit
    (.start w d root) (awaits_start w d root)
  rw [← hvisits] at hreached
  refine (hreached fun y hy => ⟨hmem.2 ⟨y, hy, rfl⟩, fun n hn hwritten =>
    ⟨?_, hreused n hwritten⟩⟩).2 x hx
  obtain ⟨z, hz, rfl⟩ := hmem.1 hwritten
  exact (hdeps y hy _).2 ⟨hn, _, (hsound z hz).found⟩

end

-- ---------------------------------------------------------------------------
-- Three modules
-- ---------------------------------------------------------------------------

def nextInRow (module : String) : List String :=
  if module = "a" then ["b"] else if module = "b" then ["c"] else []

def inRow : Writer :=
  threeModules nextInRow .sourceTime

def touched (d : Disk) : Disk :=
  { d.put ["s", "c.v"] (.file ⟨#[]⟩ 2) with clock := 3 }

section
variable {name : String} {path : Path} {d : Disk}

theorem found_inRow : inRow.resolver.resolve name = .found path ↔
    name = "a" ∧ path = ⟨"/s/a.v"⟩ ∨ name = "b" ∧ path = ⟨"/s/b.v"⟩ ∨
      name = "c" ∧ path = ⟨"/s/c.v"⟩ :=
  found_threeModules

theorem sample_inRow : inRow.Sample threeSources :=
  sample_threeModules

theorem dependsOn_inRow {m n : String} : inRow.DependsOn threeSources m n ↔
    m = "a" ∧ n = "b" ∨ m = "b" ∧ n = "c" := by
  have hnames : ∀ {path : Path} {text : String},
      n ∈ inRow.extractor.names path m text ↔ n ∈ nextInRow m := NameSet.mem_ofList
  simp only [sample_inRow.dependsOn_iff, Resolver.Finds, found_inRow, hnames, nextInRow]
  constructor
  · rintro ⟨-, path, ⟨rfl, -⟩ | ⟨rfl, -⟩ | ⟨rfl, -⟩, hn⟩
    · exact .inl ⟨rfl, by simpa using hn⟩
    · exact .inr ⟨rfl, by simpa using hn⟩
    · simp at hn
  · rintro (⟨rfl, rfl⟩ | ⟨rfl, rfl⟩)
    · exact ⟨⟨⟨"/s/b.v"⟩, by simp⟩, ⟨"/s/a.v"⟩, by simp, by simp⟩
    · exact ⟨⟨⟨"/s/c.v"⟩, by simp⟩, ⟨"/s/b.v"⟩, by simp, by simp⟩

theorem time_threeSources {l : Location} {content : ByteArray} {time : Nat}
    (h : threeSources.get? l = some (.file content time)) : time = 0 := by
  simp only [Disk.get?, threeSources, Disk.lookupIn] at h
  split_ifs at h <;> cases h <;> rfl

theorem before_threeSources {time : Nat} (h : threeSources.modified? path = some time) :
    time ≤ 1 := by
  rcases Disk.modified?_iff_entry.1 h with ⟨content, hfile⟩ | ⟨-, rfl⟩
  · obtain ⟨l, -, hfile⟩ := Disk.entry?_eq_ok_iff.1 hfile
    exact (time_threeSources hfile).trans_le (Nat.zero_le 1)
  · exact Nat.le_refl _

end

-- ---------------------------------------------------------------------------
-- The theorem
-- ---------------------------------------------------------------------------

/-- A run that succeeds writes what the root leads to without passing through a trusted fragment,
and afterwards all of that is up to date, and so is whatever it depends on. It takes for granted
that no fragment has its place where a source is, and that no source is from the future. -/
theorem write_upToDate {w : Writer} {d : Disk} {root : String} {report : Report} {st : State}
    (hw : w.freshness = .sourceTime) (hd : d.Grounded)
    (ha : w.Apart w.resolver.Finds (w.prepared d)) (hpast : w.PastSources (w.prepared d))
    (h : w.write d root = (.ok report, st)) :
    (∀ m, m ∈ report.modules ↔ ReflTransGen
      (fun a b => w.DependsOn (w.prepared d) a b ∧ b ∉ report.reused) root m) ∧
    (∀ m, m ∈ report.modules ∨ m ∈ report.reused → w.UpToDate st.disk m) ∧
    ∀ m, ReflTransGen (fun a b => w.DependsOn (w.prepared d) a b ∧ a ∉ report.reused) root m →
      w.UpToDate st.disk m := by
  have hlasting : w.Lasting (w.prepared d) := .sourceTime hw ha hpast
  obtain ⟨-, hfresh⟩ := reused_of_ok hlasting hd h
  have hroot := root_mem_of_ok h
  have hcurrent : ∀ m, m ∈ report.modules ∨ m ∈ report.reused → w.UpToDate st.disk m := by
    intro m hm
    obtain ⟨path, hfound, hfresh⟩ := hfresh m hm
    exact upToDate_of_isFresh hw hfound hfresh
  refine ⟨fun m => ⟨reached_of_ok hlasting hd ha h, fun hm => ?_⟩, hcurrent, fun m hm => ?_⟩
  · induction hm with
    | refl => exact hroot
    | tail _ hbc ih => exact (mem_of_dependsOn hd ha h ih hbc.1).resolve_right hbc.2
  · refine hcurrent m ?_
    induction hm with
    | refl => exact .inl hroot
    | tail _ hbc ih => exact mem_of_dependsOn hd ha h (ih.resolve_right hbc.2) hbc.1

theorem write_upToDate_inRow :
    ∃ report st, inRow.write threeSources "a" = (.ok report, st) ∧
      ∀ m, m ∈ report.modules ∨ m ∈ report.reused → inRow.UpToDate st.disk m := by
  have hsample := sample_inRow
  obtain ⟨report, st, h⟩ := hsample.write_succeeds (by simp [inRow, threeModules])
    ⟨_, found_inRow.2 (.inl ⟨rfl, rfl⟩)⟩
  refine ⟨report, st, h, (write_upToDate rfl hsample.grounded hsample.apart_prepared ?_ h).2.1⟩
  exact hsample.prepared_eq.symm ▸ fun n path time _ => before_threeSources

-- ---------------------------------------------------------------------------
-- A run before and a run after
-- ---------------------------------------------------------------------------

section
variable {name : String} {path : Path} {d : Disk}

/-- What is known of the disk after a first run. -/
structure OnceBuilt (d : Disk) : Prop where
  since : Since threeSources d
  alike : inRow.Alike threeSources d
  old : ∀ {p time}, d.modified? p = some time → time ≤ 1
  fresh : inRow.isFresh d "b" ⟨"/s/b.v"⟩ = true

theorem onceBuilt_of_ok {report : Report} {st : State}
    (h : inRow.write threeSources "a" = (.ok report, st)) : OnceBuilt st.disk := by
  have hgrounded := sample_inRow.grounded
  have hprepared := sample_inRow.prepared_eq
  have ha := sample_inRow.apart_prepared
  have hpast : inRow.PastSources (inRow.prepared threeSources) :=
    hprepared.symm ▸ fun n path time _ => before_threeSources
  refine ⟨hprepared ▸ since_of_ok hgrounded h, sample_inRow.alike_of_ok h,
    fun htime => ?_, ?_⟩
  · have hle := past_of_ok hgrounded h (hprepared.symm ▸ fun p time => before_threeSources) htime
    rwa [hprepared] at hle
  · -- `b` was written by the run, or it was trusted.
    obtain ⟨-, hfresh⟩ := reused_of_ok (.sourceTime rfl ha hpast) hgrounded h
    have hb := mem_of_dependsOn hgrounded ha h (root_mem_of_ok h)
      (hprepared.symm ▸ dependsOn_inRow.2 (.inl ⟨rfl, rfl⟩))
    obtain ⟨path, hfound, hfresh⟩ := hfresh "b" hb
    obtain rfl : path = ⟨"/s/b.v"⟩ := by simpa using found_inRow.1 hfound
    exact hfresh

theorem reach_touched : threeSources.reach .create ⟨"/s/c.v"⟩ = .ok ["s", "c.v"] :=
  (sample_inRow.source .create (found_inRow.2 (.inr (.inr ⟨rfl, rfl⟩)))).1

theorem takesFile_touched (h : OnceBuilt d) : d.TakesFile ["s", "c.v"] := by
  refine ⟨by simp, fun he => ?_⟩
  have hfile : threeSources.get? ["s", "c.v"] = some (.file ⟨#[]⟩ 0) := rfl
  obtain ⟨_, he', hkind⟩ := h.since.adds.grows.entry hfile
  cases he.symm.trans he'
  cases hkind
  exact ⟨_, _, rfl⟩

theorem sameAt_clock (d : Disk) (path : Path) :
    (d.put ["s", "c.v"] (.file ⟨#[]⟩ 2)).SameAt (touched d) path := by
  refine Disk.sameAt_of_get? ?_ (fun l => ?_) path <;> rfl

theorem sameAt_touched (h : OnceBuilt d) (hp : threeSources.reach .create path ≠ .ok ["s", "c.v"]) :
    d.SameAt (touched d) path := by
  refine (Disk.entry?_put h.since.grounded (takesFile_touched h) ?_).trans (sameAt_clock d path)
  rwa [ne_eq, h.since.adds.reach_create]

theorem sameAt_fragment_touched (h : OnceBuilt d) {m v : String} (hm : SlashFree m)
    (hv : v ∈ inRow.variants) : d.SameAt (touched d) (inRow.fragmentPath m v) :=
  sameAt_touched h fun hl => sample_inRow.apart m v "c" _ _ hm hv
    (found_inRow.2 (.inr (.inr ⟨rfl, rfl⟩))) hl reach_touched

theorem entry?_touched (h : OnceBuilt d) :
    Disk.entry? (touched d) ⟨"/s/c.v"⟩ = .ok (.file ⟨#[]⟩ 2) :=
  (sameAt_clock d _ _).2
    (Disk.entry?_put_self (takesFile_touched h) (h.since.adds.reach_create.2 reach_touched))

theorem sameAt_source_touched (h : OnceBuilt d)
    (hfound : inRow.resolver.resolve name = .found path) (hname : name ≠ "c") :
    d.SameAt (touched d) path := by
  obtain ⟨hreach, -⟩ := sample_inRow.source .create hfound
  refine sameAt_touched h ?_
  rcases found_inRow.1 hfound with ⟨rfl, -⟩ | ⟨rfl, -⟩ | ⟨rfl, -⟩
  · simp [hreach]
  · simp [hreach]
  · exact absurd rfl hname

theorem alike_touched (h : OnceBuilt d) : inRow.Alike threeSources (touched d) := by
  have hclock : (d.put ["s", "c.v"] (.file ⟨#[]⟩ 2)).AddsFiles (touched d) :=
    ⟨⟨rfl, fun he => ⟨_, he, .refl _⟩⟩, .inr⟩
  refine ⟨h.since.adds.trans ((Disk.addsFiles_put (takesFile_touched h)).trans hclock), ?_⟩
  intro n path bytes hfound
  by_cases hn : n = "c"
  · -- The source of `c` is as empty as before.
    obtain rfl : path = ⟨"/s/c.v"⟩ := by simpa [hn] using found_inRow.1 hfound
    rw [sample_inRow.read hfound, Disk.read_iff_entry.2 ⟨2, entry?_touched h⟩]
  · rw [← h.alike.source hfound]
    exact (sameAt_source_touched h hfound hn).read

theorem tidy_touched (h : OnceBuilt d) : inRow.Tidy (touched d) :=
  sample_inRow.tidy.of_alike (alike_touched h)

theorem dependsOn_touched (h : OnceBuilt d) {m n : String} :
    inRow.DependsOn (touched d) m n ↔ m = "a" ∧ n = "b" ∨ m = "b" ∧ n = "c" :=
  (alike_touched h).dependsOn.trans dependsOn_inRow

theorem fresh_touched (h : OnceBuilt d) :
    inRow.isFresh (touched d) "b" ⟨"/s/b.v"⟩ = true := by
  have hb : inRow.resolver.resolve "b" = .found ⟨"/s/b.v"⟩ :=
    found_inRow.2 (.inr (.inl ⟨rfl, rfl⟩))
  obtain ⟨v, vs, hv, time, htime, since, hsince, hle⟩ := (isFresh_sourceTime_iff rfl).1 h.fresh
  have hmem : v ∈ inRow.variants := by simp [hv]
  have hsource := (sameAt_source_touched h hb (by decide)).modified?_of_read
    ((h.alike.source hb).2 (sample_inRow.read hb))
  obtain ⟨bytes, hread⟩ := (sample_inRow.tidy.of_alike h.alike).regular (by decide) hmem
    (Disk.exists?_of_modified? htime)
  have hfragment := (sameAt_fragment_touched h (m := "b") (by decide) hmem).modified?_of_read hread
  exact (isFresh_sourceTime_iff rfl).2
    ⟨v, vs, hv, time, hfragment.trans htime, since, hsource.trans hsince, hle⟩

theorem pastSources_touched (h : OnceBuilt d) : inRow.PastSources (touched d) := by
  intro n path time hfound htime
  by_cases hn : n = "c"
  · obtain rfl : path = ⟨"/s/c.v"⟩ := by simpa [hn] using found_inRow.1 hfound
    rw [Disk.modified?_iff_entry.2 (.inl ⟨_, entry?_touched h⟩)] at htime
    cases htime
    exact Nat.le_succ 2
  · have hread := (h.alike.source hfound).2 (sample_inRow.read hfound)
    rw [(sameAt_source_touched h hfound hn).modified?_of_read hread] at htime
    exact Nat.le_trans (h.old htime) (show 1 ≤ 3 by decide)

theorem apart_touched (h : OnceBuilt d) :
    inRow.Apart inRow.resolver.Finds (inRow.prepared (touched d)) :=
  sample_inRow.apart_later (alike_touched h)

theorem lasting_touched (h : OnceBuilt d) :
    inRow.Lasting (inRow.prepared (touched d)) :=
  .sourceTime rfl (apart_touched h) ((tidy_touched h).prepared_eq.symm ▸ pastSources_touched h)

theorem write_touched (h : OnceBuilt d) :
    ∃ report st, inRow.write (touched d) "a" = (.ok report, st) :=
  sample_inRow.write_later (by simp [inRow, threeModules]) (alike_touched h)
    ⟨_, found_inRow.2 (.inl ⟨rfl, rfl⟩)⟩

variable {report : Report} {st : State}

theorem not_mem_touched (h : OnceBuilt d)
    (hwrite : inRow.write (touched d) "a" = (.ok report, st)) : "c" ∉ report.modules := by
  have hgrounded := (tidy_touched h).grounded
  have hprepared := (tidy_touched h).prepared_eq
  have hb : "b" ∉ report.modules :=
    not_mem_modules_of_isFresh (lasting_touched h) hgrounded hwrite (by decide)
      (found_inRow.2 (.inr (.inl ⟨rfl, rfl⟩))) (hprepared.symm ▸ fresh_touched h)
  have hreused : "b" ∈ report.reused :=
    (mem_of_dependsOn hgrounded (apart_touched h) hwrite (root_mem_of_ok hwrite)
      (hprepared.symm ▸ (dependsOn_touched h).2 (.inl ⟨rfl, rfl⟩))).resolve_left hb
  intro hc
  rcases ReflTransGen.cases_tail
    (reached_of_ok (lasting_touched h) hgrounded (apart_touched h) hwrite hc) with
    heq | ⟨m, hm, hmc, -⟩
  · simp at heq
  rw [hprepared, dependsOn_touched h] at hmc
  obtain rfl : m = "b" := by simpa using hmc
  rcases ReflTransGen.cases_tail hm with heq | ⟨k, -, -, hnot⟩
  · simp at heq
  · exact hnot hreused

theorem old_touched (h : OnceBuilt d)
    (hwrite : inRow.write (touched d) "a" = (.ok report, st)) :
    ¬inRow.UpToDate st.disk "c" := by
  rintro ⟨v, path, time, since, hv, hfound, htime, hsince, hle⟩
  have hv : v ∈ inRow.variants := List.mem_of_head? hv
  obtain rfl : path = ⟨"/s/c.v"⟩ := by simpa using found_inRow.1 hfound
  have htidy := tidy_touched h
  have hprepared := htidy.prepared_eq
  have hfinds : ∀ m ∈ report.modules, inRow.resolver.Finds m :=
    fun m => finds_of_mem_modules hwrite
  have hsource := sameAt_of_ok htidy.grounded hwrite fun m hm v hv l hl =>
    apart_touched h m v "c" _ l (hfinds m hm) hv hfound hl
  have hfragment := sameAt_fragment_of_ok htidy.grounded hwrite rfl (List.Subset.refl _)
    (hprepared.symm ▸ htidy.places) (fun m hm => sample_inRow.slashFree (hfinds m hm))
    (m := "c") (by decide) hv fun hc => not_mem_touched h hwrite hc.1
  rw [hprepared] at hsource hfragment
  rw [Disk.modified?_iff_entry.2 (.inl ⟨_, (hsource _).2 (entry?_touched h)⟩)] at hsince
  cases hsince
  obtain ⟨bytes, hread⟩ := htidy.regular (m := "c") (by decide) hv
    (hfragment.exists? ▸ Disk.exists?_of_modified? htime)
  have htouched := sameAt_fragment_touched h (m := "c") (by decide) hv
  rw [hfragment.modified?_of_read hread, htouched.modified?_of_read (htouched.read.1 hread)]
    at htime
  exact absurd (Nat.le_trans hle (h.old htime)) (by decide)

end

/-- The fragment of `c` is older than its source, and `b` above it is trusted, so that a run from
`a` does not get there. -/
theorem old_below_trusted :
    let w := inRow
    ∃ report st report' st', w.write threeSources "a" = (.ok report, st) ∧
      w.PastSources (touched st.disk) ∧ w.write (touched st.disk) "a" = (.ok report', st') ∧
      ReflTransGen (w.DependsOn (touched st.disk)) "a" "c" ∧ ¬w.UpToDate st'.disk "c" := by
  intro w
  obtain ⟨report, st, h⟩ := sample_inRow.write_succeeds (by simp [inRow, threeModules])
    ⟨_, found_inRow.2 (.inl ⟨rfl, rfl⟩)⟩
  have hbuilt := onceBuilt_of_ok h
  obtain ⟨report', st', h'⟩ := write_touched hbuilt
  refine ⟨report, st, report', st', h, pastSources_touched hbuilt, h', ?_, old_touched hbuilt h'⟩
  exact .head ((dependsOn_touched hbuilt).2 (.inl ⟨rfl, rfl⟩))
    (.single ((dependsOn_touched hbuilt).2 (.inr ⟨rfl, rfl⟩)))

end DesignDeps.Writer
