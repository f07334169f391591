import DesignDeps.Proofs.Walk.Order

/-!
# The records that a walk writes

The journal of a walk lists the records that it sets out to write, in order, one for each fragment.
If the walk fails to write a fragment, its journal ends with that one. `journal_walk`: the records
of the journal, written one after the other, make the disk that the walk leaves behind, and if it
succeeds their paths are what it adds to the fragments in the report. `journalOf_of_ok`: a run that
succeeds writes a record for each of its visits in each variant, and nothing else.
-/

namespace DesignDeps.Writer

open Text Walk

-- ---------------------------------------------------------------------------
-- Writing records
-- ---------------------------------------------------------------------------

def recordPath (w : Writer) (r : Fragment.Record) : Path :=
  w.fragmentPath r.module r.variant

def writeRecord (w : Writer) (d : Disk) (r : Fragment.Record) : Except (IoError × Disk) Disk :=
  d.write (w.recordPath r) r.render.toUTF8 (w.faults.writing d (w.recordPath r))

def writeRecords (w : Writer) (d : Disk) (rs : List Fragment.Record) :
    Except (IoError × Disk) Disk :=
  rs.foldlM w.writeRecord d

def begun (w : Writer) (d : Disk) : List Fragment.Record → List Fragment.Record
  | [] => []
  | r :: rs =>
    r :: match w.writeRecord d r with
      | .error _ => []
      | .ok d => w.begun d rs

/-- The records are written, all of them or all but the last one, whose writing fails. -/
inductive Attempts (w : Writer) (rs : List Fragment.Record) (d d' : Disk) : Prop
  | written : w.writeRecords d rs = .ok d' → Attempts w rs d d'
  | failed {before r cause disk} : rs = before ++ [r] → w.writeRecords d before = .ok disk →
      w.writeRecord disk r = .error (cause, d') → Attempts w rs d d'

section
variable {w : Writer} {d d' d₁ : Disk} {r : Fragment.Record} {rs rs' before : List Fragment.Record}
  {cause : IoError}

theorem writeRecords_nil : w.writeRecords d [] = .ok d := rfl

theorem writeRecords_cons (h : w.writeRecord d r = .ok d') :
    w.writeRecords d (r :: rs) = w.writeRecords d' rs := by
  unfold writeRecords
  rw [List.foldlM_cons, h]
  rfl

theorem writeRecords_append (h : w.writeRecords d rs = .ok d') :
    w.writeRecords d (rs ++ rs') = w.writeRecords d' rs' := by
  unfold writeRecords at h ⊢
  rw [List.foldlM_append, h]
  rfl

theorem writeRecords_eq_ok (h : w.writeRecords d (r :: rs) = .ok d') :
    ∃ d₁, w.writeRecord d r = .ok d₁ ∧ w.writeRecords d₁ rs = .ok d' := by
  cases hwrite : w.writeRecord d r with
  | error e =>
    unfold writeRecords at h
    rw [List.foldlM_cons, hwrite] at h
    cases h
  | ok d₁ => exact ⟨d₁, rfl, (writeRecords_cons hwrite).symm.trans h⟩

theorem writeRecords_of_prefix (hpre : before <+: rs) (h : w.writeRecords d rs = .ok d') :
    ∃ e, w.writeRecords d before = .ok e := by
  induction rs generalizing d before with
  | nil =>
    rw [List.prefix_nil.1 hpre]
    exact ⟨d, rfl⟩
  | cons r rs ih =>
    obtain ⟨d₁, hwrite, hrest⟩ := writeRecords_eq_ok h
    rcases List.prefix_cons_iff.1 hpre with rfl | ⟨before, rfl, hafter⟩
    · exact ⟨d, rfl⟩
    · obtain ⟨e, he⟩ := ih hafter hrest
      exact ⟨e, (writeRecords_cons hwrite).trans he⟩

theorem writeRecord_eq_ok (h : w.writeRecord d r = .ok d') :
    d.Stores (w.recordPath r) r.render.toUTF8 d' :=
  (Disk.write_eq_ok_iff.1 h).2

theorem begun_of_error {left : IoError × Disk} (h : w.writeRecord d r = .error left) :
    w.begun d (r :: rs) = [r] := by
  simp [begun, h]

theorem begun_of_ok (h : w.writeRecord d r = .ok d') :
    w.begun d (r :: rs) = r :: w.begun d' rs := by
  simp [begun, h]

theorem Attempts.append (h : w.writeRecords d rs = .ok d₁) (h' : w.Attempts rs' d₁ d') :
    w.Attempts (rs ++ rs') d d' := by
  cases h' with
  | written h' => exact .written ((writeRecords_append h).trans h')
  | @failed before r cause disk hrs hbefore hfails =>
    refine .failed ?_ ((writeRecords_append h).trans hbefore) hfails
    rw [hrs, List.append_assoc]

theorem Attempts.written_of_prefix (h : w.Attempts rs d d') (hpre : before <+: rs)
    (hne : before ≠ rs) :
    ∃ e, w.writeRecords d before = .ok e := by
  cases h with
  | written h => exact writeRecords_of_prefix hpre h
  | failed hrs hbefore _ =>
    rw [hrs] at hpre hne
    exact writeRecords_of_prefix ((List.prefix_concat_iff.1 hpre).resolve_left hne) hbefore

end

-- ---------------------------------------------------------------------------
-- Journals
-- ---------------------------------------------------------------------------

mutual
def journal (w : Writer) (module : String) (path : Path) (st : State) : List Fragment.Record :=
  match _he : w.enter module path st with
  | (.error _, _) => []
  | (.ok names, st₁) =>
    w.journalAll module names st₁ ++
      match w.visitAll module names [] st₁ with
      | (.error _, _) => []
      | (.ok kept, st₂) => w.begun st₂.disk (w.variants.map (record module path kept))
termination_by (w.resolver.unclaimed st.context.visited, 1, 0)
decreasing_by
  rw [visited_eq_of_enter _he]
  exact .right _ (.left _ _ (by omega))

def journalAll (w : Writer) (module : String) (names : List String) (st : State) :
    List Fragment.Record :=
  match names with
  | [] => []
  | name :: names =>
    match _he : w.edge st name with
    | .descend source =>
      w.journal name source (w.settle module name (.descend source) st) ++
        match _hv : w.visit name source (w.settle module name (.descend source) st) with
        | (.error _, _) => []
        | (.ok (), st₁) => w.journalAll module names st₁
    | edge => w.journalAll module names (w.settle module name edge st)
termination_by (w.resolver.unclaimed st.context.visited, 0, names.length)
decreasing_by
  · exact .left _ _ (unclaimed_settle_lt _he)
  · exact Prod.Lex.right' _ (unclaimed_visit_le _he _hv) (.right _ (by simp))
  · refine Prod.Lex.right' _ ?_ (.right _ (by simp))
    exact Resolver.unclaimed_le fun _ hn => mem_visited_settle hn
end

/-- The records of a whole run. One that ends before its walk writes none. -/
def journalOf (w : Writer) (d : Disk) (root : String) : List Fragment.Record :=
  match w.resolver.resolve root, (d.makeDirs w.outDir).1 with
  | .found path, .ok () => w.journal root path (w.start d root)
  | _, _ => []

section
variable {w : Writer} {module name : String} {path source : Path} {names kept : List String}
  {st st₁ st₂ : State} {e : Error}

theorem journal_of_refused (henter : w.enter module path st = (.error e, st₁)) :
    w.journal module path st = [] := by
  rw [journal]
  split
  · rfl
  · next h => cases henter.symm.trans h

theorem journal_of_failed (henter : w.enter module path st = (.ok names, st₁))
    (hall : w.visitAll module names [] st₁ = (.error e, st₂)) :
    w.journal module path st = w.journalAll module names st₁ := by
  rw [journal]
  split
  · rename_i h
    cases henter.symm.trans h
  · rename_i h
    cases henter.symm.trans h
    simp [hall]

theorem journal_of_left (henter : w.enter module path st = (.ok names, st₁))
    (hall : w.visitAll module names [] st₁ = (.ok kept, st₂)) :
    w.journal module path st = w.journalAll module names st₁ ++
      w.begun st₂.disk (w.variants.map (record module path kept)) := by
  rw [journal]
  split
  · rename_i h
    cases henter.symm.trans h
  · rename_i h
    cases henter.symm.trans h
    simp [hall]

theorem journalAll_nil : w.journalAll module [] st = [] := by
  rw [journalAll]

theorem journalAll_of_pass {edge : Edge} (hedge : w.edge st name = edge)
    (hpass : ∀ source, edge ≠ .descend source) :
    w.journalAll module (name :: names) st =
      w.journalAll module names (w.settle module name edge st) := by
  rw [journalAll]
  split
  · next source h => exact absurd (hedge.symm.trans h) (hpass source)
  · rw [hedge]

theorem journalAll_of_stop (hedge : w.edge st name = .descend source)
    (hvisit : w.visit name source (w.settle module name (.descend source) st) = (.error e, st₁)) :
    w.journalAll module (name :: names) st =
      w.journal name source (w.settle module name (.descend source) st) := by
  rw [journalAll]
  split
  · next h =>
    cases hedge.symm.trans h
    split
    · simp
    · next h => cases hvisit.symm.trans h
  · next h => exact absurd hedge (h source)

theorem journalAll_of_descend (hedge : w.edge st name = .descend source)
    (hvisit : w.visit name source (w.settle module name (.descend source) st) = (.ok (), st₁)) :
    w.journalAll module (name :: names) st =
      w.journal name source (w.settle module name (.descend source) st) ++
        w.journalAll module names st₁ := by
  rw [journalAll]
  split
  · next h =>
    cases hedge.symm.trans h
    split
    · next h => cases hvisit.symm.trans h
    · next h =>
      cases hvisit.symm.trans h
      rfl
  · next h => exact absurd hedge (h source)

end

-- ---------------------------------------------------------------------------
-- Journals and disks
-- ---------------------------------------------------------------------------

structure Records (w : Writer) (rs : List Fragment.Record) (st st' : State) : Prop where
  disk : w.writeRecords st.disk rs = .ok st'.disk
  fragments : st'.context.report.fragments = st.context.report.fragments ++ rs.map w.recordPath

structure Journals (w : Writer) (rs : List Fragment.Record) (st : State) {α : Type}
    (r : Except Error α × State) : Prop where
  attempts : w.Attempts rs st.disk r.2.disk
  records : ∀ a, r.1 = .ok a → w.Records rs st r.2

section
variable {w : Writer} {rs rs' : List Fragment.Record} {st st₁ st' : State} {α : Type}
  {r : Except Error α × State}

theorem Records.nil (hdisk : st'.disk = st.disk)
    (hfragments : st'.context.report.fragments = st.context.report.fragments) :
    w.Records [] st st' :=
  ⟨by rw [writeRecords_nil, hdisk], by simp [hfragments]⟩

theorem Records.append (h : w.Records rs st st₁) (h' : w.Records rs' st₁ st') :
    w.Records (rs ++ rs') st st' :=
  ⟨(writeRecords_append h.disk).trans h'.disk, by simp [h'.fragments, h.fragments]⟩

theorem Records.journals (h : w.Records rs st r.2) : w.Journals rs st r :=
  ⟨.written h.disk, fun _ _ => h⟩

theorem Journals.append (h : w.Records rs st st₁) (h' : w.Journals rs' st₁ r) :
    w.Journals (rs ++ rs') st r :=
  ⟨.append h.disk h'.attempts, fun a hok => h.append (h'.records a hok)⟩

theorem Journals.after (h : w.Records [] st st₁) (h' : w.Journals rs st₁ r) : w.Journals rs st r :=
  Journals.append h h'

variable {module : String} {path : Path} {kept variants : List String}

theorem journals_writeFragments (w : Writer) (module : String) (path : Path)
    (kept variants : List String) (st : State) :
    w.Journals (w.begun st.disk (variants.map (record module path kept))) st
        (w.writeFragments module path kept variants st) ∧
      ((w.writeFragments module path kept variants st).1 = .ok () →
        w.begun st.disk (variants.map (record module path kept)) =
          variants.map (record module path kept)) := by
  induction variants generalizing st with
  | nil => exact ⟨Records.journals (.nil rfl rfl), fun _ => rfl⟩
  | cons variant variants ih =>
    have hfirst : w.writeRecord st.disk (record module path kept variant) =
        st.disk.write (w.fragmentPath module variant)
          (record module path kept variant).render.toUTF8
          (w.faults.writing st.disk (w.fragmentPath module variant)) := rfl
    simp only [writeFragments, ← hfirst, List.map_cons]
    cases hwrite : w.writeRecord st.disk (record module path kept variant) with
    | error left =>
      rw [begun_of_error hwrite]
      exact ⟨⟨.failed rfl writeRecords_nil hwrite, by simp⟩, by simp⟩
    | ok disk =>
      rw [begun_of_ok hwrite]
      dsimp only
      generalize hnext : (State.note _ _).inReport _ = st₁
      have hdisk : st₁.disk = disk := by
        rw [← hnext]
        rfl
      have hone : w.Records [record module path kept variant] st st₁ := by
        refine ⟨?_, ?_⟩
        · rw [writeRecords_cons hwrite, writeRecords_nil, hdisk]
        · rw [← hnext]
          rfl
      obtain ⟨hjournals, hall⟩ := hdisk ▸ ih st₁
      exact ⟨.append hone hjournals, fun hok => congrArg _ (hall hok)⟩

theorem journals_leave (w : Writer) (module : String) (path : Path) (kept : List String)
    (st : State) :
    w.Journals (w.begun st.disk (w.variants.map (record module path kept))) st
        (w.leave module path kept st) ∧
      ((w.leave module path kept st).1 = .ok () →
        w.begun st.disk (w.variants.map (record module path kept)) =
          w.variants.map (record module path kept)) := by
  obtain ⟨⟨hattempts, hrecords⟩, hall⟩ :=
    journals_writeFragments w module path kept w.variants st
  unfold leave
  split
  · next hfragments =>
    rw [hfragments] at hattempts
    exact ⟨⟨hattempts, by simp⟩, by simp⟩
  · next hfragments =>
    rw [hfragments] at hattempts hrecords hall
    obtain ⟨hdisk, hpaths⟩ := hrecords () rfl
    exact ⟨⟨hattempts, fun _ _ => ⟨hdisk, hpaths⟩⟩, hall⟩

/-- In whatever way a walk ends, its journal is what it has set out to write. -/
theorem journal_walk (w : Writer) :
    (∀ module path st, w.Journals (w.journal module path st) st (w.visit module path st)) ∧
    ∀ module names kept st,
      w.Journals (w.journalAll module names st) st (w.visitAll module names kept st) := by
  refine w.walk_induct
    (P := fun module path st r => w.Journals (w.journal module path st) st r)
    (Q := fun module names _ st r => w.Journals (w.journalAll module names st) st r)
    ?refused ?failed ?left ?done ?passed ?stopped ?descended
  case refused =>
    intro module path st e st₁ henter
    obtain ⟨hdisk, hcontext, -⟩ := enter_eq_error henter
    rw [journal_of_refused henter]
    exact Records.journals (.nil hdisk (by rw [hcontext]))
  case failed =>
    intro module path st names st₁ e st₂ henter hall ih
    obtain ⟨-, hdisk, hcontext, -⟩ := enter_eq_ok henter
    have hentered : w.Records [] st st₁ := .nil hdisk (by simp [hcontext])
    rw [journal_of_failed henter hall]
    exact .after hentered ⟨ih.attempts, by simp⟩
  case left =>
    intro module path st names st₁ kept st₂ henter hall ih
    obtain ⟨-, hdisk, hcontext, -⟩ := enter_eq_ok henter
    have hentered : w.Records [] st st₁ := .nil hdisk (by simp [hcontext])
    have hpopped : w.Records [] st₂ (st₂.inContext (·.pop)) := .nil rfl rfl
    have hbefore := (hentered.append (ih.records kept rfl)).append hpopped
    rw [List.nil_append, List.append_nil] at hbefore
    rw [journal_of_left henter hall]
    exact .append hbefore (journals_leave w module path kept (st₂.inContext (·.pop))).1
  case done =>
    intro module kept st
    rw [journalAll_nil]
    exact Records.journals (.nil rfl rfl)
  case passed =>
    intro module name names kept st edge r _ hedge hpass _ ih
    rw [journalAll_of_pass hedge hpass]
    exact .after (.nil (by simp) (by simp)) ih
  case stopped =>
    intro module name names kept st source e st₁ _ hedge hvisit ih
    rw [journalAll_of_stop hedge hvisit]
    exact .after (.nil (by simp) (by simp)) ⟨ih.attempts, by simp⟩
  case descended =>
    intro module name names kept st source st₁ r _ hedge hvisit ih _ ih'
    rw [journalAll_of_descend hedge hvisit]
    exact .after (.nil (by simp) (by simp)) (.append (ih.records () rfl) ih')

/-- Where a walk succeeds, its journal has a record for each visit in each variant. -/
theorem journal_visits (w : Writer) :
    (∀ module path st, (w.visit module path st).1 = .ok () → w.journal module path st =
      (w.visits module path st).flatMap fun x =>
        w.variants.map (record x.module x.source x.kept)) ∧
    ∀ module names kept st kept', (w.visitAll module names kept st).1 = .ok kept' →
      w.journalAll module names st = (w.visitsAll module names st).flatMap fun x =>
        w.variants.map (record x.module x.source x.kept) := by
  have hwalk := w.walk_induct
    (P := fun module path st r => r.1 = .ok () → w.journal module path st =
      (w.visits module path st).flatMap fun x => w.variants.map (record x.module x.source x.kept))
    (Q := fun module names _ st r => ∀ kept', r.1 = .ok kept' → w.journalAll module names st =
      (w.visitsAll module names st).flatMap fun x =>
        w.variants.map (record x.module x.source x.kept))
    ?refused ?failed ?left ?done ?passed ?stopped ?descended
  · exact ⟨hwalk.1, fun module names kept st => hwalk.2 module names kept st⟩
  case refused => rintro module path st e st₁ _ ⟨⟩
  case failed => rintro module path st names st₁ e st₂ _ _ _ ⟨⟩
  case stopped => rintro module name names kept st source e st₁ _ _ _ _ kept' ⟨⟩
  case left =>
    intro module path st names st₁ kept st₂ henter hall ih hok
    have hrecords := (journals_leave w module path kept (st₂.inContext (·.pop))).2 hok
    generalize hleave : w.leave module path kept (st₂.inContext (·.pop)) = r at hok
    obtain ⟨_, st'⟩ := r
    cases hok
    rw [journal_of_left henter hall, visits_of_ok henter hall hleave, ih kept rfl]
    simpa using hrecords
  case done =>
    intro module kept st _ _
    rw [journalAll_nil, visitsAll_nil]
    rfl
  case passed =>
    intro module name names kept st edge r _ hedge hpass _ ih kept' hok
    rw [journalAll_of_pass hedge hpass, visitsAll_of_pass hedge hpass]
    exact ih kept' hok
  case descended =>
    intro module name names kept st source st₁ r _ hedge hvisit ih _ ih' kept' hok
    rw [journalAll_of_descend hedge hvisit, visitsAll_of_descend hedge hvisit, ih rfl,
      ih' kept' hok, List.flatMap_append]

end

-- ---------------------------------------------------------------------------
-- Whole runs
-- ---------------------------------------------------------------------------

section
variable {w : Writer} {d : Disk} {root : String} {st : State} {report : Report}

theorem journalOf_of_found {path : Path} (hfound : w.resolver.resolve root = .found path)
    (hdirs : (d.makeDirs w.outDir).1 = .ok ()) :
    w.journalOf d root = w.journal root path (w.start d root) := by
  simp only [journalOf, hfound, hdirs]

/-- A run leaves the disk as it was and writes nothing, or it sets out to write its journal. -/
theorem journalOf_write {r : Except Error Report} (h : w.write d root = (r, st)) :
    (st.disk = d ∧ w.journalOf d root = []) ∨
      w.Attempts (w.journalOf d root) (w.prepared d) st.disk := by
  unfold write at h
  dsimp only at h
  split at h
  · next hv =>
    cases h
    refine .inl ⟨rfl, ?_⟩
    unfold journalOf
    split
    · exact journal_of_refused (if_pos hv)
    · rfl
  · split at h
    · next hres =>
      cases h
      exact .inl ⟨rfl, by simp [journalOf, hres]⟩
    · next hres =>
      cases h
      exact .inl ⟨rfl, by simp [journalOf, hres]⟩
    · next path hfound =>
      right
      split at h
      · next e disk hdirs =>
        cases h
        have hnone : w.journalOf d root = [] := by simp [journalOf, hfound, hdirs]
        rw [hnone]
        exact .written (by simp [prepared, hdirs, writeRecords_nil])
      · next disk hdirs =>
        have hattempts := (w.journal_walk.1 root path (w.start d root)).attempts
        rw [journalOf_of_found hfound (by rw [hdirs])]
        simp only [State.note] at h
        rw [start_of_makeDirs hdirs] at h
        split at h
        · next hvisit =>
          cases h
          rwa [hvisit] at hattempts
        · next hvisit =>
          cases h
          rwa [hvisit] at hattempts

theorem records_of_ok (h : w.write d root = (.ok report, st)) :
    w.writeRecords (w.prepared d) (w.journalOf d root) = .ok st.disk ∧
      report.fragments = (w.journalOf d root).map w.recordPath := by
  obtain ⟨path, st', hfound, hvisit, rfl, hdisk⟩ := write_eq_ok h
  obtain ⟨hrecords, hfragments⟩ :=
    (w.journal_walk.1 root path (w.start d root)).records () (by rw [hvisit])
  rw [hvisit] at hrecords hfragments
  rw [journalOf_of_found hfound (makeDirs_of_ok h), hdisk]
  exact ⟨hrecords, by simpa [start, Context.new, Report.new] using hfragments⟩

theorem journalOf_of_ok (h : w.write d root = (.ok report, st)) :
    w.journalOf d root =
      (w.visitsOf d root).flatMap fun x => w.variants.map (record x.module x.source x.kept) := by
  obtain ⟨path, st', hfound, hvisit, -, -, hvisits⟩ := visitsOf_of_ok h
  rw [journalOf_of_found hfound (makeDirs_of_ok h), hvisits]
  exact w.journal_visits.1 root path _ (by rw [hvisit])

theorem mem_journalOf (h : w.write d root = (.ok report, st)) {r : Fragment.Record} :
    r ∈ w.journalOf d root ↔ ∃ x ∈ w.visitsOf d root, ∃ v ∈ w.variants,
      record x.module x.source x.kept v = r := by
  simp [journalOf_of_ok h]

end

end DesignDeps.Writer
