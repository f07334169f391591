import DesignDeps.Proofs.Walk.Progress

/-!
# Trust that lasts

A fragment that is trusted is asked for again when another module names it, and the disk has changed
in between. `Lasting` says for which policies the answer is the same: if whatever exists is
trusted, or if times decide, no fragment has its place where a source is and no source is from the
future. Then no run writes what it has trusted, and what it has written it could trust.
-/

namespace DesignDeps.Writer

open Text Walk Relation

/-- No source is from the future. -/
def PastSources (w : Writer) (d : Disk) : Prop :=
  ∀ n path time, w.resolver.resolve n = .found path → d.modified? path = some time →
    time ≤ d.clock

/-- Fragments that are trusted on this disk stay so while others are written. -/
inductive Lasting (w : Writer) (d : Disk) : Prop
  | existing : w.freshness = .existing → Lasting w d
  | sourceTime : w.freshness = .sourceTime → w.Apart w.resolver.Finds d → w.PastSources d →
      Lasting w d

def KeepsTrust (w : Writer) (d d' : Disk) : Prop :=
  ∀ n path, w.resolver.resolve n = .found path → w.isFresh d n path = true →
    w.isFresh d' n path = true

section
variable {w : Writer} {d d' : Disk} {m n v : String} {path : Path} {content bytes : ByteArray}

theorem KeepsTrust.refl (w : Writer) (d : Disk) : w.KeepsTrust d d :=
  fun _ _ _ => id

theorem KeepsTrust.trans {d'' : Disk} (h : w.KeepsTrust d d') (h' : w.KeepsTrust d' d'') :
    w.KeepsTrust d d'' :=
  fun n path hfound hfresh => h' n path hfound (h n path hfound hfresh)

-- ---------------------------------------------------------------------------
-- Fresh fragments
-- ---------------------------------------------------------------------------

theorem isFresh_existing_iff (hw : w.freshness = .existing) :
    w.isFresh d m path = true ↔
      ∃ v vs, w.variants = v :: vs ∧ d.exists? (w.fragmentPath m v) = true := by
  unfold isFresh
  rw [hw]
  cases w.variants <;> simp [Freshness.existing]

theorem isFresh_sourceTime_iff (hw : w.freshness = .sourceTime) :
    w.isFresh d m path = true ↔ ∃ v vs, w.variants = v :: vs ∧
      ∃ time, d.modified? (w.fragmentPath m v) = some time ∧
        ∃ since, d.modified? path = some since ∧ since ≤ time := by
  unfold isFresh
  rw [hw]
  cases w.variants with
  | nil => simp
  | cons v vs =>
    simp only [Freshness.sourceTime, List.cons.injEq, and_assoc, exists_and_left, exists_eq_left']
    cases d.modified? (w.fragmentPath m v) <;> cases d.modified? path <;> simp

-- ---------------------------------------------------------------------------
-- Writing a fragment
-- ---------------------------------------------------------------------------

theorem modified?_source (ha : w.Apart w.resolver.Finds d) (hd : d.Grounded)
    (hm : w.resolver.Finds m) (hv : v ∈ w.variants)
    (h : d.Stores (w.fragmentPath m v) content d') (hn : w.resolver.resolve n = .found path) :
    d'.modified? path = d.modified? path :=
  (h.sameAt hd fun l => ha m v n path l hm hv hn).modified? h.clock

theorem Lasting.stores (h : w.Lasting d) (hd : d.Grounded) (hm : w.resolver.Finds m)
    (hv : v ∈ w.variants) (hwrite : d.Stores (w.fragmentPath m v) content d') :
    w.Lasting d' ∧ w.KeepsTrust d d' := by
  have hclock := hwrite.clock
  cases h with
  | existing hw =>
    refine ⟨.existing hw, fun n path _ hfresh => ?_⟩
    obtain ⟨v', vs, hvs, hexists⟩ := (isFresh_existing_iff hw).1 hfresh
    exact (isFresh_existing_iff hw).2
      ⟨v', vs, hvs, (hwrite.adds hd).grows.exists? hexists⟩
  | sourceTime hw ha hpast =>
    have hsource : ∀ {n path}, w.resolver.resolve n = .found path →
        d'.modified? path = d.modified? path := modified?_source ha hd hm hv hwrite
    refine ⟨.sourceTime hw ((alike_stores hd ha hm hv hwrite).apart ha) ?_,
      fun n path hn hfresh => ?_⟩
    · intro n path time hn htime
      rw [hsource hn] at htime
      rw [hclock]
      exact hpast n path time hn htime
    · obtain ⟨v', vs, hvs, time, htime, since, hsince, hle⟩ := (isFresh_sourceTime_iff hw).1 hfresh
      rw [← hsource hn] at hsince
      rcases hwrite.modified? hd (w.fragmentPath n v') with hnew | hsame
      · exact (isFresh_sourceTime_iff hw).2 ⟨v', vs, hvs, d.clock, hnew, since, hsince,
          hpast n path since hn (hsource hn ▸ hsince)⟩
      · exact (isFresh_sourceTime_iff hw).2
          ⟨v', vs, hvs, time, hsame.trans htime, since, hsince, hle⟩

theorem Lasting.fresh_written {vs : List String} (h : w.Lasting d) (hd : d.Grounded)
    (hm : w.resolver.resolve m = .found path) (hread : d.read path = .ok bytes)
    (hv : w.variants = v :: vs) (hwrite : d.Stores (w.fragmentPath m v) content d') :
    w.isFresh d' m path = true := by
  have hentry := hwrite.entry?_self hd
  cases h with
  | existing hw =>
    exact (isFresh_existing_iff hw).2 ⟨v, vs, hv, Disk.exists?_iff_entry.2 ⟨_, hentry⟩⟩
  | sourceTime hw ha hpast =>
    obtain ⟨since, hsince⟩ := Disk.modified?_of_read hread
    refine (isFresh_sourceTime_iff hw).2
      ⟨v, vs, hv, d.clock, Disk.modified?_iff_entry.2 (.inl ⟨_, hentry⟩), since, ?_,
        hpast m path since hm hsince⟩
    rw [modified?_source ha hd ⟨path, hm⟩ (by simp [hv]) hwrite hm, hsince]

variable {source : Path} {kept variants : List String}

structure Trusting (w : Writer) (d d' : Disk) : Prop where
  grounded : d'.Grounded
  lasting : w.Lasting d'
  keeps : w.KeepsTrust d d'

theorem Trusting.stores {d'' : Disk} (h : w.Trusting d d') (hm : w.resolver.Finds m)
    (hv : v ∈ w.variants) (hwrite : d'.Stores (w.fragmentPath m v) content d'') :
    w.Trusting d d'' := by
  obtain ⟨hlasting, hkeeps⟩ := h.lasting.stores h.grounded hm hv hwrite
  exact ⟨(hwrite.adds h.grounded).grows.grounded h.grounded, hlasting, h.keeps.trans hkeeps⟩

theorem Writes.lasting (h : w.Writes m source kept variants d d') (hd : d.Grounded)
    (hlasting : w.Lasting d) (hm : w.resolver.Finds m) (hv : variants ⊆ w.variants) :
    w.Trusting d d' :=
  h.keeps (fun hmem hwrite htrusting => htrusting.stores hm (hv hmem) hwrite)
    ⟨hd, hlasting, .refl w d⟩

theorem Leaves.lasting {st : State} {r : Except Error Unit × State}
    (h : w.Leaves m source kept st r) (hd : st.disk.Grounded) (hlasting : w.Lasting st.disk)
    (hm : w.resolver.Finds m) : w.Trusting st.disk r.2.disk :=
  h.keeps (fun hmem hwrite htrusting => htrusting.stores hm hmem hwrite) ⟨hd, hlasting, .refl w _⟩

theorem Writes.fresh (h : w.Writes m source kept w.variants d d') (hd : d.Grounded)
    (hlasting : w.Lasting d) (hne : w.variants ≠ []) (hm : w.resolver.resolve m = .found path)
    (hread : d.read path = .ok bytes) : w.isFresh d' m path = true := by
  generalize hvs : w.variants = variants at h
  cases h with
  | nil => exact absurd hvs hne
  | cons hwrite hrest =>
    have hfresh := hlasting.fresh_written hd hm hread hvs hwrite
    obtain ⟨hlasting₁, -⟩ := hlasting.stores hd ⟨path, hm⟩ (by simp [hvs]) hwrite
    have htrusting := hrest.lasting ((hwrite.adds hd).grows.grounded hd) hlasting₁ ⟨path, hm⟩
      (by simp [hvs])
    exact htrusting.keeps m path hm hfresh

end

-- ---------------------------------------------------------------------------
-- Walks
-- ---------------------------------------------------------------------------

/-- What is known of trusted and of claimed modules during a walk from `root` that began with the
disk `d`. -/
structure Trust (w : Writer) (d : Disk) (root : String) (st : State) : Prop where
  lasting : w.Lasting st.disk
  since : w.KeepsTrust d st.disk
  trusted : ∀ n ∈ st.context.report.reused, n ∉ st.context.visited ∧
    ∃ path, w.resolver.resolve n = .found path ∧ w.isFresh st.disk n path = true
  stale : ∀ m ∈ st.context.visited, m = root ∨
    ∃ path, w.resolver.resolve m = .found path ∧ w.isFresh d m path = false
  written : ∀ m ∈ st.context.report.modules,
    ∃ path, w.resolver.resolve m = .found path ∧ w.isFresh st.disk m path = true

section
variable {w : Writer} {d : Disk} {root : String} {st st' : State} {E : Error → Prop}

theorem Trust.start (h : w.Lasting (w.prepared d)) :
    w.Trust (w.prepared d) root (w.start d root) where
  lasting := h
  since := .refl w _
  trusted := fun n hn => absurd hn NameSet.not_mem_empty
  stale := fun m hm => .inl (List.mem_singleton.1 hm)
  written := by simp [Writer.start, Context.new, Report.new]

theorem Trust.onDisk (h : w.Trust d root st) (hlasting : w.Lasting st'.disk)
    (hkeeps : w.KeepsTrust st.disk st'.disk)
    (hvisited : st'.context.visited = st.context.visited)
    (hreused : st'.context.report.reused = st.context.report.reused)
    (hmodules : st'.context.report.modules = st.context.report.modules) : w.Trust d root st' where
  lasting := hlasting
  since := h.since.trans hkeeps
  trusted := by
    intro n hn
    rw [hreused] at hn
    obtain ⟨hnot, path, hfound, hfresh⟩ := h.trusted n hn
    exact ⟨hvisited ▸ hnot, path, hfound, hkeeps n path hfound hfresh⟩
  stale := by simpa [hvisited] using h.stale
  written := by
    intro m hm
    rw [hmodules] at hm
    obtain ⟨path, hfound, hfresh⟩ := h.written m hm
    exact ⟨path, hfound, hkeeps m path hfound hfresh⟩

theorem Trust.settle {module name : String} {edge : Edge} (h : w.Trust d root st)
    (hmeets : w.Meets st name edge) : w.Trust d root (w.settle module name edge st) := by
  refine ⟨by simpa using h.lasting, by simpa using h.since, ?_, ?_, by simpa using h.written⟩
  · intro n hn
    rw [disk_settle, mem_visited_settle_iff]
    rcases (mem_reused_settle ..).1 hn with ⟨rfl, rfl⟩ | hn
    · cases hmeets with
      | reused _ hfound hv hfresh => exact ⟨by simpa using hv, _, hfound, hfresh⟩
    · obtain ⟨hnot, path, hfound, hfresh⟩ := h.trusted n hn
      refine ⟨?_, path, hfound, hfresh⟩
      rintro (⟨⟨source, rfl⟩, rfl⟩ | hv)
      · cases hmeets with
        | descend _ hfound' _ hstale =>
          cases hfound.symm.trans hfound'
          simp [hfresh] at hstale
      · exact hnot hv
  · intro m hm
    rcases (mem_visited_settle_iff ..).1 hm with ⟨⟨source, rfl⟩, rfl⟩ | hm
    · cases hmeets with
      | descend _ hfound _ hstale =>
        refine .inr ⟨source, hfound, Bool.eq_false_iff.2 fun hfresh => ?_⟩
        simp [h.since m source hfound hfresh] at hstale
    · exact h.stale m hm

theorem Trust.step (h : w.Trust d root st) (hd : st.disk.Grounded) (hne : w.variants ≠ [])
    (hstep : w.Step w.resolver.Finds E st st') : w.Trust d root st' := by
  cases hstep with
  | noted hdisk hcontext =>
    exact h.onDisk (hdisk ▸ h.lasting) (hdisk ▸ .refl w _) (by rw [hcontext]) (by rw [hcontext])
      (by rw [hcontext])
  | entered henter =>
    obtain ⟨-, hdisk, hcontext, -⟩ := enter_eq_ok henter
    exact h.onDisk (hdisk ▸ h.lasting) (hdisk ▸ .refl w _) (by simp [hcontext]) (by simp [hcontext])
      (by simp [hcontext])
  | settled hmeets => exact h.settle hmeets
  | popped => exact h.onDisk h.lasting (.refl w _) rfl rfl rfl
  | stopped hm _ hleave =>
    have hleaves := leaves_of_leave hleave
    obtain ⟨-, hlasting, hkeeps⟩ := hleaves.lasting hd h.lasting hm
    cases hleaves with
    | stopped _ _ _ hcontext =>
      exact h.onDisk hlasting hkeeps (by simp [hcontext]) (by simp [hcontext]) (by simp [hcontext])
  | left hm hfound hread hleaves =>
    obtain ⟨-, hlasting, hkeeps⟩ := hleaves.lasting hd h.lasting hm
    cases hleaves with
    | finished hwrites hcontext =>
      have hfresh := hwrites.fresh hd h.lasting hne hfound hread
      refine ⟨hlasting, h.since.trans hkeeps, ?_, ?_, ?_⟩ <;> simp only [hcontext]
      · intro n hn
        obtain ⟨hnot, path, hfound, hfresh⟩ := h.trusted n hn
        exact ⟨hnot, path, hfound, hkeeps n path hfound hfresh⟩
      · exact h.stale
      · intro n hn
        rcases List.mem_append.1 hn with hn | hn
        · obtain ⟨path, hfound, hfresh⟩ := h.written n hn
          exact ⟨path, hfound, hkeeps n path hfound hfresh⟩
        · exact List.mem_singleton.1 hn ▸ ⟨_, hfound, hfresh⟩

/-- What is known when the walk of a run is over: all that was claimed has been written, the root
with it. -/
theorem trust_of_visit {path : Path} (hlasting : w.Lasting (w.prepared d)) (hd : d.Grounded)
    (hfound : w.resolver.resolve root = .found path)
    (h : w.visit root path (w.start d root) = (.ok (), st)) :
    w.Trust (w.prepared d) root st := by
  have hne : w.variants ≠ [] := by
    rintro hnone
    simp [visit_eq, enter, hnone] at h
  have hsteps := steps_visit (E := fun _ => False) w.confined_finds ⟨path, hfound⟩ hfound
    (w.grounded_prepared hd) h (by simp)
  exact hsteps.invariant (w.grounded_prepared hd)
    (fun hstep hd h => h.step hd hne hstep) (.start hlasting)

end

end DesignDeps.Writer
