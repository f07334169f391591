import DesignDeps.Proofs.Walk.Memory
import DesignDeps.Proofs.Walk.Success

/-!
# Walks as steps

`Step` lists everything that a walk does to its state, one case for each kind of work, with what is
known at that point. `steps_walk` and `steps_write` take walks and runs apart into such steps, so
that whatever every step keeps is kept by all of them, in whatever way they end.

A step says nothing about the steps around it. What depends on how they nest is proved by induction
over the walk instead.
-/

namespace DesignDeps.Writer

open Text Walk Relation

/-- A step of a walk through modules in `S`, in which fragments fail to be written with errors in
`E` at most. -/
inductive Step (w : Writer) (S : String → Prop) (E : Error → Prop) : State → State → Prop
  | noted {st st'} : st'.disk = st.disk → st'.context = st.context → Step w S E st st'
  | entered {module path names st st'} : w.enter module path st = (.ok names, st') →
      Step w S E st st'
  | settled {module name edge st} : w.Meets st name edge →
      Step w S E st (w.settle module name edge st)
  | popped {st} : Step w S E st (st.inContext (·.pop))
  | left {module path kept bytes st st'} : S module → w.resolver.resolve module = .found path →
      st.disk.read path = .ok bytes → w.Leaves module path kept st (.ok (), st') →
      Step w S E st st'
  | stopped {module path kept e st st'} : S module → E e →
      w.leave module path kept st = (.error e, st') → Step w S E st st'

abbrev Steps (w : Writer) (S : String → Prop) (E : Error → Prop) : State → State → Prop :=
  ReflTransGen (w.Step S E)

section
variable {w : Writer} {S : String → Prop} {E : Error → Prop} {st st' : State} {d d' : Disk}
  {module : String} {path : Path} {kept variants : List String}

-- ---------------------------------------------------------------------------
-- Changes to the disk
-- ---------------------------------------------------------------------------

theorem leaves_of_leave {r : Except Error Unit} (h : w.leave module path kept st = (r, st')) :
    w.Leaves module path kept st (r, st') :=
  h ▸ w.leaves_leave module path kept st

theorem Writes.keeps {I : Disk → Prop} (h : w.Writes module path kept variants d d')
    (hwrite : ∀ {a b v content}, v ∈ variants →
      a.Stores (w.fragmentPath module v) content b → I a → I b) (hI : I d) : I d' := by
  induction h with
  | nil => exact hI
  | cons hfirst _ ih =>
    exact ih (fun hv => hwrite (List.mem_cons_of_mem _ hv)) (hwrite List.mem_cons_self hfirst hI)

theorem Leaves.keeps {I : Disk → Prop} {r : Except Error Unit × State}
    (h : w.Leaves module path kept st r)
    (hwrite : ∀ {a b v content}, v ∈ w.variants →
      a.Stores (w.fragmentPath module v) content b → I a → I b) (hI : I st.disk) :
    I r.2.disk := by
  cases h with
  | finished hwrites => exact hwrites.keeps hwrite hI
  | @stopped written variant after _ _ _ hvs hwrites hfails =>
    have hI' := hwrites.keeps (fun hv => hwrite (by simp [hvs, hv])) hI
    exact hfails.keeps (fun hstores => hwrite (by simp [hvs]) hstores hI') hI'

theorem Step.idle_or_leaves (h : w.Step S E st st') :
    (st'.disk = st.disk ∧ st'.context.report.modules = st.context.report.modules) ∨
    (∃ module path kept, S module ∧ w.Leaves module path kept st (.ok (), st')) ∨
    ∃ module path kept e, S module ∧ E e ∧ w.leave module path kept st = (.error e, st') := by
  cases h with
  | noted hdisk hcontext => exact .inl ⟨hdisk, by rw [hcontext]⟩
  | entered henter =>
    obtain ⟨-, hdisk, hcontext, -⟩ := enter_eq_ok henter
    exact .inl ⟨hdisk, by simp [hcontext]⟩
  | settled => exact .inl ⟨by simp, by simp⟩
  | popped => exact .inl ⟨rfl, rfl⟩
  | left hm _ _ hleaves => exact .inr (.inl ⟨_, _, _, hm, hleaves⟩)
  | stopped hm he hleave => exact .inr (.inr ⟨_, _, _, _, hm, he, hleave⟩)

theorem Step.keeps {I : Disk → Prop} (h : w.Step S E st st')
    (hwrite : ∀ {a b m v content}, S m → v ∈ w.variants →
      a.Stores (w.fragmentPath m v) content b → I a → I b) (hI : I st.disk) : I st'.disk := by
  rcases h.idle_or_leaves with ⟨hdisk, -⟩ | ⟨_, _, _, hm, hleaves⟩ | ⟨_, _, _, _, hm, -, hleave⟩
  · exact hdisk ▸ hI
  · exact hleaves.keeps (hwrite hm) hI
  · exact (leaves_of_leave hleave).keeps (hwrite hm) hI

theorem Steps.keeps {I : Disk → Prop} (h : w.Steps S E st st')
    (hwrite : ∀ {a b m v content}, S m → v ∈ w.variants →
      a.Stores (w.fragmentPath m v) content b → I a → I b) (hI : I st.disk) :
    I st'.disk := by
  induction h with
  | refl => exact hI
  | tail _ hstep ih => exact hstep.keeps hwrite ih

structure Since (d d' : Disk) : Prop where
  grounded : d'.Grounded
  adds : d.AddsFiles d'
  clock : d'.clock = d.clock

theorem Since.refl (hd : d.Grounded) : Since d d :=
  ⟨hd, .refl d, rfl⟩

theorem Since.trans {d'' : Disk} (h : Since d d') (h' : Since d' d'') : Since d d'' :=
  ⟨h'.grounded, h.adds.trans h'.adds, h'.clock.trans h.clock⟩

theorem Since.stores {p : Path} {content : ByteArray} {d'' : Disk} (h : Since d d')
    (hstores : d'.Stores p content d'') : Since d d'' := by
  have hadds := hstores.adds h.grounded
  exact h.trans ⟨hadds.grows.grounded h.grounded, hadds, hstores.clock⟩

theorem Writes.since (h : w.Writes module path kept variants d d') (hd : d.Grounded) :
    Since d d' :=
  h.keeps (fun _ hstores h => h.stores hstores) (.refl hd)

theorem Writes.exists? {v : String} (h : w.Writes module path kept variants d d')
    (hd : d.Grounded) (hv : v ∈ variants) : d'.exists? (w.fragmentPath module v) = true := by
  induction h with
  | nil => cases hv
  | cons hwrite hrest ih =>
    have hd₁ := (hwrite.adds hd).grows.grounded hd
    rcases List.mem_cons.1 hv with rfl | hv
    · exact (hrest.since hd₁).adds.grows.exists?
        (Disk.exists?_iff_entry.2 ⟨_, hwrite.entry?_self hd⟩)
    · exact ih hd₁ hv

theorem Step.since (h : w.Step S E st st') (hd : st.disk.Grounded) : Since st.disk st'.disk :=
  h.keeps (fun _ _ hstores h => h.stores hstores) (.refl hd)

theorem Steps.since (h : w.Steps S E st st') (hd : st.disk.Grounded) : Since st.disk st'.disk :=
  h.keeps (fun _ _ hstores h => h.stores hstores) (.refl hd)

theorem Steps.invariant {I : State → Prop} (h : w.Steps S E st st') (hd : st.disk.Grounded)
    (hstep : ∀ {a b}, w.Step S E a b → a.disk.Grounded → I a → I b) (hI : I st) : I st' := by
  induction h with
  | refl => exact hI
  | tail hsteps hlast ih =>
    exact hstep hlast (Steps.since hsteps hd).grounded ih

-- ---------------------------------------------------------------------------
-- Walks
-- ---------------------------------------------------------------------------

theorem steps_walk (hS : w.Confined S) :
    (∀ module path (st : State), S module → w.resolver.resolve module = .found path →
      st.disk.Grounded → (∀ e, (w.visit module path st).1 = .error e → E e) →
      w.Steps S E st (w.visit module path st).2) ∧
    ∀ module names kept (st : State), (∀ n ∈ names, w.resolver.Finds n → S n) →
      st.disk.Grounded → (∀ e, (w.visitAll module names kept st).1 = .error e → E e) →
      w.Steps S E st (w.visitAll module names kept st).2 := by
  refine w.walk_induct
    (P := fun module path st r => S module → w.resolver.resolve module = .found path →
      st.disk.Grounded → (∀ e, r.1 = .error e → E e) → w.Steps S E st r.2)
    (Q := fun _ names _ st r => (∀ n ∈ names, w.resolver.Finds n → S n) → st.disk.Grounded →
      (∀ e, r.1 = .error e → E e) → w.Steps S E st r.2)
    ?refused ?failed ?left ?done ?passed ?stopped ?descended
  case refused =>
    intro module path st e st₁ h _ _ _ _
    obtain ⟨hdisk, hcontext, -⟩ := enter_eq_error h
    exact .single (.noted hdisk hcontext)
  case failed =>
    intro module path st names st₁ e st₂ h _ ih _ _ hd hfails
    obtain ⟨-, hdisk, -, bytes, -, rfl⟩ := enter_eq_ok h
    have hsteps := ih (hS path module _) (hdisk ▸ hd) (by simpa using hfails)
    exact .head (.entered h) (.tail hsteps .popped)
  case left =>
    intro module path st names st₁ kept st₂ h _ ih hm hfound hd hfails
    obtain ⟨-, hdisk, -, bytes, hread, rfl⟩ := enter_eq_ok h
    have hsteps := ih (hS path module _) (hdisk ▸ hd) (by simp)
    obtain ⟨bytes', hread'⟩ :=
      (Steps.since hsteps (hdisk ▸ hd)).adds.grows.read (hdisk ▸ hread)
    refine .head (.entered h) (.tail (.tail hsteps .popped) ?_)
    generalize hleave : w.leave module path kept (st₂.inContext (·.pop)) = r at hfails
    obtain ⟨result, st'⟩ := r
    cases result with
    | ok => exact .left hm hfound hread' (leaves_of_leave hleave)
    | error e => exact .stopped hm (hfails e rfl) hleave
  case done =>
    intro module kept st _ _ _
    exact .refl
  case passed =>
    intro module name names kept st edge r hmeets _ _ _ ih hnames hd hfails
    exact .head (.settled hmeets)
      (ih (fun n hn => hnames n (List.mem_cons_of_mem _ hn)) (by simpa using hd) hfails)
  case stopped =>
    intro module name names kept st source e st₁ hmeets _ _ ih hnames hd hfails
    have hname := hnames name (by simp) ⟨source, hmeets.found⟩
    exact .head (.settled hmeets)
      (ih hname hmeets.found (by simpa using hd) (by simpa using hfails))
  case descended =>
    intro module name names kept st source st₁ r hmeets _ _ ih _ ih' hnames hd hfails
    have hname := hnames name (by simp) ⟨source, hmeets.found⟩
    have hd₀ : (w.settle module name (.descend source) st).disk.Grounded := by simpa using hd
    have hsteps := ih hname hmeets.found hd₀ (by simp)
    refine .head (.settled hmeets) (hsteps.trans ?_)
    exact ih' (fun n hn => hnames n (List.mem_cons_of_mem _ hn))
      (Steps.since hsteps hd₀).grounded hfails

theorem steps_visit {r : Except Error Unit} (hS : w.Confined S) (hm : S module)
    (hfound : w.resolver.resolve module = .found path) (hd : st.disk.Grounded)
    (h : w.visit module path st = (r, st')) (hfails : ∀ e, r = .error e → E e) :
    w.Steps S E st st' := by
  have hsteps := (steps_walk (E := E) hS).1 module path st hm hfound hd (by rwa [h])
  rwa [h] at hsteps

theorem grounded_prepared (w : Writer) (hd : d.Grounded) : (w.prepared d).Grounded :=
  (Disk.extends_makeDirs d w.outDir).grows.grounded hd

theorem steps_write {root : String} {r : Except Error Report} (hS : w.Confined S) (hroot : S root)
    (hd : d.Grounded) (h : w.write d root = (r, st)) (hfails : ∀ e, r = .error e → E e) :
    st.disk = d ∨ ∃ st', st'.disk = st.disk ∧ w.Steps S E (w.start d root) st' := by
  have hgrounded := w.grounded_prepared hd
  have hgoes := w.goes_write d root
  rw [h] at hgoes
  cases hgoes with
  | withoutVariants _ hdisk | missing _ hdisk => exact .inl hdisk
  | withoutDirectory _ _ hdisk => exact .inr ⟨_, hdisk.symm, .refl⟩
  | failed hfound hvisit =>
    exact .inr ⟨st, rfl, steps_visit hS hroot hfound hgrounded hvisit (by simpa using hfails)⟩
  | finished hfound hvisit hdisk =>
    exact .inr ⟨_, hdisk.symm, steps_visit hS hroot hfound hgrounded hvisit (by simp)⟩

-- ---------------------------------------------------------------------------
-- Runs that succeed
-- ---------------------------------------------------------------------------

variable {root : String} {report : Report}

theorem steps_of_ok (hd : d.Grounded) (h : w.write d root = (.ok report, st)) :
    ∃ st', st'.context.report = report ∧ st'.disk = st.disk ∧
      w.Steps w.resolver.Finds (fun _ => False) (w.start d root) st' := by
  obtain ⟨path, st', hfound, hvisit, hreport, hdisk⟩ := write_eq_ok h
  exact ⟨st', hreport, hdisk.symm, steps_visit w.confined_finds ⟨path, hfound⟩ hfound
    (w.grounded_prepared hd) hvisit (by simp)⟩

theorem since_of_ok (hd : d.Grounded) (h : w.write d root = (.ok report, st)) :
    Since (w.prepared d) st.disk := by
  obtain ⟨st', -, hdisk, hsteps⟩ := steps_of_ok hd h
  exact hdisk ▸ Steps.since hsteps (w.grounded_prepared hd)

theorem alike_of_ok (hd : d.Grounded) (ha : w.Apart w.resolver.Finds (w.prepared d))
    (h : w.write d root = (.ok report, st)) : w.Alike (w.prepared d) st.disk := by
  obtain ⟨path, st', hfound, hvisit, -, hdisk⟩ := write_eq_ok h
  rw [hdisk]
  exact (steady_visit hvisit (.refl w _) w.confined_finds (w.grounded_prepared hd) ha
    ⟨path, hfound⟩).alike

theorem Sample.alike_of_ok (hs : w.Sample d) (h : w.write d root = (.ok report, st)) :
    w.Alike d st.disk :=
  hs.prepared_eq ▸ Writer.alike_of_ok hs.grounded hs.apart_prepared h

theorem past_of_ok (hd : d.Grounded) (h : w.write d root = (.ok report, st))
    (hpast : ∀ p time, (w.prepared d).modified? p = some time → time ≤ (w.prepared d).clock)
    {p : Path} {time : Nat} (htime : st.disk.modified? p = some time) :
    time ≤ (w.prepared d).clock := by
  obtain ⟨st', -, hdisk, hsteps⟩ := steps_of_ok hd h
  refine (hsteps.keeps (I := fun e => Since (w.prepared d) e ∧
    ∀ p time, e.modified? p = some time → time ≤ (w.prepared d).clock) ?_
    ⟨.refl (w.grounded_prepared hd), hpast⟩).2 p time (hdisk ▸ htime)
  rintro a b m v content - - hwrite ⟨hsince, hpast⟩
  refine ⟨hsince.stores hwrite, fun p time htime => ?_⟩
  rcases hwrite.modified? hsince.grounded p with hnew | hsame
  · cases hnew.symm.trans htime
    exact Nat.le_of_eq hsince.clock
  · exact hpast p time (hsame ▸ htime)

/-- A run leaves alone what is found at a path that leads to no fragment of the modules that it
reports. -/
theorem sameAt_of_ok {q : Path} (hd : d.Grounded) (h : w.write d root = (.ok report, st))
    (hq : ∀ m ∈ report.modules, ∀ v ∈ w.variants, ∀ l,
      (w.prepared d).reach .create (w.fragmentPath m v) = .ok l →
      (w.prepared d).reach .create q ≠ .ok l) : (w.prepared d).SameAt st.disk q := by
  obtain ⟨st', rfl, hdisk, hsteps⟩ := steps_of_ok hd h
  have hgrounded := w.grounded_prepared hd
  rw [← hdisk]
  refine (hsteps.invariant (I := fun s => Since (w.prepared d) s.disk ∧
    ((∀ m ∈ s.context.report.modules, ∀ v ∈ w.variants, ∀ l,
      (w.prepared d).reach .create (w.fragmentPath m v) = .ok l →
      (w.prepared d).reach .create q ≠ .ok l) → (w.prepared d).SameAt s.disk q))
    hgrounded ?_ ⟨.refl hgrounded, fun _ => .refl _ _⟩).2 hq
  rintro a b hstep hd ⟨hsince, hsame⟩
  refine ⟨hsince.trans (hstep.since hd), fun hb => ?_⟩
  rcases hstep.idle_or_leaves with
    ⟨hdisk, hmodules⟩ | ⟨_, _, _, -, hleaves⟩ | ⟨_, _, _, _, -, he, -⟩
  · exact hdisk ▸ hsame (hmodules ▸ hb)
  · cases hleaves with
    | finished hwrites hcontext =>
      simp only [hcontext, List.forall_mem_append, List.forall_mem_singleton] at hb
      refine (hsame hb.1).trans (hwrites.sameAt hd fun v hv l hl => ?_)
      rw [hsince.adds.reach_create] at hl
      rw [ne_eq, hsince.adds.reach_create]
      exact hb.2 v hv l hl
  · cases he

/-- A run leaves alone the fragments of other modules, and those of variants that it does not write,
if they have places of their own. -/
theorem sameAt_fragment_of_ok {w' : Writer} {m v : String} (hd : d.Grounded)
    (h : w.write d root = (.ok report, st)) (hout : w'.outDir = w.outDir)
    (hsub : w.variants ⊆ w'.variants) (hs : w'.Separate (w.prepared d))
    (hplain : ∀ m ∈ report.modules, SlashFree m) (hm : SlashFree m) (hv : v ∈ w'.variants)
    (hnot : ¬(m ∈ report.modules ∧ v ∈ w.variants)) :
    (w.prepared d).SameAt st.disk (w'.fragmentPath m v) := by
  refine sameAt_of_ok hd h fun m' hm' v' hv' l hl hl' => ?_
  have hpath : w.fragmentPath m' v' = w'.fragmentPath m' v' := by simp [fragmentPath, hout]
  rw [hpath] at hl
  obtain ⟨rfl, rfl⟩ := hs m' v' m v l (hplain m' hm') (hsub hv') hm hv hl hl'
  exact hnot ⟨hm', hv'⟩

end

end DesignDeps.Writer
