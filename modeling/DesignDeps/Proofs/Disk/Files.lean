import DesignDeps.Disk.Access
import DesignDeps.Proofs.Disk.Leads

/-!
# What writing a file leaves alone

A disk only grows during a run: directories are made where nothing was, and files are written where
nothing or a file was. Whatever could be found before is found afterwards in the same place
(`Grows.reach`), and new files change no place to write to (`AddsFiles.reach_create`).

All of this needs a working directory that is there, which `Grounded` asks for.
-/

namespace DesignDeps.Disk

/-- The directory that relative paths start from exists. -/
def Grounded (d : Disk) : Prop :=
  d.Dirs d.cwd

theorem Grounded.startOf {d : Disk} (hd : d.Grounded) (p : Path) : d.Dirs (d.startOf p) :=
  Dirs.jump hd p.isAbsolute

-- ---------------------------------------------------------------------------
-- Operations that succeed
-- ---------------------------------------------------------------------------

theorem reach_eq_ok_iff {d : Disk} {final : Final} {p : Path} {l : Location} :
    d.reach final p = .ok l ↔
      (p.text.utf8ByteSize < maxPath ∧ p.text ≠ "") ∧
        ∃ links, d.Leads final maxLinks (d.startOf p) (steps p) links l := by
  unfold reach locate
  rw [← walk_eq_ok_iff]
  split
  · next h => simp [Nat.not_lt.2 h]
  · next h =>
    split
    · next h' => simp [h']
    · next h' => simp [h', Nat.not_le.1 h]

theorem reach_keepLink {d : Disk} {p : Path} {l : Location} (h : d.reach .follow p = .ok l) :
    ∃ k, d.reach .keepLink p = .ok k := by
  obtain ⟨hp, links, hl⟩ := reach_eq_ok_iff.1 h
  obtain ⟨links', k, hk⟩ := hl.keepLink_of_follow
  exact ⟨k, reach_eq_ok_iff.2 ⟨hp, links', hk⟩⟩

theorem entry?_eq_ok_iff {d : Disk} {p : Path} {entry : Entry} :
    d.entry? p = .ok entry ↔ ∃ l, d.reach .follow p = .ok l ∧ d.get? l = some entry := by
  unfold entry?
  cases d.reach .follow p with
  | error e => simp
  | ok l => cases h : d.get? l <;> simp [h]

theorem read_eq_ok_iff {d : Disk} {p : Path} {content : ByteArray} :
    d.read p = .ok content ↔
      ∃ l modified, d.reach .follow p = .ok l ∧ d.get? l = some (.file content modified) := by
  have h : d.read p = .ok content ↔ ∃ modified, d.entry? p = .ok (.file content modified) := by
    unfold read
    cases d.entry? p with
    | error e => simp
    | ok entry => cases entry <;> simp
  simp only [h, entry?_eq_ok_iff]
  exact ⟨fun ⟨m, l, h⟩ => ⟨l, m, h⟩, fun ⟨l, m, h⟩ => ⟨m, l, h⟩⟩

theorem exists?_iff {d : Disk} {p : Path} :
    d.exists? p = true ↔ ∃ l entry, d.reach .follow p = .ok l ∧ d.get? l = some entry := by
  have h : d.exists? p = true ↔ ∃ entry, d.entry? p = .ok entry := by
    unfold exists?
    cases d.entry? p <;> simp [Except.isOk, Except.toBool]
  simp only [h, entry?_eq_ok_iff]
  exact ⟨fun ⟨e, l, h⟩ => ⟨l, e, h⟩, fun ⟨l, e, h⟩ => ⟨e, l, h⟩⟩

theorem exists?_of_read {d : Disk} {p : Path} {content : ByteArray}
    (h : d.read p = .ok content) : d.exists? p = true := by
  obtain ⟨l, modified, hl, he⟩ := read_eq_ok_iff.1 h
  exact exists?_iff.2 ⟨l, _, hl, he⟩

theorem readDir_eq_ok_iff {d : Disk} {p : Path} {unlisted : List Location} {entries : List Path} :
    d.readDir p unlisted = .ok entries ↔
      ∃ l, d.reach .follow p = .ok l ∧ d.get? l = some .dir ∧ l ∉ unlisted ∧
        entries = (d.children l).map fun name => p.join ⟨name⟩ := by
  unfold readDir
  cases d.reach .follow p with
  | error e => simp
  | ok l =>
    cases hget : d.get? l with
    | none => simp [hget]
    | some entry =>
      cases entry with
      | file | link => simp [hget]
      | dir => by_cases hl : l ∈ unlisted <;> simp [hget, hl, eq_comm]

def Writable (d : Disk) (p : Path) : Prop :=
  ∃ l, d.reach .create p = .ok l ∧ d.get? l ≠ some .dir

def Stores (d : Disk) (p : Path) (content : ByteArray) (d' : Disk) : Prop :=
  ∃ l, d.reach .create p = .ok l ∧ d.get? l ≠ some .dir ∧ d' = d.put l (.file content d.clock)

/-- The ways in which a write can end. -/
inductive Ends (d : Disk) (p : Path) (content : ByteArray) (mishap : Option Mishap) :
    Except (IoError × Disk) Disk → Prop
  | unreached {e} : ¬d.Writable p → Ends d p content mishap (.error (e, d))
  | stored {d'} : mishap = none → d.Stores p content d' → Ends d p content mishap (.ok d')
  | refused {e} :
      mishap = some (.refused e) → d.Writable p → Ends d p content mishap (.error (e, d))
  | cut {bytes e d'} : mishap = some (.cut bytes e) → d.Stores p (content.extract 0 bytes) d' →
      Ends d p content mishap (.error (e, d'))

section
variable {d d' : Disk} {p : Path} {content : ByteArray} {mishap : Option Mishap}

theorem Stores.writable (h : d.Stores p content d') : d.Writable p := by
  obtain ⟨l, hl, hdir, -⟩ := h
  exact ⟨l, hl, hdir⟩

theorem Writable.stores (h : d.Writable p) (content : ByteArray) :
    ∃ d', d.Stores p content d' := by
  obtain ⟨l, hl, hdir⟩ := h
  exact ⟨_, l, hl, hdir, rfl⟩

theorem ends_write (d : Disk) (p : Path) (content : ByteArray) (mishap : Option Mishap) :
    d.Ends p content mishap (d.write p content mishap) := by
  unfold write
  split
  · next hl => exact .unreached fun ⟨l, hl', _⟩ => by cases hl.symm.trans hl'
  · next l hl =>
    have hstores (content : ByteArray) (hdir : d.get? l ≠ some .dir) :
        d.Stores p content (d.put l (.file content d.clock)) := ⟨l, hl, hdir, rfl⟩
    split
    · next hdir =>
      exact .unreached fun ⟨k, hk, hdir'⟩ => by
        cases hl.symm.trans hk
        exact hdir' hdir
    · next hdir =>
      split
      · exact .stored rfl (hstores _ hdir)
      · exact .refused rfl (hstores content hdir).writable
      · exact .cut rfl (hstores _ hdir)

theorem Stores.unique {d'' : Disk} (h : d.Stores p content d') (h' : d.Stores p content d'') :
    d' = d'' := by
  obtain ⟨l, hl, -, rfl⟩ := h
  obtain ⟨l', hl', -, rfl⟩ := h'
  cases hl.symm.trans hl'
  rfl

theorem write_eq_ok_iff :
    d.write p content mishap = .ok d' ↔ mishap = none ∧ d.Stores p content d' := by
  have hends := d.ends_write p content mishap
  generalize d.write p content mishap = r at hends
  cases hends with
  | unreached hp => simpa using fun _ h => hp (Stores.writable h)
  | @stored d₁ hnone hstores =>
    refine ⟨fun h => ⟨hnone, ?_⟩, fun ⟨_, h⟩ => by rw [hstores.unique h]⟩
    cases h
    exact hstores
  | refused hsome | cut hsome => simp [hsome]

theorem write_eq_error {e : IoError} (h : d.write p content mishap = .error (e, d')) :
    d' = d ∨ ∃ bytes, mishap = some (.cut bytes e) ∧ d.Stores p (content.extract 0 bytes) d' := by
  have hends := d.ends_write p content mishap
  rw [h] at hends
  cases hends with
  | unreached | refused => exact .inl rfl
  | cut hcut hstores => exact .inr ⟨_, hcut, hstores⟩

end
-- ---------------------------------------------------------------------------
-- Growth
-- ---------------------------------------------------------------------------

/-- Both are directories, both are files, or both are links to the same path. -/
inductive SameKind : Entry → Entry → Prop
  | file {content modified content' modified'} :
      SameKind (.file content modified) (.file content' modified')
  | dir : SameKind .dir .dir
  | link {target} : SameKind (.link target) (.link target)

theorem SameKind.refl (entry : Entry) : SameKind entry entry := by
  cases entry
  · exact .file
  · exact .dir
  · exact .link

theorem SameKind.trans {a b c : Entry} (h : SameKind a b) (h' : SameKind b c) : SameKind a c := by
  cases h <;> cases h' <;> constructor

structure Grows (d d' : Disk) : Prop where
  cwd : d'.cwd = d.cwd
  entry : ∀ {l entry}, d.get? l = some entry →
    ∃ entry', d'.get? l = some entry' ∧ SameKind entry entry'

theorem Grows.refl (d : Disk) : d.Grows d :=
  ⟨rfl, fun h => ⟨_, h, .refl _⟩⟩

theorem Grows.trans {a b c : Disk} (h : a.Grows b) (h' : b.Grows c) : a.Grows c := by
  refine ⟨h'.cwd.trans h.cwd, fun ha => ?_⟩
  obtain ⟨eb, hb, hab⟩ := h.entry ha
  obtain ⟨ec, hc, hbc⟩ := h'.entry hb
  exact ⟨ec, hc, hab.trans hbc⟩

theorem Grows.get?_dir {d d' : Disk} (h : d.Grows d') {l : Location} (hl : d.get? l = some .dir) :
    d'.get? l = some .dir := by
  obtain ⟨entry, he, hk⟩ := h.entry hl
  cases hk
  exact he

theorem Grows.grounded {d d' : Disk} (h : d.Grows d') (hd : d.Grounded) : d'.Grounded := by
  intro k hk
  rw [h.cwd] at hk
  exact h.get?_dir (hd k hk)

theorem Grows.startOf {d d' : Disk} (h : d.Grows d') (p : Path) : d'.startOf p = d.startOf p := by
  unfold Disk.startOf
  rw [h.cwd]

theorem Grows.leads {d d' : Disk} (h : d.Grows d') {final : Final} (hfinal : final ≠ .create)
    {links links' : Nat} {here l : Location} {names : List String}
    (hl : d.Leads final links here names links' l) : d'.Leads final links here names links' l := by
  induction hl with
  | done => exact .done
  | idle hn _ ih => exact .idle hn ih
  | up _ ih => exact .up ih
  | vacant _ hcreate => exact absurd hcreate hfinal
  | dir hn hslash hdir _ ih => exact .dir hn hslash (h.get?_dir hdir) ih
  | file hn hfile =>
    obtain ⟨_, he, hk⟩ := h.entry hfile
    cases hk
    exact .file hn he
  | keptLink hn hkeep hlink =>
    obtain ⟨_, he, hk⟩ := h.entry hlink
    cases hk
    exact .keptLink hn hkeep he
  | link hn hkeep hslash hlink _ ih =>
    obtain ⟨_, he, hk⟩ := h.entry hlink
    cases hk
    exact .link hn hkeep hslash he ih

theorem Grows.reach {d d' : Disk} (h : d.Grows d') {p : Path} {l : Location}
    (hl : d.reach .follow p = .ok l) : d'.reach .follow p = .ok l := by
  obtain ⟨hp, links, hl⟩ := reach_eq_ok_iff.1 hl
  exact reach_eq_ok_iff.2 ⟨hp, links, by rw [h.startOf]; exact h.leads (by decide) hl⟩

theorem Grows.read {d d' : Disk} (h : d.Grows d') {p : Path} {content : ByteArray}
    (hp : d.read p = .ok content) : ∃ content', d'.read p = .ok content' := by
  obtain ⟨l, modified, hl, he⟩ := read_eq_ok_iff.1 hp
  obtain ⟨entry', he', hk⟩ := h.entry he
  cases hk
  exact ⟨_, read_eq_ok_iff.2 ⟨l, _, h.reach hl, he'⟩⟩

theorem Grows.exists? {d d' : Disk} (h : d.Grows d') {p : Path} (hp : d.exists? p = true) :
    d'.exists? p = true := by
  obtain ⟨l, entry, hl, he⟩ := exists?_iff.1 hp
  obtain ⟨entry', he', -⟩ := h.entry he
  exact exists?_iff.2 ⟨l, entry', h.reach hl, he'⟩

-- ---------------------------------------------------------------------------
-- More files
-- ---------------------------------------------------------------------------

structure AddsFiles (d d' : Disk) : Prop where
  grows : d.Grows d'
  others : ∀ {l entry}, d'.get? l = some entry →
    (∃ content modified, entry = .file content modified) ∨ d.get? l = some entry

theorem AddsFiles.refl (d : Disk) : d.AddsFiles d :=
  ⟨.refl d, .inr⟩

theorem addsFiles_of_get? {d d' : Disk} (hcwd : d'.cwd = d.cwd)
    (hget : ∀ l, d'.get? l = d.get? l) : d.AddsFiles d' :=
  ⟨⟨hcwd, fun {l entry} h => ⟨entry, (hget l).trans h, .refl _⟩⟩, fun h => .inr (hget _ ▸ h)⟩

theorem AddsFiles.trans {a b c : Disk} (h : a.AddsFiles b) (h' : b.AddsFiles c) :
    a.AddsFiles c :=
  ⟨h.grows.trans h'.grows, fun hc => (h'.others hc).elim .inl h.others⟩

section
variable {d d' : Disk} {links links' : Nat} {here l : Location} {names : List String}

theorem AddsFiles.get?_dir (h : d.AddsFiles d') (hl : d'.get? l = some .dir) :
    d.get? l = some .dir :=
  (h.others hl).resolve_left (by simp)

theorem AddsFiles.get?_link (h : d.AddsFiles d') {target : Path}
    (hl : d'.get? l = some (.link target)) : d.get? l = some (.link target) :=
  (h.others hl).resolve_left (by simp)

theorem AddsFiles.file_of_ne (h : d.AddsFiles d') (hl : d'.get? l ≠ d.get? l) :
    ∃ content modified, d'.get? l = some (.file content modified) := by
  cases he : d'.get? l with
  | none =>
    cases hold : d.get? l with
    | none => exact absurd (he.trans hold.symm) hl
    | some entry =>
      obtain ⟨_, he', -⟩ := h.grows.entry hold
      simp [he] at he'
  | some entry =>
    rcases h.others he with ⟨content, modified, rfl⟩ | hold
    · exact ⟨content, modified, rfl⟩
    · exact absurd (he.trans hold.symm) hl

/-- Where a path would write to does not depend on the files that are there. -/
theorem AddsFiles.leads_create (h : d.AddsFiles d') :
    d'.Leads .create links here names links' l ↔ d.Leads .create links here names links' l := by
  constructor
  · intro hl
    induction hl with
    | done => exact .done
    | idle hn _ ih => exact .idle hn ih
    | up _ ih => exact .up ih
    | @vacant _ here name hn hcreate hnone =>
      refine .vacant hn hcreate ?_
      cases he : d.get? (here ++ [name]) with
      | none => rfl
      | some entry =>
        obtain ⟨_, he', -⟩ := h.grows.entry he
        simp [hnone] at he'
    | dir hn hslash hdir _ ih => exact .dir hn hslash (h.get?_dir hdir) ih
    | @file _ here name _ _ hn hfile =>
      cases he : d.get? (here ++ [name]) with
      | none => exact .vacant hn rfl he
      | some entry =>
        obtain ⟨entry', he', hk⟩ := h.grows.entry he
        rw [hfile] at he'
        cases he'
        cases hk
        exact .file hn he
    | keptLink _ hkeep => cases hkeep
    | link hn hkeep hslash hlink _ ih => exact .link hn hkeep hslash (h.get?_link hlink) ih
  · intro hl
    induction hl with
    | done => exact .done
    | idle hn _ ih => exact .idle hn ih
    | up _ ih => exact .up ih
    | @vacant _ here name hn hcreate hnone =>
      cases he : d'.get? (here ++ [name]) with
      | none => exact .vacant hn hcreate he
      | some entry =>
        obtain ⟨content, modified, rfl⟩ := (h.others he).resolve_right (by simp [hnone])
        exact .file hn he
    | dir hn hslash hdir _ ih => exact .dir hn hslash (h.grows.get?_dir hdir) ih
    | file hn hfile =>
      obtain ⟨_, he, hk⟩ := h.grows.entry hfile
      cases hk
      exact .file hn he
    | keptLink _ hkeep => cases hkeep
    | link hn hkeep hslash hlink _ ih =>
      obtain ⟨_, he, hk⟩ := h.grows.entry hlink
      cases hk
      exact .link hn hkeep hslash he ih

theorem AddsFiles.reach_create (h : d.AddsFiles d') {p : Path} :
    d'.reach .create p = .ok l ↔ d.reach .create p = .ok l := by
  simp only [reach_eq_ok_iff, h.leads_create, h.grows.startOf]

theorem AddsFiles.writable (h : d.AddsFiles d') {p : Path} (hp : d.Writable p) : d'.Writable p := by
  obtain ⟨l, hl, hdir⟩ := hp
  exact ⟨l, h.reach_create.2 hl, fun hl' => hdir (h.get?_dir hl')⟩

theorem AddsFiles.leads_follow (h : d.AddsFiles d')
    (hl : d'.Leads .follow links here names links' l)
    (hfile : ∀ content modified, d'.get? l ≠ some (.file content modified)) :
    d.Leads .follow links here names links' l := by
  induction hl with
  | done => exact .done
  | idle hn _ ih => exact .idle hn (ih hfile)
  | up _ ih => exact .up (ih hfile)
  | vacant _ hcreate => cases hcreate
  | dir hn hslash hdir _ ih => exact .dir hn hslash (h.get?_dir hdir) (ih hfile)
  | file _ hf => exact absurd hf (hfile _ _)
  | keptLink _ hkeep => cases hkeep
  | link hn hkeep hslash hlink _ ih =>
    exact .link hn hkeep hslash (h.get?_link hlink) (ih hfile)

theorem AddsFiles.exists? (h : d.AddsFiles d') {p : Path} (hp : d'.exists? p = true) :
    (∃ bytes, d'.read p = .ok bytes) ∨ d.exists? p = true := by
  obtain ⟨k, entry, hk, he⟩ := exists?_iff.1 hp
  by_cases hfile : ∃ content modified, entry = .file content modified
  · obtain ⟨content, modified, rfl⟩ := hfile
    exact .inl ⟨content, read_eq_ok_iff.2 ⟨k, modified, hk, he⟩⟩
  · obtain ⟨hp, links, hk⟩ := reach_eq_ok_iff.1 hk
    rw [h.grows.startOf] at hk
    have hk := h.leads_follow hk fun content modified hf =>
      hfile ⟨content, modified, Option.some.inj (he.symm.trans hf)⟩
    exact .inr (exists?_iff.2
      ⟨k, entry, reach_eq_ok_iff.2 ⟨hp, links, hk⟩, (h.others he).resolve_left hfile⟩)

end

-- ---------------------------------------------------------------------------
-- Making directories
-- ---------------------------------------------------------------------------

structure Extends (d d' : Disk) : Prop where
  cwd : d'.cwd = d.cwd
  entry : ∀ {l entry}, d.get? l = some entry → d'.get? l = some entry

theorem Extends.refl (d : Disk) : d.Extends d :=
  ⟨rfl, id⟩

theorem Extends.trans {a b c : Disk} (h : a.Extends b) (h' : b.Extends c) : a.Extends c :=
  ⟨h'.cwd.trans h.cwd, fun he => h'.entry (h.entry he)⟩

theorem Extends.grows {d d' : Disk} (h : d.Extends d') : d.Grows d' :=
  ⟨h.cwd, fun he => ⟨_, h.entry he, .refl _⟩⟩

theorem extends_put {d : Disk} {l : Location} {entry : Entry} (hl : d.get? l = none) :
    d.Extends (d.put l entry) := by
  refine ⟨rfl, fun {k e} he => ?_⟩
  by_cases hk : k = []
  · cases hk
    simpa using he
  · have hkl : k ≠ l := by
      rintro rfl
      simp [hl] at he
    rw [get?_put hk, if_neg hkl, he]

theorem makeDir_eq_ok_iff {d d' : Disk} {p : Path} :
    d.makeDir p = .ok d' ↔ ∃ l, d.vacancy p = .ok l ∧ d' = d.put l .dir := by
  unfold makeDir
  cases d.vacancy p <;> simp [Except.map, eq_comm]

theorem extends_makeDir {d d' : Disk} {p : Path} (h : d.makeDir p = .ok d') : d.Extends d' := by
  obtain ⟨l, hv, rfl⟩ := makeDir_eq_ok_iff.1 h
  refine extends_put ?_
  unfold vacancy at hv
  dsimp only at hv
  repeat' split at hv
  all_goals simp_all

theorem extends_makeDirsOf {d : Disk} (ps : List Path) : d.Extends (d.makeDirsOf ps).2 := by
  induction ps generalizing d with
  | nil => exact .refl d
  | cons p above ih =>
    unfold makeDirsOf
    split
    · exact .refl d
    · split
      · next h => exact extends_makeDir h
      · have hup := @ih d
        split
        · next h => rwa [h] at hup
        · next h =>
          rw [h] at hup
          split
          · next h' => exact hup.trans (extends_makeDir h')
          · exact hup
      · exact .refl d

theorem extends_makeDirs (d : Disk) (p : Path) : d.Extends (d.makeDirs p).2 :=
  extends_makeDirsOf p.ancestors

-- ---------------------------------------------------------------------------
-- Writing files
-- ---------------------------------------------------------------------------

structure TakesFile (d : Disk) (l : Location) : Prop where
  notRoot : l ≠ []
  entry : ∀ {entry}, d.get? l = some entry → ∃ content modified, entry = .file content modified

theorem Stores.takesFile {d d' : Disk} {p : Path} {content : ByteArray}
    (h : d.Stores p content d') (hd : d.Grounded) :
    ∃ l, d.reach .create p = .ok l ∧ d.TakesFile l ∧ d' = d.put l (.file content d.clock) := by
  obtain ⟨l, hl, hdir, rfl⟩ := h
  refine ⟨l, hl, ⟨?_, fun he => ?_⟩, rfl⟩
  · rintro rfl
    simp at hdir
  · obtain ⟨-, links, hl⟩ := reach_eq_ok_iff.1 hl
    cases hl.arrival (hd.startOf p) with
    | dir hl => exact absurd hl.get? hdir
    | file hfile => exact ⟨_, _, Option.some.inj (he.symm.trans hfile)⟩
    | vacant _ hnone => simp [hnone] at he
    | link hkeep => cases hkeep

section
variable {d : Disk} {l : Location} {content : ByteArray} {modified : Nat}

theorem get?_put_self {entry : Entry} (hl : l ≠ []) : (d.put l entry).get? l = some entry := by
  rw [get?_put hl, if_pos rfl]

theorem get?_put_of_ne {k : Location} {entry : Entry} (h : k ≠ l) :
    (d.put l entry).get? k = d.get? k := by
  by_cases hk : k = []
  · cases hk
    simp
  · rw [get?_put hk, if_neg h]

theorem addsFiles_put (h : d.TakesFile l) : d.AddsFiles (d.put l (.file content modified)) := by
  refine ⟨⟨rfl, fun {k entry} hk => ?_⟩, fun {k entry} hk => ?_⟩
  · by_cases hkl : k = l
    · subst hkl
      obtain ⟨c, m, rfl⟩ := h.entry hk
      exact ⟨_, get?_put_self h.notRoot, .file⟩
    · exact ⟨entry, by rw [get?_put_of_ne hkl, hk], .refl _⟩
  · by_cases hkl : k = l
    · subst hkl
      rw [get?_put_self h.notRoot] at hk
      exact .inl ⟨content, modified, (Option.some.inj hk).symm⟩
    · exact .inr (by rwa [get?_put_of_ne hkl] at hk)

theorem reach_create_of_file (hd : d.Grounded) {p : Path} {k : Location}
    (hk : d.reach .follow p = .ok k) (hfile : d.get? k = some (.file content modified)) :
    d.reach .create p = .ok k := by
  obtain ⟨hp, links, hl⟩ := reach_eq_ok_iff.1 hk
  exact reach_eq_ok_iff.2 ⟨hp, links, hl.create_of_follow (hd.startOf p) hfile⟩

theorem reach_follow_of_create {p : Path} {k : Location} {entry : Entry}
    (hk : d.reach .create p = .ok k) (he : d.get? k = some entry) :
    d.reach .follow p = .ok k := by
  obtain ⟨hp, links, hl⟩ := reach_eq_ok_iff.1 hk
  exact reach_eq_ok_iff.2 ⟨hp, links, hl.follow_of_create (by simp [he])⟩

end

end DesignDeps.Disk
