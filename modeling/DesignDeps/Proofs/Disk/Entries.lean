import DesignDeps.Proofs.Disk.Files

/-!
# What stands at a path

Everything that is asked about a path is answered by the entry that it leads to. `entry?_put` says
that a file written elsewhere changes no entry, and `entry?_put_self` what is found where it was
written; reading, looking for a path and asking for its time follow.
-/

namespace DesignDeps.Disk

section
variable {d d' : Disk} {p : Path} {entry : Entry}

def SameAt (d d' : Disk) (p : Path) : Prop :=
  ∀ entry, d'.entry? p = .ok entry ↔ d.entry? p = .ok entry

theorem SameAt.refl (d : Disk) (p : Path) : d.SameAt d p :=
  fun _ => Iff.rfl

theorem SameAt.trans {d'' : Disk} (h : d.SameAt d' p) (h' : d'.SameAt d'' p) : d.SameAt d'' p :=
  fun entry => (h' entry).trans (h entry)

theorem exists?_iff_entry : d.exists? p = true ↔ ∃ entry, d.entry? p = .ok entry := by
  unfold exists?
  cases d.entry? p <;> simp [Except.isOk, Except.toBool]

theorem read_iff_entry {content : ByteArray} :
    d.read p = .ok content ↔ ∃ modified, d.entry? p = .ok (.file content modified) := by
  unfold read
  cases d.entry? p with
  | error e => simp
  | ok entry => cases entry <;> simp

theorem modified?_iff_entry {time : Nat} :
    d.modified? p = some time ↔ (∃ content, d.entry? p = .ok (.file content time)) ∨
      d.entry? p = .ok .dir ∧ time = d.clock := by
  unfold modified?
  cases d.entry? p with
  | error e => simp
  | ok entry => cases entry <;> simp [eq_comm]

theorem SameAt.exists? (h : d.SameAt d' p) : d'.exists? p = d.exists? p := by
  rw [Bool.eq_iff_iff, exists?_iff_entry, exists?_iff_entry]
  exact exists_congr h

theorem SameAt.read (h : d.SameAt d' p) {content : ByteArray} :
    d'.read p = .ok content ↔ d.read p = .ok content := by
  simp only [read_iff_entry, h _]

theorem SameAt.modified? (h : d.SameAt d' p) (hclock : d'.clock = d.clock) :
    d'.modified? p = d.modified? p := by
  refine Option.ext fun time => ?_
  simp only [modified?_iff_entry, h _, hclock]

theorem exists?_of_modified? {time : Nat} (h : d.modified? p = some time) :
    d.exists? p = true := by
  rcases modified?_iff_entry.1 h with ⟨content, he⟩ | ⟨he, -⟩
  · exact exists?_iff_entry.2 ⟨_, he⟩
  · exact exists?_iff_entry.2 ⟨_, he⟩

theorem modified?_of_read {content : ByteArray} (h : d.read p = .ok content) :
    ∃ time, d.modified? p = some time := by
  obtain ⟨modified, h⟩ := read_iff_entry.1 h
  exact ⟨modified, modified?_iff_entry.2 (.inl ⟨content, h⟩)⟩

theorem SameAt.modified?_of_read (h : d.SameAt d' p) {content : ByteArray}
    (hread : d.read p = .ok content) : d'.modified? p = d.modified? p := by
  obtain ⟨modified, he⟩ := read_iff_entry.1 hread
  rw [modified?_iff_entry.2 (.inl ⟨_, he⟩), modified?_iff_entry.2 (.inl ⟨_, (h _).2 he⟩)]

theorem sameAt_of_get? (hcwd : d'.cwd = d.cwd) (hget : ∀ l, d'.get? l = d.get? l) (p : Path) :
    d.SameAt d' p := by
  have hgrows := (addsFiles_of_get? hcwd hget).grows
  have hback := (addsFiles_of_get? hcwd.symm fun l => (hget l).symm).grows
  intro entry
  simp only [entry?_eq_ok_iff]
  exact ⟨fun ⟨l, hl, he⟩ => ⟨l, hback.reach hl, (hget l).symm.trans he⟩,
    fun ⟨l, hl, he⟩ => ⟨l, hgrows.reach hl, (hget l).trans he⟩⟩

-- ---------------------------------------------------------------------------
-- Writing a file
-- ---------------------------------------------------------------------------

variable {l : Location} {content : ByteArray} {modified : Nat}

theorem entry?_put (hd : d.Grounded) (h : d.TakesFile l) (hp : d.reach .create p ≠ .ok l) :
    d.SameAt (d.put l (.file content modified)) p := by
  have hadds : d.AddsFiles (d.put l (.file content modified)) := addsFiles_put h
  intro entry
  simp only [entry?_eq_ok_iff]
  constructor
  · rintro ⟨k, hk, he⟩
    by_cases hfile : ∃ c m, entry = .file c m
    · -- A file is read from the place that it would be written to.
      obtain ⟨c, m, rfl⟩ := hfile
      have hcreate := reach_create_of_file (hadds.grows.grounded hd) hk he
      rw [hadds.reach_create] at hcreate
      have hkl : k ≠ l := fun e => hp (e ▸ hcreate)
      rw [get?_put_of_ne hkl] at he
      exact ⟨k, reach_follow_of_create hcreate he, he⟩
    · obtain ⟨hsize, links, hk⟩ := reach_eq_ok_iff.1 hk
      rw [hadds.grows.startOf] at hk
      have hk := hadds.leads_follow hk fun c m hf =>
        hfile ⟨c, m, Option.some.inj (he.symm.trans hf)⟩
      exact ⟨k, reach_eq_ok_iff.2 ⟨hsize, links, hk⟩, (hadds.others he).resolve_left hfile⟩
  · rintro ⟨k, hk, he⟩
    have hkl : k ≠ l := by
      rintro rfl
      obtain ⟨c, m, rfl⟩ := h.entry he
      exact hp (reach_create_of_file hd hk he)
    exact ⟨k, hadds.grows.reach hk, by rw [get?_put_of_ne hkl, he]⟩

theorem entry?_put_self (h : d.TakesFile l) (hp : d.reach .create p = .ok l) :
    entry? (d.put l (.file content modified)) p = .ok (.file content modified) := by
  have he : (d.put l (.file content modified)).get? l = some (.file content modified) :=
    get?_put_self h.notRoot
  exact entry?_eq_ok_iff.2
    ⟨l, reach_follow_of_create ((addsFiles_put h).reach_create.2 hp) he, he⟩

theorem read_put (hd : d.Grounded) (h : d.TakesFile l) (hp : d.reach .create p ≠ .ok l)
    {bytes : ByteArray} :
    (d.put l (.file content modified)).read p = .ok bytes ↔ d.read p = .ok bytes :=
  (entry?_put hd h hp).read

section
variable {q : Path} (h : d.Stores p content d')
include h

theorem Stores.adds (hd : d.Grounded) : d.AddsFiles d' := by
  obtain ⟨l, -, htakes, rfl⟩ := h.takesFile hd
  exact addsFiles_put htakes

theorem Stores.clock : d'.clock = d.clock := by
  obtain ⟨l, -, -, rfl⟩ := h
  rfl

theorem Stores.entry? (hd : d.Grounded) (q : Path) :
    d'.entry? q = .ok (.file content d.clock) ∨ d.SameAt d' q := by
  obtain ⟨l, hl, htakes, rfl⟩ := h.takesFile hd
  by_cases hq : d.reach .create q = .ok l
  · exact .inl (entry?_put_self htakes hq)
  · exact .inr (entry?_put hd htakes hq)

theorem Stores.modified? (hd : d.Grounded) (q : Path) :
    d'.modified? q = some d.clock ∨ d'.modified? q = d.modified? q :=
  (h.entry? hd q).imp (fun hnew => modified?_iff_entry.2 (.inl ⟨_, hnew⟩))
    fun hsame => hsame.modified? h.clock

theorem Stores.sameAt (hd : d.Grounded)
    (hq : ∀ l, d.reach .create p = .ok l → d.reach .create q ≠ .ok l) : d.SameAt d' q := by
  obtain ⟨l, hl, htakes, rfl⟩ := h.takesFile hd
  exact entry?_put hd htakes (hq l hl)

theorem Stores.read (hd : d.Grounded) (hp : d.reach .create p = .ok l)
    (hq : d.reach .create q = .ok l) : d'.read q = .ok content := by
  obtain ⟨k, hk, htakes, rfl⟩ := h.takesFile hd
  cases hp.symm.trans hk
  exact read_iff_entry.2 ⟨_, entry?_put_self htakes hq⟩

theorem Stores.entry?_self (hd : d.Grounded) : d'.entry? p = .ok (.file content d.clock) := by
  obtain ⟨l, hl, htakes, rfl⟩ := h.takesFile hd
  exact entry?_put_self htakes hl

end

end

end DesignDeps.Disk
