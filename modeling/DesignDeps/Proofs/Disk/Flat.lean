import DesignDeps.Proofs.Disk.Directory
import DesignDeps.Proofs.Disk.Entries

/-!
# Directories of files

A directory is flat when nothing but files is in it. Then a name joined to a path to the directory
leads to an entry of that name there, and nowhere else; two disks whose directories hold the same
entries have the same at all these paths (`Flat.sameAt`), however different they are elsewhere.
Writing a file into a flat directory leaves it flat.

For the place of a name it is enough that no link is in the directory (`LinkFree.place`).
-/

namespace DesignDeps.Disk

def Holds (d : Disk) (p : Path) (name : String) (entry : Entry) : Prop :=
  ∃ l, d.Enters p l ∧ d.get? (l ++ [name]) = some entry

def Flat (d : Disk) (p : Path) : Prop :=
  ∀ name entry, d.Holds p name entry → ∃ content modified, entry = .file content modified

/-- No link is in the directory at the path, if there is one. -/
def LinkFree (d : Disk) (p : Path) : Prop :=
  ∀ name target, ¬d.Holds p name (.link target)

section
variable {d d' : Disk} {p : Path} {f : String} {l k : Location} {entry : Entry} {final : Final}

theorem Flat.linkFree (h : d.Flat p) : d.LinkFree p := by
  intro name target hholds
  obtain ⟨content, modified, he⟩ := h name _ hholds
  cases he

theorem Enters.unique (h : d.Enters p l) (h' : d.Enters p k) : l = k := by
  cases h.walk_eq.symm.trans h'.walk_eq
  rfl

theorem enters_of_reach (hf : Segment f) (h : d.reach final (p.join ⟨f⟩) = .ok k) :
    ∃ l, d.Enters p l := by
  obtain ⟨-, links', hk⟩ := reach_eq_ok_iff.1 h
  rw [steps_join hf, startOf_join hf] at hk
  obtain ⟨links, mid, hmid, -⟩ := hk.split (by simp)
  exact ⟨mid, links, hmid⟩

theorem holds_of_enters (h : d.Enters p l) :
    d.Holds p f entry ↔ d.get? (l ++ [f]) = some entry := by
  constructor
  · rintro ⟨k, hk, he⟩
    cases h.unique hk
    exact he
  · exact fun he => ⟨l, h, he⟩

theorem linkFree_of_enters (h : d.Enters p l)
    (hno : ∀ name target, d.get? (l ++ [name]) ≠ some (.link target)) : d.LinkFree p :=
  fun name target hholds => hno name target ((holds_of_enters h).1 hholds)

theorem flat_of_forall_not_holds (h : ∀ name entry, ¬d.Holds p name entry) : d.Flat p :=
  fun name entry hholds => absurd hholds (h name entry)

-- ---------------------------------------------------------------------------
-- Places
-- ---------------------------------------------------------------------------

theorem LinkFree.place (hfree : d.LinkFree p) (hf : Segment f) (hl : d.Enters p l)
    (h : d.reach final (p.join ⟨f⟩) = .ok k) : k = l ++ [f] := by
  obtain ⟨links, links', hk⟩ := hl.leads_of_reach hf h
  cases hk with
  | idle hidle => exact absurd hidle (by simp [hf.nonempty, hf.notHere])
  | up => exact absurd rfl hf.notUp
  | vacant | file | keptLink => rfl
  | dir _ _ _ hrest =>
    cases hrest
    rfl
  | link _ _ _ hlink => exact absurd ⟨l, hl, hlink⟩ (hfree f _)

theorem LinkFree.place_inj {f' : String} (hfree : d.LinkFree p) (hf : Segment f)
    (hf' : Segment f') (h : d.reach final (p.join ⟨f⟩) = .ok k)
    (h' : d.reach final (p.join ⟨f'⟩) = .ok k) : f = f' := by
  obtain ⟨l, hl⟩ := enters_of_reach hf h
  have heq := (hfree.place hf hl h).symm.trans (hfree.place hf' hl h')
  simpa using heq

theorem Flat.place (hflat : d.Flat p) (hf : Segment f) (hl : d.Enters p l)
    (h : d.reach final (p.join ⟨f⟩) = .ok k) : k = l ++ [f] :=
  hflat.linkFree.place hf hl h

theorem Flat.place_inj {f' : String} (hflat : d.Flat p) (hf : Segment f) (hf' : Segment f')
    (h : d.reach final (p.join ⟨f⟩) = .ok k) (h' : d.reach final (p.join ⟨f'⟩) = .ok k) :
    f = f' :=
  hflat.linkFree.place_inj hf hf' h h'

-- ---------------------------------------------------------------------------
-- Entries
-- ---------------------------------------------------------------------------

theorem Flat.entry?_iff (hflat : d.Flat p) (hf : Segment f) :
    d.entry? (p.join ⟨f⟩) = .ok entry ↔
      ((p.join ⟨f⟩).text.utf8ByteSize < maxPath ∧ f.utf8ByteSize ≤ maxName) ∧
        d.Holds p f entry := by
  rw [entry?_eq_ok_iff]
  constructor
  · rintro ⟨k, hk, he⟩
    obtain ⟨l, hl⟩ := enters_of_reach hf hk
    obtain rfl := hflat.place hf hl hk
    obtain ⟨⟨hsize, -⟩, -⟩ := reach_eq_ok_iff.1 hk
    obtain ⟨links, links', hleads⟩ := hl.leads_of_reach hf hk
    exact ⟨⟨hsize, hleads.fits hf⟩, l, hl, he⟩
  · rintro ⟨⟨hsize, hfits⟩, l, ⟨links, hl⟩, he⟩
    obtain ⟨content, modified, rfl⟩ := hflat f entry ⟨l, ⟨links, hl⟩, he⟩
    have hname : d.Leads .follow links l [f] links (l ++ [f]) :=
      .file ⟨hf.nonempty, hf.notHere, hf.notUp, hfits⟩ he
    refine ⟨l ++ [f], reach_eq_ok_iff.2 ⟨⟨hsize, hf.join_ne_empty⟩, links, ?_⟩, he⟩
    rw [steps_join hf, startOf_join hf]
    exact hl.append hname (by simp) (by simp [hf.nonempty])

theorem Flat.sameAt (hflat : d.Flat p) (hf : Segment f)
    (hsame : ∀ name entry, d'.Holds p name entry ↔ d.Holds p name entry) :
    d.SameAt d' (p.join ⟨f⟩) := by
  have hflat' : d'.Flat p := fun name entry h => hflat name entry ((hsame name entry).1 h)
  intro entry
  rw [hflat'.entry?_iff hf, hflat.entry?_iff hf, hsame]

theorem Flat.stores {content : ByteArray} (hflat : d.Flat p) (hd : d.Grounded) (hf : Segment f)
    (h : d.Stores (p.join ⟨f⟩) content d') : d'.Flat p := by
  have hgrows := (h.adds hd).grows
  obtain ⟨k, hk, -, rfl⟩ := h
  obtain ⟨l, hl⟩ := enters_of_reach hf hk
  obtain rfl := hflat.place hf hl hk
  intro name entry hholds
  rw [holds_of_enters (hl.grows hgrows)] at hholds
  by_cases hname : l ++ [name] = l ++ [f]
  · rw [hname, get?_put_self (by simp)] at hholds
    exact ⟨content, d.clock, (Option.some.inj hholds).symm⟩
  · rw [get?_put_of_ne hname] at hholds
    exact hflat name entry ⟨l, hl, hholds⟩

end

end DesignDeps.Disk
