import DesignDeps.Disk.Locate
import Mathlib.Data.List.Basic

/-!
# Walks that arrive

`Leads` lists the steps by which a walk along names gets somewhere; `walk_eq_ok_iff` says that these
are all the ways in which `walk` succeeds. What is proved of paths after that is proved by going
through the steps: where a walk can end, how it splits at a directory, and how it fares on a disk
that has more on it.

Failed walks are not described. Which error one ends in is read off `walk` itself.
-/

namespace DesignDeps.Disk

/-- A name that stands for an entry of a directory. -/
structure IsName (name : String) : Prop where
  nonempty : name ≠ ""
  notHere : name ≠ "."
  notUp : name ≠ ".."
  fits : name.utf8ByteSize ≤ maxName

/-- A walk from `here` along the names arrives at the last location and leaves the second number of
links to be followed. -/
inductive Leads (d : Disk) (final : Final) :
    Nat → Location → List String → Nat → Location → Prop
  | done {links here} : Leads d final links here [] links here
  | idle {links here name rest links' l} : name = "" ∨ name = "." →
      Leads d final links here rest links' l → Leads d final links here (name :: rest) links' l
  | up {links here rest links' l} : Leads d final links here.dropLast rest links' l →
      Leads d final links here (".." :: rest) links' l
  | vacant {links here name} : IsName name → final = .create → d.get? (here ++ [name]) = none →
      Leads d final links here [name] links (here ++ [name])
  | dir {links here name rest links' l} : IsName name → ¬(final = .create ∧ rest = [""]) →
      d.get? (here ++ [name]) = some .dir → Leads d final links (here ++ [name]) rest links' l →
      Leads d final links here (name :: rest) links' l
  | file {links here name content modified} : IsName name →
      d.get? (here ++ [name]) = some (.file content modified) →
      Leads d final links here [name] links (here ++ [name])
  | keptLink {links here name target} : IsName name → final = .keepLink →
      d.get? (here ++ [name]) = some (.link target) →
      Leads d final links here [name] links (here ++ [name])
  | link {links here name rest target links' l} : IsName name →
      ¬(final = .keepLink ∧ rest = []) → ¬(final = .create ∧ rest = [""]) →
      d.get? (here ++ [name]) = some (.link target) →
      Leads d final links (if target.isAbsolute then [] else here) (steps target ++ rest) links' l →
      Leads d final (links + 1) here (name :: rest) links' l

theorem isName_of_not {name : String} (hidle : ¬(name = "" || name = ".") = true)
    (hup : ¬name = "..") (hsize : ¬name.utf8ByteSize > maxName) : IsName name := by
  simp only [Bool.or_eq_true, decide_eq_true_eq, not_or] at hidle
  exact ⟨hidle.1, hidle.2, hup, Nat.le_of_not_gt hsize⟩

theorem walk_cons {d : Disk} {final : Final} {links : Nat} {here : Location} {name : String}
    {rest : List String} (hn : IsName name) :
    d.walk final links here (name :: rest) =
      if final = .create ∧ rest = [""] then .error .isDirectory
      else
        match d.get? (here ++ [name]) with
        | none =>
          if final = .create ∧ rest = [] then .ok (here ++ [name]) else .error .notFound
        | some .dir => d.walk final links (here ++ [name]) rest
        | some (.file ..) => if rest = [] then .ok (here ++ [name]) else .error .notDirectory
        | some (.link target) =>
          if final = .keepLink ∧ rest = [] then .ok (here ++ [name])
          else
            match links with
            | 0 => .error .tooManyLinks
            | links + 1 =>
              d.walk final links (if target.isAbsolute then [] else here)
                (steps target ++ rest) := by
  have hsize : ¬name.utf8ByteSize > maxName := Nat.not_lt.2 hn.fits
  rw [walk]
  cases d.get? (here ++ [name]) with
  | none => simp [hn.nonempty, hn.notHere, hn.notUp, hsize]
  | some entry =>
    cases entry with
    | dir => simp [hn.nonempty, hn.notHere, hn.notUp, hsize]
    | file => simp [hn.nonempty, hn.notHere, hn.notUp, hsize]
    | link target => cases links <;> simp [hn.nonempty, hn.notHere, hn.notUp, hsize]

theorem leads_of_walk {d : Disk} {final : Final} {links : Nat} {here : Location}
    {names : List String} {l : Location} (h : d.walk final links here names = .ok l) :
    ∃ links', d.Leads final links here names links' l := by
  fun_induction walk d final links here names with
  | case1 => cases h; exact ⟨_, .done⟩
  | case2 links here name rest hidle ih =>
    obtain ⟨links', ih⟩ := ih h
    exact ⟨links', .idle (by simpa using hidle) ih⟩
  | case3 links here rest hidle ih =>
    obtain ⟨links', ih⟩ := ih h
    exact ⟨links', .up ih⟩
  | case4 | case5 | case7 | case10 | case12 => cases h
  | case6 links here name rest hidle hup hslash hsize hnone hcreate =>
    cases h
    simp only [Bool.and_eq_true, decide_eq_true_eq, List.isEmpty_iff] at hcreate
    obtain ⟨hcreate, rfl⟩ := hcreate
    exact ⟨links, .vacant (isName_of_not hidle hup hsize) hcreate hnone⟩
  | case8 links here name rest hidle hup hslash hsize hdir ih =>
    obtain ⟨links', ih⟩ := ih h
    exact ⟨links', .dir (isName_of_not hidle hup hsize) (by simpa using hslash) hdir ih⟩
  | case9 links here name rest hidle hup hslash hsize content modified hfile hlast =>
    cases h
    cases List.isEmpty_iff.1 hlast
    exact ⟨links, .file (isName_of_not hidle hup hsize) hfile⟩
  | case11 links here name rest hidle hup hslash hsize target hlink hkeep =>
    cases h
    simp only [Bool.and_eq_true, decide_eq_true_eq, List.isEmpty_iff] at hkeep
    obtain ⟨hkeep, rfl⟩ := hkeep
    exact ⟨links, .keptLink (isName_of_not hidle hup hsize) hkeep hlink⟩
  | case13 here name rest hidle hup hslash hsize target hlink hkeep links ih =>
    obtain ⟨links', ih⟩ := ih h
    exact ⟨links', .link (isName_of_not hidle hup hsize) (by simpa using hkeep)
      (by simpa using hslash) hlink ih⟩

theorem walk_of_leads {d : Disk} {final : Final} {links links' : Nat} {here l : Location}
    {names : List String} (h : d.Leads final links here names links' l) :
    d.walk final links here names = .ok l := by
  induction h with
  | done => rw [walk]
  | idle hn _ ih => rw [walk, if_pos (by simpa using hn), ih]
  | up _ ih => rw [walk, if_neg (by decide), if_pos rfl, ih]
  | vacant hn hcreate hnone =>
    rw [walk_cons hn]
    simp [hcreate, hnone]
  | dir hn hslash hdir _ ih =>
    rw [walk_cons hn]
    simp [hslash, hdir, ih]
  | file hn hfile =>
    rw [walk_cons hn]
    simp [hfile]
  | keptLink hn hkeep hlink =>
    rw [walk_cons hn]
    simp [hkeep, hlink]
  | link hn hkeep hslash hlink _ ih =>
    rw [walk_cons hn]
    simp [hslash, hlink, hkeep, ih]

theorem walk_eq_ok_iff {d : Disk} {final : Final} {links : Nat} {here l : Location}
    {names : List String} :
    d.walk final links here names = .ok l ↔ ∃ links', d.Leads final links here names links' l :=
  ⟨leads_of_walk, fun ⟨_, h⟩ => walk_of_leads h⟩

-- ---------------------------------------------------------------------------
-- Where walks end
-- ---------------------------------------------------------------------------

def Dirs (d : Disk) (l : Location) : Prop :=
  ∀ k, k <+: l → d.get? k = some .dir

theorem dirs_root (d : Disk) : d.Dirs [] := by
  intro k hk
  cases List.prefix_nil.1 hk
  exact get?_root d

theorem Dirs.get? {d : Disk} {l : Location} (h : d.Dirs l) : d.get? l = some .dir :=
  h l (List.prefix_refl l)

theorem Dirs.dropLast {d : Disk} {l : Location} (h : d.Dirs l) : d.Dirs l.dropLast :=
  fun k hk => h k (hk.trans (List.dropLast_prefix l))

theorem Dirs.child {d : Disk} {l : Location} {name : String} (h : d.Dirs l)
    (hname : d.get? (l ++ [name]) = some .dir) : d.Dirs (l ++ [name]) := by
  intro k hk
  rcases List.prefix_concat_iff.1 hk with rfl | hk
  · exact hname
  · exact h k hk

theorem Dirs.jump {d : Disk} {l : Location} (h : d.Dirs l) (b : Bool) :
    d.Dirs (if b then [] else l) := by
  cases b
  · exact h
  · exact d.dirs_root

/-- What can stand where a walk arrives. -/
inductive Arrival (d : Disk) (final : Final) (l : Location) : Prop
  | dir : d.Dirs l → Arrival d final l
  | file {content modified} : d.get? l = some (.file content modified) → Arrival d final l
  | vacant : final = .create → d.get? l = none → Arrival d final l
  | link {target} : final = .keepLink → d.get? l = some (.link target) → Arrival d final l

theorem Leads.arrival {d : Disk} {final : Final} {links links' : Nat} {here l : Location}
    {names : List String} (h : d.Leads final links here names links' l) (hd : d.Dirs here) :
    d.Arrival final l := by
  induction h with
  | done => exact .dir hd
  | idle _ _ ih => exact ih hd
  | up _ ih => exact ih hd.dropLast
  | vacant _ hcreate hnone => exact .vacant hcreate hnone
  | dir _ _ hdir _ ih => exact ih (hd.child hdir)
  | file _ hfile => exact .file hfile
  | keptLink _ hkeep hlink => exact .link hkeep hlink
  | link _ _ _ _ _ ih => exact ih (hd.jump _)

theorem Leads.dirs_of_trailing {d : Disk} {final : Final} {links links' : Nat} {here l : Location}
    {names : List String} (h : d.Leads final links here names links' l) (hd : d.Dirs here)
    (hlast : names.getLast? = some "") : d.Dirs l := by
  induction h with
  | done => simp at hlast
  | @idle _ _ _ rest _ _ _ h ih =>
    cases rest with
    | nil => cases h; exact hd
    | cons => exact ih hd (by simpa using hlast)
  | @up _ _ rest _ _ _ ih =>
    cases rest with
    | nil => simp at hlast
    | cons => exact ih hd.dropLast (by simpa using hlast)
  | vacant hn | file hn | keptLink hn => exact absurd (by simpa using hlast) hn.nonempty
  | @dir _ _ _ rest _ _ hn _ hdir _ ih =>
    cases rest with
    | nil => exact absurd (by simpa using hlast) hn.nonempty
    | cons => exact ih (hd.child hdir) (by simpa using hlast)
  | @link _ _ _ rest _ _ _ hn _ _ _ _ ih =>
    cases rest with
    | nil => exact absurd (by simpa using hlast) hn.nonempty
    | cons => exact ih (hd.jump _) (by simpa using hlast)

theorem Leads.follow_of_create {d : Disk} {links links' : Nat} {here l : Location}
    {names : List String} (h : d.Leads .create links here names links' l)
    (hl : d.get? l ≠ none) : d.Leads .follow links here names links' l := by
  induction h with
  | done => exact .done
  | idle hn _ ih => exact .idle hn (ih hl)
  | up _ ih => exact .up (ih hl)
  | vacant _ _ hnone => exact absurd hnone hl
  | dir hn _ hdir _ ih => exact .dir hn (by simp) hdir (ih hl)
  | file hn hfile => exact .file hn hfile
  | keptLink _ hkeep => cases hkeep
  | link hn _ _ hlink _ ih => exact .link hn (by simp) (by simp) hlink (ih hl)

theorem Leads.keepLink_of_follow {d : Disk} {links links' : Nat} {here l : Location}
    {names : List String} (h : d.Leads .follow links here names links' l) :
    ∃ links'' k, d.Leads .keepLink links here names links'' k := by
  induction h with
  | done => exact ⟨_, _, .done⟩
  | idle hn _ ih =>
    obtain ⟨_, _, hk⟩ := ih
    exact ⟨_, _, .idle hn hk⟩
  | up _ ih =>
    obtain ⟨_, _, hk⟩ := ih
    exact ⟨_, _, .up hk⟩
  | vacant _ hcreate => cases hcreate
  | dir hn _ hdir _ ih =>
    obtain ⟨_, _, hk⟩ := ih
    exact ⟨_, _, .dir hn (by simp) hdir hk⟩
  | file hn hfile => exact ⟨_, _, .file hn hfile⟩
  | keptLink _ hkeep => cases hkeep
  | @link _ _ _ rest _ _ _ hn _ _ hlink _ ih =>
    obtain ⟨_, _, hk⟩ := ih
    by_cases hrest : rest = []
    · subst hrest
      exact ⟨_, _, .keptLink hn rfl hlink⟩
    · exact ⟨_, _, .link hn (fun h => hrest h.2) (by simp) hlink hk⟩

theorem Leads.create_of_follow {d : Disk} {links links' : Nat} {here l : Location}
    {names : List String} (h : d.Leads .follow links here names links' l) (hd : d.Dirs here)
    {content : ByteArray} {modified : Nat} (hl : d.get? l = some (.file content modified)) :
    d.Leads .create links here names links' l := by
  have hdir : ¬d.Dirs l := fun h => by simp [h.get?] at hl
  induction h with
  | done => exact .done
  | idle hn _ ih => exact .idle hn (ih hd hl hdir)
  | up _ ih => exact .up (ih hd.dropLast hl hdir)
  | vacant _ hcreate => cases hcreate
  | dir hn _ hname h ih =>
    refine .dir hn ?_ hname (ih (hd.child hname) hl hdir)
    rintro ⟨-, rfl⟩
    exact hdir (h.dirs_of_trailing (hd.child hname) rfl)
  | file hn hfile => exact .file hn hfile
  | keptLink _ hkeep => cases hkeep
  | link hn _ _ hlink h ih =>
    refine .link hn (by simp) ?_ hlink (ih (hd.jump _) hl hdir)
    rintro ⟨-, rfl⟩
    exact hdir (h.dirs_of_trailing (hd.jump _) (by simp))

-- ---------------------------------------------------------------------------
-- Walks through a directory
-- ---------------------------------------------------------------------------

/-- What is found behind a directory is found behind any path to it. -/
theorem Leads.append {d : Disk} {final : Final} {links links' links'' : Nat}
    {here mid l : Location} {names rest : List String}
    (h : d.Leads .follow links here (names ++ [""]) links' mid)
    (h' : d.Leads final links' mid rest links'' l) (hrest : rest ≠ []) (hslash : rest ≠ [""]) :
    d.Leads final links here (names ++ rest) links'' l := by
  have hs : ∀ ns, ns ++ rest ≠ [""] := by
    intro ns hns
    rcases List.append_eq_singleton_iff.1 hns with ⟨-, h⟩ | ⟨-, h⟩
    · exact hslash h
    · exact hrest h
  generalize hall : names ++ [""] = all at h
  induction h generalizing names with
  | done => simp at hall
  | idle hn h ih =>
    rcases List.append_eq_cons_iff.1 hall with ⟨rfl, hall⟩ | ⟨ns, rfl, htail⟩
    · cases hall
      cases h
      exact h'
    · exact .idle hn (ih h' htail.symm)
  | up _ ih =>
    rcases List.append_eq_cons_iff.1 hall with ⟨-, hall⟩ | ⟨ns, rfl, htail⟩
    · simp at hall
    · exact .up (ih h' htail.symm)
  | vacant _ hcreate => cases hcreate
  | dir hn _ hdir _ ih =>
    rcases List.append_eq_cons_iff.1 hall with ⟨-, hall⟩ | ⟨ns, rfl, htail⟩
    · cases hall
      exact absurd rfl hn.nonempty
    · exact .dir hn (fun h => hs ns h.2) hdir (ih h' htail.symm)
  | file hn =>
    rcases List.append_eq_cons_iff.1 hall with ⟨-, hall⟩ | ⟨ns, rfl, htail⟩
    · cases hall
      exact absurd rfl hn.nonempty
    · simp at htail
  | keptLink _ hkeep => cases hkeep
  | @link _ _ _ _ target _ _ hn _ _ hlink _ ih =>
    rcases List.append_eq_cons_iff.1 hall with ⟨-, hall⟩ | ⟨ns, rfl, rfl⟩
    · cases hall
      exact absurd rfl hn.nonempty
    · have := @ih (steps target ++ ns) h' (by simp)
      exact .link hn (fun h => hrest (List.append_eq_nil_iff.1 h.2).2) (fun h => hs ns h.2) hlink
        (by simpa using this)

theorem Leads.of_trailing {d : Disk} {links links' : Nat} {here l : Location}
    {names : List String} (h : d.Leads .follow links here (names ++ [""]) links' l) :
    d.Leads .follow links here names links' l := by
  generalize hall : names ++ [""] = all at h
  induction h generalizing names with
  | done => simp at hall
  | idle hn h ih =>
    rcases List.append_eq_cons_iff.1 hall with ⟨rfl, hall⟩ | ⟨ns, rfl, htail⟩
    · cases hall
      exact h
    · exact .idle hn (ih htail.symm)
  | up _ ih =>
    rcases List.append_eq_cons_iff.1 hall with ⟨-, hall⟩ | ⟨ns, rfl, htail⟩
    · simp at hall
    · exact .up (ih htail.symm)
  | vacant _ hcreate => cases hcreate
  | dir hn _ hdir _ ih =>
    rcases List.append_eq_cons_iff.1 hall with ⟨-, hall⟩ | ⟨ns, rfl, htail⟩
    · cases hall
      exact absurd rfl hn.nonempty
    · exact .dir hn (by simp) hdir (ih htail.symm)
  | file hn =>
    rcases List.append_eq_cons_iff.1 hall with ⟨-, hall⟩ | ⟨ns, rfl, htail⟩
    · cases hall
      exact absurd rfl hn.nonempty
    · simp at htail
  | keptLink _ hkeep => cases hkeep
  | @link _ _ _ _ target _ _ hn _ _ hlink _ ih =>
    rcases List.append_eq_cons_iff.1 hall with ⟨-, hall⟩ | ⟨ns, rfl, rfl⟩
    · cases hall
      exact absurd rfl hn.nonempty
    · exact .link hn (by simp) (by simp) hlink (ih (List.append_assoc ..))

theorem Leads.trailing {d : Disk} {links links' : Nat} {here l : Location} {names : List String}
    (h : d.Leads .follow links here names links' l) (hl : d.get? l = some .dir) :
    d.Leads .follow links here (names ++ [""]) links' l := by
  induction h with
  | done => exact .idle (.inl rfl) .done
  | idle hn _ ih => exact .idle hn (ih hl)
  | up _ ih => exact .up (ih hl)
  | vacant _ hcreate => cases hcreate
  | dir hn _ hdir _ ih => exact .dir hn (by simp) hdir (ih hl)
  | file _ hfile => simp [hl] at hfile
  | keptLink _ hkeep => cases hkeep
  | link hn _ _ hlink _ ih => exact .link hn (by simp) (by simp) hlink (by simpa using ih hl)

/-- A walk passes through a directory wherever names are left. -/
theorem Leads.split {d : Disk} {final : Final} {links links'' : Nat} {here l : Location}
    {names rest : List String} (h : d.Leads final links here (names ++ rest) links'' l)
    (hrest : rest ≠ []) :
    ∃ links' mid, d.Leads .follow links here (names ++ [""]) links' mid ∧
      d.Leads final links' mid rest links'' l := by
  -- Following a link puts the target's names in front of those that are left, so `names` varies.
  generalize hall : names ++ rest = all at h
  induction h generalizing names with
  | done => exact absurd (List.append_eq_nil_iff.1 hall).2 hrest
  | idle hn h ih =>
    rcases List.append_eq_cons_iff.1 hall with ⟨rfl, rfl⟩ | ⟨ns, rfl, htail⟩
    · exact ⟨_, _, .idle (.inl rfl) .done, .idle hn h⟩
    · obtain ⟨links', mid, h₁, h₂⟩ := ih htail.symm
      exact ⟨links', mid, .idle hn h₁, h₂⟩
  | up h ih =>
    rcases List.append_eq_cons_iff.1 hall with ⟨rfl, rfl⟩ | ⟨ns, rfl, htail⟩
    · exact ⟨_, _, .idle (.inl rfl) .done, .up h⟩
    · obtain ⟨links', mid, h₁, h₂⟩ := ih htail.symm
      exact ⟨links', mid, .up h₁, h₂⟩
  | vacant hn hcreate hnone =>
    rcases List.append_eq_cons_iff.1 hall with ⟨rfl, rfl⟩ | ⟨ns, rfl, htail⟩
    · exact ⟨_, _, .idle (.inl rfl) .done, .vacant hn hcreate hnone⟩
    · exact absurd (List.append_eq_nil_iff.1 htail.symm).2 hrest
  | dir hn hslash hdir h ih =>
    rcases List.append_eq_cons_iff.1 hall with ⟨rfl, rfl⟩ | ⟨ns, rfl, htail⟩
    · exact ⟨_, _, .idle (.inl rfl) .done, .dir hn hslash hdir h⟩
    · obtain ⟨links', mid, h₁, h₂⟩ := ih htail.symm
      exact ⟨links', mid, .dir hn (by simp) hdir h₁, h₂⟩
  | file hn hfile =>
    rcases List.append_eq_cons_iff.1 hall with ⟨rfl, rfl⟩ | ⟨ns, rfl, htail⟩
    · exact ⟨_, _, .idle (.inl rfl) .done, .file hn hfile⟩
    · exact absurd (List.append_eq_nil_iff.1 htail.symm).2 hrest
  | keptLink hn hkeep hlink =>
    rcases List.append_eq_cons_iff.1 hall with ⟨rfl, rfl⟩ | ⟨ns, rfl, htail⟩
    · exact ⟨_, _, .idle (.inl rfl) .done, .keptLink hn hkeep hlink⟩
    · exact absurd (List.append_eq_nil_iff.1 htail.symm).2 hrest
  | @link _ _ _ _ target _ _ hn hkeep hslash hlink h ih =>
    rcases List.append_eq_cons_iff.1 hall with ⟨rfl, rfl⟩ | ⟨ns, rfl, rfl⟩
    · exact ⟨_, _, .idle (.inl rfl) .done, .link hn hkeep hslash hlink h⟩
    · obtain ⟨links', mid, h₁, h₂⟩ := @ih (steps target ++ ns) (by simp)
      exact ⟨links', mid, .link hn (by simp) (by simp) hlink (by simpa using h₁), h₂⟩

end DesignDeps.Disk
