import DesignDeps.Proofs.Disk.Files
import DesignDeps.Proofs.Text.Pieces

/-!
# Files in a directory

A path to a directory, joined with a name, leads to that name in the directory: `places_join` for
names that are not taken. Making a directory that exists changes nothing, and making one that does
not exist makes it and what is missing above it (`makesDirs_makeDirs`).
-/

namespace DesignDeps.Disk

open Text

-- ---------------------------------------------------------------------------
-- Names of joined paths
-- ---------------------------------------------------------------------------

def dirNames (p : Path) : List String :=
  (steps p).filter (· ≠ "")

theorem dirNames_eq (p : Path) :
    dirNames p = ((pieces '/' p.text.toList).filter (· ≠ [])).map String.ofList := by
  unfold dirNames steps
  generalize hps : pieces '/' p.text.toList = ps
  obtain ⟨init, last, rfl⟩ : ∃ init last, ps = init ++ [last] :=
    ⟨_, _, (List.dropLast_append_getLast (hps ▸ pieces_ne_nil _ _)).symm⟩
  by_cases hlast : last = []
  · simp [List.filter_map, Function.comp_def, hlast]
  · simp [List.filter_map, Function.comp_def, hlast]

/-- A name that can be joined to any path. -/
structure Segment (f : String) : Prop where
  nonempty : f ≠ ""
  notHere : f ≠ "."
  notUp : f ≠ ".."
  slashFree : '/' ∉ f.toList

theorem Segment.isRelative {f : String} (hf : Segment f) : Path.isAbsolute ⟨f⟩ = false := by
  unfold Path.isAbsolute
  cases h : f.toList with
  | nil => rfl
  | cons c cs =>
    have hc : c ≠ '/' := fun hc => hf.slashFree (by simp [h, hc])
    simpa using hc

theorem Segment.join_cases {p : Path} {f : String} (hf : Segment f) :
    p.text = "" ∧ p.join ⟨f⟩ = ⟨f⟩ ∨
    (∃ s, p.text.toList = s ++ ['/'] ∧ (p.join ⟨f⟩).text.toList = s ++ '/' :: f.toList) ∨
    p.text ≠ "" ∧ (p.join ⟨f⟩).text.toList = p.text.toList ++ '/' :: f.toList := by
  unfold Path.join
  rw [hf.isRelative]
  simp only [Bool.false_eq_true, if_false]
  cases h : p.text.toList.getLast? with
  | none =>
    have hp : p.text = "" := by simpa using h
    exact .inl ⟨hp, by simp [hp]⟩
  | some c =>
    obtain ⟨s, hs⟩ := List.getLast?_eq_some_iff.1 h
    by_cases hc : c = '/'
    · subst hc
      exact .inr (.inl ⟨s, hs, by simp [hs]⟩)
    · refine .inr (.inr ⟨?_, by simp [hc]⟩)
      rintro hp
      simp [hp] at hs

theorem Segment.join_ne_empty {p : Path} {f : String} (hf : Segment f) :
    (p.join ⟨f⟩).text ≠ "" := by
  intro he
  obtain ⟨-, heq⟩ | ⟨s, -, heq⟩ | ⟨-, heq⟩ := hf.join_cases (p := p)
  · rw [heq] at he
    exact hf.nonempty he
  · simp [he] at heq
  · simp [he] at heq

theorem steps_of_pieces {p : Path} (init : List (List Char)) {last : List Char}
    (h : pieces '/' p.text.toList = init ++ [last]) :
    steps p = (init.filter (· ≠ [])).map String.ofList ++ [String.ofList last] := by
  simp [steps, h]

theorem steps_join {p : Path} {f : String} (hf : Segment f) :
    steps (p.join ⟨f⟩) = dirNames p ++ [f] := by
  have hpieces := pieces_of_not_mem hf.slashFree
  rw [dirNames_eq]
  obtain ⟨hp, heq⟩ | ⟨s, hs, heq⟩ | ⟨-, heq⟩ := hf.join_cases (p := p)
  · rw [heq, hp]
    simpa [pieces] using steps_of_pieces [] hpieces
  · -- The separator is there already, and what it ends with is no name.
    rw [steps_of_pieces (pieces '/' s) (by rw [heq, pieces_append, hpieces]), hs,
      pieces_append]
    simp [pieces]
  · rw [steps_of_pieces (pieces '/' p.text.toList) (by rw [heq, pieces_append, hpieces])]
    simp

theorem size_le_join {p : Path} {f : String} (hf : Segment f) :
    p.text.utf8ByteSize ≤ (p.join ⟨f⟩).text.utf8ByteSize := by
  unfold Path.join
  rw [hf.isRelative]
  simp only [Bool.false_eq_true, if_false]
  split <;> simp only [String.utf8ByteSize_append] <;> omega

theorem startOf_join {d : Disk} {p : Path} {f : String} (hf : Segment f) :
    d.startOf (p.join ⟨f⟩) = d.startOf p := by
  unfold startOf
  obtain ⟨hp, heq⟩ | ⟨s, hs, heq⟩ | ⟨hp, heq⟩ := hf.join_cases (p := p)
  · rw [heq, hf.isRelative]
    simp [Path.isAbsolute, hp]
  · have h : (p.join ⟨f⟩).isAbsolute = p.isAbsolute := by
      unfold Path.isAbsolute
      rw [heq, hs]
      cases s <;> simp
    rw [h]
  · have h : (p.join ⟨f⟩).isAbsolute = p.isAbsolute := by
      unfold Path.isAbsolute
      rw [heq]
      cases hs : p.text.toList with
      | nil => exact absurd (String.toList_eq_nil_iff.1 hs) hp
      | cons => simp
    rw [h]

-- ---------------------------------------------------------------------------
-- Being in a directory
-- ---------------------------------------------------------------------------

def Enters (d : Disk) (p : Path) (l : Location) : Prop :=
  ∃ links, d.Leads .follow maxLinks (d.startOf p) (dirNames p ++ [""]) links l

theorem Enters.grows {d d' : Disk} {p : Path} {l : Location} (h : d.Enters p l)
    (hd : d.Grows d') : d'.Enters p l := by
  obtain ⟨links, h⟩ := h
  exact ⟨links, by rw [hd.startOf]; exact hd.leads (by decide) h⟩

section
variable {d : Disk} {p : Path} {f : String} {l k : Location}

theorem Enters.walk_eq (h : d.Enters p l) :
    d.walk .follow maxLinks (d.startOf p) (dirNames p ++ [""]) = .ok l :=
  walk_of_leads h.choose_spec

theorem steps_cases (p : Path) : steps p = dirNames p ∨ steps p = dirNames p ++ [""] := by
  have hsteps : ∃ init last, steps p = init ++ [last] ∧ ∀ name ∈ init, name ≠ "" := by
    refine ⟨_, _, List.map_append, fun name hname => ?_⟩
    obtain ⟨piece, hpiece, rfl⟩ := List.mem_map.1 hname
    simpa using (List.mem_filter.1 hpiece).2
  obtain ⟨init, last, heq, hinit⟩ := hsteps
  have hfilter : init.filter (· ≠ "") = init := by
    simpa [List.filter_eq_self] using hinit
  unfold dirNames
  rw [heq, List.filter_append, hfilter]
  by_cases hlast : last = ""
  · simp [hlast]
  · simp [hlast]

theorem Enters.isDir_eq (h : d.Enters p l) (hd : d.Grounded) (hp : p.text ≠ "")
    (hsize : p.text.utf8ByteSize < maxPath) : d.isDir p = true := by
  obtain ⟨links, h⟩ := h
  have hsteps : d.Leads .follow maxLinks (d.startOf p) (steps p) links l := by
    rcases steps_cases p with heq | heq
    · exact heq ▸ h.of_trailing
    · exact heq ▸ h
  have hentry : d.entry? p = .ok .dir := by
    refine entry?_eq_ok_iff.2 ⟨l, reach_eq_ok_iff.2 ⟨⟨hsize, hp⟩, links, hsteps⟩, ?_⟩
    exact (h.dirs_of_trailing (hd.startOf p) (by simp)).get?
  simp [isDir, hentry]

theorem Enters.leads_of_reach {final : Final} (h : d.Enters p l) (hf : Segment f)
    (hreach : d.reach final (p.join ⟨f⟩) = .ok k) :
    ∃ links links', d.Leads final links l [f] links' k := by
  obtain ⟨-, links', hk⟩ := reach_eq_ok_iff.1 hreach
  rw [steps_join hf, startOf_join hf] at hk
  obtain ⟨links, mid, hmid, hk⟩ := hk.split (by simp)
  cases (walk_of_leads hmid).symm.trans h.walk_eq
  exact ⟨links, links', hk⟩

theorem Leads.fits {final : Final} {links links' : Nat} (h : d.Leads final links l [f] links' k)
    (hf : Segment f) : f.utf8ByteSize ≤ maxName := by
  cases h with
  | idle hidle => exact absurd hidle (by simp [hf.nonempty, hf.notHere])
  | up => exact absurd rfl hf.notUp
  | vacant hn | dir hn | file hn | keptLink hn | link hn => exact hn.fits

theorem places_join {final : Final} (h : d.Enters p l) (hf : Segment f)
    (hfree : d.get? (l ++ [f]) = none) (hreach : d.reach final (p.join ⟨f⟩) = .ok k) :
    final = .create ∧ k = l ++ [f] := by
  obtain ⟨links, links', hk⟩ := h.leads_of_reach hf hreach
  cases hk with
  | idle hidle => exact absurd hidle (by simp [hf.nonempty, hf.notHere])
  | up => exact absurd rfl hf.notUp
  | vacant _ hcreate => exact ⟨hcreate, rfl⟩
  | dir _ _ hdir => simp [hfree] at hdir
  | file _ hfile => simp [hfree] at hfile
  | keptLink _ _ hlink => simp [hfree] at hlink
  | link _ _ _ hlink => simp [hfree] at hlink

theorem reach_join (h : d.Enters p l) (hf : Segment f) (hfits : f.utf8ByteSize ≤ maxName)
    (hsize : (p.join ⟨f⟩).text.utf8ByteSize < maxPath) (hfree : d.get? (l ++ [f]) = none) :
    d.reach .create (p.join ⟨f⟩) = .ok (l ++ [f]) := by
  obtain ⟨links, h⟩ := h
  have hname : d.Leads .create links l [f] links (l ++ [f]) :=
    .vacant ⟨hf.nonempty, hf.notHere, hf.notUp, hfits⟩ rfl hfree
  refine reach_eq_ok_iff.2 ⟨⟨hsize, hf.join_ne_empty⟩, links, ?_⟩
  rw [steps_join hf, startOf_join hf]
  exact h.append hname (by simp) (by simp [hf.nonempty])

theorem exists?_join (h : d.Enters p l) (hf : Segment f) (hfree : d.get? (l ++ [f]) = none) :
    d.exists? (p.join ⟨f⟩) = false := by
  rw [Bool.eq_false_iff]
  intro hexists
  obtain ⟨k, _, hk, -⟩ := exists?_iff.1 hexists
  obtain ⟨hfollow, -⟩ := places_join h hf hfree hk
  cases hfollow

-- ---------------------------------------------------------------------------
-- Making a directory that exists
-- ---------------------------------------------------------------------------

theorem Enters.vacancy_eq (h : d.Enters p l) (hp : p.text ≠ "") :
    d.vacancy p = .error .nameTooLong ∨ d.vacancy p = .error .alreadyExists := by
  obtain ⟨links, h⟩ := h
  unfold vacancy
  rw [if_neg hp]
  split
  · exact .inl rfl
  · dsimp only
    split
    · exact .inr rfl
    · next name hlast =>
      obtain ⟨init, hinit⟩ := List.getLast?_eq_some_iff.1 hlast
      rw [dirNames, hinit, List.append_assoc] at h
      obtain ⟨links', parent, hparent, hname⟩ := h.split (by simp)
      rw [hinit, List.dropLast_concat, walk_of_leads hparent]
      dsimp only
      split
      · exact .inr rfl
      · next hidle =>
        split
        · exact .inl rfl
        · split
          · exact .inr rfl
          · next hsize hnone =>
            have hmem : name ∈ (steps p).filter (· ≠ "") := by
              rw [hinit]
              simp
            have hne : name ≠ "" := by simpa using (List.mem_filter.1 hmem).2
            have hgone : d.get? (parent ++ [name]) = none := by simpa using hnone
            cases hname with
            | idle hidle' => simp_all
            | up => simp at hidle
            | dir _ _ hdir => simp [hgone] at hdir
            | link _ _ _ hlink => simp [hgone] at hlink

theorem ancestors_eq_cons (p : Path) : ∃ above, p.ancestors = p :: above := by
  unfold Path.ancestors
  cases p.text.length with
  | zero => exact ⟨[], rfl⟩
  | succ n =>
    unfold Path.climb
    split
    · exact ⟨[], rfl⟩
    · exact ⟨_, rfl⟩

theorem Enters.makeDirs_disk (h : d.Enters p l) : (d.makeDirs p).2 = d := by
  obtain ⟨above, habove⟩ := ancestors_eq_cons p
  unfold makeDirs
  rw [habove]
  unfold makeDirsOf
  split
  · rfl
  · next hp => rcases h.vacancy_eq hp with hv | hv <;> simp [makeDir, hv, Except.map]

theorem Enters.makeDirs_ok (h : d.Enters p l) (hd : d.Grounded)
    (hsize : p.text.utf8ByteSize < maxPath) : (d.makeDirs p).1 = .ok () := by
  obtain ⟨above, habove⟩ := ancestors_eq_cons p
  unfold makeDirs
  rw [habove]
  unfold makeDirsOf
  split
  · rfl
  · next hp =>
    have hdir := h.isDir_eq hd hp hsize
    rcases h.vacancy_eq hp with hv | hv <;> simp [makeDir, hv, Except.map, hdir]

end

-- ---------------------------------------------------------------------------
-- Directories that have been made
-- ---------------------------------------------------------------------------

section
variable {d d' : Disk} {p : Path} {l : Location}

theorem vacancy_eq_ok (h : d.vacancy p = .ok l) :
    p.text.utf8ByteSize < maxPath ∧ d.get? l = none ∧ ∃ init name links parent,
      dirNames p = init ++ [name] ∧ IsName name ∧ l = parent ++ [name] ∧
        d.Leads .follow maxLinks (d.startOf p) (init ++ [""]) links parent := by
  unfold vacancy at h
  split at h
  · cases h
  split at h
  · cases h
  next hsize =>
  dsimp only at h
  split at h
  · cases h
  next name hlast =>
  split at h
  · cases h
  next parent hwalk =>
  split at h
  · cases h
  next hdots =>
  split at h
  · cases h
  next hfits =>
  split at h
  · cases h
  next hnone =>
  cases h
  obtain ⟨init, hinit⟩ := List.getLast?_eq_some_iff.1 hlast
  rw [hinit, List.dropLast_concat] at hwalk
  obtain ⟨links, hparent⟩ := leads_of_walk hwalk
  have hmem : name ∈ (steps p).filter (· ≠ "") := by
    rw [hinit]
    simp
  have hne : name ≠ "" := by simpa using (List.mem_filter.1 hmem).2
  simp only [Bool.or_eq_true, decide_eq_true_eq, not_or] at hdots
  exact ⟨Nat.not_le.1 hsize, by simpa using hnone, init, name, links, parent, hinit,
    ⟨hne, hdots.1, hdots.2, Nat.not_lt.1 hfits⟩, rfl, hparent⟩

theorem enters_of_vacancy (hv : d.vacancy p = .ok l) : (d.put l .dir).Enters p l := by
  have hgrows := (extends_makeDir (makeDir_eq_ok_iff.2 ⟨l, hv, rfl⟩)).grows
  obtain ⟨-, -, init, name, links, parent, hinit, hname, rfl, hparent⟩ := vacancy_eq_ok hv
  have hdir : (d.put (parent ++ [name]) .dir).get? (parent ++ [name]) = some .dir :=
    get?_put_self (by simp)
  have hnew : Leads (d.put (parent ++ [name]) .dir) .follow links parent [name, ""] links
      (parent ++ [name]) := .dir hname (by simp) hdir (.idle (.inl rfl) .done)
  refine ⟨links, ?_⟩
  rw [hinit, List.append_assoc, hgrows.startOf]
  exact (hgrows.leads (by decide) hparent).append hnew (by simp) (by simp)

theorem enters_of_makeDir (h : d.makeDir p = .ok d') :
    p.text.utf8ByteSize < maxPath ∧ ∃ l, d'.Enters p l := by
  obtain ⟨l, hv, rfl⟩ := makeDir_eq_ok_iff.1 h
  obtain ⟨hsize, -⟩ := vacancy_eq_ok hv
  exact ⟨hsize, l, enters_of_vacancy hv⟩

theorem enters_of_isDir (h : d.isDir p = true) :
    p.text.utf8ByteSize < maxPath ∧ ∃ l, d.Enters p l := by
  have hentry : d.entry? p = .ok .dir := by
    unfold isDir at h
    split at h
    · assumption
    · cases h
  obtain ⟨l, hreach, hdir⟩ := entry?_eq_ok_iff.1 hentry
  obtain ⟨⟨hsize, -⟩, links, hleads⟩ := reach_eq_ok_iff.1 hreach
  refine ⟨hsize, l, links, ?_⟩
  rcases steps_cases p with heq | heq
  · exact heq ▸ hleads.trailing hdir
  · exact heq ▸ hleads

theorem enters_of_empty (hp : p.text = "") : d.Enters p (d.startOf p) := by
  have hnames : dirNames p = [] := by simp [dirNames_eq, hp, pieces]
  refine ⟨maxLinks, ?_⟩
  rw [hnames]
  exact .idle (.inl rfl) .done

theorem enters_of_makeDirs (h : (d.makeDirs p).1 = .ok ()) :
    p.text.utf8ByteSize < maxPath ∧ ∃ l, (d.makeDirs p).2.Enters p l := by
  obtain ⟨above, habove⟩ := ancestors_eq_cons p
  have hthere : ∀ {e : Disk} {cause : IoError}, (if e.isDir p then .ok () else .error cause :
      Except IoError Unit) = .ok () → p.text.utf8ByteSize < maxPath ∧ ∃ l, e.Enters p l := by
    intro e cause he
    split at he
    · next hdir => exact enters_of_isDir hdir
    · cases he
  unfold makeDirs at h ⊢
  rw [habove] at h ⊢
  unfold makeDirsOf at h ⊢
  by_cases hp : p.text = ""
  · rw [if_pos hp]
    exact ⟨by simp [hp, maxPath], _, enters_of_empty hp⟩
  rw [if_neg hp] at h ⊢
  split at h
  · next hmake => exact enters_of_makeDir hmake
  · split at h
    · cases h
    · split at h
      · next hmake => exact enters_of_makeDir hmake
      · exact hthere h
  · exact hthere h

-- ---------------------------------------------------------------------------
-- What has been made
-- ---------------------------------------------------------------------------

/-- The disks differ in directories at most, which only the second one has. Each of them is where
one of the paths leads. -/
def MakesDirs (ps : List Path) (d d' : Disk) : Prop :=
  ∀ l, d'.get? l = d.get? l ∨
    d.get? l = none ∧ d'.get? l = some .dir ∧ ∃ q ∈ ps, d'.Enters q l

variable {ps ps' : List Path} {d'' : Disk}

theorem MakesDirs.refl (ps : List Path) (d : Disk) : MakesDirs ps d d :=
  fun _ => .inl rfl

theorem MakesDirs.trans (h : MakesDirs ps d d') (h' : MakesDirs ps d' d'') (hd : d'.Grows d'') :
    MakesDirs ps d d'' := by
  intro l
  rcases h l with hsame | ⟨hnone, hdir, q, hq, hl⟩
  · exact hsame ▸ h' l
  · exact .inr ⟨hnone, hd.get?_dir hdir, q, hq, hl.grows hd⟩

theorem MakesDirs.mono (h : MakesDirs ps d d') (hsub : ps ⊆ ps') : MakesDirs ps' d d' :=
  fun l => (h l).imp_right fun ⟨hnone, hdir, q, hq, hl⟩ => ⟨hnone, hdir, q, hsub hq, hl⟩

theorem makesDirs_makeDir (h : d.makeDir p = .ok d') (hp : p ∈ ps) : MakesDirs ps d d' := by
  obtain ⟨l, hv, rfl⟩ := makeDir_eq_ok_iff.1 h
  obtain ⟨-, hnone, _, name, _, parent, -, -, rfl, -⟩ := vacancy_eq_ok hv
  intro k
  by_cases hk : k = parent ++ [name]
  · subst hk
    exact .inr ⟨hnone, get?_put_self (by simp), p, hp, enters_of_vacancy hv⟩
  · exact .inl (get?_put_of_ne hk)

theorem makesDirs_makeDirsOf (d : Disk) (ps : List Path) : MakesDirs ps d (d.makeDirsOf ps).2 := by
  induction ps generalizing d with
  | nil => exact .refl _ d
  | cons p above ih =>
    unfold makeDirsOf
    split
    · exact .refl _ d
    · split
      · next h => exact makesDirs_makeDir h List.mem_cons_self
      · have hup := (ih d).mono (List.subset_cons_self p above)
        split
        · next h => rwa [h] at hup
        · next h =>
          rw [h] at hup
          split
          · next h' =>
            exact hup.trans (makesDirs_makeDir h' List.mem_cons_self) (extends_makeDir h').grows
          · exact hup
      · exact .refl _ d

theorem makesDirs_makeDirs (d : Disk) (p : Path) : MakesDirs p.ancestors d (d.makeDirs p).2 :=
  makesDirs_makeDirsOf d p.ancestors

end

end DesignDeps.Disk
