import DesignDeps.Proofs.Disk.Directory
import DesignDeps.Proofs.Path.Spelling
import DesignDeps.SourceKind

/-!
# File names

A name joined to a path is the file name of what comes out (`fileName?_join`), so paths to different
names in one directory have different components, however the directory is spelled. What stands
behind the last dot of the name is its extension.
-/

namespace DesignDeps.Path

open Text Disk

section
variable {p : Path} {f f' : String}

-- ---------------------------------------------------------------------------
-- The last component
-- ---------------------------------------------------------------------------

theorem fileName?_of_pieces (init : List (List Char)) (hf : Segment f)
    (h : pieces '/' p.text.toList = init ++ [f.toList]) : p.fileName? = some f := by
  have hhere : f.toList ≠ ['.'] := fun h => hf.notHere (String.toList_inj.1 h)
  have hup : f.toList ≠ ['.', '.'] := fun h => hf.notUp (String.toList_inj.1 h)
  have hidle : isIdle f.toList = false := by simpa [isIdle, hf.nonempty] using hhere
  unfold fileName?
  cases init with
  | nil =>
    rw [components_of_pieces h]
    simp [Component.ofFirst, hf.nonempty, hhere, Component.ofPiece, hup]
  | cons first rest =>
    rw [components_of_pieces h]
    simp [hidle, Component.ofPiece, hup]

theorem fileName?_of_slash {s : List Char} (hf : Segment f)
    (hp : p.text.toList = s ++ '/' :: f.toList) : p.fileName? = some f :=
  fileName?_of_pieces (pieces '/' s) hf
    (by rw [hp, pieces_append, pieces_of_not_mem hf.slashFree])

theorem fileName?_of_segment (hf : Segment f) : (⟨f⟩ : Path).fileName? = some f :=
  fileName?_of_pieces [] hf (pieces_of_not_mem hf.slashFree)

theorem fileName?_join (hf : Segment f) : (p.join ⟨f⟩).fileName? = some f := by
  obtain ⟨-, heq⟩ | ⟨s, -, heq⟩ | ⟨-, heq⟩ := hf.join_cases (p := p)
  · rw [heq]
    exact fileName?_of_segment hf
  · exact fileName?_of_slash hf heq
  · exact fileName?_of_slash hf heq

theorem same_join (hf : Segment f) (hf' : Segment f') :
    (p.join ⟨f⟩).same (p.join ⟨f'⟩) = true ↔ f = f' := by
  constructor
  · intro h
    have hnames : (p.join ⟨f⟩).fileName? = (p.join ⟨f'⟩).fileName? := by
      unfold fileName?
      rw [beq_iff_eq.1 h]
    rw [fileName?_join hf, fileName?_join hf'] at hnames
    exact Option.some.inj hnames
  · rintro rfl
    exact beq_self_eq_true _

-- ---------------------------------------------------------------------------
-- Extensions
-- ---------------------------------------------------------------------------

theorem splitAtDot_append {s e : List Char} (hs : s ≠ []) (he : '.' ∉ e) :
    splitAtDot (s ++ '.' :: e) = (s, some e) := by
  have hback : (s ++ '.' :: e).reverse = e.reverse ++ '.' :: s.reverse := by simp
  have hdot : ∀ c ∈ e.reverse, (c != '.') = true := by
    intro c hc
    exact bne_iff_ne.2 fun heq => he (heq ▸ List.mem_reverse.1 hc)
  have hrest : (e.reverse ++ '.' :: s.reverse).dropWhile (· != '.') = '.' :: s.reverse := by
    rw [List.dropWhile_append_of_pos hdot]
    simp
  have hext : (e.reverse ++ '.' :: s.reverse).takeWhile (· != '.') = e.reverse := by
    rw [List.takeWhile_append_of_pos hdot]
    simp
  obtain ⟨c, cs, hcons⟩ := List.exists_cons_of_ne_nil (List.reverse_ne_nil_iff.2 hs)
  unfold splitAtDot
  simp only [hback, hrest, hext, List.reverse_reverse]
  rw [hcons]
  exact congrArg (·, some e) (by rw [← hcons, List.reverse_reverse])

theorem extension?_of_fileName {s e : List Char} (hs : s ≠ []) (he : '.' ∉ e)
    (h : p.fileName? = some (String.ofList (s ++ '.' :: e))) :
    p.extension? = some (String.ofList e) := by
  simp [extension?, h, splitAtDot_append hs he]

theorem splitAtDot_bare {e : List Char} (he : '.' ∉ e) : (splitAtDot ('.' :: e)).2 = none := by
  have hdot : ∀ c ∈ e.reverse, (c != '.') = true := by
    intro c hc
    exact bne_iff_ne.2 fun heq => he (heq ▸ List.mem_reverse.1 hc)
  have hrest : ('.' :: e).reverse.dropWhile (· != '.') = ['.'] := by
    rw [List.reverse_cons, List.dropWhile_append_of_pos hdot]
    rfl
  simp only [splitAtDot, hrest]

theorem exists_stem_of_splitAtDot {name e : List Char} (h : (splitAtDot name).2 = some e) :
    ∃ s, s ≠ [] ∧ '.' ∉ e ∧ name = s ++ '.' :: e := by
  have hcut := List.takeWhile_append_dropWhile (p := (· != '.')) (l := name.reverse)
  unfold splitAtDot at h
  dsimp only at h
  split at h
  · cases h
  · cases h
  · next c stem hne hrest =>
    cases h
    have hc : c = '.' := by
      have hhead := List.head?_dropWhile_not (· != '.') name.reverse
      simpa [hrest] using hhead
    rw [hrest, hc] at hcut
    refine ⟨stem.reverse, by simpa using hne, fun hmem => ?_, ?_⟩
    · have hall := List.all_eq_true.1 (List.all_takeWhile (p := (· != '.')) (l := name.reverse))
      exact absurd (hall _ (List.mem_reverse.1 hmem)) (by simp)
    · simpa using congrArg List.reverse hcut.symm

theorem extension?_eq_some_iff {ext : String} : p.extension? = some ext ↔
    ∃ stem, stem ≠ "" ∧ '.' ∉ ext.toList ∧ p.fileName? = some (stem ++ "." ++ ext) := by
  constructor
  · intro h
    simp only [extension?, Option.bind_eq_some_iff, Option.map_eq_some_iff] at h
    obtain ⟨name, hname, e, he, rfl⟩ := h
    obtain ⟨s, hs, hdot, hcut⟩ := exists_stem_of_splitAtDot he
    have hwhole : name = String.ofList s ++ "." ++ String.ofList e :=
      String.toList_inj.1 (by simpa using hcut)
    exact ⟨String.ofList s, by simpa using hs, by simpa using hdot, hwhole ▸ hname⟩
  · rintro ⟨stem, hstem, hdot, hname⟩
    have hcut : stem ++ "." ++ ext = String.ofList (stem.toList ++ '.' :: ext.toList) :=
      String.toList_inj.1 (by simp)
    have hfile := hname.trans (congrArg some hcut)
    simpa using extension?_of_fileName (by simpa using hstem) hdot hfile

theorem exists_last_part (s : List Char) :
    ∃ part, '/' ∉ part ∧ (s = part ∨ ∃ front, s = front ++ '/' :: part) := by
  by_cases hslash : '/' ∈ s.reverse
  · obtain ⟨back, front, hcut, hback⟩ := List.eq_append_cons_of_mem hslash
    exact ⟨back.reverse, by simpa using hback,
      .inr ⟨front.reverse, by simpa using congrArg List.reverse hcut⟩⟩
  · exact ⟨s, by simpa using hslash, .inl rfl⟩

end

end DesignDeps.Path
