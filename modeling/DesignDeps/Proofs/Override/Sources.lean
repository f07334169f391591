import DesignDeps.Override.Source
import DesignDeps.Proofs.Text.Search

/-!
# Lists of sources

A source is written as one word, and a list is read word by word once its quotes are gone. So it
does not matter which blanks stand around the words, nor where quotes are put in:
`parseList_laidOut`.
-/

namespace DesignDeps.Text

variable {s w rest : List Char}

def Blank (s : List Char) : Prop :=
  ∀ c ∈ s, isBlank c = true

instance : Decidable (Blank s) :=
  decidable_of_iff (s.all isBlank = true) (by simp [Blank])

def Solid (s : List Char) : Prop :=
  ∀ c ∈ s, isBlank c = false

-- ---------------------------------------------------------------------------
-- Words between blanks
-- ---------------------------------------------------------------------------

theorem findAll_solid_blank (h : Blank s) : solid.findAll (s ++ rest) = solid.findAll rest :=
  Pattern.findAll_skip (Pattern.skips_of_forall fun c hc _ => run?_cons_of_not (by simp [h c hc]))

theorem findAll_solid_word (hne : w ≠ []) (hw : Solid w)
    (hrest : ∀ c ∈ rest.head?, isBlank c = true) :
    solid.findAll (w ++ rest) = w :: solid.findAll rest :=
  Pattern.findAll_read (run?_append hne (by simpa [Solid] using hw) (by simpa using hrest))

theorem trim_of_solid {s : String} (h : Solid s.toList) : trim s = s := by
  have hdrop : ∀ {t : List Char}, Solid t → t.dropWhile isBlank = t := by
    intro t ht
    cases t with
    | nil => rfl
    | cons c t => exact List.dropWhile_cons_of_neg (by simp [ht c List.mem_cons_self])
  have hback : Solid s.toList.reverse := fun c hc => h c (List.mem_reverse.1 hc)
  rw [trim, trimChars, hdrop h, hdrop hback, List.reverse_reverse, String.ofList_toList]

theorem splitFirst?_append {sep : Char} {a b : String} (h : sep ∉ a.toList) :
    splitFirst? sep (a ++ String.singleton sep ++ b) = some (a, b) := by
  have hfront : ∀ c ∈ a.toList, (c != sep) = true := by
    intro c hc
    simpa using fun heq : c = sep => h (heq ▸ hc)
  have hstop : ∀ c ∈ (sep :: b.toList).head?, (c != sep) = false := by simp
  have hlist : (a ++ String.singleton sep ++ b).toList = a.toList ++ sep :: b.toList := by simp
  unfold splitFirst?
  rw [hlist, dropWhile_run hfront hstop, takeWhile_run hfront hstop]
  simp

theorem splitFirst?_eq_none {sep : Char} {s : String} (h : sep ∉ s.toList) :
    splitFirst? sep s = none := by
  have hall : ∀ c ∈ s.toList, (c != sep) = true := by
    intro c hc
    simpa using fun heq : c = sep => h (heq ▸ hc)
  have hnil : s.toList.dropWhile (· != sep) = [] := List.dropWhile_eq_nil_iff.2 hall
  rw [splitFirst?, hnil]

end DesignDeps.Text

namespace DesignDeps.Override.Source

open Text

-- ---------------------------------------------------------------------------
-- Writing
-- ---------------------------------------------------------------------------

def Whole (s : String) : Prop :=
  ∀ c ∈ s.toList, isBlank c = false ∧ c ≠ '\"' ∧ c ≠ '\''

instance {s : String} : Decidable (Whole s) :=
  decidable_of_iff (s.toList.all (fun c => isBlank c = false ∧ c ≠ '\"' ∧ c ≠ '\'') = true)
    (by simp [Whole])

inductive Listable : Source → Prop
  | direct {module : String} {path : Option String} (module_whole : Whole module)
      (colonFree : ':' ∉ module.toList) (path_whole : ∀ p ∈ path, p ≠ "" ∧ Whole p) :
      Listable (.direct module path)
  | file {path : Path} (nonempty : path.text ≠ "") (whole : Whole path.text)
      (colonFree : ':' ∉ path.text.toList) : Listable (.file path)

def word : Source → String
  | .direct module path => module ++ ":" ++ path.getD ""
  | .file path => path.text

/-- Sources in order, each with what stands behind it. -/
def laidOut (lead : List Char) (items : List (Source × List Char)) : List Char :=
  lead ++ items.flatMap fun (source, gap) => source.word.toList ++ gap

/-- The second text is the first one with quotes put in. -/
inductive Quoting : List Char → List Char → Prop
  | done : Quoting [] []
  | keep {c : Char} {s t : List Char} : Quoting s t → Quoting (c :: s) (c :: t)
  | quote {c : Char} {s t : List Char} :
      c = '\"' ∨ c = '\'' → Quoting s t → Quoting s (c :: t)

-- ---------------------------------------------------------------------------
-- Reading
-- ---------------------------------------------------------------------------

section
variable {source : Source} {s t : List Char} {lead : List Char}
  {items : List (Source × List Char)}

theorem isQuote_iff {c : Char} : isQuote c = true ↔ c = '\"' ∨ c = '\'' := by
  simp [isQuote]

theorem Whole.solid {s : String} (h : Whole s) : Solid s.toList :=
  fun c hc => (h c hc).1

theorem Whole.append {a b : String} (ha : Whole a) (hb : Whole b) : Whole (a ++ b) := by
  intro c hc
  rw [String.toList_append, List.mem_append] at hc
  exact hc.elim (ha c) (hb c)

theorem Listable.word_ne_nil (h : source.Listable) : source.word.toList ≠ [] := by
  cases h with
  | direct => simp [word]
  | file hne => simpa [word] using hne

theorem Listable.word_whole (h : source.Listable) : Whole source.word := by
  cases h with
  | @direct module path hmodule _ hpath =>
    have hcolon : Whole ":" := by decide
    refine (hmodule.append hcolon).append ?_
    cases path with
    | none => simp [Whole]
    | some p => exact (hpath p rfl).2
  | file _ hwhole => exact hwhole

theorem Listable.parse_word (h : source.Listable) : parse source.word = source := by
  cases h with
  | @direct module path hmodule hcolon hpath =>
    have hsplit : splitFirst? ':' (module ++ ":" ++ path.getD "") = some (module, path.getD "") :=
      splitFirst?_append hcolon
    rw [word, parse, hsplit]
    dsimp only
    rw [trim_of_solid hmodule.solid]
    cases path with
    | none => rfl
    | some p =>
      obtain ⟨hne, hwhole⟩ := hpath p rfl
      simp [trim_of_solid hwhole.solid, hne]
  | file _ hwhole hcolon => rw [word, parse, splitFirst?_eq_none hcolon, trim_of_solid hwhole.solid]

theorem Quoting.filter (h : Quoting s t) : t.filter (!isQuote ·) = s.filter (!isQuote ·) := by
  induction h with
  | done => rfl
  | keep _ ih => rw [List.filter_cons, List.filter_cons, ih]
  | quote hc _ ih => rw [List.filter_cons, isQuote_iff.2 hc, ← ih]; rfl

theorem quoting_filter (t : List Char) : Quoting (t.filter (!isQuote ·)) t := by
  induction t with
  | nil => exact .done
  | cons c t ih =>
    cases hc : isQuote c with
    | true => simpa [hc] using Quoting.quote (isQuote_iff.1 hc) ih
    | false => simpa [hc] using Quoting.keep ih

theorem filter_laidOut (hlead : Blank lead) (hgaps : ∀ i ∈ items, Blank i.2)
    (hitems : ∀ i ∈ items, i.1.Listable) :
    (laidOut lead items).filter (!isQuote ·) = laidOut lead items := by
  have hblank : ∀ {s : List Char}, Blank s → ∀ c ∈ s, isQuote c = false := by
    intro s hs c hc
    rw [Bool.eq_false_iff]
    rintro hquote
    obtain rfl | rfl := isQuote_iff.1 hquote <;> exact absurd (hs _ hc) (by decide)
  rw [List.filter_eq_self]
  intro c hc
  rw [Bool.not_eq_true']
  rcases List.mem_append.1 hc with hc | hc
  · exact hblank hlead c hc
  · obtain ⟨i, hi, hc⟩ := List.mem_flatMap.1 hc
    rcases List.mem_append.1 hc with hc | hc
    · obtain ⟨-, hdouble, hsingle⟩ := (hitems i hi).word_whole c hc
      simp [isQuote, hdouble, hsingle]
    · exact hblank (hgaps i hi) c hc

theorem findAll_laidOut (hlead : Blank lead) (hgaps : ∀ i ∈ items, Blank i.2)
    (happart : ∀ i ∈ items.dropLast, i.2 ≠ []) (hitems : ∀ i ∈ items, i.1.Listable) :
    solid.findAll (laidOut lead items) = items.map fun i => i.1.word.toList := by
  rw [laidOut, findAll_solid_blank hlead]
  induction items with
  | nil => exact Pattern.findAll_nil _
  | cons i items ih =>
    obtain ⟨source, gap⟩ := i
    obtain ⟨hgap, hgaps⟩ := List.forall_mem_cons.1 hgaps
    obtain ⟨hitem, hitems⟩ := List.forall_mem_cons.1 hitems
    have happart' : ∀ i ∈ items.dropLast, i.2 ≠ [] := fun i hi =>
      happart i (List.dropLast_cons_of_ne_nil (List.ne_nil_of_mem (List.dropLast_subset _ hi)) ▸
        List.mem_cons_of_mem _ hi)
    have hend : ∀ c ∈ (gap ++ items.flatMap fun (source, gap) => source.word.toList ++ gap).head?,
        isBlank c = true := by
      cases gap with
      | cons b gap =>
        rintro _ ⟨⟩
        exact hgap b List.mem_cons_self
      | nil =>
        cases items with
        | nil => simp
        | cons i items => exact absurd rfl (happart (source, []) List.mem_cons_self)
    rw [List.flatMap_cons, List.append_assoc,
      findAll_solid_word hitem.word_ne_nil hitem.word_whole.solid hend, findAll_solid_blank hgap,
      ih hgaps happart' hitems, List.map_cons]

-- ---------------------------------------------------------------------------
-- The theorem
-- ---------------------------------------------------------------------------

/-- A list gives back the sources that were written in it, with blanks in front of the first, at
least one between each two, and any behind the last, and with quotes put in anywhere. -/
theorem parseList_laidOut {list : String} (hitems : ∀ i ∈ items, i.1.Listable)
    (hlead : Blank lead) (hgaps : ∀ i ∈ items, Blank i.2)
    (happart : ∀ i ∈ items.dropLast, i.2 ≠ [])
    (hquoting : Quoting (laidOut lead items) list.toList) :
    parseList list = items.map Prod.fst := by
  have hwords : fields (String.ofList (list.toList.filter (!isQuote ·))) =
      items.map fun i => i.1.word := by
    rw [fields, String.toList_ofList, hquoting.filter, filter_laidOut hlead hgaps hitems,
      findAll_laidOut hlead hgaps happart hitems, List.map_map]
    exact List.map_congr_left fun i _ => String.ofList_toList
  rw [parseList, hwords, List.map_map]
  exact List.map_congr_left fun i hi => (hitems i hi).parse_word

def threeItems : List (Source × List Char) :=
  [(.direct "fifo" (some "a:b.sv"), ['\n', ' ']), (.direct "" none, ['\t']),
    (.file ⟨"subs.yml"⟩, [])]

theorem parseList_threeItems :
    let list := " \"fi'fo:a:b.sv\"\n' ':'\t\"subs.yml"
    (∀ i ∈ threeItems, i.1.Listable) ∧ Blank [' '] ∧ (∀ i ∈ threeItems, Blank i.2) ∧
    (∀ i ∈ threeItems.dropLast, i.2 ≠ []) ∧ Quoting (laidOut [' '] threeItems) list.toList ∧
    parseList list =
      [.direct "fifo" (some "a:b.sv"), .direct "" none, .file ⟨"subs.yml"⟩] := by
  intro list
  have hwhole : Whole "fifo" ∧ Whole "a:b.sv" ∧ Whole "" ∧ Whole "subs.yml" := by decide
  obtain ⟨hmodule, hpath, hempty, hfile⟩ := hwhole
  have hitems : ∀ i ∈ threeItems, i.1.Listable := by
    simp only [threeItems, List.forall_mem_cons]
    exact ⟨.direct hmodule (by decide) (by simpa using hpath),
      .direct hempty (by decide) (by simp), .file (by decide) hfile (by decide), by simp⟩
  have hlead : Blank [' '] := by decide
  have hgaps : ∀ i ∈ threeItems, Blank i.2 := by decide
  have happart : ∀ i ∈ threeItems.dropLast, i.2 ≠ [] := by decide
  have hquoting : Quoting (laidOut [' '] threeItems) list.toList := by
    have hfilter : laidOut [' '] threeItems = list.toList.filter (!isQuote ·) := by decide
    rw [hfilter]
    exact quoting_filter _
  exact ⟨hitems, hlead, hgaps, happart, hquoting,
    parseList_laidOut hitems hlead hgaps happart hquoting⟩

end

end DesignDeps.Override.Source
