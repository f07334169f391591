import DesignDeps.Proofs.Extraction.Outlines
import DesignDeps.Proofs.Skeleton.Comments
import DesignDeps.Proofs.Skeleton.Groups

/-!
# Instantiations that are printed

An `Instantiation` is everything that one can be written with: words, blanks wherever they may
stand, and groups that hold any nested text. In the skeleton of a text its groups are empty
(`becomes_outline`), and what is left is an outline (`outline_eq`), which is read as a whole. So the
modules found in a printed list are those that were printed (`mem_instances_printed_iff`).
-/

namespace DesignDeps

open Text Skeleton

-- ---------------------------------------------------------------------------
-- Parts
-- ---------------------------------------------------------------------------

structure Content where
  text : List Char
  nested : Nested text

structure ParamGroup where
  gap : Blanks
  values : Content
  behind : Blanks

structure Dimension where
  range : Content
  behind : Blanks

/-- `module #(…) name […] (…);` -/
structure Instantiation where
  before : Blanks
  module : Word
  gap : Blanks
  params : Option ParamGroup
  /-- Without parameters only blanks keep the two words apart. -/
  apart : params = none → gap.text ≠ []
  name : Word
  behind : Blanks
  dims : List Dimension
  ports : Content
  close : Blanks

def ParamGroup.text (p : ParamGroup) : List Char :=
  '#' :: (p.gap.text ++ '(' :: (p.values.text ++ [')'])) ++ p.behind.text

def Dimension.text (d : Dimension) : List Char :=
  '[' :: (d.range.text ++ [']']) ++ d.behind.text

namespace Instantiation

def text (i : Instantiation) : List Char :=
  i.before.text ++ (i.module.text ++ (i.gap.text ++ (i.params.elim [] ParamGroup.text ++
    (i.name.text ++ (i.behind.text ++ (i.dims.flatMap Dimension.text ++
      ('(' :: (i.ports.text ++ [')']) ++ (i.close.text ++ [';']))))))))

def spacing (i : Instantiation) : List Char :=
  i.gap.text ++ i.params.elim [] fun _ => [' ']

def emptied (i : Instantiation) : List Char :=
  i.params.elim [] fun p => '#' :: '(' :: ')' :: p.behind.text

def undimensioned (i : Instantiation) : List Char :=
  i.behind.text ++ i.dims.flatMap (·.behind.text)

def outline (i : Instantiation) : List Char :=
  i.before.text ++ (i.module.text ++ (i.spacing ++ (i.emptied ++ (i.name.text ++
    (i.undimensioned ++ ('(' :: ')' :: (i.close.text ++ [';'])))))))

end Instantiation

/-- A text of nothing but instantiations. -/
def printed (is : List Instantiation) (trail : Blanks) : List Char :=
  is.flatMap Instantiation.text ++ trail.text

-- ---------------------------------------------------------------------------
-- The skeleton of an instantiation
-- ---------------------------------------------------------------------------

theorem Blanks.becomes (b : Blanks) : Becomes b.text b.text :=
  becomes_run b.blank (by decide)

theorem Word.becomes (w : Word) : Becomes w.text w.text :=
  becomes_run w.word (by decide)

theorem becomes_dims (ds : List Dimension) :
    Becomes (ds.flatMap Dimension.text) (ds.flatMap (·.behind.text)) := by
  induction ds with
  | nil => exact .nil
  | cons d ds ih =>
    exact ((becomes_brackets d.range.nested).append d.behind.becomes).append ih

namespace Instantiation

theorem becomes_params (i : Instantiation) :
    Becomes (i.gap.text ++ i.params.elim [] ParamGroup.text) (i.spacing ++ i.emptied) := by
  unfold spacing emptied
  rw [List.append_assoc]
  refine i.gap.becomes.append ?_
  cases i.params with
  | none => exact .nil
  | some p => exact (Skeleton.becomes_params p.gap.blank p.values.nested).append p.behind.becomes

theorem becomes_outline (i : Instantiation) : Becomes i.text i.outline := by
  have hclose : Becomes [';'] [';'] := becomes_plain (by decide) (by simp [isGroupMark])
  have hports := (becomes_parens i.ports.nested).append (i.close.becomes.append hclose)
  have hname := i.name.becomes.append
    ((i.behind.becomes.append (becomes_dims i.dims)).append hports)
  have hwhole := i.before.becomes.append
    (i.module.becomes.append (i.becomes_params.append hname))
  simpa [text, outline, undimensioned] using hwhole

end Instantiation

theorem becomes_printed (is : List Instantiation) (trail : Blanks) :
    Becomes (printed is trail) (is.flatMap Instantiation.outline ++ trail.text) := by
  induction is with
  | nil => exact trail.becomes
  | cons i is ih => simpa [printed] using i.becomes_outline.append ih

-- ---------------------------------------------------------------------------
-- Reading it
-- ---------------------------------------------------------------------------

namespace Instantiation

theorem isBlank_of_mem_spacing (i : Instantiation) : ∀ c ∈ i.spacing, isBlank c = true := by
  intro c hc
  unfold spacing at hc
  rcases List.mem_append.1 hc with hc | hc
  · exact i.gap.blank c hc
  · cases h : i.params with
    | none => simp [h] at hc
    | some p =>
      obtain rfl : c = ' ' := by simpa [h] using hc
      decide

theorem spacing_ne_nil (i : Instantiation) : i.spacing ≠ [] := by
  unfold spacing
  cases h : i.params with
  | none => simpa using i.apart h
  | some p => simp

theorem isBlank_of_mem_undimensioned (i : Instantiation) :
    ∀ c ∈ i.undimensioned, isBlank c = true := by
  intro c hc
  rcases List.mem_append.1 hc with hc | hc
  · exact i.behind.blank c hc
  · obtain ⟨d, -, hc⟩ := List.mem_flatMap.1 hc
    exact d.behind.blank c hc

end Instantiation

def Instantiation.shape (i : Instantiation) : Outline where
  module := i.module
  gap := ⟨i.spacing, i.isBlank_of_mem_spacing⟩
  spaced := i.spacing_ne_nil
  params := i.params.map fun p => ⟨⟨[], by simp⟩, p.behind⟩
  name := i.name
  behind := ⟨i.undimensioned, i.isBlank_of_mem_undimensioned⟩
  close := i.close

theorem Instantiation.outline_eq (i : Instantiation) :
    i.outline = i.before.text ++ i.shape.text := by
  cases h : i.params <;>
    simp [outline, emptied, shape, Outline.text, Outline.spacing, Outline.ports,
      EmptyParams.text, h]

namespace Dependencies

theorem findAll_blanks (b : Blanks) (s : List Char) :
    instanceUse.findAll (b.text ++ s) = instanceUse.findAll s :=
  Pattern.findAll_skip (Pattern.skips_of_forall fun c hc =>
    readInstance_of_not_word (b.not_word c hc))

theorem findAll_outline (i : Instantiation) (t : List Char) :
    instanceUse.findAll (i.outline ++ t) = i.module.text :: instanceUse.findAll t := by
  have hread : instanceUse.read (i.shape.text ++ t) = some (i.module.text, t) :=
    readInstance_text i.shape t
  rw [i.outline_eq, List.append_assoc, findAll_blanks, Pattern.findAll_read hread]

theorem findAll_outlines (is : List Instantiation) (trail : Blanks) :
    instanceUse.findAll (is.flatMap Instantiation.outline ++ trail.text) =
      is.map (·.module.text) := by
  induction is with
  | nil => simpa [Pattern.findAll_nil] using findAll_blanks trail []
  | cons i is ih =>
    rw [List.flatMap_cons, List.append_assoc, findAll_outline, ih, List.map_cons]

/-- The modules found in a printed list are those that were printed, without keywords and the module
itself. -/
theorem mem_instances_printed_iff {module n : String} {is : List Instantiation} {trail : Blanks}
    (hquote : '\"' ∉ printed is trail) (hline : ¬['/', '/'] <:+: printed is trail)
    (hblock : ¬['/', '*'] <:+: printed is trail) :
    n ∈ (ofText module (String.ofList (printed is trail))).instances ↔
      (∃ i ∈ is, String.ofList i.module.text = n) ∧ isKeyword n = false ∧ n ≠ module := by
  have hskeleton : Skeleton.ofText (printed is trail) =
      is.flatMap Instantiation.outline ++ trail.text := by
    rw [Skeleton.ofText, strip_of_plain hquote hline hblock]
    exact collapse_of_becomes (becomes_printed is trail)
  simp only [ofText, instancesOf, String.toList_ofList, hskeleton, findAll_outlines]
  simp

end Dependencies

-- ---------------------------------------------------------------------------
-- A list with a keyword and the module itself
-- ---------------------------------------------------------------------------

def Blanks.none : Blanks := ⟨[], by simp⟩

def Blanks.space : Blanks := ⟨[' '], List.all_eq_true.1 (by decide)⟩

def Word.of (text : List Char) (nonempty : text ≠ []) (word : text.all isWord = true) : Word :=
  ⟨text, nonempty, List.all_eq_true.1 word⟩

def Instantiation.bare (module : Word) : Instantiation where
  before := .none
  module := module
  gap := .space
  params := none
  apart := fun _ => by decide
  name := .of ['u'] (by decide) (by decide)
  behind := .none
  dims := []
  ports := ⟨[], .nil⟩
  close := .none

def lane : Instantiation where
  before := .none
  module := .of "lane".toList (by decide +kernel) (by decide +kernel)
  gap := .none
  params := some ⟨.none, ⟨"8".toList, by decide +kernel⟩, .space⟩
  apart := by simp
  name := .of "u_lane".toList (by decide +kernel) (by decide +kernel)
  behind := .space
  dims := [⟨⟨"3:0".toList, by decide +kernel⟩, .none⟩]
  ports := ⟨".d(q[0])".toList, by decide +kernel⟩
  close := .none

def laneList : List Instantiation :=
  [lane, .bare (.of "always".toList (by decide +kernel) (by decide +kernel)),
    .bare (.of "top".toList (by decide +kernel) (by decide +kernel))]

example : printed laneList .none =
    "lane#(8) u_lane [3:0](.d(q[0]));always u();top u();".toList := by decide +kernel

theorem mem_instances_laneList :
    '\"' ∉ printed laneList .none ∧ ¬['/', '/'] <:+: printed laneList .none ∧
      ¬['/', '*'] <:+: printed laneList .none ∧
      "lane" ∈ (Dependencies.ofText "top" (String.ofList (printed laneList .none))).instances ∧
      ¬"always" ∈ (Dependencies.ofText "top" (String.ofList (printed laneList .none))).instances ∧
      ¬"top" ∈ (Dependencies.ofText "top" (String.ofList (printed laneList .none))).instances := by
  have hquote : '\"' ∉ printed laneList .none := by decide +kernel
  have hline : ¬['/', '/'] <:+: printed laneList .none := by decide +kernel
  have hblock : ¬['/', '*'] <:+: printed laneList .none := by decide +kernel
  refine ⟨hquote, hline, hblock, ?_, fun h => ?_, fun h => ?_⟩
  · exact (Dependencies.mem_instances_printed_iff hquote hline hblock).2
      ⟨⟨lane, List.mem_cons_self, by decide +kernel⟩, by decide +kernel, by decide⟩
  · have hkeyword := ((Dependencies.mem_instances_printed_iff hquote hline hblock).1 h).2.1
    exact absurd hkeyword (by decide +kernel)
  · exact ((Dependencies.mem_instances_printed_iff hquote hline hblock).1 h).2.2 rfl

end DesignDeps
