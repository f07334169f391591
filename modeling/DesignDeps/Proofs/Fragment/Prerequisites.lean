import DesignDeps.Fragment.Record
import DesignDeps.Proofs.Extraction

/-!
# What a fragment lists

`prerequisites` reads a fragment the way make does, as far as the objects that an object depends on
go. `prerequisites_render`: it finds the dependencies that the fragment was made from, provided that
their names are no paths and that nothing in the record holds a line break.
-/

namespace DesignDeps.Fragment

open Text

-- ---------------------------------------------------------------------------
-- Reading
-- ---------------------------------------------------------------------------

def before? (part s : List Char) : Option (List Char) :=
  if part.isSuffixOf s then some (s.take (s.length - part.length)) else none

def objectIn? (variant : String) (line : List Char) : Option (List Char) :=
  match after? ("\t" ++ Record.depDir ++ "/").toList line with
  | none => none
  | some rest =>
    before? ("." ++ variant ++ ".o").toList
      (if rest.getLast? = some '\\' then rest.dropLast else rest)

def objectsIn (variant : String) (text : List Char) : List (List Char) :=
  (pieces '\n' text).filterMap (objectIn? variant)

def prerequisites (variant text : String) : List String :=
  (objectsIn variant text.toList).map String.ofList

theorem before?_append (s part : List Char) : before? part (s ++ part) = some s := by
  simp [before?]

-- ---------------------------------------------------------------------------
-- Lines
-- ---------------------------------------------------------------------------

section
variable {variant : String}

theorem objectIn?_eq_none {line : List Char} (h : line.head? ≠ some '\t' ∨ '/' ∉ line) :
    objectIn? variant line = none := by
  unfold objectIn?
  split
  · rfl
  · next rest hrest =>
    rw [after?_eq_some_iff] at hrest
    subst hrest
    rcases h with h | h
    · exact absurd rfl h
    · exact absurd (by simp) h

theorem objectIn?_object (d : String) {end? : List Char} (hend : end? = [] ∨ end? = ['\\']) :
    objectIn? variant (("\t" ++ Record.objectOf d variant).toList ++ end?) = some d.toList := by
  have hline : ("\t" ++ Record.objectOf d variant).toList ++ end? =
      ("\t" ++ Record.depDir ++ "/").toList ++
        (d.toList ++ ("." ++ variant ++ ".o").toList ++ end?) := by
    simp [Record.objectOf]
  unfold objectIn?
  rw [after?_eq_some_iff.2 hline]
  dsimp only
  rcases hend with rfl | rfl
  · -- An object's name ends with `.o`, so no backslash is cut off that belongs to it.
    have hlast : (d.toList ++ ("." ++ variant ++ ".o").toList).getLast? ≠ some '\\' := by
      have hsplit : d.toList ++ ("." ++ variant ++ ".o").toList =
          d.toList ++ ("." ++ variant ++ ".").toList ++ ['o'] := by simp
      rw [hsplit, List.getLast?_concat]
      decide
    rw [List.append_nil, if_neg hlast, before?_append]
  · rw [if_pos (List.getLast?_concat ..), List.dropLast_concat, before?_append]

theorem objectsIn_line {line : List Char} (h : '\n' ∉ line) (s : List Char) :
    objectsIn variant (line ++ '\n' :: s) =
      (objectIn? variant line).toList ++ objectsIn variant s := by
  rw [objectsIn, pieces_append, pieces_of_not_mem h, List.filterMap_append]
  cases hline : objectIn? variant line <;> simp [hline, objectsIn]

def Silent (variant : String) (lines : List Char) : Prop :=
  ∀ s, objectsIn variant (lines ++ s) = objectsIn variant s

theorem Silent.nil : Silent variant [] := fun _ => rfl

theorem Silent.append {a b : List Char} (ha : Silent variant a) (hb : Silent variant b) :
    Silent variant (a ++ b) := by
  intro s
  rw [List.append_assoc, ha, hb]

theorem Silent.line {line : List Char} (hbreak : '\n' ∉ line)
    (h : line.head? ≠ some '\t' ∨ '/' ∉ line) : Silent variant (line ++ ['\n']) := by
  intro s
  rw [List.append_assoc, List.singleton_append, objectsIn_line hbreak, objectIn?_eq_none h]
  rfl

-- ---------------------------------------------------------------------------
-- Rendered records
-- ---------------------------------------------------------------------------

def continued (variant : String) (deps : List String) : List Char :=
  deps.flatMap fun d => ("\\\n\t" ++ Record.objectOf d variant).toList

theorem objectsIn_continued {line : List Char} {deps : List String} (hbreak : '\n' ∉ line)
    (hsame : objectIn? variant (line ++ ['\\']) = objectIn? variant line)
    (hv : '\n' ∉ variant.toList) (hd : ∀ d ∈ deps, '\n' ∉ d.toList) (s : List Char) :
    objectsIn variant (line ++ continued variant deps ++ '\n' :: s) =
      (objectIn? variant line).toList ++ deps.map String.toList ++ objectsIn variant s := by
  induction deps generalizing line with
  | nil => simpa [continued] using objectsIn_line hbreak s
  | cons d deps ih =>
    have hsplit : line ++ continued variant (d :: deps) ++ '\n' :: s =
        (line ++ ['\\']) ++ '\n' :: (("\t" ++ Record.objectOf d variant).toList ++
          continued variant deps ++ '\n' :: s) := by
      simp [continued]
    have hobject :
        objectIn? variant ("\t" ++ Record.objectOf d variant).toList = some d.toList := by
      simpa using objectIn?_object d (.inl rfl)
    rw [hsplit, objectsIn_line (by simpa using hbreak), hsame, ih ?_ ?_ ?_, hobject]
    · simp
    · have hbreak : '\n' ∉ d.toList := hd d List.mem_cons_self
      simpa [Record.objectOf, Record.depDir] using ⟨hbreak, hv⟩
    · rw [hobject, objectIn?_object d (.inr rfl)]
    · exact fun d hd' => hd d (List.mem_cons_of_mem _ hd')

end

namespace Record

theorem includeDirBlock_eq (dir : String) : includeDirBlock dir =
    ("ifeq (,$(findstring +" ++ dir ++ "\",$(VLOG_INCLUDES)))" ++ "\n") ++
      ("  VLOG_INCLUDES += \"+incdir+" ++ dir ++ "\"" ++ "\n") ++ ("endif" ++ "\n") := by
  have h₁ : "\",$(VLOG_INCLUDES)))\n" = "\",$(VLOG_INCLUDES)))" ++ "\n" := rfl
  have h₂ : "\"\nendif\n" = "\"" ++ "\n" ++ ("endif" ++ "\n") := rfl
  unfold includeDirBlock
  rw [h₁, h₂]
  simp only [String.append_assoc, -String.reduceAppend]

theorem guardedInclude_eq (file : String) : guardedInclude file =
    ("ifeq (,$(filter " ++ file ++ ",$(MAKEFILE_LIST)))" ++ "\n") ++
      ("-include " ++ file ++ "\n") ++ ("endif" ++ "\n") := by
  have h₁ : ",$(MAKEFILE_LIST)))\n-include " = ",$(MAKEFILE_LIST)))" ++ "\n" ++ "-include " := rfl
  have h₂ : "\nendif\n" = "\n" ++ ("endif" ++ "\n") := rfl
  unfold guardedInclude
  rw [h₁, h₂]
  simp only [String.append_assoc, -String.reduceAppend]

end Record

/-- A record that can be read back: no name in it is a path, and nothing in it breaks a line. -/
structure Legible (r : Record) : Prop where
  module : '/' ∉ r.module.toList ∧ '\n' ∉ r.module.toList
  source : '\n' ∉ r.source.text.toList
  variant : '\n' ∉ r.variant.toList
  dependencies : ∀ d ∈ r.dependencies, '/' ∉ d.toList ∧ '\n' ∉ d.toList

section
variable {r : Record}

theorem Silent.string {variant line : String} (hbreak : '\n' ∉ line.toList)
    (h : line.toList.head? ≠ some '\t' ∨ '/' ∉ line.toList) :
    Silent variant (line ++ "\n").toList := by
  rw [String.toList_append]
  exact .line hbreak h

theorem not_mem_parent {source : Path} {c : Char} (hc : c ≠ '/' ∧ c ≠ '.')
    (h : c ∉ source.text.toList) : c ∉ ((source.parent?.map Path.text).getD "").toList := by
  cases hparent : source.parent? with
  | none => simp
  | some q =>
    intro hmem
    rcases Path.mem_parent? hparent c hmem with hmem | hmem | hmem
    · exact h hmem
    · exact hc.1 hmem
    · exact hc.2 hmem

theorem silent_headerBlock (h : Legible r) : Silent r.variant r.headerBlock.toList := by
  unfold Record.headerBlock
  split
  · have hdir := not_mem_parent (by decide) h.source
    generalize (r.source.parent?.map Path.text).getD "" = dir at hdir
    rw [Record.includeDirBlock_eq, String.toList_append, String.toList_append]
    refine .append (.append (.string ?_ (.inl ?_)) (.string ?_ (.inl ?_)))
      (.string (by decide) (.inl (by decide)))
    · simpa using hdir
    · simp
    · simpa using hdir
    · simp
  · exact .nil

theorem silent_includeDirectives (h : Legible r) :
    Silent r.variant (String.join r.includeDirectives).toList := by
  obtain ⟨m, source, v, deps⟩ := r
  obtain ⟨-, -, hv, hdeps⟩ := h
  dsimp only at hv hdeps
  unfold Record.includeDirectives
  dsimp only
  induction deps with
  | nil => exact .nil
  | cons d deps ih =>
    obtain ⟨-, hbreak⟩ := hdeps d List.mem_cons_self
    rw [List.map_cons, String.join_cons, String.toList_append, Record.guardedInclude_eq,
      String.toList_append, String.toList_append]
    refine .append (.append (.append (.string ?_ (.inl ?_)) (.string ?_ (.inl ?_)))
      (.string (by decide) (.inl (by decide)))) (ih fun d hd => hdeps d (List.mem_cons_of_mem _ hd))
    · simpa [Record.fragmentOf, Record.depDir] using ⟨hbreak, hv⟩
    · simp
    · simpa [Record.fragmentOf, Record.depDir] using ⟨hbreak, hv⟩
    · simp

theorem silent_variable {name : String} {terms : String → String}
    (hname : '/' ∉ name.toList ∧ '\n' ∉ name.toList)
    (hterms : ∀ d ∈ r.dependencies, '/' ∉ (terms d).toList ∧ '\n' ∉ (terms d).toList) :
    Silent r.variant (name ++ String.join (r.dependencies.map terms) ++ ")\n").toList := by
  have hline : name ++ String.join (r.dependencies.map terms) ++ ")\n" =
      name ++ String.join (r.dependencies.map terms) ++ ")" ++ "\n" := by
    have h : ")\n" = ")" ++ "\n" := rfl
    rw [h]
    simp only [String.append_assoc, -String.reduceAppend]
  rw [hline]
  refine .string ?_ (.inr ?_)
  · simpa using ⟨hname.2, fun d hd => (hterms d hd).2⟩
  · simpa using ⟨hname.1, fun d hd => (hterms d hd).1⟩

theorem silent_rest (h : Legible r) :
    Silent r.variant ("\n".toList ++ r.depRule.toList ++ "\n".toList ++
      (String.join r.includeDirectives).toList ++ "\n".toList ++ (r.depsVar ++ ")\n").toList ++
      (r.includeVar ++ ")\n").toList) := by
  have hblank : Silent r.variant "\n".toList := by
    have hline : Silent r.variant ([] ++ ['\n']) := .line (by simp) (.inl (by simp))
    simpa using hline
  refine .append (.append (.append (.append (.append (.append hblank ?_) hblank)
    (silent_includeDirectives h)) hblank) ?_) ?_
  · refine .string ?_ (.inl ?_)
    · simpa [Record.fragmentOf, Record.depDir] using ⟨h.module.2, h.variant, h.source⟩
    · simp [Record.fragmentOf, Record.depDir]
  · refine silent_variable ?_ fun d hd => ?_
    · simpa using h.module
    · have hname := h.dependencies d hd
      unfold Record.depsTerm
      split <;> simpa using hname
  · refine silent_variable ?_ fun d hd => ?_
    · simpa using h.module
    · have hname := h.dependencies d hd
      unfold Record.includeTerm
      split <;> simpa using hname

theorem prerequisites_render (h : Legible r) :
    prerequisites r.variant r.render = r.dependencies := by
  have hjoin : (String.join (r.dependencies.map fun d =>
      "\\\n\t" ++ Record.objectOf d r.variant)).toList = continued r.variant r.dependencies := by
    rw [String.toList_join, List.flatMap_map]
    rfl
  have htext : r.render.toList = r.headerBlock.toList ++
      ((Record.objectOf r.module r.variant ++ ": " ++ r.source.text).toList ++
        continued r.variant r.dependencies ++ '\n' :: ("\n".toList ++ r.depRule.toList ++
          "\n".toList ++ (String.join r.includeDirectives).toList ++ "\n".toList ++
          (r.depsVar ++ ")\n").toList ++ (r.includeVar ++ ")\n").toList ++ [])) := by
    unfold Record.render Record.objectRule
    simp only [String.toList_append, hjoin, List.append_assoc, List.append_nil]
    rfl
  have hline : ∀ end? : List Char, objectIn? r.variant
      ((Record.objectOf r.module r.variant ++ ": " ++ r.source.text).toList ++ end?) = none :=
    fun end? => objectIn?_eq_none (.inl (by simp [Record.objectOf, Record.depDir]))
  have hfirst := hline []
  rw [List.append_nil] at hfirst
  unfold prerequisites
  rw [htext, silent_headerBlock h, objectsIn_continued, silent_rest h, hfirst]
  · simp [objectsIn, pieces, objectIn?, after?]
  · simpa [Record.objectOf, Record.depDir] using ⟨h.module.2, h.variant, h.source⟩
  · rw [hline, hfirst]
  · exact h.variant
  · exact fun d hd => (h.dependencies d hd).2

-- ---------------------------------------------------------------------------
-- Texts that are cut off
-- ---------------------------------------------------------------------------

/-- The dependency is listed in the whole lines of the content. -/
def Lists (variant : String) (content : ByteArray) (d : String) : Prop :=
  ∃ (text : String) (rest : ByteArray),
    content = (text ++ "\n").toUTF8 ++ rest ∧ d ∈ prerequisites variant text

theorem prerequisites_line_append (variant text s : String) :
    prerequisites variant (text ++ "\n" ++ s) =
      prerequisites variant text ++ prerequisites variant s := by
  simp [prerequisites, objectsIn, pieces_append]

theorem extract_append_extract (content : ByteArray) (n : Nat) :
    content.extract 0 n ++ content.extract n content.size = content := by
  apply ByteArray.ext
  rw [ByteArray.data_append, ByteArray.data_extract, ByteArray.data_extract,
    Array.extract_append_extract, Nat.zero_min]
  exact Array.extract_eq_self_of_le (Nat.le_max_right _ _)

theorem Legible.mem_of_lists {bytes : Nat} {d : String} (h : Legible r)
    (hlists : Lists r.variant (r.render.toUTF8.extract 0 bytes) d) : d ∈ r.dependencies := by
  obtain ⟨text, rest, hcontent, hd⟩ := hlists
  have hbytes : (text ++ "\n").toList.utf8Encode ++
      (rest ++ r.render.toUTF8.extract bytes r.render.toUTF8.size) =
        r.render.toList.utf8Encode := by
    have hwhole := extract_append_extract r.render.toUTF8 bytes
    rw [hcontent, ByteArray.append_assoc] at hwhole
    rw [String.utf8Encode_toList, String.utf8Encode_toList]
    exact hwhole
  obtain ⟨s, hs⟩ := List.isPrefix_of_utf8Encode_append_eq_utf8Encode _ hbytes
  have htext : r.render = text ++ "\n" ++ String.ofList s := by
    apply String.toList_injective
    rw [String.toList_append, String.toList_ofList, hs]
  rw [← prerequisites_render h, htext, prerequisites_line_append]
  exact List.mem_append_left _ hd

end

end DesignDeps.Fragment
