import DesignDeps.Proofs.Fragment.Expansion
import Mathlib.Data.List.Basic

/-!
# The statements of a fragment

`parse_render`: in the text of a record make reads the rules of the record, an inclusion for each
dependency, and the assignments of the two variables. The names in it have to consist of word
characters and dots, and nothing else may break a line, begin a comment or take the meaning from the
end of a line.
-/

namespace DesignDeps

/-- A name that stands for itself in the text of a fragment. -/
structure Fragment.IsName (name : String) : Prop where
  nonempty : name ≠ ""
  chars : ∀ c ∈ name.toList, IsNameChar c

namespace Fragment

open Text

theorem IsName.literal {name : String} (h : IsName name) : Literal name :=
  fun c hc => isLiteral_of_isNameChar (h.chars c hc)

-- ---------------------------------------------------------------------------
-- Lines
-- ---------------------------------------------------------------------------

section
variable {line name : List Char} {rest lines : List (List Char)}

section
variable (hname : ∀ c ∈ name, IsNameChar c)
include hname

end

-- ---------------------------------------------------------------------------
-- Words
-- ---------------------------------------------------------------------------

end

theorem termOf?_ref {name : List Char} (h : ∀ c ∈ name, isLiteral c = true) :
    termOf? ("$(".toList ++ (name ++ ")".toList)) = some (.ref (String.ofList name)) := by
  rw [termOf?, after?_eq_some_iff.2 rfl, Option.bind_some, before?_append]
  exact if_pos (List.all_eq_true.2 h)

theorem Literal.termOf? {name : String} (h : Literal name) :
    termOf? name.toList = some (.word name) := by
  have hnone : after? "$(".toList name.toList = none := by
    cases hlist : name.toList with
    | nil => rfl
    | cons c cs =>
      have hne : '$' ≠ c := by
        rintro rfl
        exact h.not_mem (by decide) (hlist ▸ List.mem_cons_self)
      exact if_neg hne
  rw [Fragment.termOf?, hnone, Option.bind_none]
  exact (if_pos (List.all_eq_true.2 h)).trans (by rw [String.ofList_toList])

-- ---------------------------------------------------------------------------
-- Lines that are joined
-- ---------------------------------------------------------------------------

section
variable {line : List Char} {rest ls : List (List Char)} {c : Char}

end

-- ---------------------------------------------------------------------------
-- The lines of a record
-- ---------------------------------------------------------------------------

theorem join_map_flatMap {α β : Type} (f : α → List β) (g : β → String) (l : List α) :
    String.join ((l.flatMap f).map g) = String.join (l.map fun a => String.join ((f a).map g)) := by
  induction l with
  | nil => rfl
  | cons a l ih => simp [ih]

/-- The lines, each ended. -/
def unlines (lines : List String) : String :=
  String.join (lines.map (· ++ "\n"))

@[simp] theorem unlines_nil : unlines [] = "" := rfl

theorem unlines_cons (line : String) (lines : List String) :
    unlines (line :: lines) = line ++ "\n" ++ unlines lines := by
  simp [unlines]

theorem unlines_append (a b : List String) : unlines (a ++ b) = unlines a ++ unlines b := by
  simp [unlines]

theorem pieces_unlines {lines : List String} (h : ∀ line ∈ lines, '\n' ∉ line.toList) :
    pieces '\n' (unlines lines).toList = lines.map String.toList ++ [[]] := by
  have hlines : (unlines lines).toList = (lines.map String.toList).flatMap (· ++ ['\n']) := by
    simp [unlines, String.toList_join, List.flatMap_map]
  rw [hlines]
  exact pieces_flatMap_append (by simpa using h)

def includeDirLines (dir : String) : List String :=
  ["ifeq (,$(findstring +" ++ dir ++ "\",$(VLOG_INCLUDES)))",
    "  VLOG_INCLUDES += \"+incdir+" ++ dir ++ "\"", "endif"]

def ruleLines (variant : String) (line : String) : List String → List String
  | [] => [line]
  | d :: deps => (line ++ "\\") :: ruleLines variant ("\t" ++ Record.objectOf d variant) deps

def inclusionLines (file : String) : List String :=
  ["ifeq (,$(filter " ++ file ++ ",$(MAKEFILE_LIST)))", "-include " ++ file, "endif"]

def assignmentLine (name : String) (words : List String) : String :=
  name ++ " := $(call uniq," ++ String.join (words.map (" " ++ ·)) ++ ")"

theorem unlines_ruleLines (variant line : String) (deps : List String) :
    unlines (ruleLines variant line deps) =
      line ++ String.join (deps.map fun d => "\\\n\t" ++ Record.objectOf d variant) ++ "\n" := by
  induction deps generalizing line with
  | nil => simp [ruleLines, unlines_cons]
  | cons d deps ih =>
    have h : "\\\n\t" = "\\" ++ "\n" ++ "\t" := rfl
    rw [ruleLines, unlines_cons, ih, List.map_cons, String.join_cons, h]
    simp only [String.append_assoc, -String.reduceAppend]

theorem unlines_includeDirLines (dir : String) :
    unlines (includeDirLines dir) = Record.includeDirBlock dir := by
  rw [Record.includeDirBlock_eq]
  simp only [includeDirLines, unlines_cons, unlines_nil, String.append_empty, String.append_assoc,
    -String.reduceAppend]

theorem unlines_inclusionLines (file : String) :
    unlines (inclusionLines file) = Record.guardedInclude file := by
  rw [Record.guardedInclude_eq]
  simp only [inclusionLines, unlines_cons, unlines_nil, String.append_empty, String.append_assoc,
    -String.reduceAppend]

namespace Record

variable (r : Record)

def wordsOf (headers : Bool) (d : String) : List String :=
  ("$(" ++ variableOf headers d ++ ")") :: if isHeaderName d = headers then [d] else []

def assignmentLineOf (headers : Bool) : String :=
  assignmentLine (variableOf headers r.module) (r.dependencies.flatMap (wordsOf headers))

def headerLines : List String :=
  if isHeaderName r.module then includeDirLines ((r.source.parent?.map Path.text).getD "") else []

def objectLines : List String :=
  r.headerLines ++
    ruleLines r.variant (objectOf r.module r.variant ++ ": " ++ r.source.text) r.dependencies

def inclusionsLines : List String :=
  r.dependencies.flatMap fun d => inclusionLines (fragmentOf d r.variant)

def otherLines : List String :=
  ["", r.depLine, ""] ++ r.inclusionsLines ++
    ["", r.assignmentLineOf false, r.assignmentLineOf true]

def lines : List String :=
  r.objectLines ++ r.otherLines

theorem join_wordsOf (d : String) :
    String.join ((wordsOf false d).map (" " ++ ·)) = depsTerm d ∧
      String.join ((wordsOf true d).map (" " ++ ·)) = includeTerm d := by
  have h : " $(" = " " ++ "$(" := rfl
  have hdeps : "_DEPS)" = "_DEPS" ++ ")" := rfl
  have hinclude : "_INCLUDE)" = "_INCLUDE" ++ ")" := rfl
  unfold wordsOf variableOf depsTerm includeTerm
  rw [h, hdeps, hinclude]
  cases isHeaderName d <;> simp [String.append_assoc, -String.reduceAppend]

theorem unlines_headerLines : unlines r.headerLines = r.headerBlock := by
  unfold headerLines headerBlock
  split
  · exact unlines_includeDirLines _
  · rfl

theorem unlines_lines : unlines r.lines = r.render := by
  have hinclusions : unlines r.inclusionsLines = String.join r.includeDirectives := by
    rw [unlines, inclusionsLines, join_map_flatMap]
    exact congrArg String.join (List.map_congr_left fun d _ => unlines_inclusionLines _)
  have hdeps : r.assignmentLineOf false = r.depsVar ++ ")" := by
    have h : "_DEPS := $(call uniq," = "_DEPS" ++ " := $(call uniq," := rfl
    rw [assignmentLineOf, assignmentLine, join_map_flatMap, depsVar, h]
    simp only [join_wordsOf, variableOf, Bool.false_eq_true, if_false, String.append_assoc,
      -String.reduceAppend]
  have hinclude : r.assignmentLineOf true = r.includeVar ++ ")" := by
    have h : "_INCLUDE := $(call uniq," = "_INCLUDE" ++ " := $(call uniq," := rfl
    rw [assignmentLineOf, assignmentLine, join_map_flatMap, includeVar, h]
    simp only [join_wordsOf, variableOf, if_true, String.append_assoc, -String.reduceAppend]
  have hend : ")\n" = ")" ++ "\n" := rfl
  rw [lines, objectLines, otherLines, depLine, hdeps, hinclude, render, objectRule, depRule, hend]
  simp only [unlines_append, unlines_cons, unlines_nil, unlines_headerLines, unlines_ruleLines,
    hinclusions, String.empty_append, String.append_empty, String.append_assoc,
    -String.reduceAppend]

end Record

theorem mem_ruleLines {variant line l : String} {deps : List String}
    (h : l ∈ ruleLines variant line deps) : ∃ e, (e = "" ∨ e = "\\") ∧
      (l = line ++ e ∨ ∃ d ∈ deps, l = "\t" ++ Record.objectOf d variant ++ e) := by
  induction deps generalizing line with
  | nil => exact ⟨"", .inl rfl, .inl (by simpa [ruleLines] using h)⟩
  | cons d deps ih =>
    rcases List.mem_cons.1 h with rfl | h
    · exact ⟨"\\", .inr rfl, .inl rfl⟩
    · obtain ⟨e, he, rfl | ⟨d', hd', rfl⟩⟩ := ih h
      · exact ⟨e, he, .inr ⟨d, List.mem_cons_self, rfl⟩⟩
      · exact ⟨e, he, .inr ⟨d', List.mem_cons_of_mem _ hd', rfl⟩⟩

-- ---------------------------------------------------------------------------
-- Words of a record
-- ---------------------------------------------------------------------------

theorem IsName.not_mem {name : String} (h : IsName name) {c : Char} (hword : isWord c = false)
    (hdot : c ≠ '.') : c ∉ name.toList :=
  fun hc => (h.chars c hc).ne hword hdot rfl

theorem IsName.variableOf {m : String} (h : IsName m) (headers : Bool) :
    IsName (Record.variableOf headers m) := by
  refine ⟨fun he => ?_, fun c hc => ?_⟩
  · have hlist := congrArg String.toList he
    simp [Record.variableOf, h.nonempty] at hlist
  · rw [Record.variableOf, String.toList_append, List.mem_append] at hc
    refine hc.elim (h.chars c) fun hc => ?_
    have hsuffix : ∀ c ∈ (if headers then "_INCLUDE" else "_DEPS").toList, IsNameChar c := by
      cases headers <;> exact isNameChar_of_all (by decide)
    exact hsuffix c hc

theorem IsName.wordsOf {d : String} (h : IsName d) (headers : Bool) :
    (∀ word ∈ Record.wordsOf headers d, word ≠ "" ∧ ' ' ∉ word.toList) ∧
      (Record.wordsOf headers d).mapM (fun word => Fragment.termOf? word.toList) =
        some (Record.termsOf headers d) := by
  have hvariable := h.variableOf headers
  have href : "$(" ++ Record.variableOf headers d ++ ")" ≠ "" ∧
      ' ' ∉ ("$(" ++ Record.variableOf headers d ++ ")").toList := by
    refine ⟨fun he => by simpa using congrArg String.toList he, ?_⟩
    simpa using hvariable.not_mem (by decide) (by decide)
  have hterm : Fragment.termOf? ("$(" ++ Record.variableOf headers d ++ ")").toList =
      some (.ref (Record.variableOf headers d)) := by
    simp only [String.toList_append, List.append_assoc]
    rw [termOf?_ref hvariable.literal, String.ofList_toList]
  unfold Record.wordsOf Record.termsOf
  split
  · simp only [List.forall_mem_cons, List.mapM_cons, List.mapM_nil, hterm, h.literal.termOf?]
    exact ⟨⟨href, ⟨h.nonempty, h.not_mem (by decide) (by decide)⟩, by simp⟩, rfl⟩
  · simp only [List.forall_mem_cons, List.mapM_cons, List.mapM_nil, hterm]
    exact ⟨⟨href, by simp⟩, rfl⟩

/-- A character that is in no part of the record. -/
structure Record.Lacks (r : Record) (c : Char) : Prop where
  module : c ∉ r.module.toList
  source : c ∉ r.source.text.toList
  variant : c ∉ r.variant.toList
  dependencies : ∀ d ∈ r.dependencies, c ∉ d.toList

section
variable {r : Record} {c : Char}

theorem Legible.lacks (h : Legible r) : r.Lacks '\n' :=
  ⟨h.module.2, h.source, h.variant, fun d hd => (h.dependencies d hd).2⟩

namespace Record.Lacks

theorem assignmentLineOf (h : r.Lacks c) (hc : c = '\n' ∨ c = '#') (headers : Bool) :
    c ∉ (r.assignmentLineOf headers).toList := by
  have hvariable : ∀ {name : String}, c ∉ name.toList →
      c ∉ (variableOf headers name).toList := fun hn => by
    rcases hc with rfl | rfl <;> cases headers <;> simpa [variableOf] using hn
  have hwords : ∀ word ∈ r.dependencies.flatMap (wordsOf headers), c ∉ word.toList := by
    intro word hword
    obtain ⟨d, hd, hword⟩ := List.mem_flatMap.1 hword
    have hname := h.dependencies d hd
    rcases List.mem_cons.1 hword with rfl | hword
    · have href := hvariable hname
      rcases hc with rfl | rfl <;> simpa using href
    · split at hword
      · exact List.mem_singleton.1 hword ▸ hname
      · cases hword
  have hname := hvariable h.module
  rw [Record.assignmentLineOf]
  generalize r.dependencies.flatMap (wordsOf headers) = words at hwords
  rcases hc with rfl | rfl <;> simpa [assignmentLine] using ⟨hname, hwords⟩

theorem lines (h : r.Lacks c) (hc : c = '\n' ∨ c = '#') : ∀ line ∈ r.lines, c ∉ line.toList := by
  have hobject : ∀ {d : String}, c ∉ d.toList → c ∉ (objectOf d r.variant).toList := fun hd => by
    rcases hc with rfl | rfl <;> simpa [objectOf, depDir] using ⟨hd, h.variant⟩
  have hfragment : ∀ {d : String}, c ∉ d.toList → c ∉ (fragmentOf d r.variant).toList :=
    fun hd => by
      rcases hc with rfl | rfl <;> simpa [fragmentOf, depDir] using ⟨hd, h.variant⟩
  intro line hline
  unfold Record.lines objectLines otherLines inclusionsLines at hline
  simp only [List.mem_append, List.mem_cons, List.not_mem_nil, or_false, List.mem_flatMap] at hline
  obtain (hline | hline) | ((rfl | rfl | rfl) | ⟨d, hd, hline⟩) | rfl | rfl | rfl := hline
  · unfold headerLines at hline
    split at hline
    · have hdir := not_mem_parent (by rcases hc with rfl | rfl <;> decide) h.source
      simp only [includeDirLines, List.mem_cons, List.not_mem_nil, or_false] at hline
      obtain rfl | rfl | rfl := hline
      · rcases hc with rfl | rfl <;> simpa using hdir
      · rcases hc with rfl | rfl <;> simpa using hdir
      · rcases hc with rfl | rfl <;> decide
    · cases hline
  · obtain ⟨e, rfl | rfl, rfl | ⟨d, hd, rfl⟩⟩ := mem_ruleLines hline
    · rcases hc with rfl | rfl <;> simpa using ⟨hobject h.module, h.source⟩
    · rcases hc with rfl | rfl <;> simpa using hobject (h.dependencies d hd)
    · rcases hc with rfl | rfl <;> simpa using ⟨hobject h.module, h.source⟩
    · rcases hc with rfl | rfl <;> simpa using hobject (h.dependencies d hd)
  · simp
  · rcases hc with rfl | rfl <;> simpa [depLine] using ⟨hfragment h.module, h.source⟩
  · simp
  · have hname := hfragment (h.dependencies d hd)
    simp only [inclusionLines, List.mem_cons, List.not_mem_nil, or_false] at hline
    obtain rfl | rfl | rfl := hline
    · rcases hc with rfl | rfl <;> simpa using hname
    · rcases hc with rfl | rfl <;> simpa using hname
    · rcases hc with rfl | rfl <;> decide
  · simp
  · exact h.assignmentLineOf hc false
  · exact h.assignmentLineOf hc true

end Record.Lacks

end

-- ---------------------------------------------------------------------------
-- The rule on one line
-- ---------------------------------------------------------------------------

section
variable {v line : String} {deps : List String} {rest : List (List Char)}

end

-- ---------------------------------------------------------------------------
-- Reading back
-- ---------------------------------------------------------------------------

/-- A record whose statements can be read back. -/
structure Readable (r : Record) : Prop where
  module : IsName r.module
  dependencies : ∀ d ∈ r.dependencies, IsName d
  source : '\n' ∉ r.source.text.toList ∧ '#' ∉ r.source.text.toList
  last : r.source.text.toList.getLast? ≠ some '\\'
  variant : '\n' ∉ r.variant.toList ∧ '#' ∉ r.variant.toList

namespace Readable

variable {r : Record} {rest : List (List Char)}

theorem lacks (h : Readable r) {c : Char} (hc : c = '\n' ∨ c = '#') : r.Lacks c := by
  have hname : ∀ {name}, IsName name → c ∉ name.toList := by
    rcases hc with rfl | rfl <;> exact fun hn => hn.not_mem (by decide) (by decide)
  refine ⟨hname h.module, ?_, ?_, fun d hd => hname (h.dependencies d hd)⟩
  · rcases hc with rfl | rfl
    exacts [h.source.1, h.source.2]
  · rcases hc with rfl | rfl
    exacts [h.variant.1, h.variant.2]

end Readable

/-- A record in whose fragment nothing has a meaning for make that it should not have. -/
structure Tame (r : Record) : Prop where
  module : IsName r.module
  dependencies : ∀ d ∈ r.dependencies, IsName d
  source : IsSource r.module r.source
  variant : Literal r.variant

namespace Tame

variable {r : Record} {mem : Memory} {dir : String}

theorem readable (h : Tame r) : Readable r := by
  have hsource : ∀ c ∈ "\n$#:=".toList, c ∉ r.source.text.toList :=
    fun c hc hmem => h.source.chars c hmem hc
  exact ⟨h.module, h.dependencies, ⟨hsource '\n' (by decide), hsource '#' (by decide)⟩,
    h.source.last, h.variant.not_mem (by decide), h.variant.not_mem (by decide)⟩

theorem fileNamed (h : Tame r) (hdir : mem.words "DEP_DIR" = [dir]) (hplace : IsPlace dir) :
    mem.fileNamed (Record.fragmentOf r.module r.variant) =
      .ok (nameIn dir r.module r.variant ".d") :=
  Memory.fileNamed_fragmentOf hdir hplace h.module.literal
    (Memory.expands_self (h.variant.not_mem (by decide))) h.variant

theorem dirFault? (h : Tame r) (hheader : isHeaderName r.module = true) :
    Fragment.dirFault? ((r.source.parent?.map Path.text).getD "") = none := by
  have hspecial : ∀ c ∈ "$#()".toList,
      (c ≠ '/' ∧ c ≠ '.') ∧ (c ∈ "\n$#:=".toList ∨ c ∈ "()".toList) := by simp
  refine if_pos (List.all_eq_true.2 fun c hc => ?_)
  rw [decide_eq_true_eq]
  intro hmem
  obtain ⟨hne, hkind⟩ := hspecial c hmem
  refine not_mem_parent hne (fun hsource => ?_) hc
  exact hkind.elim (h.source.chars c hsource) (h.source.block hheader c hsource)

end Tame

end Fragment

end DesignDeps
