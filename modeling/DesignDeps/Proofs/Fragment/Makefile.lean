import DesignDeps.Counting
import DesignDeps.Proofs.Fragment.Prerequisites

/-!
# What make does with a fragment

A fragment is a small program. It includes other fragments, each behind a guard that lets no file be
read twice, and sets two variables, whose references are expanded at once. Its rules do nothing
here, but make stops at a line that it takes for no rule. `parse` reads the statements of a text,
and `run` does what they say. What is included is processed in place, so a variable is expanded
with what the inclusions in front of it have set.

As much of the language is covered as fragments have use for. Where something else turns up the
fault is `beyond`, and what make does is left open.
-/

namespace DesignDeps.Fragment

open Text

inductive Fault
  /-- The makefile to begin with is not there. -/
  | missing
  | separator
  /-- Behind the colon of a rule comes another one. -/
  | targetPattern
  /-- The parenthesis of a reference or of a call is not closed. -/
  | unterminated
  | beyond
  deriving DecidableEq

inductive Term
  /-- The value of a variable. -/
  | ref (name : String)
  | word (text : String)
  deriving DecidableEq

inductive Statement
  /-- An inclusion behind the guard that lets no file be read twice. -/
  | includeOnce (file : String)
  /-- An assignment of the words without repetitions, which expands them at once. -/
  | assign (name : String) (terms : List Term)
  /-- A directory that is made known to the compiler once. -/
  | includeDir (dir : String)
  /-- Whatever else stands on a line has to be a rule. -/
  | rule (line : String)
  deriving DecidableEq

-- ---------------------------------------------------------------------------
-- Reading
-- ---------------------------------------------------------------------------

def isLiteral (c : Char) : Bool :=
  32 < c.toNat && c.toNat ≠ 127 && c ∉ "$#:%(),;=\\*?[".toList

def isGap (c : Char) : Bool :=
  c = ' ' || c = '\t'

def goesOn (line : List Char) : Bool :=
  (line.reverse.takeWhile (· = '\\')).length % 2 = 1

def logicalLines : List (List Char) → List (List Char)
  | [] => []
  | [line] => [line]
  | line :: next :: rest =>
    if goesOn line then
      logicalLines ((line.dropLast ++ ' ' :: next.dropWhile isGap) :: rest)
    else line :: logicalLines (next :: rest)
termination_by lines => lines.length

/-- The line without the comment at its end. A backslash or a reference may take the meaning from
the character, which then stays. -/
def uncommented (line : List Char) : List Char :=
  let before := line.takeWhile (· ≠ '#')
  if before.getLast? ∈ [some '\\', some '$'] || before.count ')' < before.count '(' then line
  else before

def guarded? (line : List Char) : Option (List Char) :=
  (after? "ifeq (,$(filter ".toList line).bind (before? ",$(MAKEFILE_LIST)))".toList)

def announced? (line : List Char) : Option (List Char) :=
  (after? "ifeq (,$(findstring +".toList line).bind (before? "\",$(VLOG_INCLUDES)))".toList)

def block? (line : List Char) : Option (List Char × Statement) :=
  match guarded? line with
  | some file => some ("-include ".toList ++ file, .includeOnce (String.ofList file))
  | none => (announced? line).map fun dir =>
    ("  VLOG_INCLUDES += \"+incdir+".toList ++ dir ++ ['"'], .includeDir (String.ofList dir))

def termOf? (word : List Char) : Option Term :=
  match (after? "$(".toList word).bind (before? ")".toList) with
  | some name => if name.all isLiteral then some (.ref (String.ofList name)) else none
  | none => if word.all isLiteral then some (.word (String.ofList word)) else none

def termsOf? (s : List Char) : Option (List Term) :=
  ((pieces ' ' s).filter (· ≠ [])).mapM termOf?

def assignment? (line : List Char) : Option Statement :=
  let name := line.takeWhile fun c => IsNameChar c
  if name = [] ∨ name = "MAKEFILE_LIST".toList then none
  else
    ((after? " := $(call uniq,".toList (line.dropWhile fun c => IsNameChar c)).bind
      (before? ")".toList)).bind fun s => (termsOf? s).map (.assign (String.ofList name))

def plain? (line : List Char) : Option Statement :=
  if line.all isGap then none
  else some ((assignment? line).getD (.rule (String.ofList line)))

def statements : List (List Char) → List Statement
  | [] => []
  | line :: rest =>
    match block? line with
    | none => (plain? line).toList ++ statements rest
    | some (body, statement) =>
      if rest.take 2 = [body, "endif".toList] then statement :: statements (rest.drop 2)
      else .rule (String.ofList line) :: statements rest
termination_by lines => lines.length
decreasing_by
  · simp
  · simp only [List.length_cons, List.length_drop]
    omega
  · simp

def parse (text : String) : List Statement :=
  statements ((logicalLines (pieces '\n' text.toList)).map uncommented)

-- ---------------------------------------------------------------------------
-- Memory
-- ---------------------------------------------------------------------------

abbrev Files := List (String × String)

/-- What make remembers: the files that it has read or is reading, and the words in its
variables. -/
structure Memory where
  makefiles : List String
  words : String → List String

namespace Memory

/-- At the start only the variable for the directory of the fragments is set. -/
def start (dir : String) : Memory :=
  ⟨[], fun x => if x = "DEP_DIR" then [dir] else []⟩

def opened (mem : Memory) (file : String) : Memory :=
  { mem with makefiles := mem.makefiles ++ [file] }

def set (mem : Memory) (name : String) (words : List String) : Memory :=
  { mem with words := fun x => if x = name then words else mem.words x }

def value (mem : Memory) (name : List Char) : List Char :=
  [' '].intercalate ((mem.words (String.ofList name)).map String.toList)

inductive Place
  | text
  | dollar
  | reference (name : List Char)

def expandFrom (mem : Memory) : Place → List Char → Except Fault (List Char)
  | .text, [] => .ok []
  | .dollar, [] => .ok ['$']
  | .reference _, [] => .error .unterminated
  | .text, c :: s =>
    if c = '$' then mem.expandFrom .dollar s else (mem.expandFrom .text s).map (c :: ·)
  | .dollar, c :: s =>
    if c = '(' then mem.expandFrom (.reference []) s
    else if c = '$' then (mem.expandFrom .text s).map ('$' :: ·)
    else if c ∈ ['{', '#'] then .error .beyond
    else (mem.expandFrom .text s).map (mem.value [c] ++ ·)
  | .reference name, c :: s =>
    if c = ')' then (mem.expandFrom .text s).map (mem.value name ++ ·)
    else if isLiteral c then mem.expandFrom (.reference (name ++ [c])) s
    else .error .beyond

def expand (mem : Memory) (s : List Char) : Except Fault (List Char) :=
  mem.expandFrom .text s

def fileNamed (mem : Memory) (file : String) : Except Fault String :=
  match mem.expand file.toList with
  | .error fault => .error fault
  | .ok name =>
    if name.all isLiteral && name.head? ≠ some '~' then .ok (String.ofList name)
    else .error .beyond

/-- The compiler gets to know a directory, unless its option is in the variable already. The first
comma ends what is looked for. -/
def announce (mem : Memory) (dir : String) : Memory :=
  let call := ("+" ++ dir ++ "\",").toList ++ mem.value "VLOG_INCLUDES".toList
  if occursIn (call.takeWhile (· ≠ ',')) ((call.dropWhile (· ≠ ',')).drop 1) then mem
  else
    mem.set "VLOG_INCLUDES" (mem.words "VLOG_INCLUDES" ++ ["\"+incdir+" ++ dir ++ "\""])

end Memory

def dirFault? (dir : String) : Option Fault :=
  if dir.toList.all (· ∉ "$#()".toList) then none
  else if '#' ∉ dir.toList && dir.toList.count ')' < dir.toList.count '(' then some .unterminated
  else some .beyond

def directives : List String :=
  ["ifeq", "ifneq", "ifdef", "ifndef", "else", "endif", "include", "-include", "sinclude", "define",
    "endef", "undefine", "export", "unexport", "override", "private", "vpath", "load", "-load"]

def isSpace (c : Char) : Bool :=
  isGap c || c = '\x0b' || c = '\x0c' || c = '\r'

def firstWord (s : List Char) : List Char :=
  (s.dropWhile isSpace).takeWhile (!isSpace ·)

def modifiers : List String :=
  ["define", "undefine", "export", "override", "private"]

def ruleFault? (s : List Char) : Option Fault :=
  let targets := s.takeWhile (· ≠ ':')
  match s.dropWhile (· ≠ ':') with
  | [] =>
    if s.all isGap then none else if '=' ∈ s || '#' ∈ s then some .beyond else some .separator
  | _ :: sources =>
    if !targets.all isLiteral || '=' ∈ sources || '#' ∈ sources ||
        String.ofList (firstWord sources) ∈ modifiers then some .beyond
    else if ':' ∉ sources then none
    else if sources.any (· ∈ ";%\\".toList) then some .beyond
    else some .targetPattern

def Memory.lineFault? (mem : Memory) (line : String) : Option Fault :=
  if String.ofList (line.toList.takeWhile (!isGap ·)) ∈ directives ||
      line.toList.head? = some '\t' then some .beyond
  else
    match mem.expand line.toList with
    | .error fault => some fault
    | .ok s => ruleFault? s

def Term.expand (mem : Memory) : Term → List String
  | .ref name => mem.words name
  | .word text => [text]

def expandAll (mem : Memory) (terms : List Term) : List String :=
  terms.flatMap (·.expand mem)

namespace Memory

variable {mem : Memory} {name x file dir : String} {words : List String}

@[simp] theorem mem_makefiles_opened {f : String} :
    f ∈ (mem.opened file).makefiles ↔ f ∈ mem.makefiles ∨ f = file := by
  simp [opened]

@[simp] theorem makefiles_announce : (mem.announce dir).makefiles = mem.makefiles := by
  unfold announce
  dsimp only
  split <;> rfl

end Memory

-- ---------------------------------------------------------------------------
-- Running
-- ---------------------------------------------------------------------------

def unread (files : Files) (mem : Memory) : Nat :=
  (files.map Prod.fst).countP fun file => file ∉ mem.makefiles

theorem unread_opened_lt {files : Files} {mem : Memory} {file text : String}
    (hfile : files.lookup file = some text) (h : file ∉ mem.makefiles) :
    unread files (mem.opened file) < unread files mem := by
  have hmem : file ∈ files.map Prod.fst := by
    obtain ⟨l₁, l₂, rfl, -⟩ := List.lookup_eq_some_iff.1 hfile
    simp
  refine countP_lt hmem (fun y => ?_) (by simpa using h) (by simp)
  simp only [Memory.mem_makefiles_opened, decide_eq_true_eq]
  exact fun hy hm => hy (.inl hm)

theorem unread_announce {files : Files} {mem : Memory} {dir : String} :
    unread files (mem.announce dir) = unread files mem := by
  simp only [unread, Memory.makefiles_announce]

/-- Processes statements one after the other. Files that are not there are passed over. `uniq` is
the function by that name that the fragments call. -/
def run (uniq : List String → List String) (files : Files) :
    List Statement → Memory → Except Fault Memory
  | [], mem => .ok mem
  | .assign name terms :: rest, mem =>
    run uniq files rest (mem.set name (uniq (expandAll mem terms)))
  | .includeDir dir :: rest, mem =>
    match dirFault? dir with
    | some fault => .error fault
    | none => run uniq files rest (mem.announce dir)
  | .rule line :: rest, mem =>
    match mem.lineFault? line with
    | some fault => .error fault
    | none => run uniq files rest mem
  | .includeOnce file :: rest, mem =>
    match mem.fileNamed file with
    | .error fault => .error fault
    | .ok name =>
      if _ : name ∈ mem.makefiles then run uniq files rest mem
      else
        match _ : files.lookup name with
        | none => run uniq files rest mem
        | some text => run uniq files (parse text ++ rest) (mem.opened name)
termination_by statements mem => (unread files mem, statements.length)
decreasing_by
  · exact .right _ (by simp)
  · rw [unread_announce]
    exact .right _ (by simp)
  · exact .right _ (by simp)
  · exact .right _ (by simp)
  · exact .right _ (by simp)
  · exact .left _ _ (unread_opened_lt ‹_› ‹_›)

section
variable {uniq : List String → List String} {files : Files} {mem mem' : Memory}
  {file name line dir text : String} {a b rest : List Statement} {terms : List Term}

@[simp] theorem run_nil : run uniq files [] mem = .ok mem := by
  rw [run]

@[simp] theorem run_assign : run uniq files (.assign name terms :: rest) mem =
    run uniq files rest (mem.set name (uniq (expandAll mem terms))) := by
  rw [run]

theorem run_includeDir (h : dirFault? dir = none) :
    run uniq files (.includeDir dir :: rest) mem = run uniq files rest (mem.announce dir) := by
  rw [run]
  simp only [h]

theorem run_rule (h : mem.lineFault? line = none) :
    run uniq files (.rule line :: rest) mem = run uniq files rest mem := by
  rw [run]
  simp only [h]

theorem run_includeOnce_read (hname : mem.fileNamed file = .ok name) (h : name ∈ mem.makefiles) :
    run uniq files (.includeOnce file :: rest) mem = run uniq files rest mem := by
  rw [run]
  simp only [hname, h, dif_pos]

theorem run_includeOnce_missing (hname : mem.fileNamed file = .ok name)
    (hfile : files.lookup name = none) :
    run uniq files (.includeOnce file :: rest) mem = run uniq files rest mem := by
  rw [run]
  simp only [hname]
  split
  · rfl
  · split
    · rfl
    · next hsome => cases hfile.symm.trans hsome

theorem run_includeOnce (hname : mem.fileNamed file = .ok name) (h : name ∉ mem.makefiles)
    (hfile : files.lookup name = some text) :
    run uniq files (.includeOnce file :: rest) mem =
      run uniq files (parse text ++ rest) (mem.opened name) := by
  rw [run]
  simp only [hname, h, dif_neg, not_false_eq_true]
  split
  · next hnone => cases hfile.symm.trans hnone
  · next hsome =>
    cases hfile.symm.trans hsome
    rfl

theorem run_append (h : run uniq files a mem = .ok mem') :
    run uniq files (a ++ b) mem = run uniq files b mem' := by
  fun_induction run uniq files a mem with
  | case1 mem =>
    cases h
    rfl
  | case2 name terms rest mem ih => rw [List.cons_append, run_assign, ih h]
  | case3 | case5 | case7 => cases h
  | case4 dir rest mem hdir ih => rw [List.cons_append, run_includeDir hdir, ih h]
  | case6 line rest mem hline ih => rw [List.cons_append, run_rule hline, ih h]
  | case8 file rest mem name hname hread ih =>
    rw [List.cons_append, run_includeOnce_read hname hread, ih h]
  | case9 file rest mem name hname hread hnone ih =>
    rw [List.cons_append, run_includeOnce_missing hname hnone, ih h]
  | case10 file rest mem name hname hread text hfile ih =>
    rw [List.cons_append, run_includeOnce hname hread hfile, ← List.append_assoc, ih h]

end

-- ---------------------------------------------------------------------------
-- Records as programs
-- ---------------------------------------------------------------------------

namespace Record

def variableOf (headers : Bool) (m : String) : String :=
  m ++ if headers then "_INCLUDE" else "_DEPS"

def termsOf (headers : Bool) (d : String) : List Term :=
  .ref (variableOf headers d) :: if isHeaderName d = headers then [.word d] else []

def depLine (r : Record) : String :=
  fragmentOf r.module r.variant ++ ": " ++ r.source.text

variable {m m' n : String} {headers headers' : Bool}

end Record

end DesignDeps.Fragment
