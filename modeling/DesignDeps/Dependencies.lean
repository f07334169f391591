import DesignDeps.Keyword
import DesignDeps.Log
import DesignDeps.NameSet
import DesignDeps.Path
import DesignDeps.Skeleton

/-!
# Names a source text depends on

There is no grammar. Include directives and package references are searched for in the text as it
is, comments included; instantiations in its skeleton. A module is never its own dependency.
-/

namespace DesignDeps

open Text

structure Dependencies where
  /-- Base names of included files. -/
  includes : NameSet
  packages : NameSet
  instances : NameSet
  deriving DecidableEq

namespace Dependencies

def all (d : Dependencies) : NameSet :=
  d.includes ∪ d.packages ∪ d.instances

theorem mem_all {d : Dependencies} {n : String} :
    n ∈ d.all ↔ n ∈ d.includes ∨ n ∈ d.packages ∨ n ∈ d.instances := by
  simp [all, or_assoc]

def isEmpty (d : Dependencies) : Bool :=
  d.includes.isEmpty && d.packages.isEmpty && d.instances.isEmpty

-- ---------------------------------------------------------------------------
-- Include directives
-- ---------------------------------------------------------------------------

def includeWord : List Char := "`include".toList

def isIncludeChar (c : Char) : Bool :=
  isWord c || c == '/' || c == '.'

def isIncludeOpen (c : Char) : Bool := c == '\"' || c == '<'

def isIncludeClose (c : Char) : Bool := c == '\"' || c == '>'

/-- The path of a directive whose delimiters need not match. -/
def readInclude (s : List Char) : Option (List Char × List Char) := do
  let s ← after? includeWord s
  let (_, s) ← run? isBlank s
  match s with
  | [] => none
  | c :: s =>
    if isIncludeOpen c then
      let (path, s) ← run? isIncludeChar s
      match s with
      | [] => none
      | d :: rest => if isIncludeClose d then some (path, rest) else none
    else none

def includeUse : Pattern (List Char) where
  read := readInclude
  shrinks := by
    intro s a rest h
    simp only [readInclude, Option.bind_eq_bind, Option.bind_eq_some_iff, Prod.exists] at h
    obtain ⟨s₁, h₁, w, s₂, h₂, h⟩ := h
    have l₁ := length_after?_le h₁
    have l₂ := length_run?_lt h₂
    cases s₂ with
    | nil => simp at h
    | cons c s₃ =>
      simp only at h
      split at h
      · simp only [Option.bind_eq_some_iff, Prod.exists] at h
        obtain ⟨path, s₄, h₄, h⟩ := h
        have l₄ := length_run?_lt h₄
        cases s₄ with
        | nil => simp at h
        | cons d s₅ =>
          simp only at h
          split at h
          · simp only [Option.some.injEq, Prod.mk.injEq] at h
            simp only [List.length_cons, h.2] at l₁ l₂ l₄ ⊢
            omega
          · simp at h
      · simp at h

-- ---------------------------------------------------------------------------
-- Package references
-- ---------------------------------------------------------------------------

def isItemChar (c : Char) : Bool :=
  isWord c || c == '*'

def readPackage (s : List Char) : Option (List Char × List Char) := do
  let (package, s) ← run? isWord s
  let s ← after? [':', ':'] s
  let (_, rest) ← run? isItemChar s
  return (package, rest)

def packageUse : Pattern (List Char) where
  read := readPackage
  shrinks := by
    intro s a rest h
    simp only [readPackage, Option.bind_eq_bind, Option.bind_eq_some_iff, Prod.exists,
      Option.pure_def, Option.some.injEq, Prod.mk.injEq] at h
    obtain ⟨w, s₁, h₁, s₂, h₂, w', s₃, h₃, _, rfl⟩ := h
    have l₁ := length_run?_lt h₁
    have l₂ := length_after?_le h₂
    have l₃ := length_run?_lt h₃
    omega

-- ---------------------------------------------------------------------------
-- Instantiations
-- ---------------------------------------------------------------------------

def afterGroup? (s : List Char) : Option (List Char) :=
  after? ['(', ')'] s

/-- The text behind an emptied parameter group and blanks, or the same text if there is none. -/
def skipParams (s : List Char) : List Char :=
  match s with
  | '#' :: rest =>
    match afterGroup? (rest.dropWhile isBlank) with
    | some rest => rest.dropWhile isBlank
    | none => s
  | _ => s

/-- `module #() instance ();` with the parameter group left out or not. -/
def readInstance (s : List Char) : Option (List Char × List Char) := do
  let (module, s) ← run? isWord s
  let (_, s) ← run? isBlank s
  let (_, s) ← run? isWord (skipParams s)
  let s ← afterGroup? (s.dropWhile isBlank)
  let rest ← after? [';'] (s.dropWhile isBlank)
  return (module, rest)

theorem length_skipParams_le (s : List Char) : (skipParams s).length ≤ s.length := by
  unfold skipParams
  split
  · next rest =>
    split
    · next r h =>
      have l₁ := length_dropWhile_le isBlank rest
      have l₂ := length_after?_le h
      have l₃ := length_dropWhile_le isBlank r
      simp only [List.length_cons]
      omega
    · simp
  · simp

def instanceUse : Pattern (List Char) where
  read := readInstance
  shrinks := by
    intro s a rest h
    simp only [readInstance, Option.bind_eq_bind, Option.bind_eq_some_iff, Prod.exists,
      Option.pure_def, Option.some.injEq, Prod.mk.injEq] at h
    obtain ⟨_, s₁, h₁, _, s₂, h₂, _, s₃, h₃, s₄, h₄, s₅, h₅, _, rfl⟩ := h
    have l₁ := length_run?_lt h₁
    have l₂ := length_run?_lt h₂
    have l₃ := length_run?_lt h₃
    have l₃' := length_skipParams_le s₂
    have l₄ := length_after?_le h₄
    have l₄' := length_dropWhile_le isBlank s₃
    have l₅ := length_after?_le h₅
    have l₅' := length_dropWhile_le isBlank s₄
    omega

-- ---------------------------------------------------------------------------
-- All three
-- ---------------------------------------------------------------------------

def includesOf (module : String) (text : List Char) : NameSet :=
  .ofList (((includeUse.findAll text).filterMap fun p => Path.fileName? ⟨String.ofList p⟩).filter
    (· != module))

def packagesOf (module : String) (text : List Char) : NameSet :=
  .ofList (((packageUse.findAll text).map String.ofList).filter (· != module))

def instancesOf (module : String) (text : List Char) : NameSet :=
  .ofList (((instanceUse.findAll (Skeleton.ofText text)).map String.ofList).filter fun name =>
    !isKeyword name && name != module)

/-- What `text` depends on as the text of `module`. -/
def ofText (module : String) (text : String) : Dependencies where
  includes := includesOf module text.toList
  packages := packagesOf module text.toList
  instances := instancesOf module text.toList

end Dependencies

structure Extractor where
  names : Path → String → String → NameSet
  events : Path → String → String → List Log.Event := fun _ _ _ => []

namespace Extractor

def lexical : Extractor where
  names _ module text := (Dependencies.ofText module text).all
  events path module text :=
    let d := Dependencies.ofText module text
    [.extracted path d.includes.size d.packages.size d.instances.size]

end Extractor

end DesignDeps
