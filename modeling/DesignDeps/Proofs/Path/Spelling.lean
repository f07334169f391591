import DesignDeps.Proofs.Text.Pieces
import DesignDeps.Path
import Mathlib.Logic.Relation
import Mathlib.Tactic.SplitIfs

/-!
# Spellings of a path

The components of a path are read off the pieces between its separators (`components_of_pieces`).
Two paths have the same components exactly when their texts can be shortened to one and the same
text, by leaving out repeated separators, inner `.` pieces and trailing separators
(`components_eq_iff_respells`). Nothing else is ignored: a leading `.` and every `..` stay.
-/

namespace DesignDeps.Path

open Text Relation

def Component.ofFirst (first : List Char) (only : Bool) : List Component :=
  if first = [] then if only then [] else [.root]
  else if first = ['.'] then [.here]
  else [.ofPiece first]

/-- Leaves out one thing that says nothing: a separator in front of another one, a `.` between
separators or behind the last one, or the last separator of a text that is more than that. -/
inductive Shortens : List Char → List Char → Prop
  | repeated (u v) : Shortens (u ++ '/' :: '/' :: v) (u ++ '/' :: v)
  | inner (u v) : Shortens (u ++ '/' :: '.' :: '/' :: v) (u ++ '/' :: v)
  | lastHere (u) : Shortens (u ++ ['/', '.']) (u ++ ['/'])
  | trailing {u} : u ≠ [] → Shortens (u ++ ['/']) u

/-- Both paths can be shortened to one text. -/
def Respells (p q : Path) : Prop :=
  Join (ReflTransGen Shortens) p.text.toList q.text.toList

/-- What a component stands for between separators. -/
def Component.text : Component → List Char
  | .root => []
  | .here => ['.']
  | .up => ['.', '.']
  | .name s => s.toList

/-- The pieces behind a text, each with the separator in front of it. -/
def behind (ps : List (List Char)) : List Char :=
  ps.flatMap ('/' :: ·)

@[simp] theorem behind_nil : behind [] = [] := rfl

@[simp] theorem behind_cons (p : List Char) (ps : List (List Char)) :
    behind (p :: ps) = '/' :: (p ++ behind ps) := rfl

def spell : List Component → List Char
  | [] => []
  | [.root] => ['/']
  | c :: cs => c.text ++ behind (cs.map Component.text)

section
variable {u v first : List Char} {rest : List (List Char)}

-- ---------------------------------------------------------------------------
-- Pieces and components
-- ---------------------------------------------------------------------------

theorem components_of_pieces {p : Path} (h : pieces '/' p.text.toList = first :: rest) :
    p.components = Component.ofFirst first rest.isEmpty ++
      (rest.filter (!isIdle ·)).map Component.ofPiece := by
  change (anchored p.text.toList).1.components ++
    ((pieces '/' (anchored p.text.toList).2).filter (!isIdle ·)).map Component.ofPiece = _
  generalize p.text.toList = s at h
  fun_cases anchored s with
  | case1 body =>
    rw [pieces_cons_self] at h
    obtain ⟨rfl, rfl⟩ := List.cons.inj h
    simp [Anchor.components, Component.ofFirst, pieces_ne_nil]
  | case2 =>
    obtain ⟨rfl, rfl⟩ : ['.'] = first ∧ [] = rest := by simpa [pieces] using h
    decide
  | case3 body =>
    have hdot : pieces '/' ('.' :: '/' :: body) = ['.'] :: pieces '/' body :=
      pieces_append ['.'] body
    obtain ⟨rfl, rfl⟩ := List.cons.inj (hdot.symm.trans h)
    simp [Anchor.components, Component.ofFirst, isIdle]
  | case4 s hroot hhere hbelow =>
    by_cases hslash : '/' ∈ s
    · -- Neither nothing nor a dot is in front of the separator, so there is a first component.
      obtain ⟨front, body, rfl, hfront⟩ := List.eq_append_cons_of_mem hslash
      have hne : front ≠ [] := fun heq => hroot body (by simp [heq])
      have hdot : front ≠ ['.'] := fun heq => hbelow body (by simp [heq])
      rw [pieces_append, pieces_of_not_mem hfront] at h ⊢
      obtain ⟨rfl, rfl⟩ := List.cons.inj h
      simp [Anchor.components, Component.ofFirst, isIdle, hne, hdot]
    · rw [pieces_of_not_mem hslash] at h ⊢
      obtain ⟨rfl, rfl⟩ := List.cons.inj h
      have hdot : s ≠ ['.'] := hhere
      by_cases hempty : s = [] <;> simp [hempty, Anchor.components, Component.ofFirst, isIdle, hdot]

theorem components_of_append (hu : pieces '/' u = first :: rest) (t : List Char) :
    (⟨String.ofList (u ++ '/' :: t)⟩ : Path).components = Component.ofFirst first false ++
      ((rest ++ pieces '/' t).filter (!isIdle ·)).map Component.ofPiece := by
  have hpieces : pieces '/' (u ++ '/' :: t) = first :: (rest ++ pieces '/' t) := by
    rw [pieces_append, hu, List.cons_append]
  have hmore : (rest ++ pieces '/' t).isEmpty = false := by simp [pieces_ne_nil]
  rw [components_of_pieces (by rwa [String.toList_ofList]), hmore]

theorem exists_pieces (s : List Char) : ∃ first rest, pieces '/' s = first :: rest :=
  List.exists_cons_of_ne_nil (pieces_ne_nil '/' s)

theorem Shortens.components_eq (h : Shortens u v) :
    (⟨String.ofList u⟩ : Path).components = (⟨String.ofList v⟩ : Path).components := by
  cases h with
  | repeated u v =>
    obtain ⟨first, rest, hu⟩ := exists_pieces u
    rw [components_of_append hu, components_of_append hu, pieces_cons_self]
    simp [isIdle]
  | inner u v =>
    obtain ⟨first, rest, hu⟩ := exists_pieces u
    have hdot : pieces '/' ('.' :: '/' :: v) = ['.'] :: pieces '/' v := pieces_append ['.'] v
    rw [components_of_append hu, components_of_append hu, hdot]
    simp [isIdle]
  | lastHere u =>
    obtain ⟨first, rest, hu⟩ := exists_pieces u
    rw [components_of_append hu, components_of_append hu]
    simp [pieces, isIdle]
  | trailing hne =>
    obtain ⟨first, rest, hv⟩ := exists_pieces v
    rw [components_of_append hv, components_of_pieces (by rwa [String.toList_ofList])]
    cases rest with
    | nil =>
      have hfirst : first ≠ [] := by simpa [eq_append_flatMap_of_pieces hv] using hne
      simp [pieces, isIdle, Component.ofFirst, hfirst]
    | cons piece rest =>
      rw [List.filter_append]
      simp [pieces, isIdle]

-- ---------------------------------------------------------------------------
-- Shortest spellings
-- ---------------------------------------------------------------------------

@[simp] theorem Component.text_root : Component.text .root = [] := rfl

@[simp] theorem Component.text_ofPiece (piece : List Char) : (ofPiece piece).text = piece := by
  unfold ofPiece
  split
  · next h => exact h.symm
  · exact String.toList_ofList

theorem shortens_idle {p q : List Char} (hp : isIdle p = true) (u : List Char)
    (ps : List (List Char)) :
    Shortens (u ++ behind (p :: q :: ps)) (u ++ behind (q :: ps)) := by
  have hcases : p = [] ∨ p = ['.'] := by simpa [isIdle] using hp
  rcases hcases with rfl | rfl
  · exact .repeated u (q ++ behind ps)
  · exact .inner u (q ++ behind ps)

theorem shorten_lastIdle {p : List Char} (hp : isIdle p = true) (u : List Char) :
    ReflTransGen Shortens (u ++ behind [p]) (u ++ ['/']) := by
  have hcases : p = [] ∨ p = ['.'] := by simpa [isIdle] using hp
  rcases hcases with rfl | rfl
  · exact .refl
  · exact .single (.lastHere u)

theorem shorten_behind (hu : u ≠ []) (ps : List (List Char)) :
    ReflTransGen Shortens (u ++ behind ps) (u ++ behind (ps.filter (!isIdle ·))) := by
  induction ps generalizing u with
  | nil => exact .refl
  | cons p ps ih =>
    by_cases hp : isIdle p = true
    · have hfilter : (p :: ps).filter (!isIdle ·) = ps.filter (!isIdle ·) := by simp [hp]
      rw [hfilter]
      cases ps with
      | nil => exact (shorten_lastIdle hp u).tail (by simpa using Shortens.trailing hu)
      | cons q ps => exact .head (shortens_idle hp u ps) (ih hu)
    · have hmore := ih (u := u ++ '/' :: p) (by simp)
      simpa [hp] using hmore

theorem spell_cons {c : Component} {cs : List Component} (h : c ≠ .root ∨ cs ≠ []) :
    spell (c :: cs) = c.text ++ behind (cs.map Component.text) := by
  rw [spell]
  rintro rfl rfl
  simp at h

theorem shorten_root {ps : List (List Char)} (hne : ps ≠ []) :
    ReflTransGen Shortens (behind ps)
      (spell (.root :: (ps.filter (!isIdle ·)).map Component.ofPiece)) := by
  induction ps with
  | nil => exact absurd rfl hne
  | cons p ps ih =>
    by_cases hp : isIdle p = true
    · have hfilter : (p :: ps).filter (!isIdle ·) = ps.filter (!isIdle ·) := by simp [hp]
      rw [hfilter]
      cases ps with
      | nil => exact shorten_lastIdle hp []
      | cons q ps => exact .head (shortens_idle hp [] ps) (ih (List.cons_ne_nil q ps))
    · have hmore := shorten_behind (List.cons_ne_nil '/' p) ps
      simpa [hp, spell_cons, Function.comp_def] using hmore

theorem shorten_spell (p : Path) :
    ReflTransGen Shortens p.text.toList (spell p.components) := by
  obtain ⟨first, rest, hp⟩ := exists_pieces p.text.toList
  have htext : p.text.toList = first ++ behind rest := eq_append_flatMap_of_pieces hp
  rw [components_of_pieces hp, htext]
  have hbehind {c : Component} (hc : c ≠ .root) :
      spell ([c] ++ (rest.filter (!isIdle ·)).map Component.ofPiece) =
        c.text ++ behind (rest.filter (!isIdle ·)) := by
    simp [spell_cons (.inl hc), Function.comp_def]
  unfold Component.ofFirst
  split_ifs with hempty honly hdot
  · subst hempty
    rw [List.isEmpty_iff.1 honly]
    exact .refl
  · subst hempty
    exact shorten_root (by simpa using honly)
  · subst hdot
    rw [hbehind (by simp)]
    exact shorten_behind (by simp) rest
  · have hroot : Component.ofPiece first ≠ .root := by
      unfold Component.ofPiece
      split <;> simp
    rw [hbehind hroot, Component.text_ofPiece]
    exact shorten_behind hempty rest

theorem components_eq_iff_respells {p q : Path} : p.components = q.components ↔ p.Respells q := by
  constructor
  · intro h
    exact ⟨_, shorten_spell p, h ▸ shorten_spell q⟩
  · rintro ⟨t, hp, hq⟩
    have hkeeps {u : List Char} (h : ReflTransGen Shortens u t) :
        (⟨String.ofList u⟩ : Path).components = (⟨String.ofList t⟩ : Path).components := by
      induction h using ReflTransGen.head_induction_on with
      | refl => rfl
      | head hstep _ ih => exact hstep.components_eq.trans ih
    simpa using (hkeeps hp).trans (hkeeps hq).symm

end

end DesignDeps.Path
