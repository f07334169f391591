import DesignDeps.Path
import DesignDeps.Text.Order

/-!
# Overrides

An override takes a module name out of the naming convention: it pins the name to a file, or it
excludes the module. A table holds at most one override for a name, in ascending order of the names;
what is entered later replaces what was there.
-/

namespace DesignDeps.Override

open Text

inductive Target
  | file (path : Path)
  | excluded
  deriving DecidableEq, Inhabited

structure Table where
  entries : List (String × Target)
  ascending : (entries.map Prod.fst).Pairwise (· < ·)

namespace Table

@[ext] theorem ext_entries {a b : Table} (h : a.entries = b.entries) : a = b := by
  cases a
  cases b
  simp_all

instance : DecidableEq Table := fun a b =>
  if h : a.entries = b.entries then isTrue (ext_entries h) else isFalse fun e => h (e ▸ rfl)

def empty : Table := ⟨[], by simp⟩

instance : EmptyCollection Table := ⟨empty⟩

instance : Inhabited Table := ⟨empty⟩

def isEmpty (t : Table) : Bool := t.entries.isEmpty

def size (t : Table) : Nat := t.entries.length

def get? (t : Table) (name : String) : Option Target :=
  t.entries.lookup name

def contains (t : Table) (name : String) : Bool :=
  (t.get? name).isSome

def insertInto (name : String) (target : Target) : List (String × Target) → List (String × Target)
  | [] => [(name, target)]
  | e :: es =>
    if name < e.1 then (name, target) :: e :: es
    else if name = e.1 then (name, target) :: es
    else e :: insertInto name target es

theorem mem_keys_insertInto {name k : String} {target : Target} {es : List (String × Target)} :
    k ∈ (insertInto name target es).map Prod.fst ↔ k = name ∨ k ∈ es.map Prod.fst := by
  induction es with
  | nil => simp [insertInto]
  | cons e es ih =>
    unfold insertInto
    split
    · simp
    · split
      · next h => simp [h]
      · simp only [List.map_cons, List.mem_cons, ih, or_left_comm]

theorem pairwise_insertInto {name : String} {target : Target} {es : List (String × Target)}
    (h : (es.map Prod.fst).Pairwise (· < ·)) :
    ((insertInto name target es).map Prod.fst).Pairwise (· < ·) := by
  induction es with
  | nil => simp [insertInto]
  | cons e es ih =>
    obtain ⟨hm, hs⟩ := List.pairwise_cons.1 h
    unfold insertInto
    split
    · next hlt =>
      refine List.pairwise_cons.2 ⟨fun k hk => ?_, h⟩
      rcases List.mem_cons.1 hk with rfl | hk
      · exact hlt
      · exact String.lt_trans hlt (hm k hk)
    · split
      · next heq => exact List.pairwise_cons.2 ⟨fun k hk => heq ▸ hm k hk, hs⟩
      · next hlt hne =>
        refine List.pairwise_cons.2 ⟨fun k hk => ?_, ih hs⟩
        rcases mem_keys_insertInto.1 hk with rfl | hk
        · exact lt_of_not_lt_of_ne hlt hne
        · exact hm k hk

theorem lookup_cons {k : String} {e : String × Target} {es : List (String × Target)} :
    (e :: es).lookup k = if k = e.1 then some e.2 else es.lookup k := by
  obtain ⟨name, target⟩ := e
  by_cases h : k = name
  · simp [h]
  · have hb : (k == name) = false := by simpa using h
    simp [List.lookup_cons, h, hb]

theorem lookup_insertInto {name k : String} {target : Target} {es : List (String × Target)} :
    (insertInto name target es).lookup k = if k = name then some target else es.lookup k := by
  induction es with
  | nil => rw [insertInto, lookup_cons]
  | cons e es ih =>
    unfold insertInto
    split
    · rw [lookup_cons]
    · split
      · next heq =>
        rw [lookup_cons, lookup_cons, ← heq]
        by_cases h : k = name <;> simp [h]
      · next hne =>
        rw [lookup_cons, lookup_cons, ih]
        by_cases h : k = e.1
        · have hk : e.1 ≠ name := fun hk => hne hk.symm
          simp [h, hk]
        · simp [h]

def insert (t : Table) (name : String) (target : Target) : Table :=
  ⟨insertInto name target t.entries, pairwise_insertInto t.ascending⟩

@[simp] theorem get?_empty {k : String} : (∅ : Table).get? k = none := rfl

theorem get?_insert {t : Table} {name k : String} {target : Target} :
    (t.insert name target).get? k = if k = name then some target else t.get? k :=
  lookup_insertInto

def extend (t u : Table) : Table :=
  u.entries.foldl (fun t e => t.insert e.1 e.2) t

end Table

end DesignDeps.Override
