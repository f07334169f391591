import DesignDeps.Text.Order

/-!
# Sets of names

A set is the list of its members in ascending order of their characters, without repetition. Two
sets with the same members are therefore equal, and a walk over a set has one possible order.
-/

namespace DesignDeps

open Text

structure NameSet where
  toList : List String
  ascending : toList.Pairwise (· < ·)

namespace NameSet

@[ext] theorem ext_toList {a b : NameSet} (h : a.toList = b.toList) : a = b := by
  cases a
  cases b
  simp_all

instance : DecidableEq NameSet := fun a b =>
  if h : a.toList = b.toList then isTrue (ext_toList h) else isFalse fun e => h (e ▸ rfl)

instance : Membership String NameSet := ⟨fun s n => n ∈ s.toList⟩

instance (n : String) (s : NameSet) : Decidable (n ∈ s) :=
  inferInstanceAs (Decidable (n ∈ s.toList))

theorem mem_iff {n : String} {s : NameSet} : n ∈ s ↔ n ∈ s.toList := Iff.rfl

def empty : NameSet := ⟨[], .nil⟩

instance : EmptyCollection NameSet := ⟨empty⟩

instance : Inhabited NameSet := ⟨empty⟩

def isEmpty (s : NameSet) : Bool := s.toList.isEmpty

def size (s : NameSet) : Nat := s.toList.length

def insertInto (n : String) : List String → List String
  | [] => [n]
  | m :: ms => if n < m then n :: m :: ms else if n = m then m :: ms else m :: insertInto n ms

theorem mem_insertInto {n k : String} {ms : List String} :
    k ∈ insertInto n ms ↔ k = n ∨ k ∈ ms := by
  induction ms with
  | nil => simp [insertInto]
  | cons m ms ih =>
    unfold insertInto
    split
    · simp
    · split
      · next h => subst h; simp
      · simp [ih, or_left_comm]

theorem pairwise_insertInto {n : String} {ms : List String} (h : ms.Pairwise (· < ·)) :
    (insertInto n ms).Pairwise (· < ·) := by
  induction ms with
  | nil => simp [insertInto]
  | cons m ms ih =>
    obtain ⟨hm, hs⟩ := List.pairwise_cons.1 h
    unfold insertInto
    split
    · next hlt =>
      refine List.pairwise_cons.2 ⟨fun k hk => ?_, h⟩
      rcases List.mem_cons.1 hk with rfl | hk
      · exact hlt
      · exact String.lt_trans hlt (hm k hk)
    · split
      · exact h
      · next hlt hne =>
        refine List.pairwise_cons.2 ⟨fun k hk => ?_, ih hs⟩
        rcases mem_insertInto.1 hk with rfl | hk
        · exact lt_of_not_lt_of_ne hlt hne
        · exact hm k hk

def insert (n : String) (s : NameSet) : NameSet :=
  ⟨insertInto n s.toList, pairwise_insertInto s.ascending⟩

@[simp] theorem mem_insert {n k : String} {s : NameSet} : k ∈ s.insert n ↔ k = n ∨ k ∈ s :=
  mem_insertInto

def ofList (names : List String) : NameSet :=
  names.foldl (fun s n => s.insert n) ∅

theorem mem_foldl_insert {k : String} {names : List String} {s : NameSet} :
    k ∈ names.foldl (fun s n => s.insert n) s ↔ k ∈ names ∨ k ∈ s := by
  induction names generalizing s with
  | nil => simp
  | cons n ns ih => simp [ih, or_assoc, or_left_comm]

@[simp] theorem not_mem_empty {k : String} : ¬k ∈ (∅ : NameSet) := by
  simp [mem_iff, EmptyCollection.emptyCollection, empty]

@[simp] theorem mem_ofList {k : String} {names : List String} : k ∈ ofList names ↔ k ∈ names := by
  simp [ofList, mem_foldl_insert]

def union (a b : NameSet) : NameSet :=
  b.toList.foldl (fun s n => s.insert n) a

instance : Union NameSet := ⟨union⟩

@[simp] theorem mem_union {k : String} {a b : NameSet} : k ∈ a ∪ b ↔ k ∈ a ∨ k ∈ b :=
  mem_foldl_insert.trans Or.comm

end NameSet

end DesignDeps
