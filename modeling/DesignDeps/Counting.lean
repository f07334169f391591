/-!
# Counts that go down

Searches end because fewer and fewer things are left: a count falls as soon as one more member of a
list is ruled out.
-/

namespace DesignDeps

theorem countP_lt {α : Type} {p q : α → Bool} {l : List α} {x : α} (hx : x ∈ l)
    (hle : ∀ y, p y = true → q y = true) (hq : q x = true) (hp : p x = false) :
    l.countP p < l.countP q := by
  induction l with
  | nil => simp at hx
  | cons y ys ih =>
    have hmono : ys.countP p ≤ ys.countP q := List.countP_mono_left fun z _ => hle z
    rcases List.mem_cons.1 hx with rfl | hx
    · rw [List.countP_cons_of_pos hq, List.countP_cons_of_neg (by simp [hp])]
      omega
    · have := ih hx
      by_cases hy : p y = true
      · rw [List.countP_cons_of_pos hy, List.countP_cons_of_pos (hle y hy)]
        omega
      · rw [List.countP_cons_of_neg hy]
        have hq' : ys.countP q ≤ (y :: ys).countP q :=
          (List.sublist_cons_self y ys).countP_le
        omega

end DesignDeps
