import DesignDeps.Counting
import DesignDeps.Resolver
import DesignDeps.Text.Parts

/-!
# Names that can lead to a file

However a source is read, only finitely many of the names found in it lead to a file: those that
have an override, and those that stand somewhere in the text of an indexed path.
-/

namespace DesignDeps

open Text

namespace Resolver

def resolvable (r : Resolver) : List String :=
  r.overrides.entries.map Prod.fst ++
    r.index.paths.flatMap fun p => (parts p.text.toList).map String.ofList

theorem infix_matchToken (name : String) : name.toList <:+: (matchToken name).toList := by
  unfold matchToken
  split
  · exact ⟨['/'], [], by simp⟩
  · exact ⟨['/'], ['.'], by simp⟩

theorem mem_keys_of_get? {t : Override.Table} {name : String} {target : Override.Target}
    (h : t.get? name = some target) : name ∈ t.entries.map Prod.fst := by
  unfold Override.Table.get? at h
  generalize t.entries = es at h ⊢
  induction es with
  | nil => simp at h
  | cons e es ih =>
    rw [Override.Table.lookup_cons] at h
    split at h
    · next hk => simp [hk]
    · exact List.mem_cons_of_mem _ (ih h)

theorem mem_resolvable_of_found {r : Resolver} {name : String} {p : Path}
    (h : r.resolve name = .found p) : name ∈ r.resolvable := by
  unfold resolvable
  rw [List.mem_append]
  unfold resolve at h
  split at h
  · next hget => exact .inl (mem_keys_of_get? hget)
  · simp at h
  · split at h
    · next q hbest =>
      have hq := FileIndex.mem_matching.1 (mem_of_bestOf hbest)
      refine .inr (List.mem_flatMap.2 ⟨q, hq.1, List.mem_map.2 ⟨name.toList, ?_, by simp⟩⟩)
      exact mem_parts.2 ((infix_matchToken name).trans hq.2)
    · simp at h

def unclaimed (r : Resolver) (visited : List String) : Nat :=
  r.resolvable.countP fun n => !visited.contains n

theorem unclaimed_le {r : Resolver} {v v' : List String} (h : ∀ n ∈ v, n ∈ v') :
    r.unclaimed v' ≤ r.unclaimed v := by
  refine List.countP_mono_left fun n _ hn => ?_
  simp only [Bool.not_eq_true', List.contains_eq_mem, decide_eq_false_iff_not] at hn ⊢
  exact fun hv => hn (h n hv)

theorem unclaimed_lt {r : Resolver} {v v' : List String} {name : String}
    (hr : name ∈ r.resolvable) (hn : name ∉ v) (hn' : name ∈ v') (h : ∀ n ∈ v, n ∈ v') :
    r.unclaimed v' < r.unclaimed v := by
  refine countP_lt hr (fun n hn => ?_) (by simpa using hn) (by simpa using hn')
  simp only [Bool.not_eq_true', List.contains_eq_mem, decide_eq_false_iff_not] at hn ⊢
  exact fun hv => hn (h n hv)

end Resolver

end DesignDeps
