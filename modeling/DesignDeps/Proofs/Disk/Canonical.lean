import DesignDeps.Proofs.Disk.Directory

/-!
# One spelling for every place

A walk arrives only at locations whose names can stand between separators (`proper_of_locate`), and
these are told apart by the components of their paths (`same_path_iff`).
-/

namespace DesignDeps

open Text Disk

namespace Location

/-- Every name of the location can stand in a path. -/
def Proper (l : Location) : Prop :=
  ∀ name ∈ l, Segment name

variable {l k : Location}

theorem Proper.dropLast (h : Proper l) : Proper l.dropLast :=
  fun name hname => h name (List.dropLast_subset l hname)

theorem Proper.child {name : String} (h : Proper l) (hname : Segment name) :
    Proper (l ++ [name]) := by
  intro n hn
  rcases List.mem_append.1 hn with hn | hn
  · exact h n hn
  · exact List.mem_singleton.1 hn ▸ hname

theorem Proper.jump (h : Proper l) (b : Bool) : Proper (if b then [] else l) := by
  cases b with
  | true => exact fun name hname => absurd hname List.not_mem_nil
  | false => exact h

theorem component_of_segment {name : String} (h : Segment name) :
    Path.isIdle name.toList = false ∧ Path.Component.ofPiece name.toList = .name name := by
  have hhere : name.toList ≠ ['.'] := fun heq => h.notHere (String.toList_inj.1 heq)
  have hup : name.toList ≠ ['.', '.'] := fun heq => h.notUp (String.toList_inj.1 heq)
  constructor
  · simpa [Path.isIdle, h.nonempty] using hhere
  · simp [Path.Component.ofPiece, hup]

theorem toList_path (l : Location) :
    l.path.text.toList = '/' :: ['/'].intercalate (l.map String.toList) := by
  simp [path, String.toList_intercalate]

theorem components_path (h : Proper l) : l.path.components = .root :: l.map .name := by
  have hnames : ((pieces '/' (['/'].intercalate (l.map String.toList))).filter
      (!Path.isIdle ·)).map Path.Component.ofPiece = l.map .name := by
    cases l with
    | nil => decide
    | cons name names =>
      rw [pieces_intercalate (by simp) (List.forall_mem_map.2 fun n hn => (h n hn).slashFree),
        List.filter_eq_self.2, List.map_map]
      · exact List.map_congr_left fun n hn => (component_of_segment (h n hn)).2
      · exact List.forall_mem_map.2 fun n hn => by simp [(component_of_segment (h n hn)).1]
  unfold Path.components
  rw [toList_path]
  simp only [Path.anchored, hnames]
  rfl

theorem same_path_iff (hl : Proper l) (hk : Proper k) : l.path.same k.path = true ↔ l = k := by
  rw [Path.same, components_path hl, components_path hk, beq_iff_eq]
  constructor
  · intro h
    exact List.map_injective_iff.2 (fun _ _ => Path.Component.name.inj) (List.cons.inj h).2
  · rintro rfl
    rfl

end Location

namespace Disk

open Location

variable {d : Disk}

theorem slash_not_mem_of_mem_steps {p : Path} {name : String} (h : name ∈ steps p) :
    '/' ∉ name.toList := by
  obtain ⟨piece, hpiece, rfl⟩ := List.mem_map.1 h
  have hmem : piece ∈ pieces '/' p.text.toList := by
    rcases List.mem_append.1 hpiece with hpiece | hpiece
    · exact List.dropLast_subset _ (List.mem_filter.1 hpiece).1
    · obtain rfl := List.mem_singleton.1 hpiece
      rw [List.getLastD_eq_getLast?, List.getLast?_eq_some_getLast (pieces_ne_nil _ _)]
      exact List.getLast_mem _
  rw [String.toList_ofList]
  exact fun hslash => (mem_of_mem_pieces hmem _ hslash).2 rfl

theorem Leads.proper {final : Final} {links links' : Nat} {here l : Location} {names : List String}
    (h : d.Leads final links here names links' l) (hhere : Proper here)
    (hnames : ∀ name ∈ names, '/' ∉ name.toList) : Proper l := by
  have hsegment : ∀ {name : String}, IsName name → '/' ∉ name.toList → Segment name :=
    fun hn hslash => ⟨hn.nonempty, hn.notHere, hn.notUp, hslash⟩
  induction h with
  | done => exact hhere
  | idle _ _ ih => exact ih hhere (List.forall_mem_cons.1 hnames).2
  | up _ ih => exact ih hhere.dropLast (List.forall_mem_cons.1 hnames).2
  | vacant hn | file hn | keptLink hn =>
    exact hhere.child (hsegment hn (List.forall_mem_cons.1 hnames).1)
  | dir hn _ _ _ ih =>
    obtain ⟨hname, hrest⟩ := List.forall_mem_cons.1 hnames
    exact ih (hhere.child (hsegment hn hname)) hrest
  | link _ _ _ _ _ ih =>
    refine ih (hhere.jump _) fun name hname => ?_
    rcases List.mem_append.1 hname with hname | hname
    · exact slash_not_mem_of_mem_steps hname
    · exact (List.forall_mem_cons.1 hnames).2 name hname

theorem proper_of_locate {final : Final} {p : Path} {l : Location} (hcwd : Proper d.cwd)
    (h : d.locate final p = .ok l) : Proper l := by
  unfold locate at h
  split at h
  · cases h
  · obtain ⟨links, hleads⟩ := leads_of_walk h
    exact hleads.proper (hcwd.jump _) fun name hname => slash_not_mem_of_mem_steps hname

end Disk

end DesignDeps
