import DesignDeps.Generation
import DesignDeps.Proofs.Listing
import DesignDeps.Proofs.Override.Loading
import DesignDeps.Proofs.Walk.Failures

/-!
# The stages of a run

A run goes through four stages: the configuration is checked, the candidates are listed, the
overrides are loaded, and the fragments are written. `Generates` lists where it can end.

`generate_intact`: only a failure of the file system can come after anything has been written, and a
configuration is found invalid in the first stage or not at all.
-/

namespace DesignDeps.Config

-- ---------------------------------------------------------------------------
-- Stages
-- ---------------------------------------------------------------------------

/-- The ways in which a run can go, by the stage that it ends in. -/
inductive Generates (c : Config) (d : Disk) (faults : Faults) : Generation → Prop
  | rejected {fault} : c.validate = .error fault →
      Generates c d faults ⟨.error (.invalidConfig fault), d, []⟩
  | unlisted {e listing} : c.validate = .ok () →
      c.lister.list d faults.unlisted = (.error e, listing) →
      Generates c d faults ⟨.error e, d, listing⟩
  | unloaded {index listing e loading} : c.validate = .ok () →
      c.lister.list d faults.unlisted = (.ok index, listing) →
      c.loadOverrides d = (.error e, loading) →
      Generates c d faults ⟨.error e, d, listing ++ loading⟩
  | written {index listing overrides loading r st} : c.validate = .ok () →
      c.lister.list d faults.unlisted = (.ok index, listing) →
      c.loadOverrides d = (.ok overrides, loading) →
      (c.writer index overrides faults).write d c.rootModule = (r, st) →
      Generates c d faults ⟨r, st.disk, listing ++ loading ++ st.events⟩

section
variable {c : Config} {d : Disk} {faults : Faults} {e : Error}

theorem generates_generate (c : Config) (d : Disk) (faults : Faults) :
    c.Generates d faults (c.generate d faults) := by
  unfold generate
  split
  · next hvalid => exact .rejected hvalid
  · next hvalid =>
    split
    · next hlist => exact .unlisted hvalid hlist
    · next hlist =>
      split
      · next hload => exact .unloaded hvalid hlist hload
      · next hload => exact .written hvalid hlist hload rfl

theorem generate_of_ok (faults : Faults) {index : FileIndex} {overrides : Override.Table}
    (hvalid : c.validate = .ok ()) (hlist : (c.lister.list d faults.unlisted).1 = .ok index)
    (hload : (c.loadOverrides d).1 = .ok overrides) :
    (c.generate d faults).result =
        ((c.writer index overrides faults).write d c.rootModule).1 ∧
      (c.generate d faults).disk =
        ((c.writer index overrides faults).write d c.rootModule).2.disk := by
  have hgenerates := c.generates_generate d faults
  generalize c.generate d faults = g at hgenerates
  cases hgenerates with
  | rejected hfault => cases hvalid.symm.trans hfault
  | unlisted _ hlist' => simp [hlist'] at hlist
  | unloaded _ _ hload' => simp [hload'] at hload
  | written _ hlist' hload' hwrite =>
    rw [hlist'] at hlist
    rw [hload'] at hload
    cases hlist
    cases hload
    simp [hwrite]

theorem failure_of_loadOverrides (h : (c.loadOverrides d).1 = .error e) :
    Override.Loader.Failure d e := by
  unfold loadOverrides at h
  split at h
  · next hload =>
    cases h
    exact Override.Loader.failure_of_load (by rw [hload])
  · cases h

theorem variants_ne_nil (h : c.validate = .ok ()) : c.variants ≠ [] := by
  intro hnone
  simp [validate, hnone] at h

-- ---------------------------------------------------------------------------
-- The theorem
-- ---------------------------------------------------------------------------

/-- A run that fails in another way than on the file system has left the disk as it was, without so
much as the directory for the fragments. It finds a configuration invalid exactly where `validate`
does, whatever is on the disk. -/
theorem generate_intact (c : Config) (d : Disk) (faults : Faults) :
    (∀ e, (c.generate d faults).result = .error e → ¬e.IsIo → (c.generate d faults).disk = d) ∧
    ∀ fault, (c.generate d faults).result = .error (.invalidConfig fault) ↔
      c.validate = .error fault := by
  have hgenerates := c.generates_generate d faults
  generalize c.generate d faults = g at hgenerates
  constructor
  · intro e he hio
    cases hgenerates with
    | rejected | unlisted | unloaded => rfl
    | written _ _ _ hwrite =>
      cases he
      exact ((Writer.write_error hwrite).resolve_left hio).1
  · intro fault
    cases hgenerates with
    | rejected hvalid => simp [hvalid]
    | unlisted hvalid hlist =>
      obtain ⟨path, cause, rfl⟩ := Lister.isIo_of_list (congrArg Prod.fst hlist)
      simp [hvalid]
    | unloaded hvalid _ hload =>
      have hfailure := failure_of_loadOverrides (congrArg Prod.fst hload)
      simp [hvalid, hfailure.ne_invalidConfig]
    | @written _ _ _ _ r st hvalid _ _ hwrite =>
      simp only [hvalid, reduceCtorEq, iff_false]
      rintro rfl
      rcases Writer.write_error hwrite with ⟨_, _, hio⟩ | ⟨-, ⟨hnone, -⟩ | hroot⟩
      · cases hio
      · exact variants_ne_nil hvalid hnone
      · cases hroot

end

def bare : Config :=
  { Config.new ⟨"/s"⟩ ⟨"/o"⟩ "a" with variants := ["sim"], ignoreFile := "x" }

def bareTree : Disk :=
  ⟨[(["s"], .dir)], [], 0⟩

/-- The root module is missed in the last stage, and `/o` is not made for it. -/
theorem generate_intact_bare : bare.validate = .ok () ∧
    (bare.generate bareTree).result = .error (.missingRoot "a") ∧
    (bare.generate bareTree).disk = bareTree := by
  have hvalid : bare.validate = .ok () := by cbv
  have hroot : (bare.generate bareTree).result = .error (.missingRoot "a") := by cbv
  refine ⟨hvalid, hroot, (generate_intact bare bareTree {}).1 _ hroot ?_⟩
  rintro ⟨_, _, hio⟩
  cases hio

end DesignDeps.Config
