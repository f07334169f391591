import DesignDeps.Proofs.Walk.Steps
import Mathlib.Data.List.Perm.Subperm

/-!
# Walks end

`visitWithin` is the walk with a bound on how deep it may go, which it gives up at, and with a list
of the calls it makes for dependencies. Nothing in it refers to claims or to what can be resolved.
`write_terminates`: a bound above the number of resolvable names is never reached, however the
extractor makes up names and whatever the policy trusts, because every call is for a resolvable name
that was not claimed before.
-/

namespace DesignDeps.Writer

open Text Walk

/-- A call of the walk for a dependency, with the modules that were claimed when it was made. -/
structure Call where
  module : String
  path : Path
  visited : List String
  deriving DecidableEq

def followWith (w : Writer)
    (below : String → Path → State → Option (List Call × Except Error Unit × State))
    (module : String) : List String → List String → State →
      Option (List Call × Except Error (List String) × State)
  | [], kept, st => some ([], .ok kept, st)
  | name :: names, kept, st =>
    match w.edge st name with
    | .descend source =>
      match below name source (w.settle module name (.descend source) st) with
      | none => none
      | some (calls, .error e, st₁) =>
        some (⟨name, source, st.context.visited⟩ :: calls, .error e, st₁)
      | some (calls, .ok (), st₁) =>
        match w.followWith below module names (kept ++ [name]) st₁ with
        | none => none
        | some (more, r) => some (⟨name, source, st.context.visited⟩ :: calls ++ more, r)
    | edge =>
      w.followWith below module names (if edge.isKept then kept ++ [name] else kept)
        (w.settle module name edge st)

def visitWithin (w : Writer) :
    Nat → String → Path → State → Option (List Call × Except Error Unit × State)
  | 0, _, _, _ => none
  | depth + 1, module, path, st =>
    match w.enter module path st with
    | (.error e, st) => some ([], .error e, st)
    | (.ok names, st) =>
      match w.followWith (w.visitWithin depth) module names [] st with
      | none => none
      | some (calls, .error e, st) => some (calls, .error e, st.inContext (·.pop))
      | some (calls, .ok kept, st) =>
        some (calls, w.leave module path kept (st.inContext (·.pop)))

/-- A run whose walk gives up at the given depth. -/
def writeWithin (w : Writer) (depth : Nat) (d : Disk) (root : String) :
    Option (List Call × Except Error Report × State) :=
  let st : State := ⟨d, .new root, []⟩
  if w.variants = [] then some ([], .error (.invalidConfig .writerWithoutVariants), st)
  else
    let st := st.note (w.resolver.events root)
    match w.resolver.resolve root with
    | .excluded | .unresolved => some ([], .error (.missingRoot root), st)
    | .found path =>
      match d.makeDirs w.outDir with
      | (.error e, disk) => some ([], .error (.io w.outDir e), { st with disk })
      | (.ok (), disk) =>
        match w.visitWithin depth root path { st with disk } with
        | none => none
        | some (calls, .error e, st) => some (calls, .error e, st)
        | some (calls, .ok (), st) =>
          let report := st.context.report
          some (calls, .ok report, st.note [.finished root report.fragments.length w.outDir])

-- ---------------------------------------------------------------------------
-- Calls
-- ---------------------------------------------------------------------------

/-- Calls made while the claimed modules grow from `v` to `v'`: each is for a name that leads to the
given file and was not claimed when the call was made, and none is for the same name as another. -/
structure Chained (w : Writer) (v : List String) (calls : List Call) (v' : List String) : Prop where
  kept : ∀ n ∈ v, n ∈ v'
  found : ∀ c ∈ calls, w.resolver.resolve c.module = .found c.path
  unclaimed : ∀ c ∈ calls, c.module ∉ c.visited
  after : ∀ c ∈ calls, ∀ n ∈ v, n ∈ c.visited
  before : ∀ c ∈ calls, c.module ∈ v'
  distinct : (calls.map Call.module).Nodup

theorem Chained.nil {w : Writer} {v v' : List String} (h : ∀ n ∈ v, n ∈ v') :
    w.Chained v [] v' :=
  ⟨h, by simp, by simp, by simp, by simp, by simp⟩

theorem Chained.one {w : Writer} {st : State} {module name : String} {source : Path}
    (h : w.Meets st name (.descend source)) :
    w.Chained st.context.visited [⟨name, source, st.context.visited⟩]
      (w.settle module name (.descend source) st).context.visited := by
  cases h with
  | descend _ hfound hvisited _ =>
    refine ⟨fun n hn => mem_visited_settle hn, ?_, ?_, ?_, ?_, by simp⟩
    · simpa using hfound
    · simpa using hvisited
    · simp
    · simpa using mem_visited_settle_descend

theorem Chained.append {w : Writer} {v₁ v₂ v₃ : List String} {calls more : List Call}
    (h : w.Chained v₁ calls v₂) (h' : w.Chained v₂ more v₃) :
    w.Chained v₁ (calls ++ more) v₃ := by
  refine ⟨fun n hn => h'.kept n (h.kept n hn), ?_, ?_, ?_, ?_, ?_⟩
  · intro c hc
    exact (List.mem_append.1 hc).elim (h.found c) (h'.found c)
  · intro c hc
    exact (List.mem_append.1 hc).elim (h.unclaimed c) (h'.unclaimed c)
  · intro c hc n hn
    exact (List.mem_append.1 hc).elim (fun hc => h.after c hc n hn)
      fun hc => h'.after c hc n (h.kept n hn)
  · intro c hc
    exact (List.mem_append.1 hc).elim (fun hc => h'.kept _ (h.before c hc)) (h'.before c)
  · rw [List.map_append, List.nodup_append]
    refine ⟨h.distinct, h'.distinct, ?_⟩
    intro n hn m hm hnm
    obtain ⟨c, hc, rfl⟩ := List.mem_map.1 hn
    obtain ⟨c', hc', rfl⟩ := List.mem_map.1 hm
    exact h'.unclaimed c' hc' (h'.after c' hc' _ (hnm ▸ h.before c hc))

-- ---------------------------------------------------------------------------
-- The bound is not reached
-- ---------------------------------------------------------------------------

theorem visitWithin_complete (w : Writer) (module : String) (path : Path) (st : State)
    {depth : Nat} (hdepth : w.resolver.unclaimed st.context.visited < depth) :
    ∃ calls, w.visitWithin depth module path st = some (calls, w.visit module path st) ∧
      w.Chained st.context.visited calls (w.visit module path st).2.context.visited := by
  -- The unclaimed names go down with each call, as the bound does.
  refine (w.walk_induct
    (P := fun module path st r => ∀ depth, w.resolver.unclaimed st.context.visited < depth →
      ∃ calls, w.visitWithin depth module path st = some (calls, r) ∧
        w.Chained st.context.visited calls r.2.context.visited)
    (Q := fun module names kept st r => ∀ depth,
      w.resolver.unclaimed st.context.visited ≤ depth →
      ∃ calls, w.followWith (w.visitWithin depth) module names kept st = some (calls, r) ∧
        w.Chained st.context.visited calls r.2.context.visited)
    ?refused ?failed ?left ?done ?passed ?stopped ?descended).1 module path st depth hdepth
  case refused =>
    intro module path st e st₁ h depth hdepth
    obtain ⟨-, hcontext, -⟩ := enter_eq_error h
    cases depth with
    | zero => omega
    | succ depth =>
      refine ⟨[], by simp [visitWithin, h], .nil ?_⟩
      simp [hcontext]
  case failed =>
    intro module path st names st₁ e st₂ h _ ih depth hdepth
    obtain ⟨-, -, hcontext, -⟩ := enter_eq_ok h
    cases depth with
    | zero => omega
    | succ depth =>
      obtain ⟨calls, heq, hcalls⟩ := ih depth (by simpa [hcontext] using Nat.le_of_lt_succ hdepth)
      refine ⟨calls, by simp [visitWithin, h, heq], ?_⟩
      simpa [hcontext] using hcalls
  case left =>
    intro module path st names st₁ kept st₂ h _ ih depth hdepth
    obtain ⟨-, -, hcontext, -⟩ := enter_eq_ok h
    cases depth with
    | zero => omega
    | succ depth =>
      obtain ⟨calls, heq, hcalls⟩ := ih depth (by simpa [hcontext] using Nat.le_of_lt_succ hdepth)
      refine ⟨calls, by simp [visitWithin, h, heq], ?_⟩
      rw [visited_leave]
      simpa [hcontext] using hcalls
  case done =>
    intro module kept st depth hdepth
    exact ⟨[], rfl, .nil fun _ hn => hn⟩
  case passed =>
    intro module name names kept st edge r _ hedge hpass _ ih depth hdepth
    have hkeep : ∀ n ∈ st.context.visited, n ∈ (w.settle module name edge st).context.visited :=
      fun n hn => mem_visited_settle hn
    obtain ⟨calls, heq, hcalls⟩ :=
      ih depth (Nat.le_trans (Resolver.unclaimed_le hkeep) hdepth)
    refine ⟨calls, ?_, by simpa using (Chained.nil hkeep).append hcalls⟩
    cases edge with
    | descend source => exact absurd rfl (hpass source)
    | _ => simpa only [followWith, hedge] using heq
  case stopped =>
    intro module name names kept st source e st₁ hmeets hedge _ ih depth hdepth
    have hlt : w.resolver.unclaimed
        (w.settle module name (.descend source) st).context.visited <
          w.resolver.unclaimed st.context.visited := unclaimed_settle_lt hedge
    obtain ⟨calls, heq, hcalls⟩ := ih depth (Nat.lt_of_lt_of_le hlt hdepth)
    exact ⟨_, by simp [followWith, hedge, heq], (Chained.one hmeets).append hcalls⟩
  case descended =>
    intro module name names kept st source st₁ r hmeets hedge _ ih _ ih' depth hdepth
    have hlt : w.resolver.unclaimed
        (w.settle module name (.descend source) st).context.visited <
          w.resolver.unclaimed st.context.visited := unclaimed_settle_lt hedge
    obtain ⟨calls, heq, hcalls⟩ := ih depth (Nat.lt_of_lt_of_le hlt hdepth)
    have hle : w.resolver.unclaimed st₁.context.visited ≤ w.resolver.unclaimed
        (w.settle module name (.descend source) st).context.visited :=
      Resolver.unclaimed_le hcalls.kept
    obtain ⟨more, heq', hmore⟩ := ih' depth (by omega)
    exact ⟨_, by simp [followWith, hedge, heq, heq'],
      ((Chained.one hmeets).append hcalls).append hmore⟩

theorem writeWithin_complete (w : Writer) (d : Disk) (root : String) {depth : Nat}
    (hdepth : w.resolver.resolvable.length < depth) :
    ∃ calls v, w.writeWithin depth d root = some (calls, w.write d root) ∧
      w.Chained [root] calls v := by
  unfold writeWithin write
  dsimp only
  by_cases hv : w.variants = []
  · exact ⟨[], [root], by simp only [if_pos hv], .nil fun _ hn => hn⟩
  rw [if_neg hv, if_neg hv]
  cases hroot : w.resolver.resolve root with
  | excluded => exact ⟨[], [root], rfl, .nil fun _ hn => hn⟩
  | unresolved => exact ⟨[], [root], rfl, .nil fun _ hn => hn⟩
  | found path =>
    rcases d.makeDirs w.outDir with ⟨made, disk⟩
    cases made with
    | error e => exact ⟨[], [root], rfl, .nil fun _ hn => hn⟩
    | ok =>
      have hlt : w.resolver.unclaimed [root] < depth :=
        Nat.lt_of_le_of_lt List.countP_le_length hdepth
      obtain ⟨calls, heq, hcalls⟩ := w.visitWithin_complete root path
        { State.note ⟨d, .new root, []⟩ (w.resolver.events root) with disk } hlt
      refine ⟨calls, _, ?_, hcalls⟩
      dsimp only
      rw [heq]
      obtain ⟨result, st⟩ := w.visit root path
        { State.note ⟨d, .new root, []⟩ (w.resolver.events root) with disk }
      cases result <;> rfl

-- ---------------------------------------------------------------------------
-- The theorem
-- ---------------------------------------------------------------------------

theorem origin_of_found {r : Resolver} {name : String} {path : Path}
    (h : r.resolve name = .found path) :
    name ∈ r.overrides.entries.map Prod.fst ∨
      ∃ p ∈ r.index.paths, (matchToken name).toList <:+: p.text.toList := by
  unfold Resolver.resolve at h
  split at h
  · next hget => exact .inl (Resolver.mem_keys_of_get? hget)
  · cases h
  · split at h
    · next p hbest => exact .inr ⟨p, FileIndex.mem_matching.1 (mem_of_bestOf hbest)⟩
    · cases h

/-- Every run ends, for every extractor, every policy and every disk: within any bound above the
number of resolvable names it returns what it returns without one. The calls on its way are for
names that lead to a file and were not claimed, one call at most for a name. The names that lead to
a file are among finitely many, which only the index and the overrides decide.

It does not bound what an extractor or a policy does by itself. -/
theorem write_terminates (w : Writer) (d : Disk) (root : String) :
    (∀ depth, w.resolver.resolvable.length < depth →
      ∃ calls, w.writeWithin depth d root = some (calls, w.write d root) ∧
        (∀ c ∈ calls, w.resolver.resolve c.module = .found c.path ∧ c.module ∉ c.visited) ∧
        (calls.map Call.module).Nodup ∧ calls.length ≤ w.resolver.resolvable.length) ∧
    ∀ name path, w.resolver.resolve name = .found path →
      name ∈ w.resolver.resolvable ∧
        (name ∈ w.resolver.overrides.entries.map Prod.fst ∨
          ∃ p ∈ w.resolver.index.paths, (matchToken name).toList <:+: p.text.toList) := by
  refine ⟨fun depth hdepth => ?_,
    fun name path h => ⟨Resolver.mem_resolvable_of_found h, origin_of_found h⟩⟩
  obtain ⟨calls, v, heq, hcalls⟩ := w.writeWithin_complete d root hdepth
  refine ⟨calls, heq, fun c hc => ⟨hcalls.found c hc, hcalls.unclaimed c hc⟩, hcalls.distinct, ?_⟩
  have hsub : calls.map Call.module ⊆ w.resolver.resolvable := by
    intro n hn
    obtain ⟨c, hc, rfl⟩ := List.mem_map.1 hn
    exact Resolver.mem_resolvable_of_found (hcalls.found c hc)
  simpa using (hcalls.distinct.subperm hsub).length_le

def inventive : Writer where
  resolver := ⟨⟨[⟨"/s/a.v"⟩]⟩, ∅⟩
  extractor := { names := fun _ module _ => .ofList [module ++ "0", module ++ "1"] }
  freshness := .sourceTime
  variants := ["sim"]
  outDir := ⟨"/o"⟩

theorem write_terminates_inventive :
    let d : Disk := ⟨[(["s"], .dir), (["s", "a.v"], .file ⟨#[]⟩ 0)], [], 0⟩
    (∃ calls, inventive.writeWithin 40 d "a" = some (calls, inventive.write d "a") ∧
      (calls.map Call.module).Nodup ∧ calls.length ≤ inventive.resolver.resolvable.length) ∧
    inventive.resolver.resolve "a" = .found ⟨"/s/a.v"⟩ ∧ "a" ∈ inventive.resolver.resolvable := by
  intro d
  have hlength : inventive.resolver.resolvable.length < 40 := by decide
  have hfound : inventive.resolver.resolve "a" = .found ⟨"/s/a.v"⟩ := by decide
  obtain ⟨hwithin, hnames⟩ := write_terminates inventive d "a"
  obtain ⟨calls, heq, -, hdistinct, hlength⟩ := hwithin 40 hlength
  exact ⟨⟨calls, heq, hdistinct, hlength⟩, hfound, (hnames "a" _ hfound).1⟩

end DesignDeps.Writer
