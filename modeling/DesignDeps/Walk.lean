import DesignDeps.Dependencies
import DesignDeps.Error
import DesignDeps.Fragment.Record
import DesignDeps.Freshness
import DesignDeps.Resolver.Resolvable
import DesignDeps.Walk.Context

/-!
# Writing fragments

A writer starts at one module and goes through its dependencies, depth first. A module's fragments
are written after those of everything below it, one for each variant. Three things end the descent
at a dependency: its edge would close a cycle, and is left out; it is claimed already; or its
fragment is fresh.

The walk ends because it only descends to names that lead to a file and are not claimed, and claims
them first: `Resolver.unclaimed` goes down. That no claim is taken back is part of what `visitCore`
and `visitAllCore` return; everybody else uses `visit` and `visitAll` and the equations below them.
-/

namespace DesignDeps

open Text

structure Writer where
  resolver : Resolver
  extractor : Extractor
  freshness : Freshness
  variants : List String
  outDir : Path
  faults : Faults := {}

namespace Walk

/-- Where a walk stands: the disk, what it remembers, and its events, the latest first. -/
structure State where
  disk : Disk
  context : Context
  log : List Log.Event

namespace State

def note (st : State) (events : List Log.Event) : State :=
  { st with log := events.reverse ++ st.log }

def inContext (st : State) (f : Context → Context) : State :=
  { st with context := f st.context }

def inReport (st : State) (f : Report → Report) : State :=
  st.inContext fun c => { c with report := f c.report }

def events (st : State) : List Log.Event :=
  st.log.reverse

end State

/-- What becomes of an edge to a dependency. -/
inductive Edge
  /-- It would close this cycle. -/
  | cut (cycle : List String)
  | excluded
  | unresolved
  | seen
  | reused
  /-- The dependency is still to be written, from this file. -/
  | descend (path : Path)
  deriving DecidableEq

def Edge.isKept : Edge → Bool
  | .cut _ | .excluded | .unresolved => false
  | .seen | .reused | .descend _ => true

end Walk

namespace Writer

open Walk

def fragmentPath (w : Writer) (module variant : String) : Path :=
  w.outDir.join ⟨module ++ "." ++ variant ++ ".d"⟩

def isFresh (w : Writer) (d : Disk) (module : String) (source : Path) : Bool :=
  match w.variants with
  | [] => false
  | variant :: _ => w.freshness d (w.fragmentPath module variant) source

/-- The edge to `dependency` as things stand. That it closes a cycle is found out first. -/
def edge (w : Writer) (st : State) (dependency : String) : Edge :=
  match st.context.cycle? dependency with
  | some cycle => .cut cycle
  | none =>
    match w.resolver.resolve dependency with
    | .excluded => .excluded
    | .unresolved => .unresolved
    | .found path =>
      if st.context.isVisited dependency then .seen
      else if w.isFresh st.disk dependency path then .reused
      else .descend path

/-- Takes note of an edge before it is followed, or instead. -/
def settle (w : Writer) (module dependency : String) (edge : Edge) (st : State) : State :=
  match edge with
  | .cut cycle =>
    (st.note [.cycleCut cycle module dependency]).inReport fun r =>
      { r with cycles := r.cycles ++ [cycle] }
  | .excluded =>
    (st.note (w.resolver.events dependency ++ [.excludedDropped module dependency])).inReport fun r =>
      { r with excluded := r.excluded.insert dependency }
  | .unresolved =>
    (st.note (w.resolver.events dependency ++ [.unresolvedDropped module dependency])).inReport
      fun r => { r with unresolved := r.unresolved.insert dependency }
  | .seen => st.note (w.resolver.events dependency ++ [.alreadySeen dependency])
  | .reused =>
    (st.note (w.resolver.events dependency ++ [.alreadyExists dependency])).inReport fun r =>
      { r with reused := r.reused.insert dependency }
  | .descend _ => (st.note (w.resolver.events dependency)).inContext (·.mark dependency)

/-- The names found in a source. Files that are not in the hardware language have none. -/
def namesIn (w : Writer) (path : Path) (module text : String) : NameSet :=
  if (SourceKind.ofPath path).isHdl then w.extractor.names path module text else ∅

def extractionEvents (w : Writer) (path : Path) (module text : String) : List Log.Event :=
  if (SourceKind.ofPath path).isHdl then w.extractor.events path module text else []

def enter (w : Writer) (module : String) (path : Path) (st : State) :
    Except Error (List String) × State :=
  if w.variants = [] then (.error (.invalidConfig .writerWithoutVariants), st)
  else
    let st := st.note [.entered module]
    match st.disk.read path with
    | .error e => (.error (.io path e), st)
    | .ok bytes =>
      let text := Utf8.lossy bytes
      let names := (w.namesIn path module text).toList
      let st := st.note (w.extractionEvents path module text ++ [.dependencies module names])
      (.ok names, st.inContext (·.push module))

def record (module : String) (path : Path) (kept : List String) (variant : String) :
    Fragment.Record :=
  ⟨module, path, variant, kept⟩

/-- Writes the fragments of a module for the given variants, in order, up to the first failure. -/
def writeFragments (w : Writer) (module : String) (path : Path) (kept : List String) :
    List String → State → Except Error Unit × State
  | [], st => (.ok (), st)
  | variant :: variants, st =>
    let fragment := w.fragmentPath module variant
    match st.disk.write fragment (record module path kept variant).render.toUTF8
      (w.faults.writing st.disk fragment) with
    | .error (e, disk) => (.error (.io fragment e), { st with disk })
    | .ok disk =>
      w.writeFragments module path kept variants <|
        ({ st with disk }.note [.wrote fragment]).inReport fun r =>
          { r with fragments := r.fragments ++ [fragment] }

def leave (w : Writer) (module : String) (path : Path) (kept : List String) (st : State) :
    Except Error Unit × State :=
  match w.writeFragments module path kept w.variants st with
  | (.error e, st) => (.error e, st)
  | (.ok (), st) => (.ok (), st.inReport fun r => { r with modules := r.modules ++ [module] })

-- ---------------------------------------------------------------------------
-- Claims
-- ---------------------------------------------------------------------------

@[simp] theorem visited_note (st : State) (events : List Log.Event) :
    (st.note events).context = st.context := rfl

@[simp] theorem visited_inReport (st : State) (f : Report → Report) :
    (st.inReport f).context.visited = st.context.visited := rfl

theorem mem_visited_settle {w : Writer} {module dependency : String} {edge : Edge} {st : State}
    {n : String} (h : n ∈ st.context.visited) :
    n ∈ (w.settle module dependency edge st).context.visited := by
  cases edge <;> simp only [settle, visited_inReport, visited_note, h]
  exact Context.mem_visited_mark.2 (.inr h)

theorem mem_visited_settle_descend {w : Writer} {module dependency : String} {path : Path}
    {st : State} : dependency ∈ (w.settle module dependency (.descend path) st).context.visited :=
  Context.mem_visited_mark.2 (.inl rfl)

theorem visited_enter (w : Writer) (module : String) (path : Path) (st : State) :
    (w.enter module path st).2.context.visited = st.context.visited := by
  unfold enter
  split
  · rfl
  · dsimp only
    split <;> rfl

theorem visited_writeFragments (w : Writer) (module : String) (path : Path)
    (kept variants : List String) (st : State) :
    (w.writeFragments module path kept variants st).2.context.visited = st.context.visited := by
  induction variants generalizing st with
  | nil => rfl
  | cons variant variants ih =>
    simp only [writeFragments]
    split
    · rfl
    · rw [ih]
      rfl

theorem visited_leave {w : Writer} {module : String} {path : Path} {kept : List String}
    {st : State} : (w.leave module path kept st).2.context.visited = st.context.visited := by
  have h := visited_writeFragments w module path kept w.variants st
  unfold leave
  split
  · next heq => rw [heq] at h; exact h
  · next heq => rw [heq] at h; exact h

theorem edge_eq_descend {w : Writer} {st : State} {dependency : String} {path : Path}
    (h : w.edge st dependency = .descend path) :
    w.resolver.resolve dependency = .found path ∧ dependency ∉ st.context.visited := by
  unfold edge at h
  split at h
  · simp at h
  · split at h
    · simp at h
    · simp at h
    · next p hp =>
      split at h
      · simp at h
      · next hv =>
        split at h
        · simp at h
        · simp only [Edge.descend.injEq] at h
          exact ⟨h ▸ hp, fun hm => hv (Context.isVisited_iff.2 hm)⟩

theorem unclaimed_settle_lt {w : Writer} {module dependency : String} {path : Path} {st : State}
    (h : w.edge st dependency = .descend path) :
    w.resolver.unclaimed (w.settle module dependency (.descend path) st).context.visited <
      w.resolver.unclaimed st.context.visited :=
  Resolver.unclaimed_lt (Resolver.mem_resolvable_of_found (edge_eq_descend h).1)
    (edge_eq_descend h).2 mem_visited_settle_descend fun _ hn => mem_visited_settle hn

-- ---------------------------------------------------------------------------
-- The walk
-- ---------------------------------------------------------------------------

abbrev Keeping (before : State) (α : Type) : Type :=
  { r : Except Error α × State // ∀ n ∈ before.context.visited, n ∈ r.2.context.visited }

mutual
def visitCore (w : Writer) (module : String) (path : Path) (st : State) : Keeping st Unit :=
  match he : w.enter module path st with
  | (.error e, st₁) => ⟨(.error e, st₁), by
      intro n hn
      have := visited_enter w module path st
      rw [he] at this
      exact this ▸ hn⟩
  | (.ok names, st₁) =>
    have hv : st₁.context.visited = st.context.visited := by
      have := visited_enter w module path st
      rwa [he] at this
    match visitAllCore w module names [] st₁ with
    | ⟨(.error e, st₂), h₂⟩ => ⟨(.error e, st₂.inContext (·.pop)), fun n hn => h₂ n (hv ▸ hn)⟩
    | ⟨(.ok kept, st₂), h₂⟩ =>
      ⟨w.leave module path kept (st₂.inContext (·.pop)), fun n hn => by
        rw [visited_leave]
        exact h₂ n (hv ▸ hn)⟩
termination_by (w.resolver.unclaimed st.context.visited, 1, 0)
decreasing_by
  rw [hv]
  exact .right _ (.left _ _ (by omega))

def visitAllCore (w : Writer) (module : String) (names kept : List String) (st : State) :
    Keeping st (List String) :=
  match names with
  | [] => ⟨(.ok kept, st), fun _ hn => hn⟩
  | name :: names =>
    match _he : w.edge st name with
    | .descend source =>
      match visitCore w name source (w.settle module name (.descend source) st) with
      | ⟨(.error e, st₁), h₁⟩ => ⟨(.error e, st₁), fun n hn => h₁ n (mem_visited_settle hn)⟩
      | ⟨(.ok (), st₁), h₁⟩ =>
        match visitAllCore w module names (kept ++ [name]) st₁ with
        | ⟨r, h₂⟩ => ⟨r, fun n hn => h₂ n (h₁ n (mem_visited_settle hn))⟩
    | edge =>
      match visitAllCore w module names (if edge.isKept then kept ++ [name] else kept)
          (w.settle module name edge st) with
      | ⟨r, h₂⟩ => ⟨r, fun n hn => h₂ n (mem_visited_settle hn)⟩
termination_by (w.resolver.unclaimed st.context.visited, 0, names.length)
decreasing_by
  · exact .left _ _ (unclaimed_settle_lt _he)
  · refine Prod.Lex.right' _ ?_ (.right _ (by simp))
    exact Nat.le_trans (Resolver.unclaimed_le h₁) (Nat.le_of_lt (unclaimed_settle_lt _he))
  · refine Prod.Lex.right' _ ?_ (.right _ (by simp))
    exact Resolver.unclaimed_le fun _ hn => mem_visited_settle hn
end

def visit (w : Writer) (module : String) (path : Path) (st : State) : Except Error Unit × State :=
  (w.visitCore module path st).val

def visitAll (w : Writer) (module : String) (names kept : List String) (st : State) :
    Except Error (List String) × State :=
  (w.visitAllCore module names kept st).val

theorem visit_eq (w : Writer) (module : String) (path : Path) (st : State) :
    w.visit module path st =
      match w.enter module path st with
      | (.error e, st) => (.error e, st)
      | (.ok names, st) =>
        match w.visitAll module names [] st with
        | (.error e, st) => (.error e, st.inContext (·.pop))
        | (.ok kept, st) => w.leave module path kept (st.inContext (·.pop)) := by
  unfold visit visitAll
  rw [visitCore]
  split
  · next h => simp [h]
  · next h =>
    simp only [h]
    split
    · next h' => simp [h']
    · next h' => simp [h']

theorem visitAll_nil (w : Writer) (module : String) (kept : List String) (st : State) :
    w.visitAll module [] kept st = (.ok kept, st) := by
  unfold visitAll
  rw [visitAllCore]

theorem visitAll_cons (w : Writer) (module name : String) (names kept : List String) (st : State) :
    w.visitAll module (name :: names) kept st =
      match w.edge st name with
      | .descend source =>
        match w.visit name source (w.settle module name (.descend source) st) with
        | (.error e, st) => (.error e, st)
        | (.ok (), st) => w.visitAll module names (kept ++ [name]) st
      | edge =>
        w.visitAll module names (if edge.isKept then kept ++ [name] else kept)
          (w.settle module name edge st) := by
  unfold visit visitAll
  rw [visitAllCore]
  split
  · next source h =>
    simp only [h]
    split
    · next h' => simp [h']
    · next h' => simp [h']
  · next h =>
    cases hedge : w.edge st name with
    | descend source => exact absurd hedge (h source)
    | _ => rfl

theorem mem_visited_visit {w : Writer} {module : String} {path : Path} {st : State} {n : String}
    (h : n ∈ st.context.visited) : n ∈ (w.visit module path st).2.context.visited :=
  (w.visitCore module path st).property n h

/-- Writes fragments for `root` and everything below it. The directory for them is made once the
root is known to lead to a file. -/
def write (w : Writer) (d : Disk) (root : String) : Except Error Report × State :=
  let st : State := ⟨d, .new root, []⟩
  if w.variants = [] then (.error (.invalidConfig .writerWithoutVariants), st)
  else
    let st := st.note (w.resolver.events root)
    match w.resolver.resolve root with
    | .excluded | .unresolved => (.error (.missingRoot root), st)
    | .found path =>
      match d.makeDirs w.outDir with
      | (.error e, disk) => (.error (.io w.outDir e), { st with disk })
      | (.ok (), disk) =>
        match w.visit root path { st with disk } with
        | (.error e, st) => (.error e, st)
        | (.ok (), st) =>
          let report := st.context.report
          (.ok report, st.note [.finished root report.fragments.length w.outDir])

end Writer

end DesignDeps
