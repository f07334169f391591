import DesignDeps.Proofs.Walk.Coverage

/-!
# What a walk does to its memory

`continues_walk`: in whatever way a walk ends, the modules that were active are active, no claim is
taken back, and nothing is lost from the report. `Orderly` is what holds between two steps besides:
the active modules and the written ones are claimed, no module is both, and none is listed twice.
Which fragments are trusted makes no difference to any of this. A memory can thus be used again after
any walks: no module that they left unfinished is taken for an active one (`walks_restore`).
-/

namespace DesignDeps

namespace Walk.Context

/-- The same modules are active in the second context, and nothing of the first one is missing. -/
structure Continues (c c' : Context) : Prop where
  root : c'.report.root = c.report.root
  active : c'.active = c.active
  visited : ∀ n ∈ c.visited, n ∈ c'.visited
  modules : c.report.modules <+: c'.report.modules
  fragments : c.report.fragments <+: c'.report.fragments
  cycles : c.report.cycles <+: c'.report.cycles
  reused : ∀ n ∈ c.report.reused, n ∈ c'.report.reused
  unresolved : ∀ n ∈ c.report.unresolved, n ∈ c'.report.unresolved
  excluded : ∀ n ∈ c.report.excluded, n ∈ c'.report.excluded

theorem Continues.refl (c : Context) : c.Continues c :=
  ⟨rfl, rfl, fun _ => id, List.prefix_refl _, List.prefix_refl _, List.prefix_refl _, fun _ => id,
    fun _ => id, fun _ => id⟩

theorem Continues.trans {a b c : Context} (h : a.Continues b) (h' : b.Continues c) :
    a.Continues c where
  root := h'.root.trans h.root
  active := h'.active.trans h.active
  visited := fun n hn => h'.visited n (h.visited n hn)
  modules := h.modules.trans h'.modules
  fragments := h.fragments.trans h'.fragments
  cycles := h.cycles.trans h'.cycles
  reused := fun n hn => h'.reused n (h.reused n hn)
  unresolved := fun n hn => h'.unresolved n (h.unresolved n hn)
  excluded := fun n hn => h'.excluded n (h.excluded n hn)

theorem Continues.pop {c c' : Context} {module : String} (h : (c.push module).Continues c') :
    c.Continues c'.pop where
  root := h.root
  active := by simp [h.active]
  visited := h.visited
  modules := h.modules
  fragments := h.fragments
  cycles := h.cycles
  reused := h.reused
  unresolved := h.unresolved
  excluded := h.excluded

end Walk.Context

namespace Writer

open Walk

/-- What holds whenever a walk comes to a dependency. -/
structure Orderly (st : State) : Prop where
  active : ∀ m ∈ st.context.active, m ∈ st.context.visited
  claimed : ∀ m ∈ st.context.report.modules, m ∈ st.context.visited
  finished : ∀ m ∈ st.context.report.modules, m ∉ st.context.active
  path : st.context.active.Nodup
  nodup : st.context.report.modules.Nodup

section
variable {w : Writer} {module name : String} {path : Path} {st st' : State}

-- ---------------------------------------------------------------------------
-- Walks that continue
-- ---------------------------------------------------------------------------

theorem continues_settle (w : Writer) (module name : String) (edge : Edge) (st : State) :
    st.context.Continues (w.settle module name edge st).context := by
  refine ⟨?_, active_settle .., fun _ hn => mem_visited_settle hn, ?_, ?_, ?_, fun n hn => ?_, ?_,
    ?_⟩
  · cases edge <;> simp [settle]
  · simp
  · simp
  · cases edge <;> simp [settle]
  · exact (mem_reused_settle ..).2 (.inr hn)
  · cases edge <;> simp +contextual [settle]
  · cases edge <;> simp +contextual [settle]

theorem continues_leave (w : Writer) (module : String) (path : Path) (kept : List String)
    (st : State) : st.context.Continues (w.leave module path kept st).2.context := by
  unfold leave
  split
  · next h =>
    obtain ⟨written, -, -, hcontext, -⟩ := writeFragments_cases h
    constructor <;> simp [hcontext]
  · next h =>
    obtain ⟨written, -, -, hcontext, -⟩ := writeFragments_cases h
    constructor <;> simp [State.inReport, hcontext]

theorem continues_walk (w : Writer) :
    (∀ module path (st : State), st.context.Continues (w.visit module path st).2.context) ∧
    ∀ module names kept (st : State),
      st.context.Continues (w.visitAll module names kept st).2.context := by
  refine w.walk_induct
    (P := fun _ _ st r => st.context.Continues r.2.context)
    (Q := fun _ _ _ st r => st.context.Continues r.2.context)
    ?refused ?failed ?left ?done ?passed ?stopped ?descended
  case refused =>
    intro module path st e st₁ h
    obtain ⟨-, hcontext, -⟩ := enter_eq_error h
    exact hcontext ▸ .refl _
  case failed =>
    intro module path st names st₁ e st₂ h _ ih
    obtain ⟨-, -, hcontext, -⟩ := enter_eq_ok h
    rw [hcontext] at ih
    exact ih.pop
  case left =>
    intro module path st names st₁ kept st₂ h _ ih
    obtain ⟨-, -, hcontext, -⟩ := enter_eq_ok h
    rw [hcontext] at ih
    exact ih.pop.trans (w.continues_leave module path kept (st₂.inContext (·.pop)))
  case done => exact fun {_ _ _} => .refl _
  case passed =>
    intro module name names kept st edge r _ _ _ _ ih
    exact (w.continues_settle module name edge st).trans ih
  case stopped =>
    intro module name names kept st source e st₁ _ _ _ ih
    exact (w.continues_settle module name (.descend source) st).trans ih
  case descended =>
    intro module name names kept st source st₁ r _ _ _ ih _ ih'
    exact ((w.continues_settle module name (.descend source) st).trans ih).trans ih'

theorem continues_visit {r : Except Error Unit} (h : w.visit module path st = (r, st')) :
    st.context.Continues st'.context := by
  have hcontinues := w.continues_walk.1 module path st
  rwa [h] at hcontinues

theorem continues_visitAll {names kept : List String} {r : Except Error (List String)}
    (h : w.visitAll module names kept st = (r, st')) : st.context.Continues st'.context := by
  have hcontinues := w.continues_walk.2 module names kept st
  rwa [h] at hcontinues

-- ---------------------------------------------------------------------------
-- Orderly states
-- ---------------------------------------------------------------------------

theorem Orderly.start (w : Writer) (d : Disk) (root : String) : Orderly (w.start d root) := by
  constructor <;> simp [Writer.start, Context.new, Report.new]

theorem Orderly.enter (h : Orderly st) (hwait : Awaits st module)
    (hcontext : st'.context = st.context.push module) : Orderly st' ∧ Settled st' := by
  constructor
  · refine ⟨?_, ?_, ?_, ?_, ?_⟩ <;>
      simp only [hcontext, active_push, visited_push, report_push]
    · simpa [or_imp, forall_and] using ⟨h.active, hwait.claimed⟩
    · exact h.claimed
    · intro m hm hactive
      rcases List.mem_append.1 hactive with hactive | hm'
      · exact h.finished m hm hactive
      · exact hwait.unwritten (List.mem_singleton.1 hm' ▸ hm)
    · rw [List.nodup_append]
      refine ⟨h.path, by simp, ?_⟩
      rintro m hm n hn rfl
      exact hwait.inactive (List.mem_singleton.1 hn ▸ hm)
    · exact h.nodup
  · intro n hn
    simp only [hcontext, visited_push, active_push, report_push, List.mem_append,
      List.mem_singleton] at hn ⊢
    rcases hwait.others n hn with rfl | hn | hn
    · exact .inl (.inr rfl)
    · exact .inl (.inl hn)
    · exact .inr hn

theorem Orderly.settle {edge : Edge} (h : Orderly st) :
    Orderly (w.settle module name edge st) where
  active := by
    rw [active_settle]
    exact fun m hm => mem_visited_settle (h.active m hm)
  claimed := by
    rw [modules_settle]
    exact fun m hm => mem_visited_settle (h.claimed m hm)
  finished := by simpa using h.finished
  path := by simpa using h.path
  nodup := by simpa using h.nodup

theorem Orderly.descend {source : Path} (h : Orderly st) (hsettled : Settled st)
    (hmeets : w.Meets st name (.descend source)) :
    Awaits (w.settle module name (.descend source) st) name := by
  cases hmeets with
  | descend hactive _ hv =>
    refine ⟨mem_visited_settle_descend, by simpa using hactive, ?_, fun n hn => ?_⟩
    · rw [modules_settle]
      exact fun hm => hv (h.claimed name hm)
    · rw [active_settle, modules_settle]
      rcases (mem_visited_settle_iff ..).1 hn with ⟨-, rfl⟩ | hn
      · exact .inl rfl
      · exact .inr (hsettled n hn)

theorem Orderly.awaits {st₁ st₂ : State} (h : Orderly st₂) (hsettled : Settled st₂)
    (hcontext : st₁.context = st.context.push module)
    (hcontinues : st₁.context.Continues st₂.context) (hwait : Awaits st module) :
    Awaits (st₂.inContext (·.pop)) module := by
  have hactive : st₂.context.active = st.context.active ++ [module] := by
    rw [hcontinues.active, hcontext, active_push]
  refine ⟨?_, ?_, ?_, fun n hn => ?_⟩
  · exact hcontinues.visited module (by simpa [hcontext] using hwait.claimed)
  · simpa [hactive] using hwait.inactive
  · exact fun hm => h.finished module hm (by simp [hactive])
  · simp only [context_inContext, active_pop, report_pop, hactive, List.dropLast_concat]
    rcases hsettled n hn with hn | hn
    · rw [hactive] at hn
      rcases List.mem_append.1 hn with hn | hn
      · exact .inr (.inl hn)
      · exact .inl (List.mem_singleton.1 hn)
    · exact .inr (.inr hn)

theorem Orderly.pop (h : Orderly st) : Orderly (st.inContext (·.pop)) where
  active := fun m hm => h.active m ((List.dropLast_sublist _).subset hm)
  claimed := h.claimed
  finished := fun m hm hactive => h.finished m hm ((List.dropLast_sublist _).subset hactive)
  path := h.path.sublist (List.dropLast_sublist _)
  nodup := h.nodup

theorem Orderly.leave {kept : List String} (h : Orderly st) (hwait : Awaits st module)
    (hleave : w.leave module path kept st = (.ok (), st')) :
    Orderly st' ∧ Settled st' := by
  have hleaves := w.leaves_leave module path kept st
  rw [hleave] at hleaves
  cases hleaves with
  | finished _ hcontext =>
    constructor
    · refine ⟨?_, ?_, ?_, ?_, ?_⟩ <;> simp only [hcontext]
      · exact h.active
      · simpa [or_imp, forall_and] using ⟨h.claimed, hwait.claimed⟩
      · simpa [or_imp, forall_and] using ⟨h.finished, hwait.inactive⟩
      · exact h.path
      · rw [List.nodup_append]
        refine ⟨h.nodup, by simp, ?_⟩
        rintro m hm n hn rfl
        exact hwait.unwritten (List.mem_singleton.1 hn ▸ hm)
    · intro n hn
      simp only [hcontext, List.mem_append, List.mem_singleton] at hn ⊢
      rcases hwait.others n hn with rfl | hn | hn
      · exact .inr (.inr rfl)
      · exact .inl hn
      · exact .inr (.inl hn)

end

-- ---------------------------------------------------------------------------
-- Walks one after another
-- ---------------------------------------------------------------------------

theorem edge_eq_cut_iff {w : Writer} {st : State} {name : String} {cycle : List String} :
    w.edge st name = .cut cycle ↔ st.context.cycle? name = some cycle := by
  unfold edge
  split
  · next hcycle => simp [hcycle]
  · next hcycle =>
    rw [hcycle]
    split
    · simp
    · simp
    · split
      · simp
      · split <;> simp

/-- A walk on a memory that was used before, by any writer and on whatever is on the disk then. -/
structure Outset where
  writer : Writer
  disk : Disk
  log : List Log.Event
  module : String
  path : Path

/-- The memory after the walk, however it ends. -/
def memoryAfter (c : Context) (o : Outset) : Context :=
  (o.writer.visit o.module o.path ⟨o.disk, c, o.log⟩).2.context

theorem continues_foldl_memoryAfter (c : Context) (walks : List Outset) :
    c.Continues (walks.foldl memoryAfter c) := by
  induction walks generalizing c with
  | nil => exact .refl c
  | cons o walks ih =>
    exact (o.writer.continues_walk.1 o.module o.path ⟨o.disk, c, o.log⟩).trans (ih _)

/-- Walks on one memory, each of which may fail anywhere, leave the modules active that were active
before and take nothing back. A further walk cuts an edge exactly where it would have cut it before
them, with the same cycle. -/
theorem walks_restore (c : Context) (walks : List Outset) :
    c.Continues (walks.foldl memoryAfter c) ∧
      ∀ (w : Writer) (d : Disk) (log : List Log.Event) (name : String) (cycle : List String),
        w.edge ⟨d, walks.foldl memoryAfter c, log⟩ name = .cut cycle ↔
          w.edge ⟨d, c, log⟩ name = .cut cycle := by
  have hcontinues := continues_foldl_memoryAfter c walks
  refine ⟨hcontinues, fun w d log name cycle => ?_⟩
  simp only [edge_eq_cut_iff, Context.cycle?, hcontinues.active]

end Writer

end DesignDeps
