import DesignDeps.Proofs.Walk.Trust
import DesignDeps.Proofs.Walk.Visits
import Mathlib.Data.List.Nodup

/-!
# The order of the fragments

`write_ordered`: a module's fragments come after those of every dependency that its record keeps,
unless the dependency was trusted. So no cycle is kept among the modules of one run as long as no
module is both trusted and written, which a policy whose trust lasts excludes.

Without that, a dependency may be trusted where one module names it and descended to where another
does, since what was trusted before is not looked up. Then the kept edges can close a cycle
(`trust_withdrawn`).
-/

namespace DesignDeps

namespace Walk

open Relation

def Backward (known : String → Prop) : List Visit → Prop
  | [] => True
  | x :: vs => (∀ n ∈ x.kept, known n) ∧ Backward (fun n => known n ∨ n = x.module) vs

section
variable {known known' : String → Prop} {vs vs' : List Visit} {x : Visit} {n : String}

theorem Backward.mono (h : Backward known vs) (hk : ∀ n, known n → known' n) :
    Backward known' vs := by
  induction vs generalizing known known' with
  | nil => trivial
  | cons x vs ih => exact ⟨fun n hn => hk n (h.1 n hn), ih h.2 fun n hn => hn.imp_left (hk n)⟩

theorem backward_append : Backward known (vs ++ vs') ↔
    Backward known vs ∧ Backward (fun n => known n ∨ n ∈ vs.map Visit.module) vs' := by
  induction vs generalizing known with
  | nil => simp [Backward]
  | cons x vs ih => simp [Backward, ih, and_assoc, or_assoc]

theorem Backward.earlier (h : Backward known (vs ++ x :: vs')) (hn : n ∈ x.kept) :
    known n ∨ n ∈ vs.map Visit.module :=
  (backward_append.1 h).2.1 n hn

theorem Backward.idxOf_lt (h : Backward known vs) (hnodup : (vs.map Visit.module).Nodup)
    (hx : x ∈ vs) (hn : n ∈ x.kept) (hk : ¬known n) :
    (vs.map Visit.module).idxOf n < (vs.map Visit.module).idxOf x.module := by
  obtain ⟨before, after, rfl⟩ := List.append_of_mem hx
  have hbefore := (h.earlier hn).resolve_left hk
  have hself : x.module ∉ before.map Visit.module := by
    simp only [List.map_append, List.map_cons, List.nodup_append, List.mem_cons] at hnodup
    exact fun hmem => hnodup.2.2 _ hmem _ (.inl rfl) rfl
  rw [List.map_append, List.idxOf_append_of_mem hbefore, List.idxOf_append_of_notMem hself]
  exact Nat.lt_of_lt_of_le (List.idxOf_lt_length_iff.2 hbefore) (Nat.le_add_right _ _)

theorem Backward.acyclic {R : String → String → Prop} (h : Backward known vs)
    (hnodup : (vs.map Visit.module).Nodup)
    (hR : ∀ a b, R a b → ∃ x ∈ vs, x.module = a ∧ b ∈ x.kept ∧ ¬known b) (m : String) :
    ¬TransGen R m m := by
  intro hcycle
  have hdown : ∀ {a b}, TransGen R a b →
      (vs.map Visit.module).idxOf b < (vs.map Visit.module).idxOf a := by
    intro a b hab
    refine TransGen.trans_induction_on hab ?_ fun _ _ hab hbc => Nat.lt_trans hbc hab
    intro a b hab
    obtain ⟨x, hx, rfl, hn, hk⟩ := hR a b hab
    exact h.idxOf_lt hnodup hx hn hk
  exact Nat.lt_irrefl _ (hdown hcycle)

end

end Walk

namespace Writer

open Text Walk Relation

-- ---------------------------------------------------------------------------
-- Walks
-- ---------------------------------------------------------------------------

/-- Visits add their modules to the report in order, and what they keep is written by then or has
been trusted. -/
theorem ordered_walk (w : Writer) :
    (∀ module path st st', w.visit module path st = (.ok (), st') → Orderly st →
      Awaits st module → Orderly st' ∧ Settled st' ∧
      (∃ vs names kept, w.visits module path st = vs ++ [⟨module, path, names, kept⟩]) ∧
      st'.context.report.modules =
        st.context.report.modules ++ (w.visits module path st).map Visit.module ∧
      Backward (fun n => n ∈ st.context.report.modules ∨ n ∈ st'.context.report.reused)
        (w.visits module path st)) ∧
    ∀ module names kept st kept' st', w.visitAll module names kept st = (.ok kept', st') →
      Orderly st → Settled st → Orderly st' ∧ Settled st' ∧
      st'.context.report.modules =
        st.context.report.modules ++ (w.visitsAll module names st).map Visit.module ∧
      Backward (fun n => n ∈ st.context.report.modules ∨ n ∈ st'.context.report.reused)
        (w.visitsAll module names st) ∧
      ∀ n ∈ kept', n ∈ kept ∨ n ∈ st'.context.report.modules ∨
        n ∈ st'.context.report.reused := by
  refine w.visit_induct
    (P := fun module path st st' vs =>
      (∃ vs' names kept, vs = vs' ++ [⟨module, path, names, kept⟩]) ∧
      st'.context.report.modules = st.context.report.modules ++ vs.map Visit.module ∧
      Backward (fun n => n ∈ st.context.report.modules ∨ n ∈ st'.context.report.reused) vs)
    (Q := fun module names kept st kept' st' vs =>
      st'.context.report.modules = st.context.report.modules ++ vs.map Visit.module ∧
      Backward (fun n => n ∈ st.context.report.modules ∨ n ∈ st'.context.report.reused) vs ∧
      ∀ n ∈ kept', n ∈ kept ∨ n ∈ st'.context.report.modules ∨
        n ∈ st'.context.report.reused)
    ?left ?done ?passed ?descended
  case left =>
    rintro module path st names st₁ kept st₂ st' vs henter _ _ _ _ _ hleave
      ⟨hmodules, hback, hkept⟩
    obtain ⟨-, -, hcontext, -⟩ := enter_eq_ok henter
    have hleaves := w.leaves_leave module path kept (st₂.inContext (·.pop))
    rw [hleave] at hleaves
    cases hleaves with
    | finished _ hcontext' =>
      simp only [hcontext, report_push] at hmodules hback
      simp only [hcontext', context_inContext, report_pop, hmodules] at hkept ⊢
      refine ⟨⟨vs, names, kept, rfl⟩, by simp, backward_append.2 ⟨hback, fun n hn => ?_, trivial⟩⟩
      rcases hkept n hn with hn | hn | hn
      · simp at hn
      · exact (List.mem_append.1 hn).imp_left .inl
      · exact .inl (.inr hn)
  case done =>
    intro module kept st
    exact ⟨by simp, trivial, fun n hn => .inl hn⟩
  case passed =>
    rintro module name names kept st edge kept' st' vs hmeets hpass _ hsettled hall
      ⟨hmodules, hback, hkept⟩
    rw [modules_settle] at hmodules hback
    have hcontinues := continues_visitAll hall
    refine ⟨hmodules, hback, fun n hn => (hkept n hn).elim (fun hn => ?_) .inr⟩
    cases hmeets with
    | cut | excluded | unresolved => exact .inl (by simpa [Edge.isKept] using hn)
    | seen hactive _ hv =>
      rcases List.mem_append.1 hn with hn | hn
      · exact .inl hn
      · rw [List.mem_singleton.1 hn]
        refine .inr (.inl (hcontinues.modules.subset ?_))
        rw [modules_settle]
        exact (hsettled name hv).resolve_left hactive
    | reused =>
      rcases List.mem_append.1 hn with hn | hn
      · exact .inl hn
      · rw [List.mem_singleton.1 hn]
        exact .inr (.inr (hcontinues.reused name ((mem_reused_settle ..).2 (.inl ⟨rfl, rfl⟩))))
    | descend => exact absurd rfl (hpass _)
  case descended =>
    rintro module name names kept st source st₁ vs kept' st' vs' _ _ _ _ _ _
      ⟨⟨vs₀, names₀, kept₀, rfl⟩, hmodules, hback⟩ hall ⟨hmodules', hback', hkept⟩
    rw [modules_settle] at hmodules hback
    have hcontinues := continues_visitAll hall
    have hname : name ∈ st'.context.report.modules :=
      hcontinues.modules.subset (by simp [hmodules])
    refine ⟨by simp [hmodules', hmodules], backward_append.2 ⟨?_, ?_⟩, fun n hn => ?_⟩
    · exact hback.mono fun n hn => hn.imp_right (hcontinues.reused n)
    · refine hback'.mono fun n hn => ?_
      rw [hmodules, List.mem_append] at hn
      exact hn.elim (fun hn => hn.imp_left .inl) fun hn => .inl (.inr hn)
    · rcases hkept n hn with hn | hn
      · rcases List.mem_append.1 hn with hn | hn
        · exact .inl hn
        · exact .inr (.inl (List.mem_singleton.1 hn ▸ hname))
      · exact .inr hn

section
variable {w : Writer} {d : Disk} {root : String} {report : Report} {st : State}

theorem finished_visit {path : Path} (h : w.visit root path (w.start d root) = (.ok (), st)) :
    (∀ n, n ∈ st.context.visited ↔ n ∈ st.context.report.modules) ∧
    st.context.report.modules.Nodup ∧
    (∃ vs names kept,
      w.visits root path (w.start d root) = vs ++ [⟨root, path, names, kept⟩]) ∧
    st.context.report.modules = (w.visits root path (w.start d root)).map Visit.module ∧
    Backward (· ∈ st.context.report.reused) (w.visits root path (w.start d root)) := by
  obtain ⟨horderly, hsettled, hlast, hmodules, hback⟩ :=
    w.ordered_walk.1 root path _ st h (.start w d root) (awaits_start w d root)
  have hactive : st.context.active = [] := (continues_visit h).active
  refine ⟨fun n => ⟨fun hn => ?_, horderly.claimed n⟩, horderly.nodup, hlast, ?_, ?_⟩
  · exact (hsettled n hn).resolve_left (by simp [hactive])
  · simpa [Writer.start, Context.new, Report.new] using hmodules
  · simpa [Writer.start, Context.new, Report.new] using hback

theorem backward_visitsOf (h : w.write d root = (.ok report, st)) :
    report.modules = (w.visitsOf d root).map Visit.module ∧ report.modules.Nodup ∧
    report.modules.getLast? = some root ∧ Backward (· ∈ report.reused) (w.visitsOf d root) := by
  obtain ⟨path, st', -, hvisit, rfl, -, hvisits⟩ := visitsOf_of_ok h
  obtain ⟨-, hnodup, ⟨vs, names, kept, hlast⟩, hmodules, hback⟩ := finished_visit hvisit
  rw [← hvisits] at hlast hmodules hback
  exact ⟨hmodules, hnodup, by simp [hmodules, hlast], hback⟩

theorem visit_unique (h : w.write d root = (.ok report, st)) {x y : Visit}
    (hx : x ∈ w.visitsOf d root) (hy : y ∈ w.visitsOf d root) (heq : x.module = y.module) :
    x = y := by
  obtain ⟨hmodules, hnodup, -⟩ := backward_visitsOf h
  rw [hmodules] at hnodup
  exact List.inj_on_of_nodup_map hnodup hx hy heq

theorem root_mem_of_ok (h : w.write d root = (.ok report, st)) : root ∈ report.modules := by
  obtain ⟨-, -, hlast, -⟩ := backward_visitsOf h
  exact List.mem_of_getLast? hlast

theorem mem_of_kept {x : Visit} {n : String} (h : w.write d root = (.ok report, st))
    (hx : x ∈ w.visitsOf d root) (hn : n ∈ x.kept) : n ∈ report.modules ∨ n ∈ report.reused := by
  obtain ⟨hmodules, -, -, hback⟩ := backward_visitsOf h
  obtain ⟨before, after, heq⟩ := List.append_of_mem hx
  refine (Backward.earlier (heq ▸ hback) hn).symm.imp_left fun hmem => ?_
  rw [hmodules, heq, List.map_append]
  exact List.mem_append_left _ hmem

/-- No run writes what it has trusted, and all that it has written or trusted can be trusted
afterwards. -/
theorem reused_of_ok (hlasting : w.Lasting (w.prepared d)) (hd : d.Grounded)
    (h : w.write d root = (.ok report, st)) :
    (∀ m ∈ report.modules, m ∉ report.reused) ∧
    ∀ m, m ∈ report.modules ∨ m ∈ report.reused →
      ∃ path, w.resolver.resolve m = .found path ∧ w.isFresh st.disk m path = true := by
  obtain ⟨path, st', hfound, hvisit, rfl, hdisk⟩ := write_eq_ok h
  obtain ⟨hvisited, -⟩ := finished_visit hvisit
  have htrust := trust_of_visit hlasting hd hfound hvisit
  rw [hdisk]
  refine ⟨fun m hm hreused => (htrust.trusted m hreused).1 ((hvisited m).2 hm), ?_⟩
  rintro m (hm | hm)
  · exact htrust.written m hm
  · exact (htrust.trusted m hm).2

theorem not_mem_modules_of_isFresh {m : String} {path : Path} (hlasting : w.Lasting (w.prepared d))
    (hd : d.Grounded) (h : w.write d root = (.ok report, st)) (hm : m ≠ root)
    (hfound : w.resolver.resolve m = .found path)
    (hfresh : w.isFresh (w.prepared d) m path = true) : m ∉ report.modules := by
  obtain ⟨path', st', hroot, hvisit, rfl, -⟩ := write_eq_ok h
  obtain ⟨hvisited, -⟩ := finished_visit hvisit
  intro hmem
  rcases (trust_of_visit hlasting hd hroot hvisit).stale m ((hvisited m).2 hmem) with
    heq | ⟨path', hfound', hstale⟩
  · exact hm heq
  · cases hfound.symm.trans hfound'
    simp [hfresh] at hstale

-- ---------------------------------------------------------------------------
-- The theorem
-- ---------------------------------------------------------------------------

/-- The record written for `a` in the run keeps `b`. -/
def Keeps (w : Writer) (d : Disk) (root : String) (a b : String) : Prop :=
  ∃ x ∈ w.visitsOf d root, x.module = a ∧ b ∈ x.kept

/-- In a run that succeeds each module comes after the dependencies that its record keeps, those
that were trusted aside, and the root comes last. Under a policy whose trust lasts no module of the
run was trusted in it, so that no cycle is kept among them. -/
theorem write_ordered (h : w.write d root = (.ok report, st)) :
    report.modules = (w.visitsOf d root).map Visit.module ∧ report.modules.Nodup ∧
    report.modules.getLast? = some root ∧
    (∀ before x after, w.visitsOf d root = before ++ x :: after →
      ∀ n ∈ x.kept, n ∈ before.map Visit.module ∨ n ∈ report.reused) ∧
    (∀ m, ¬TransGen (fun a b => w.Keeps d root a b ∧ b ∉ report.reused) m m) ∧
    (d.Grounded → w.Lasting (w.prepared d) → (∀ m ∈ report.modules, m ∉ report.reused) ∧
      ∀ m, ¬TransGen (fun a b => w.Keeps d root a b ∧ b ∈ report.modules) m m) := by
  obtain ⟨hmodules, hnodup, hlast, hback⟩ := backward_visitsOf h
  have hacyclic : ∀ m, ¬TransGen (fun a b => w.Keeps d root a b ∧ b ∉ report.reused) m m := by
    refine hback.acyclic (hmodules ▸ hnodup) ?_
    rintro a b ⟨⟨x, hx, rfl, hn⟩, hreused⟩
    exact ⟨x, hx, rfl, hn, hreused⟩
  refine ⟨hmodules, hnodup, hlast, fun before x after heq n hn => ?_, hacyclic,
    fun hd hlasting => ?_⟩
  · exact (Backward.earlier (heq ▸ hback) hn).symm
  · obtain ⟨hreused, -⟩ := reused_of_ok hlasting hd h
    refine ⟨hreused, fun m hcycle => hacyclic m (TransGen.mono ?_ _ _ hcycle)⟩
    exact fun a b ⟨hab, hb⟩ => ⟨hab, hreused b hb⟩

end

theorem write_ordered_twoModules :
    let w := twoModules ["a"]
    ∃ report st, w.write twoSources "a" = (.ok report, st) ∧ report.modules.getLast? = some "a" ∧
      ∀ m, ¬TransGen (fun a b => w.Keeps twoSources "a" a b ∧ b ∈ report.modules) m m := by
  intro w
  have hs : w.Sample twoSources := sample_twoModules
  obtain ⟨report, st, h⟩ := write_twoModules ["a"] (.inl rfl)
  obtain ⟨-, -, hlast, -, -, hlasting⟩ := write_ordered h
  exact ⟨report, st, h, hlast, (hlasting hs.grounded (.existing rfl)).2⟩

-- ---------------------------------------------------------------------------
-- Trust that is withdrawn
-- ---------------------------------------------------------------------------

def fickleNames (module : String) : List String :=
  if module = "c" then ["a", "b"] else if module = "a" then ["b"] else ["a"]

def fickle : Writer :=
  threeModules fickleNames fun d fragment _ =>
    fragment == ⟨"/o/b.sim.d"⟩ && !d.exists? ⟨"/o/a.sim.d"⟩

section
variable {m : String} {path : Path} {names : List String} {st st' : State}

theorem found_fickle : fickle.resolver.resolve m = .found path ↔
    m = "a" ∧ path = ⟨"/s/a.v"⟩ ∨ m = "b" ∧ path = ⟨"/s/b.v"⟩ ∨ m = "c" ∧ path = ⟨"/s/c.v"⟩ :=
  found_threeModules

theorem sample_fickle : fickle.Sample threeSources :=
  sample_threeModules

theorem isFresh_fickle {d : Disk} (hm : m = "a" ∨ m = "b") :
    fickle.isFresh d m path = (m == "b" && !d.exists? (fickle.fragmentPath "a" "sim")) := by
  rcases hm with rfl | rfl <;> rfl

theorem enter_fickle (hfound : fickle.resolver.resolve m = .found path)
    (h : fickle.enter m path st = (.ok names, st')) :
    names = (NameSet.ofList (fickleNames m)).toList ∧ st'.disk = st.disk ∧
      st'.context = st.context.push m := by
  obtain ⟨-, hdisk, hcontext, bytes, -, rfl⟩ := enter_eq_ok h
  rw [sample_fickle.namesIn hfound]
  exact ⟨rfl, hdisk, hcontext⟩

theorem visits_fickle_a (hd : st.disk.Grounded) (hactive : st.context.active = ["c"])
    (hvisited : "b" ∉ st.context.visited)
    (hmissing : st.disk.exists? (fickle.fragmentPath "a" "sim") = false)
    (h : fickle.visit "a" ⟨"/s/a.v"⟩ st = (.ok (), st')) :
    fickle.visits "a" ⟨"/s/a.v"⟩ st = [⟨"a", ⟨"/s/a.v"⟩, ["b"], ["b"]⟩] ∧
      "b" ∉ st'.context.visited ∧
      st'.disk.exists? (fickle.fragmentPath "a" "sim") = true := by
  obtain ⟨names, st₁, kept, st₂, henter, hall, hleave, hvisits⟩ := visit_eq_ok h
  obtain ⟨rfl, hdisk, hcontext⟩ := enter_fickle (found_fickle.2 (by simp)) henter
  rw [show (NameSet.ofList (fickleNames "a")).toList = ["b"] by decide] at hall hvisits
  have hedge : fickle.edge st₁ "b" = .reused := by
    rw [edge_of_found (by simp [hcontext, hactive]) (found_fickle.2 (.inr (.inl ⟨rfl, rfl⟩)))]
    simp [hcontext, hvisited, isFresh_fickle, hdisk, hmissing]
  simp only [visitAll_cons, hedge, visitAll_nil] at hall
  rw [visitsAll_of_pass hedge (by simp), visitsAll_nil] at hvisits
  cases hall
  cases leaves_of_leave hleave with
  | finished hwrites hcontext' =>
    refine ⟨hvisits, ?_, hwrites.exists? (by simpa [hdisk] using hd) ?_⟩
    · simpa [hcontext', settle, hcontext] using hvisited
    · simp [fickle, threeModules]

theorem visits_fickle_b (hactive : st.context.active = ["c"]) (hvisited : "a" ∈ st.context.visited)
    (h : fickle.visit "b" ⟨"/s/b.v"⟩ st = (.ok (), st')) :
    fickle.visits "b" ⟨"/s/b.v"⟩ st = [⟨"b", ⟨"/s/b.v"⟩, ["a"], ["a"]⟩] := by
  obtain ⟨names, st₁, kept, st₂, henter, hall, -, hvisits⟩ := visit_eq_ok h
  obtain ⟨rfl, -, hcontext⟩ := enter_fickle (found_fickle.2 (by simp)) henter
  rw [show (NameSet.ofList (fickleNames "b")).toList = ["a"] by decide] at hall hvisits
  have hedge : fickle.edge st₁ "a" = .seen := by
    rw [edge_of_found (by simp [hcontext, hactive]) (found_fickle.2 (.inl ⟨rfl, rfl⟩))]
    simp [hcontext, hvisited]
  simp only [visitAll_cons, hedge, visitAll_nil] at hall
  rw [visitsAll_of_pass hedge (by simp), visitsAll_nil] at hvisits
  cases hall
  exact hvisits

theorem visits_fickle_c
    (h : fickle.visit "c" ⟨"/s/c.v"⟩ (fickle.start threeSources "c") = (.ok (), st')) :
    ∃ x, fickle.visits "c" ⟨"/s/c.v"⟩ (fickle.start threeSources "c") =
      [⟨"a", ⟨"/s/a.v"⟩, ["b"], ["b"]⟩, ⟨"b", ⟨"/s/b.v"⟩, ["a"], ["a"]⟩, x] := by
  obtain ⟨names, st₁, kept, st₂, henter, hall, -, hvisits⟩ := visit_eq_ok h
  obtain ⟨rfl, hdisk, hcontext⟩ := enter_fickle (found_fickle.2 (by simp)) henter
  rw [show (NameSet.ofList (fickleNames "c")).toList = ["a", "b"] by decide] at hall hvisits
  have hstart : (fickle.start threeSources "c").disk = threeSources := sample_fickle.prepared_eq
  have hactive : st₁.context.active = ["c"] := by simp [hcontext, start, Context.new]
  have hvisited : st₁.context.visited = ["c"] := by simp [hcontext, start, Context.new]
  have hmissing : st₁.disk.exists? (fickle.fragmentPath "a" "sim") = false := by
    rw [hdisk, hstart]
    exact sample_fickle.emptyOutput.exists?_eq sample_fickle.plain (by decide)
      (by simp [fickle, threeModules])
  have hedge : fickle.edge st₁ "a" = .descend ⟨"/s/a.v"⟩ := by
    rw [edge_of_found (by simp [hactive]) (found_fickle.2 (.inl ⟨rfl, rfl⟩))]
    simp [hvisited, isFresh_fickle]
  obtain ⟨st₃, hvisit, hall, hvs⟩ := visitAll_of_descend hedge hall
  obtain ⟨ha, hunvisited, hexists⟩ := visits_fickle_a
    (by simpa [hdisk, hstart] using sample_fickle.grounded) (by simpa using hactive)
    (by simp [settle, Context.mem_visited_mark, hvisited]) (by simpa using hmissing) hvisit
  have hcontinues := continues_visit hvisit
  have hactive₃ : st₃.context.active = ["c"] := by simp [hcontinues.active, hactive]
  have hvisited₃ : "a" ∈ st₃.context.visited := hcontinues.visited "a" mem_visited_settle_descend
  have hedge₃ : fickle.edge st₃ "b" = .descend ⟨"/s/b.v"⟩ := by
    rw [edge_of_found (by simp [hactive₃]) (found_fickle.2 (.inr (.inl ⟨rfl, rfl⟩)))]
    simp [hunvisited, isFresh_fickle, hexists]
  obtain ⟨st₄, hvisit', -, hvs'⟩ := visitAll_of_descend hedge₃ hall
  have hb := visits_fickle_b (by simpa using hactive₃) (mem_visited_settle hvisited₃) hvisit'
  rw [hvs, ha, hvs', hb, visitsAll_nil] at hvisits
  exact ⟨_, hvisits⟩

end

/-- `a` keeps `b`, which is trusted until `a` has a fragment. So `b` is written after it, and keeps
`a`. -/
theorem trust_withdrawn :
    let w := fickle
    ∃ report st, w.write threeSources "c" = (.ok report, st) ∧
      ∃ m, TransGen (fun a b => w.Keeps threeSources "c" a b ∧ b ∈ report.modules) m m := by
  intro w
  have hs : w.Sample threeSources := sample_fickle
  have hc : w.resolver.resolve "c" = .found ⟨"/s/c.v"⟩ := found_fickle.2 (by simp)
  obtain ⟨report, st, h⟩ := hs.write_succeeds (by simp [w, fickle, threeModules]) ⟨_, hc⟩
  obtain ⟨path, st', hfound, hvisit, -, -, hvisits⟩ := visitsOf_of_ok h
  cases hc.symm.trans hfound
  obtain ⟨x, hx⟩ := visits_fickle_c hvisit
  obtain ⟨hmodules, -⟩ := backward_visitsOf h
  have hab : w.Keeps threeSources "c" "a" "b" := by simp [Keeps, hvisits, w, hx]
  have hba : w.Keeps threeSources "c" "b" "a" := by simp [Keeps, hvisits, w, hx]
  refine ⟨report, st, h, "a", .head ⟨hab, ?_⟩ (.single ⟨hba, ?_⟩)⟩
  · simp [hmodules, hvisits, w, hx]
  · simp [hmodules, hvisits, w, hx]

end Writer

end DesignDeps
