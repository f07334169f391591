import DesignDeps.Proofs.Walk.Memory

/-!
# The visits of a walk

A visit is the work on one module: which names were found in its source, and which of them its
record keeps. `visits` lists those that a walk has finished, in the order in which their fragments
were written. `visit_induct` is the induction over walks that succeed, with their visits; the
contexts that it meets are orderly, so nobody has to show that again.
-/

namespace DesignDeps

namespace Walk

structure Visit where
  module : String
  source : Path
  /-- The names found in the source, in order. -/
  names : List String
  /-- The dependencies in the record. -/
  kept : List String
  deriving DecidableEq

end Walk

namespace Writer

open Text Walk Relation

-- ---------------------------------------------------------------------------
-- Visits
-- ---------------------------------------------------------------------------

theorem visited_eq_of_enter {w : Writer} {module : String} {path : Path} {st st₁ : State}
    {r : Except Error (List String)} (h : w.enter module path st = (r, st₁)) :
    st₁.context.visited = st.context.visited := by
  have hv := w.visited_enter module path st
  rwa [h] at hv

theorem unclaimed_visit_le {w : Writer} {module name : String} {source : Path} {st st₁ : State}
    {r : Except Error Unit} (hedge : w.edge st name = .descend source)
    (h : w.visit name source (w.settle module name (.descend source) st) = (r, st₁)) :
    w.resolver.unclaimed st₁.context.visited ≤ w.resolver.unclaimed st.context.visited := by
  have hsettle : w.resolver.unclaimed (w.settle module name (.descend source) st).context.visited <
      w.resolver.unclaimed st.context.visited := unclaimed_settle_lt hedge
  refine Nat.le_trans (Resolver.unclaimed_le fun n hn => ?_) (Nat.le_of_lt hsettle)
  exact (continues_visit h).visited n hn

mutual
def visits (w : Writer) (module : String) (path : Path) (st : State) : List Visit :=
  match _he : w.enter module path st with
  | (.error _, _) => []
  | (.ok names, st₁) =>
    w.visitsAll module names st₁ ++
      match w.visitAll module names [] st₁ with
      | (.error _, _) => []
      | (.ok kept, st₂) =>
        match w.leave module path kept (st₂.inContext (·.pop)) with
        | (.error _, _) => []
        | (.ok (), _) => [⟨module, path, names, kept⟩]
termination_by (w.resolver.unclaimed st.context.visited, 1, 0)
decreasing_by
  rw [visited_eq_of_enter _he]
  exact .right _ (.left _ _ (by omega))

def visitsAll (w : Writer) (module : String) (names : List String) (st : State) : List Visit :=
  match names with
  | [] => []
  | name :: names =>
    match _he : w.edge st name with
    | .descend source =>
      w.visits name source (w.settle module name (.descend source) st) ++
        match _hv : w.visit name source (w.settle module name (.descend source) st) with
        | (.error _, _) => []
        | (.ok (), st₁) => w.visitsAll module names st₁
    | edge => w.visitsAll module names (w.settle module name edge st)
termination_by (w.resolver.unclaimed st.context.visited, 0, names.length)
decreasing_by
  · exact .left _ _ (unclaimed_settle_lt _he)
  · exact Prod.Lex.right' _ (unclaimed_visit_le _he _hv) (.right _ (by simp))
  · refine Prod.Lex.right' _ ?_ (.right _ (by simp))
    exact Resolver.unclaimed_le fun _ hn => mem_visited_settle hn
end

section
variable {w : Writer} {module name : String} {path : Path} {names kept : List String}
  {st st₁ st₂ st' : State}

theorem visits_of_ok (henter : w.enter module path st = (.ok names, st₁))
    (hall : w.visitAll module names [] st₁ = (.ok kept, st₂))
    (hleave : w.leave module path kept (st₂.inContext (·.pop)) = (.ok (), st')) :
    w.visits module path st = w.visitsAll module names st₁ ++ [⟨module, path, names, kept⟩] := by
  rw [visits]
  split
  · next h => cases henter.symm.trans h
  · next h =>
    cases henter.symm.trans h
    simp [hall, hleave]

theorem visit_eq_ok (h : w.visit module path st = (.ok (), st')) :
    ∃ names st₁ kept st₂, w.enter module path st = (.ok names, st₁) ∧
      w.visitAll module names [] st₁ = (.ok kept, st₂) ∧
      w.leave module path kept (st₂.inContext (·.pop)) = (.ok (), st') ∧
      w.visits module path st = w.visitsAll module names st₁ ++ [⟨module, path, names, kept⟩] := by
  rw [visit_eq] at h
  split at h
  · cases h
  · next names st₁ henter =>
    split at h
    · cases h
    · next kept st₂ hall =>
      exact ⟨names, st₁, kept, st₂, henter, hall, h, visits_of_ok henter hall h⟩

theorem visitsAll_nil : w.visitsAll module [] st = [] := by
  rw [visitsAll]

theorem visitsAll_of_pass {edge : Edge} (hedge : w.edge st name = edge)
    (hpass : ∀ source, edge ≠ .descend source) :
    w.visitsAll module (name :: names) st =
      w.visitsAll module names (w.settle module name edge st) := by
  rw [visitsAll]
  split
  · next source h => exact absurd (hedge.symm.trans h) (hpass source)
  · next h => rw [hedge]

theorem visitsAll_of_descend {source : Path} (hedge : w.edge st name = .descend source)
    (hvisit : w.visit name source (w.settle module name (.descend source) st) = (.ok (), st₁)) :
    w.visitsAll module (name :: names) st =
      w.visits name source (w.settle module name (.descend source) st) ++
        w.visitsAll module names st₁ := by
  rw [visitsAll]
  split
  · next h =>
    cases hedge.symm.trans h
    split
    · next h => cases hvisit.symm.trans h
    · next h =>
      cases hvisit.symm.trans h
      rfl
  · next h => exact absurd hedge (h source)

theorem visitAll_of_descend {source : Path} {kept' : List String}
    (hedge : w.edge st name = .descend source)
    (h : w.visitAll module (name :: names) kept st = (.ok kept', st')) :
    ∃ st₁, w.visit name source (w.settle module name (.descend source) st) = (.ok (), st₁) ∧
      w.visitAll module names (kept ++ [name]) st₁ = (.ok kept', st') ∧
      w.visitsAll module (name :: names) st =
        w.visits name source (w.settle module name (.descend source) st) ++
          w.visitsAll module names st₁ := by
  rw [visitAll_cons, hedge] at h
  dsimp only at h
  split at h
  · cases h
  · next st₁ hvisit => exact ⟨st₁, hvisit, h, visitsAll_of_descend hedge hvisit⟩

theorem edge_of_found (hactive : name ∉ st.context.active)
    (hfound : w.resolver.resolve name = .found path) :
    w.edge st name = if name ∈ st.context.visited then .seen
      else if w.isFresh st.disk name path then .reused else .descend path := by
  simp [edge, Context.cycle?_eq_none_iff.2 hactive, hfound, Context.isVisited_iff]

end

/-- The visits of a whole run. One that ends before its walk has none. -/
def visitsOf (w : Writer) (d : Disk) (root : String) : List Visit :=
  match w.resolver.resolve root, (d.makeDirs w.outDir).1 with
  | .found path, .ok () => w.visits root path (w.start d root)
  | _, _ => []

theorem makeDirs_of_ok {w : Writer} {d : Disk} {root : String} {report : Report} {st : State}
    (h : w.write d root = (.ok report, st)) : (d.makeDirs w.outDir).1 = .ok () := by
  unfold write at h
  dsimp only at h
  split at h
  · cases h
  · split at h
    · cases h
    · cases h
    · split at h
      · cases h
      · next hdirs => rw [hdirs]

theorem visitsOf_of_ok {w : Writer} {d : Disk} {root : String} {report : Report} {st : State}
    (h : w.write d root = (.ok report, st)) :
    ∃ path st', w.resolver.resolve root = .found path ∧
      w.visit root path (w.start d root) = (.ok (), st') ∧ st'.context.report = report ∧
      st'.disk = st.disk ∧ w.visitsOf d root = w.visits root path (w.start d root) := by
  obtain ⟨path, st', hfound, hvisit, hreport, hdisk⟩ := write_eq_ok h
  refine ⟨path, st', hfound, hvisit, hreport, hdisk.symm, ?_⟩
  simp only [visitsOf, hfound, makeDirs_of_ok h]

-- ---------------------------------------------------------------------------
-- Induction
-- ---------------------------------------------------------------------------

section
variable {w : Writer}
  {P : String → Path → State → State → List Visit → Prop}
  {Q : String → List String → List String → State → List String → State → List Visit → Prop}

/-- Induction over a walk that succeeds. `P` is about the work on a module, `Q` about a part of the
names found in one, with what is kept before and after it. -/
theorem visit_induct
    (left : ∀ {module path st names st₁ kept st₂ st' vs},
      w.enter module path st = (.ok names, st₁) → Orderly st → Awaits st module →
      w.visitAll module names [] st₁ = (.ok kept, st₂) → Orderly st₂ → Settled st₂ →
      w.leave module path kept (st₂.inContext (·.pop)) = (.ok (), st') →
      Q module names [] st₁ kept st₂ vs →
      P module path st st' (vs ++ [⟨module, path, names, kept⟩]))
    (done : ∀ {module kept st}, Q module [] kept st kept st [])
    (passed : ∀ {module name names kept st edge kept' st' vs}, w.Meets st name edge →
      (∀ source, edge ≠ .descend source) → Orderly st → Settled st →
      w.visitAll module names (if edge.isKept then kept ++ [name] else kept)
        (w.settle module name edge st) = (.ok kept', st') →
      Q module names (if edge.isKept then kept ++ [name] else kept)
        (w.settle module name edge st) kept' st' vs →
      Q module (name :: names) kept st kept' st' vs)
    (descended : ∀ {module name names kept st source st₁ vs kept' st' vs'},
      w.Meets st name (.descend source) → Orderly st → Settled st →
      w.visit name source (w.settle module name (.descend source) st) = (.ok (), st₁) →
      Orderly st₁ → Settled st₁ →
      P name source (w.settle module name (.descend source) st) st₁ vs →
      w.visitAll module names (kept ++ [name]) st₁ = (.ok kept', st') →
      Q module names (kept ++ [name]) st₁ kept' st' vs' →
      Q module (name :: names) kept st kept' st' (vs ++ vs')) :
    (∀ module path st st', w.visit module path st = (.ok (), st') → Orderly st →
      Awaits st module →
      Orderly st' ∧ Settled st' ∧ P module path st st' (w.visits module path st)) ∧
    ∀ module names kept st kept' st', w.visitAll module names kept st = (.ok kept', st') →
      Orderly st → Settled st →
      Orderly st' ∧ Settled st' ∧
        Q module names kept st kept' st' (w.visitsAll module names st) := by
  have hwalk := w.walk_induct
    (P := fun module path st r => ∀ st', r = (.ok (), st') → Orderly st →
      Awaits st module →
      Orderly st' ∧ Settled st' ∧ P module path st st' (w.visits module path st))
    (Q := fun module names kept st r => ∀ kept' st', r = (.ok kept', st') →
      Orderly st → Settled st →
      Orderly st' ∧ Settled st' ∧
        Q module names kept st kept' st' (w.visitsAll module names st))
    ?refused ?failed ?left ?done ?passed ?stopped ?descended
  · exact ⟨fun module path st st' h => hwalk.1 module path st st' h,
      fun module names kept st kept' st' h => hwalk.2 module names kept st kept' st' h⟩
  case refused => rintro module path st e st₁ _ st' ⟨⟩
  case failed => rintro module path st names st₁ e st₂ _ _ _ st' ⟨⟩
  case stopped => rintro module name names kept st source e st₁ _ _ _ _ kept' st' ⟨⟩
  case left =>
    intro module path st names st₁ kept st₂ henter hall ih st' hleave horderly hwait
    obtain ⟨-, -, hcontext, -⟩ := enter_eq_ok henter
    obtain ⟨horderly₁, hsettled₁⟩ := horderly.enter hwait hcontext
    obtain ⟨horderly₂, hsettled₂, hQ⟩ := ih kept st₂ rfl horderly₁ hsettled₁
    have hwait₂ := horderly₂.awaits hsettled₂ hcontext (continues_visitAll hall) hwait
    obtain ⟨horderly', hsettled'⟩ := horderly₂.pop.leave hwait₂ hleave
    rw [visits_of_ok henter hall hleave]
    exact ⟨horderly', hsettled', left henter horderly hwait hall horderly₂ hsettled₂ hleave hQ⟩
  case done =>
    rintro module kept st kept' st' ⟨⟩ horderly hsettled
    rw [visitsAll_nil]
    exact ⟨horderly, hsettled, done⟩
  case passed =>
    intro module name names kept st edge r hmeets hedge hpass hall ih kept' st' hr horderly hsettled
    obtain ⟨horderly', hsettled', hQ⟩ :=
      ih kept' st' hr horderly.settle (hsettled.pass hpass)
    rw [visitsAll_of_pass hedge hpass]
    exact ⟨horderly', hsettled', passed hmeets hpass horderly hsettled (hall.trans hr) hQ⟩
  case descended =>
    intro module name names kept st source st₁ r hmeets hedge hvisit ih hall ih' kept' st' hr
      horderly hsettled
    have hwait : Awaits (w.settle module name (.descend source) st) name :=
      horderly.descend hsettled hmeets
    obtain ⟨horderly₁, hsettled₁, hP⟩ := ih st₁ rfl horderly.settle hwait
    obtain ⟨horderly', hsettled', hQ⟩ := ih' kept' st' hr horderly₁ hsettled₁
    rw [visitsAll_of_descend hedge hvisit]
    exact ⟨horderly', hsettled', descended hmeets horderly hsettled hvisit horderly₁ hsettled₁ hP
      (hall.trans hr) hQ⟩

end

-- ---------------------------------------------------------------------------
-- What a visit is
-- ---------------------------------------------------------------------------

/-- The visit is to the file that its module leads to, with the names of some text of that file, and
its record keeps names that lead to a file only. -/
structure Sound (w : Writer) (x : Visit) : Prop where
  found : w.resolver.resolve x.module = .found x.source
  scanned : ∃ bytes, x.names = (w.namesIn x.source x.module (Utf8.lossy bytes)).toList
  kept : ∀ n ∈ x.kept, n ∈ x.names ∧ w.resolver.Finds n

theorem sound_walk (w : Writer) :
    (∀ module path st st', w.visit module path st = (.ok (), st') → Orderly st →
      Awaits st module → Orderly st' ∧ Settled st' ∧
      (w.resolver.resolve module = .found path → ∀ x ∈ w.visits module path st, w.Sound x)) ∧
    ∀ module names kept st kept' st', w.visitAll module names kept st = (.ok kept', st') →
      Orderly st → Settled st → Orderly st' ∧ Settled st' ∧
      (∀ x ∈ w.visitsAll module names st, w.Sound x) ∧
      ∀ n ∈ kept', n ∈ kept ∨ n ∈ names ∧ w.resolver.Finds n := by
  refine w.visit_induct
    (P := fun module path _ _ vs => w.resolver.resolve module = .found path →
      ∀ x ∈ vs, w.Sound x)
    (Q := fun _ names kept _ kept' _ vs => (∀ x ∈ vs, w.Sound x) ∧
      ∀ n ∈ kept', n ∈ kept ∨ n ∈ names ∧ w.resolver.Finds n)
    ?left ?done ?passed ?descended
  case left =>
    rintro module path st names st₁ kept st₂ st' vs henter _ _ _ _ _ _ ⟨hvs, hkept⟩ hfound x hx
    obtain ⟨-, -, -, bytes, -, hnames⟩ := enter_eq_ok henter
    rcases List.mem_append.1 hx with hx | hx
    · exact hvs x hx
    · rw [List.mem_singleton.1 hx]
      exact ⟨hfound, ⟨bytes, hnames⟩, by simpa using hkept⟩
  case done => exact fun {_ _ _} => ⟨by simp, fun n hn => .inl hn⟩
  case passed =>
    rintro module name names kept st edge kept' st' vs hmeets hpass _ _ _ ⟨hvs, hkept⟩
    refine ⟨hvs, fun n hn => ?_⟩
    rcases hkept n hn with hn | ⟨hn, hfinds⟩
    · cases hmeets with
      | cut | excluded | unresolved => exact .inl (by simpa [Edge.isKept] using hn)
      | seen _ hfound | reused _ hfound =>
        refine (List.mem_append.1 hn).imp_right fun hn => ?_
        rw [List.mem_singleton.1 hn]
        exact ⟨List.mem_cons_self, _, hfound⟩
      | descend => exact absurd rfl (hpass _)
    · exact .inr ⟨List.mem_cons_of_mem _ hn, hfinds⟩
  case descended =>
    rintro module name names kept st source st₁ vs kept' st' vs' hmeets _ _ _ _ _ hvs _
      ⟨hvs', hkept⟩
    refine ⟨fun x hx => (List.mem_append.1 hx).elim (hvs hmeets.found x) (hvs' x), fun n hn => ?_⟩
    rcases hkept n hn with hn | ⟨hn, hfinds⟩
    · refine (List.mem_append.1 hn).imp_right fun hn => ?_
      rw [List.mem_singleton.1 hn]
      exact ⟨List.mem_cons_self, _, hmeets.found⟩
    · exact .inr ⟨List.mem_cons_of_mem _ hn, hfinds⟩

theorem sound_visitsOf {w : Writer} {d : Disk} {root : String} {report : Report} {st : State}
    (h : w.write d root = (.ok report, st)) : ∀ x ∈ w.visitsOf d root, w.Sound x := by
  obtain ⟨path, st', hfound, hvisit, -, -, hvisits⟩ := visitsOf_of_ok h
  obtain ⟨-, -, hsound⟩ :=
    w.sound_walk.1 root path _ st' hvisit (.start w d root) (awaits_start w d root)
  exact hvisits ▸ hsound hfound

/-- Every visit below a module is reached from it along the names found on the way, of which `R`
has those between modules in `M`. -/
theorem reached_walk (w : Writer) (M : String → Prop) (R : String → String → Prop) :
    (∀ module path st st', w.visit module path st = (.ok (), st') → Orderly st →
      Awaits st module → Orderly st' ∧ Settled st' ∧
      ((∀ x ∈ w.visits module path st, M x.module ∧ ∀ n ∈ x.names, M n → R x.module n) →
        M module ∧ ∀ x ∈ w.visits module path st, ReflTransGen R module x.module)) ∧
    ∀ module names kept st kept' st', w.visitAll module names kept st = (.ok kept', st') →
      Orderly st → Settled st → Orderly st' ∧ Settled st' ∧
      ((∀ x ∈ w.visitsAll module names st, M x.module ∧ ∀ n ∈ x.names, M n → R x.module n) →
        (∀ n ∈ names, M n → R module n) →
        ∀ x ∈ w.visitsAll module names st, ReflTransGen R module x.module) := by
  refine w.visit_induct
    (P := fun module _ _ _ vs => (∀ x ∈ vs, M x.module ∧ ∀ n ∈ x.names, M n → R x.module n) →
      M module ∧ ∀ x ∈ vs, ReflTransGen R module x.module)
    (Q := fun module names _ _ _ _ vs =>
      (∀ x ∈ vs, M x.module ∧ ∀ n ∈ x.names, M n → R x.module n) →
      (∀ n ∈ names, M n → R module n) → ∀ x ∈ vs, ReflTransGen R module x.module)
    ?left ?done ?passed ?descended
  case left =>
    intro module path st names st₁ kept st₂ st' vs _ _ _ _ _ _ _ hQ hvs
    simp only [List.forall_mem_append, List.forall_mem_singleton] at hvs ⊢
    obtain ⟨hvs, hm, hnames⟩ := hvs
    exact ⟨hm, hQ hvs hnames, .refl⟩
  case done =>
    intro module kept st _ _ x hx
    cases hx
  case passed =>
    intro module name names kept st edge kept' st' vs _ _ _ _ _ hQ hvs hnames
    exact hQ hvs fun n hn => hnames n (List.mem_cons_of_mem _ hn)
  case descended =>
    intro module name names kept st source st₁ vs kept' st' vs' _ _ _ _ _ _ hP _ hQ hvs hnames x hx
    obtain ⟨hvs, hvs'⟩ := List.forall_mem_append.1 hvs
    obtain ⟨hname, hbelow⟩ := hP hvs
    rcases List.mem_append.1 hx with hx | hx
    · exact .head (hnames name List.mem_cons_self hname) (hbelow x hx)
    · exact hQ hvs' (fun n hn => hnames n (List.mem_cons_of_mem _ hn)) x hx

theorem confined_visitsOf {w : Writer} {S : String → Prop} {d : Disk} {root : String}
    {report : Report} {st : State} (hS : w.Confined S) (hroot : S root)
    (h : w.write d root = (.ok report, st)) : ∀ x ∈ w.visitsOf d root, S x.module := by
  have hsound := sound_visitsOf h
  obtain ⟨path, st', hfound, hvisit, -, -, hvisits⟩ := visitsOf_of_ok h
  obtain ⟨-, -, hreached⟩ := (w.reached_walk w.resolver.Finds fun _ n => S n).1 root path _ st'
    hvisit (.start w d root) (awaits_start w d root)
  rw [← hvisits] at hreached
  obtain ⟨-, hreached⟩ := hreached fun x hx => by
    obtain ⟨hfound, ⟨bytes, hnames⟩, -⟩ := hsound x hx
    refine ⟨⟨_, hfound⟩, fun n hn => hS x.source x.module (Utf8.lossy bytes) n ?_⟩
    rwa [NameSet.mem_iff, ← hnames]
  intro x hx
  rcases ReflTransGen.cases_tail (hreached x hx) with heq | ⟨-, -, hmem⟩
  · exact heq ▸ hroot
  · exact hmem

/-- As long as no fragment has its place where a source is, a visit finds the names that its source
had from the start. -/
theorem scanned_walk {w : Writer} {S : String → Prop} {d : Disk} (hS : w.Confined S)
    (hd : d.Grounded) (ha : w.Apart S d) :
    (∀ module path st st', w.visit module path st = (.ok (), st') → Orderly st →
      Awaits st module → Orderly st' ∧ Settled st' ∧
      (S module → w.resolver.resolve module = .found path → w.Alike d st.disk →
        ∀ x ∈ w.visits module path st, ∃ bytes, d.read x.source = .ok bytes ∧
          x.names = (w.namesIn x.source x.module (Utf8.lossy bytes)).toList)) ∧
    ∀ module names kept st kept' st', w.visitAll module names kept st = (.ok kept', st') →
      Orderly st → Settled st → Orderly st' ∧ Settled st' ∧
      ((∀ n ∈ names, w.resolver.Finds n → S n) → w.Alike d st.disk →
        ∀ x ∈ w.visitsAll module names st, ∃ bytes, d.read x.source = .ok bytes ∧
          x.names = (w.namesIn x.source x.module (Utf8.lossy bytes)).toList) := by
  refine w.visit_induct
    (P := fun module path st _ vs => S module → w.resolver.resolve module = .found path →
      w.Alike d st.disk → ∀ x ∈ vs, ∃ bytes, d.read x.source = .ok bytes ∧
        x.names = (w.namesIn x.source x.module (Utf8.lossy bytes)).toList)
    (Q := fun _ names _ st _ _ vs => (∀ n ∈ names, w.resolver.Finds n → S n) →
      w.Alike d st.disk → ∀ x ∈ vs, ∃ bytes, d.read x.source = .ok bytes ∧
        x.names = (w.namesIn x.source x.module (Utf8.lossy bytes)).toList)
    ?left ?done ?passed ?descended
  case left =>
    intro module path st names st₁ kept st₂ st' vs henter _ _ _ _ _ _ hvs hm hfound halike x hx
    obtain ⟨-, hdisk, -⟩ := enter_eq_ok henter
    obtain ⟨bytes, hread, hnames, -, hin⟩ := halike.names henter hfound hS
    rcases List.mem_append.1 hx with hx | hx
    · exact hvs (fun n hn hfinds => (hin n hn hfinds).1) (hdisk ▸ halike) x hx
    · rw [List.mem_singleton.1 hx]
      exact ⟨bytes, hread, hnames⟩
  case done =>
    intro module kept st _ _ x hx
    cases hx
  case passed =>
    intro module name names kept st edge kept' st' vs _ _ _ _ _ hvs hnames halike
    exact hvs (fun n hn => hnames n (List.mem_cons_of_mem _ hn)) (by simpa using halike)
  case descended =>
    intro module name names kept st source st₁ vs kept' st' vs' hmeets _ _ hvisit _ _ hvs _ hvs'
      hnames halike x hx
    have hname := hnames name List.mem_cons_self ⟨source, hmeets.found⟩
    have halike₀ : w.Alike d (w.settle module name (.descend source) st).disk := by
      simpa using halike
    rcases List.mem_append.1 hx with hx | hx
    · exact hvs hname hmeets.found halike₀ x hx
    · have hsteady := steady_visit hvisit halike₀ hS hd ha hname
      exact hvs' (fun n hn => hnames n (List.mem_cons_of_mem _ hn)) (halike₀.trans hsteady.alike)
        x hx

section
variable {w : Writer} {d : Disk} {root : String} {report : Report} {st : State}

theorem scanned_visitsOf (hd : d.Grounded) (ha : w.Apart w.resolver.Finds (w.prepared d))
    (h : w.write d root = (.ok report, st)) :
    ∀ x ∈ w.visitsOf d root, ∃ bytes, (w.prepared d).read x.source = .ok bytes ∧
      x.names = (w.namesIn x.source x.module (Utf8.lossy bytes)).toList := by
  obtain ⟨path, st', hfound, hvisit, -, -, hvisits⟩ := visitsOf_of_ok h
  have hgrounded := (Disk.extends_makeDirs d w.outDir).grows.grounded hd
  obtain ⟨-, -, hscanned⟩ := (scanned_walk w.confined_finds hgrounded ha).1 root path _ st' hvisit
    (.start w d root) (awaits_start w d root)
  rw [hvisits]
  exact hscanned ⟨path, hfound⟩ hfound (.refl w _)

theorem dependsOn_visitsOf (hd : d.Grounded) (ha : w.Apart w.resolver.Finds (w.prepared d))
    (h : w.write d root = (.ok report, st)) :
    ∀ x ∈ w.visitsOf d root, ∀ n, w.DependsOn (w.prepared d) x.module n ↔
      n ∈ x.names ∧ w.resolver.Finds n := by
  intro x hx n
  have hfound := (sound_visitsOf h x hx).found
  obtain ⟨bytes, hread, hnames⟩ := scanned_visitsOf hd ha h x hx
  rw [hnames, ← NameSet.mem_iff]
  constructor
  · rintro ⟨path, bytes', hfound', hread', hn, hfinds⟩
    cases hfound.symm.trans hfound'
    cases hread.symm.trans hread'
    exact ⟨hn, hfinds⟩
  · rintro ⟨hn, hfinds⟩
    exact ⟨x.source, bytes, hfound, hread, hn, hfinds⟩

end

end Writer

end DesignDeps
