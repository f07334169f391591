import DesignDeps.Proofs.Extraction.Outlines
import DesignDeps.Proofs.Skeleton.Joins
import Mathlib

/-!
# The instances of texts put behind each other

No instantiation goes past the end of a statement, so a complete piece of a source has the instances
that it has alone, and so has what follows it (`instances_join`).
-/

namespace DesignDeps

open Text Skeleton

theorem NameSet.ext_mem {a b : NameSet} (h : ∀ n, n ∈ a ↔ n ∈ b) : a = b :=
  NameSet.ext_toList (a.ascending.eq_of_mem_iff b.ascending h)

/-- Everything up to the semicolon. -/
def Outline.body (o : Outline) : List Char :=
  o.module.text ++ (o.spacing ++ (o.name.text ++ (o.behind.text ++ '(' :: ')' :: o.close.text)))

theorem Outline.text_eq (o : Outline) : o.text = o.body ++ [';'] := by
  simp [text, ports, body]

theorem Outline.semicolon_not_mem (o : Outline) : ';' ∉ o.body := by
  have hword : ∀ w : Word, ';' ∉ w.text := fun w hmem => absurd (w.word _ hmem) (by decide)
  have hblank : ∀ b : Blanks, ';' ∉ b.text := fun b hmem => absurd (b.blank _ hmem) (by decide)
  cases hparams : o.params with
  | none => simp [body, spacing, hparams, hword, hblank]
  | some p => simp [body, spacing, hparams, EmptyParams.text, hword, hblank]

theorem Outline.isWord_head (o : Outline) : ∀ c ∈ o.text.head?, isWord c = true :=
  fun _ hc => o.module.head_append _ hc

namespace Dependencies

variable {s t m : List Char}

theorem isWord_of_ends (h : EndsStatement s) : ∀ c ∈ s.getLast?, isWord c = false := by
  intro c hc
  rcases endsStatement_iff.1 h with hblank | ⟨front, w, rfl, hw⟩
  · exact isWord_of_isBlank (hblank c (List.mem_of_getLast? hc))
  · rw [List.getLast?_append_of_ne_nil _ (by simp)] at hc
    rcases List.mem_cons.1 (List.mem_of_getLast? hc) with rfl | hc
    · decide
    · exact isWord_of_isBlank (hw c hc)

theorem outline_within {x z : List Char} {o : Outline} (h : EndsStatement s) (hx : x <:+ s)
    (ho : o.text = x ++ z) : x = [] ∨ z = [] := by
  rw [or_iff_not_imp_left]
  intro hne
  by_contra hz
  have hsemicolon : ';' ∉ x := by
    obtain ⟨z, c, rfl⟩ : ∃ init c, z = init ++ [c] :=
      ⟨_, _, (List.dropLast_append_getLast hz).symm⟩
    rw [o.text_eq, ← List.append_assoc] at ho
    obtain ⟨hbody, -⟩ := List.append_inj' ho rfl
    exact fun hmem => o.semicolon_not_mem (hbody ▸ List.mem_append_left z hmem)
  have hblank : ¬∀ c ∈ x, isBlank c = true := by
    obtain ⟨c, x, rfl⟩ := List.exists_cons_of_ne_nil hne
    intro hblank
    have hword := o.isWord_head c (by simp [ho])
    simp [isBlank_of_isWord hword] at hblank
  rcases endsStatement_iff.1 h with hs | ⟨front, w, rfl, hw⟩
  · exact hblank fun c hc => hs c (hx.subset hc)
  · rcases List.suffix_or_suffix_of_suffix hx (List.suffix_append front (';' :: w)) with hx | hx
    · rcases List.suffix_cons_iff.1 hx with rfl | hx
      · exact hsemicolon List.mem_cons_self
      · exact hblank fun c hc => hw c (hx.subset hc)
    · exact hsemicolon (hx.subset List.mem_cons_self)

theorem mem_findAll_append (h : EndsStatement s) :
    m ∈ instanceUse.findAll (s ++ t) ↔ m ∈ instanceUse.findAll s ∨ m ∈ instanceUse.findAll t := by
  simp only [mem_findAll_instanceUse]
  constructor
  · rintro ⟨front, behind, o, heq, hfront, rfl⟩
    rcases List.append_eq_append_iff.1 heq with ⟨x, rfl, rfl⟩ | ⟨x, rfl, hx⟩
    · refine .inr ⟨x, behind, o, rfl, fun c hc => hfront c ?_, rfl⟩
      simp [List.getLast?_append, Option.mem_def.1 hc]
    · -- It begins in front of `t`, with `x`.
      rcases List.append_eq_append_iff.1 hx with ⟨z, rfl, rfl⟩ | ⟨z, ho, rfl⟩
      · exact .inl ⟨front, z, o, rfl, hfront, rfl⟩
      · rcases outline_within h (List.suffix_append front x) ho with rfl | rfl
        · exact .inr ⟨[], behind, o, by simp [ho], by simp, rfl⟩
        · exact .inl ⟨front, [], o, by simp [ho], hfront, rfl⟩
  · rintro (⟨front, behind, o, rfl, hfront, rfl⟩ | ⟨front, behind, o, rfl, hfront, rfl⟩)
    · exact ⟨front, behind ++ t, o, by simp, hfront, rfl⟩
    · refine ⟨s ++ front, behind, o, by simp, fun c hc => ?_, rfl⟩
      cases front with
      | nil => exact isWord_of_ends h c (by simpa using hc)
      | cons d front =>
        rw [List.getLast?_append_of_ne_nil _ (by simp)] at hc
        exact hfront c hc

variable {module a b : String} {ps qs : List String}

theorem instances_append (ha : Complete a.toList) (hb : GroupsClosed b.toList) :
    (ofText module (a ++ b)).instances =
      (ofText module a).instances ∪ (ofText module b).instances := by
  refine NameSet.ext_mem fun n => ?_
  simp only [NameSet.mem_union, ofText, instancesOf, String.toList_append, ofText_append ha hb,
    NameSet.mem_ofList, List.mem_filter, List.mem_map, mem_findAll_append ha.ends]
  grind

theorem closed_join (hps : ∀ p ∈ ps, Complete p.toList) (hb : GroupsClosed b.toList) :
    GroupsClosed (String.join ps ++ b).toList := by
  induction ps with
  | nil => simpa [String.join] using hb
  | cons p ps ih =>
    obtain ⟨hp, hps⟩ := List.forall_mem_cons.1 hps
    simpa [String.append_assoc] using hp.closed_append (ih hps)

theorem mem_instances_join {n : String} (hps : ∀ p ∈ ps, Complete p.toList)
    (hb : GroupsClosed b.toList) :
    n ∈ (ofText module (String.join ps ++ b)).instances ↔
      (∃ p ∈ ps, n ∈ (ofText module p).instances) ∨ n ∈ (ofText module b).instances := by
  induction ps with
  | nil => simp [String.join]
  | cons p ps ih =>
    obtain ⟨hp, hps⟩ := List.forall_mem_cons.1 hps
    have hsplit : String.join (p :: ps) ++ b = p ++ (String.join ps ++ b) := by
      simp [String.append_assoc]
    rw [hsplit, instances_append hp (closed_join hps hb)]
    simp [ih hps, or_assoc]

/-- The instances behind a complete piece are the same as without it. So the order of complete
pieces does not matter, whatever follows them. -/
theorem instances_join (ha : Complete a.toList) (hb : GroupsClosed b.toList) :
    (ofText module (a ++ b)).instances =
      (ofText module a).instances ∪ (ofText module b).instances ∧
    ∀ ps qs : List String, ps.Perm qs → (∀ p ∈ ps, Complete p.toList) →
      (ofText module (String.join ps ++ b)).instances =
        (ofText module (String.join qs ++ b)).instances := by
  refine ⟨instances_append ha hb, fun ps qs hperm hps => NameSet.ext_mem fun n => ?_⟩
  have hqs : ∀ q ∈ qs, Complete q.toList := fun q hq => hps q (hperm.mem_iff.2 hq)
  simp [mem_instances_join hps hb, mem_instances_join hqs hb, hperm.mem_iff]

def fifoLine : String := "fifo #(.W(8)) u (.s(\"x\")); // ram r();\n"

def romLines : String := "rom v (.d(q[1]))\n;"

theorem instances_join_fifoLine :
    Complete fifoLine.toList ∧ GroupsClosed romLines.toList ∧
      (ofText "top" (fifoLine ++ romLines)).instances =
        (ofText "top" fifoLine).instances ∪ (ofText "top" romLines).instances := by
  have hstrip : strip fifoLine.toList = "fifo #(.W(8)) u (.s()); \n".toList := by cbv
  have hspace : spaceParams (strip fifoLine.toList) = "fifo  #(.W(8)) u (.s()); \n".toList := by cbv
  have hrom : spaceParams (strip romLines.toList) = romLines.toList := by cbv
  have ha : Complete fifoLine.toList := by
    refine ⟨by decide +kernel, ?_, ?_, ?_⟩
    · rw [hstrip]
      decide +kernel
    · rw [hstrip]
      decide +kernel
    · rw [GroupsClosed, hspace]
      decide +kernel
  have hb : GroupsClosed romLines.toList := by
    rw [GroupsClosed, hrom]
    decide +kernel
  exact ⟨ha, hb, (instances_join ha hb).1⟩

end Dependencies

end DesignDeps
