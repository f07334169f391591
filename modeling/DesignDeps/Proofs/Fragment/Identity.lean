import DesignDeps.Proofs.Fragment.Statements
import DesignDeps.Proofs.Walk.Output

/-!
# Fragments tell their records apart

Nothing is escaped in a fragment, but its lines keep the parts of the record separate: the first
empty line stands behind the rule of the object, whatever that rule begins with, and the line behind
it has the module, the variant and the source, with the first colon between names and source. So
records of which no name has a colon are equal if their texts are (`eq_of_render_eq`).

What the record does not have the text cannot tell: paths to sources that differ in bytes that are
no text (`render_strayByte`).
-/

namespace DesignDeps.Fragment

open Text

variable {r r' : Record}

-- ---------------------------------------------------------------------------
-- Cutting
-- ---------------------------------------------------------------------------

theorem append_cons_inj_of_first {α : Type} {c : α} {a b a' b' : List α}
    (h : a ++ c :: b = a' ++ c :: b') (ha : c ∉ a) (ha' : c ∉ a') : a = a' ∧ b = b' := by
  have hback : b.reverse ++ c :: a.reverse = b'.reverse ++ c :: a'.reverse := by
    simpa using congrArg List.reverse h
  obtain ⟨hb, ha⟩ := Writer.append_cut_inj hback (by simpa using ha) (by simpa using ha')
  exact ⟨List.reverse_injective ha, List.reverse_injective hb⟩

namespace Record

theorem lines_eq (r : Record) :
    ∃ rest, r.lines = r.objectLines ++ "" :: r.depLine :: rest :=
  ⟨"" :: (r.inclusionsLines ++ ["", r.assignmentLineOf false, r.assignmentLineOf true]), by
    simp [lines, otherLines]⟩

theorem empty_not_mem_objectLines (r : Record) : "" ∉ r.objectLines := by
  intro hmem
  rcases List.mem_append.1 hmem with hheader | hrule
  · unfold headerLines at hheader
    split at hheader
    · simp only [includeDirLines, List.mem_cons, List.not_mem_nil, or_false] at hheader
      rcases hheader with h | h | h <;> simpa using congrArg String.toList h
    · cases hheader
  · obtain ⟨e, -, h | ⟨d, -, h⟩⟩ := mem_ruleLines hrule
    · simp at h
    · simp [objectOf, depDir] at h

end Record

-- ---------------------------------------------------------------------------
-- Reading a record back
-- ---------------------------------------------------------------------------

theorem lines_eq_of_render_eq (h : Legible r) (h' : Legible r') (heq : r.render = r'.render) :
    r.lines = r'.lines := by
  have hpieces : r.lines.map String.toList ++ [[]] = r'.lines.map String.toList ++ [[]] := by
    rw [← pieces_unlines (h.lacks.lines (.inl rfl)), ← pieces_unlines (h'.lacks.lines (.inl rfl)),
      r.unlines_lines, r'.unlines_lines, heq]
  exact List.map_injective_iff.2 (fun _ _ => String.toList_inj.1)
    (List.append_cancel_right hpieces)

theorem depLine_eq_of_render_eq (h : Legible r) (h' : Legible r') (heq : r.render = r'.render) :
    r.depLine = r'.depLine := by
  obtain ⟨rest, hlines⟩ := r.lines_eq
  obtain ⟨rest', hlines'⟩ := r'.lines_eq
  have hcut := lines_eq_of_render_eq h h' heq
  rw [hlines, hlines'] at hcut
  exact (List.cons.inj (append_cons_inj_of_first hcut r.empty_not_mem_objectLines
    r'.empty_not_mem_objectLines).2).1

theorem parts_of_depLine_eq (heq : r.depLine = r'.depLine)
    (hm : ':' ∉ r.module.toList) (hm' : ':' ∉ r'.module.toList)
    (hv : ':' ∉ r.variant.toList ∧ '.' ∉ r.variant.toList)
    (hv' : ':' ∉ r'.variant.toList ∧ '.' ∉ r'.variant.toList) :
    r.module = r'.module ∧ r.variant = r'.variant ∧ r.source = r'.source := by
  have hcolon : ∀ {m v : String}, ':' ∉ m.toList → ':' ∉ v.toList →
      ':' ∉ (Record.fragmentOf m v).toList := fun hm hv => by
    simpa [Record.fragmentOf, Record.depDir] using ⟨hm, hv⟩
  have hlist : (Record.fragmentOf r.module r.variant).toList ++ ':' :: ' ' :: r.source.text.toList =
      (Record.fragmentOf r'.module r'.variant).toList ++ ':' :: ' ' :: r'.source.text.toList := by
    simpa [Record.depLine] using congrArg String.toList heq
  obtain ⟨hname, hsource⟩ :=
    append_cons_inj_of_first hlist (hcolon hm hv.1) (hcolon hm' hv'.1)
  obtain ⟨hmodule, hvariant⟩ := Writer.fragmentName_inj hv.2 hv'.2
    (fileName_of_nameIn (String.toList_inj.1 hname))
  have htext : r.source.text = r'.source.text := String.toList_inj.1 (List.cons.inj hsource).2
  refine ⟨hmodule, hvariant, ?_⟩
  cases hr : r.source
  cases hr' : r'.source
  simpa [hr, hr'] using htext

theorem eq_of_render_eq (h : Legible r) (h' : Legible r')
    (hm : ':' ∉ r.module.toList) (hm' : ':' ∉ r'.module.toList)
    (hv : ':' ∉ r.variant.toList ∧ '.' ∉ r.variant.toList)
    (hv' : ':' ∉ r'.variant.toList ∧ '.' ∉ r'.variant.toList) (heq : r.render = r'.render) :
    r = r' := by
  obtain ⟨hmodule, hvariant, hsource⟩ :=
    parts_of_depLine_eq (depLine_eq_of_render_eq h h' heq) hm hm' hv hv'
  have hdeps : r.dependencies = r'.dependencies := by
    rw [← prerequisites_render h, ← prerequisites_render h', hvariant, heq]
  cases r
  cases r'
  cases hmodule
  cases hvariant
  cases hsource
  cases hdeps
  rfl

-- ---------------------------------------------------------------------------
-- The theorem
-- ---------------------------------------------------------------------------

/-- Names are put together from word characters and dots, and variants are words. A source may be
called anything that stays on one line. -/
structure Worded (r : Record) : Prop where
  module : ∀ c ∈ r.module.toList, IsNameChar c
  source : '\n' ∉ r.source.text.toList
  variant : r.variant ≠ "" ∧ ∀ c ∈ r.variant.toList, isWord c = true
  dependencies : ∀ d ∈ r.dependencies, ∀ c ∈ d.toList, IsNameChar c

theorem not_mem_of_forall_isNameChar {name : String} (h : ∀ c ∈ name.toList, IsNameChar c)
    {c : Char} (hword : isWord c = false) (hdot : c ≠ '.') : c ∉ name.toList :=
  fun hc => (h c hc).ne hword hdot rfl

theorem Worded.not_mem_variant (h : Worded r) {c : Char} (hc : isWord c = false) :
    c ∉ r.variant.toList := by
  intro hmem
  rw [h.variant.2 c hmem] at hc
  cases hc

theorem Worded.legible (h : Worded r) : Legible r := by
  have hname : ∀ {name : String}, (∀ c ∈ name.toList, IsNameChar c) →
      '/' ∉ name.toList ∧ '\n' ∉ name.toList := fun hn =>
    ⟨not_mem_of_forall_isNameChar hn (by decide) (by decide),
      not_mem_of_forall_isNameChar hn (by decide) (by decide)⟩
  exact ⟨hname h.module, h.source, h.not_mem_variant (by decide),
    fun d hd => hname (h.dependencies d hd)⟩

theorem record_inj (h : Worded r) (h' : Worded r') : r.render = r'.render ↔ r = r' := by
  refine ⟨fun heq => ?_, congrArg Record.render⟩
  have hmodule : ∀ {r : Record}, Worded r → ':' ∉ r.module.toList := fun h =>
    not_mem_of_forall_isNameChar h.module (by decide) (by decide)
  have hvariant : ∀ {r : Record}, Worded r → ':' ∉ r.variant.toList ∧ '.' ∉ r.variant.toList :=
    fun h => ⟨h.not_mem_variant (by decide), h.not_mem_variant (by decide)⟩
  exact eq_of_render_eq h.legible h'.legible (hmodule h) (hmodule h') (hvariant h) (hvariant h') heq

theorem lossy_toUTF8 (s : String) : Utf8.lossy s.toUTF8 = s := by
  have htext : Utf8.strict? s.toUTF8 = some s := dif_pos s.isValidUTF8
  rw [Utf8.lossy, htext]
  rfl

theorem toUTF8_lossy {bytes : ByteArray} (h : bytes.IsValidUTF8) :
    (Utf8.lossy bytes).toUTF8 = bytes :=
  congrArg String.toUTF8 (lossy_toUTF8 (String.fromUTF8 bytes h))

/-- Two fragments have the same text only if they were made from the same module, variant and
dependencies, in the same order, and from the same source as far as it can be printed. That is all
of it where paths are texts. -/
theorem render_inj {q q' : Request} (h : Worded q.record) (h' : Worded q'.record) :
    (q.render = q'.render ↔ q.record = q'.record) ∧
    (q.source.IsValidUTF8 → q'.source.IsValidUTF8 → (q.render = q'.render ↔ q = q')) := by
  have hrecord : q.render = q'.render ↔ q.record = q'.record := record_inj h h'
  refine ⟨hrecord, fun hs hs' => ⟨fun heq => ?_, congrArg Request.render⟩⟩
  obtain ⟨hmodule, hsource, hvariant, hdeps⟩ := Record.mk.inj (hrecord.1 heq)
  have hbytes : q.source = q'.source := by
    rw [← toUTF8_lossy hs, ← toUTF8_lossy hs', Path.mk.inj hsource]
  cases q
  cases q'
  cases hmodule
  cases hbytes
  cases hvariant
  cases hdeps
  rfl

def oddHeader (source : String) : Request :=
  ⟨"defs.x.svh", source.toUTF8, "sim_1", ["a.svh", "b"]⟩

theorem render_inj_oddHeader :
    Worded (oddHeader "/s d/c: x\\").record ∧ Worded (oddHeader "/s d/c: x\\\\").record ∧
      (oddHeader "/s d/c: x\\").render ≠ (oddHeader "/s d/c: x\\\\").render := by
  have hmodule : ∀ c ∈ "defs.x.svh".toList, IsNameChar c := isNameChar_of_all (by decide)
  have hvariant : "sim_1" ≠ "" ∧ ∀ c ∈ "sim_1".toList, isWord c = true :=
    ⟨by decide, List.all_eq_true.1 (by decide)⟩
  have hdeps : ∀ d ∈ ["a.svh", "b"], ∀ c ∈ d.toList, IsNameChar c :=
    List.forall_mem_cons.2 ⟨isNameChar_of_all (by decide),
      List.forall_mem_singleton.2 (isNameChar_of_all (by decide))⟩
  have hworded : ∀ {source : String}, '\n' ∉ source.toList → Worded (oddHeader source).record := by
    intro source hsource
    refine ⟨hmodule, ?_, hvariant, hdeps⟩
    rwa [Request.record, oddHeader, lossy_toUTF8]
  have h : Worded (oddHeader "/s d/c: x\\").record := hworded (by decide)
  have h' : Worded (oddHeader "/s d/c: x\\\\").record := hworded (by decide)
  refine ⟨h, h', fun heq => ?_⟩
  have hutf8 : ∀ source, (oddHeader source).source.IsValidUTF8 := String.isValidUTF8
  have hsame := ((render_inj h h').2 (hutf8 _) (hutf8 _)).1 heq
  exact absurd (congrArg Request.source hsame) (by decide)

def strayByte (byte : UInt8) : Request :=
  ⟨"a", "a".toUTF8 ++ ⟨#[byte]⟩ ++ ".sv".toUTF8, "sim", []⟩

/-- Sources that differ in such a byte only have one text. -/
theorem render_strayByte :
    Worded (strayByte 0xff).record ∧ Worded (strayByte 0xfe).record ∧
      (strayByte 0xff).render = (strayByte 0xfe).render ∧ strayByte 0xff ≠ strayByte 0xfe := by
  have hrecord : ∀ byte ∈ [0xff, 0xfe],
      (strayByte byte).record = ⟨"a", ⟨"a\ufffd.sv"⟩, "sim", []⟩ := by
    decide +kernel
  have hworded : Worded ⟨"a", ⟨"a\ufffd.sv"⟩, "sim", []⟩ :=
    ⟨isNameChar_of_all (by decide), by decide, ⟨by decide, List.all_eq_true.1 (by decide)⟩, by simp⟩
  refine ⟨hrecord 0xff (by simp) ▸ hworded, hrecord 0xfe (by simp) ▸ hworded, ?_, fun heq => ?_⟩
  · rw [Request.render, Request.render, hrecord 0xff (by simp), hrecord 0xfe (by simp)]
  · exact absurd (congrArg Request.source heq) (by decide +kernel)

end DesignDeps.Fragment
