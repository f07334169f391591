import DesignDeps.Dependencies
import DesignDeps.Proofs.Text.Matches
import Mathlib

/-!
# Package references

An item is the longest run of word characters and stars behind a `::`. It is used up with its
reference, so a word that belongs to the item of one reference is not found as the package of
another: `isSeen` tells from the text in front of a `::` whether the word there is found, and
`packages_seen` that it tells right. In `a::W*b::V` the item of `a` is `W*b`, and `b` is not found
(`starred_unseen`); a word that stands behind neither `::` nor a star always is.
-/

namespace DesignDeps.Dependencies

open Text

-- ---------------------------------------------------------------------------
-- References
-- ---------------------------------------------------------------------------

section
variable {s t w rest item : List Char}

theorem isItemChar_of_isWord {c : Char} (h : isWord c = true) : isItemChar c = true := by
  simp [isItemChar, h]

theorem isWord_of_not_item {c : Char} (h : isItemChar c = false) : isWord c = false := by
  simp_all [isItemChar]

/-- `w::item` -/
structure IsReference (w item : List Char) : Prop where
  nonempty : w ≠ []
  word : ∀ c ∈ w, isWord c = true
  hasItem : item ≠ []
  item : ∀ c ∈ item, isItemChar c = true

theorem readPackage_eq_some_iff :
    readPackage s = some (w, rest) ↔
      ∃ item, s = w ++ ':' :: ':' :: (item ++ rest) ∧ IsReference w item ∧
        ∀ c ∈ rest.head?, isItemChar c = false := by
  simp only [readPackage, Option.bind_eq_bind, Option.bind_eq_some_iff, Prod.exists,
    Option.pure_def, Option.some.injEq, Prod.mk.injEq, after?_eq_some_iff]
  constructor
  · rintro ⟨_, s₁, hword, s₂, rfl, item, _, hitem, rfl, rfl⟩
    obtain ⟨rfl, hne, hw, -⟩ := append_of_run? hword
    obtain ⟨rfl, hine, hi, hrest⟩ := append_of_run? hitem
    exact ⟨item, rfl, ⟨hne, hw, hine, hi⟩, hrest⟩
  · rintro ⟨item, rfl, href, hrest⟩
    have hword : run? isWord (w ++ ':' :: ':' :: (item ++ rest)) =
        some (w, ':' :: ':' :: (item ++ rest)) :=
      run?_append href.nonempty href.word (by rintro _ ⟨⟩; decide)
    exact ⟨w, _, hword, item ++ rest, rfl, item, rest,
      run?_append href.hasItem href.item hrest, rfl, rfl⟩

theorem ledByWord_packageUse : packageUse.LedByWord where
  word h := by
    obtain ⟨item, rfl, href, -⟩ := readPackage_eq_some_iff.1 h
    exact ⟨_, rfl, href.nonempty, href.word, by rintro _ ⟨⟩; decide⟩
  later {c d s} hc _ hnone := by
    cases hread : packageUse.read (d :: s) with
    | none => rfl
    | some r =>
      obtain ⟨item, heq, href, hrest⟩ := readPackage_eq_some_iff.1 hread
      have hlonger : packageUse.read (c :: d :: s) = some (c :: r.1, r.2) :=
        readPackage_eq_some_iff.2 ⟨item, by rw [heq]; rfl, { href with
          nonempty := by simp
          word := List.forall_mem_cons.2 ⟨hc, href.word⟩ }, hrest⟩
      simp [hnone] at hlonger
  ends {s w rest} h := by
    obtain ⟨item, rfl, -, hrest⟩ := readPackage_eq_some_iff.1 h
    exact ⟨w ++ ':' :: ':' :: item, by simp, fun c _ _ d hd => isWord_of_not_item (hrest d hd)⟩

end

-- ---------------------------------------------------------------------------
-- What hides a reference
-- ---------------------------------------------------------------------------

/-- Whether the word at the end of a text is found where `::` and an item follow. It is hidden if it
belongs to the item of a reference that is found. The text is given with its last character
first. -/
def isSeen (back : List Char) : Bool :=
  back.head?.any isWord &&
    match _h : after? [':', ':'] (back.dropWhile isItemChar) with
    | none => true
    | some rest => !isSeen rest
termination_by back.length
decreasing_by
  have hlen := length_dropWhile_le isItemChar back
  rw [after?_eq_some_iff.1 _h] at hlen
  simp only [List.length_append, List.length_cons] at hlen
  omega

theorem isSeen_eq (back : List Char) :
    isSeen back = (back.head?.any isWord &&
      match after? [':', ':'] (back.dropWhile isItemChar) with
      | none => true
      | some rest => !isSeen rest) := by
  rw [isSeen]
  split <;> simp_all

section
variable {back front item rest s u w : List Char}

theorem isSeen_append (hne : w ≠ []) (hw : ∀ c ∈ w, isWord c = true) :
    isSeen (front ++ w).reverse =
      match after? [':', ':'] (front.reverse.dropWhile isItemChar) with
      | none => true
      | some rest => !isSeen rest := by
  have hitem : ∀ c ∈ w.reverse, isItemChar c = true :=
    fun c hc => isItemChar_of_isWord (hw c (List.mem_reverse.1 hc))
  have hhead : (w.reverse ++ front.reverse).head?.any isWord = true := by
    obtain ⟨init, c, rfl⟩ : ∃ init c, w = init ++ [c] :=
      ⟨_, _, (List.dropLast_append_getLast hne).symm⟩
    simpa using hw c (by simp)
  rw [List.reverse_append, isSeen_eq, hhead, List.dropWhile_append_of_pos hitem, Bool.true_and]

theorem isSeen_of_item (hne : w ≠ []) (hw : ∀ c ∈ w, isWord c = true)
    (hitem : ∀ c ∈ item, isItemChar c = true) :
    isSeen (front ++ ':' :: ':' :: item ++ w).reverse = !isSeen front.reverse := by
  have hrun : (item.reverse ++ ':' :: ':' :: front.reverse).dropWhile isItemChar =
      ':' :: ':' :: front.reverse :=
    dropWhile_run (fun c hc => hitem c (List.mem_reverse.1 hc)) (by rintro _ ⟨⟩; decide)
  have hdrop : (front ++ ':' :: ':' :: item).reverse.dropWhile isItemChar =
      ':' :: ':' :: front.reverse := by simpa using hrun
  rw [isSeen_append hne hw, hdrop]
  rfl

theorem isSeen_of_apart (hne : w ≠ []) (hw : ∀ c ∈ w, isWord c = true)
    (hfront : ∀ c ∈ front.getLast?, isItemChar c = false) (hcolons : ¬[':', ':'] <:+ front) :
    isSeen (front ++ w).reverse = true := by
  have hdrop : ([] ++ front.reverse).dropWhile isItemChar = front.reverse :=
    dropWhile_run (by simp) (by simpa using hfront)
  rw [List.nil_append] at hdrop
  rw [isSeen_append hne hw, hdrop]
  split
  · rfl
  · next rest hrest =>
    have hfront : front = rest.reverse ++ [':', ':'] := by
      simpa using congrArg List.reverse (after?_eq_some_iff.1 hrest)
    exact absurd (hfront ▸ List.suffix_append _ _) hcolons

theorem exists_word_of_isSeen (h : isSeen back = true) :
    ∃ front w, back.reverse = front ++ w ∧ w ≠ [] ∧ (∀ c ∈ w, isWord c = true) ∧
      ∀ c ∈ front.getLast?, isWord c = false := by
  refine ⟨(back.dropWhile isWord).reverse, (back.takeWhile isWord).reverse, ?_, fun hnil => ?_,
    fun c hc => List.mem_takeWhile_imp (List.mem_reverse.1 hc), fun c hc => ?_⟩
  · rw [← List.reverse_append, List.takeWhile_append_dropWhile]
  · rw [isSeen_eq] at h
    obtain ⟨c, hc, hword⟩ : ∃ c ∈ back.head?, isWord c = true := by
      simpa [Option.any_eq_true] using (Bool.and_eq_true_iff.1 h).1
    obtain ⟨cs, rfl⟩ := List.head?_eq_some_iff.1 hc
    simp [hword] at hnil
  · rw [List.getLast?_reverse] at hc
    simpa [Option.mem_def.1 hc] using List.head?_dropWhile_not isWord back

theorem exists_of_not_isSeen (hne : w ≠ []) (hw : ∀ c ∈ w, isWord c = true)
    (h : isSeen (front ++ w).reverse = false) :
    ∃ back item, front = back.reverse ++ ':' :: ':' :: item ∧
      (∀ c ∈ item, isItemChar c = true) ∧ isSeen back = true := by
  rw [isSeen_append hne hw] at h
  split at h
  · cases h
  · next back hback =>
    refine ⟨back, (front.reverse.takeWhile isItemChar).reverse, ?_,
      fun c hc => List.mem_takeWhile_imp (List.mem_reverse.1 hc), by simpa using h⟩
    have hfront := List.takeWhile_append_dropWhile (p := isItemChar) (l := front.reverse)
    rw [after?_eq_some_iff.1 hback] at hfront
    simpa using (congrArg List.reverse hfront).symm

theorem readPackage_of_item (hne : w ≠ []) (hw : ∀ c ∈ w, isWord c = true)
    (hitem : ∀ c ∈ item, isItemChar c = true) (hu : ∃ c ∈ u.head?, isItemChar c = true) :
    readPackage (w ++ ':' :: ':' :: (item ++ u)) = some (w, u.dropWhile isItemChar) := by
  obtain ⟨c, hc, hfirst⟩ := hu
  obtain ⟨u, rfl⟩ := List.head?_eq_some_iff.1 hc
  have htaken : ∀ d ∈ item ++ (c :: u).takeWhile isItemChar, isItemChar d = true := fun d hd =>
    (List.mem_append.1 hd).elim (hitem d) List.mem_takeWhile_imp
  refine readPackage_eq_some_iff.2 ⟨_, ?_, ⟨hne, hw, by simp [hfirst], htaken⟩, fun d hd => ?_⟩
  · simp [List.takeWhile_append_dropWhile]
  · simpa [Option.mem_def.1 hd] using List.head?_dropWhile_not isItemChar (c :: u)

theorem not_tries_of_item (hne : w ≠ []) (hw : ∀ c ∈ w, isWord c = true)
    (hitem : ∀ c ∈ item, isItemChar c = true) (hu : ∃ c ∈ u.head?, isItemChar c = true)
    (h : packageUse.Tries s (w ++ ':' :: ':' :: (item ++ u))) : ¬packageUse.Tries s u := by
  refine fun htries => htries.not_covered ledByWord_packageUse.consumes
    ⟨_, w, _, h, readPackage_of_item hne hw hitem hu, ⟨⟨w ++ ':' :: ':' :: item, by simp⟩, ?_⟩,
      List.dropWhile_suffix _, ?_⟩
  · intro heq
    have hlen := congrArg List.length heq
    simp only [List.length_append, List.length_cons] at hlen
    omega
  · obtain ⟨c, hc, hfirst⟩ := hu
    obtain ⟨u, rfl⟩ := List.head?_eq_some_iff.1 hc
    intro heq
    have hlen := length_dropWhile_le isItemChar u
    rw [List.dropWhile_cons_of_pos hfirst] at heq
    rw [heq, List.length_cons] at hlen
    omega

theorem exists_of_inside {x y : List Char} (href : IsReference w item)
    (hxy : x ++ y = w ++ ':' :: ':' :: item) (hx : x ≠ [])
    (hlast : ∀ c ∈ x.getLast?, isWord c = false) (hy : ∃ c ∈ y.head?, isWord c = true) :
    ∃ z, x = w ++ ':' :: ':' :: z ∧ item = z ++ y := by
  obtain ⟨d, hd, hword⟩ := hy
  obtain ⟨y, rfl⟩ := List.head?_eq_some_iff.1 hd
  rcases List.append_eq_append_iff.1 hxy with ⟨m, rfl, -⟩ | ⟨m, rfl, hm⟩
  · have hend : isWord (x.getLast hx) = true :=
      href.word _ (List.mem_append_left m (List.getLast_mem hx))
    simp [hlast _ (List.getLast?_eq_some_getLast hx)] at hend
  · match m with
    | [] =>
      cases hm
      cases hword
    | [_] =>
      cases hm
      cases hword
    | _ :: _ :: z =>
      cases hm
      exact ⟨z, rfl, rfl⟩

theorem exists_of_covered (h : packageUse.Covered (front ++ u) u)
    (hfront : ∀ c ∈ front.getLast?, isWord c = false) (hu : ∃ c ∈ u.head?, isWord c = true) :
    ∃ front' w' z rest', front = front' ++ (w' ++ ':' :: ':' :: z) ∧
      (∀ c ∈ z, isItemChar c = true) ∧
      packageUse.Tries (front ++ u) (w' ++ ':' :: ':' :: z ++ u) ∧
      packageUse.read (w' ++ ':' :: ':' :: z ++ u) = some (w', rest') := by
  obtain ⟨v, w', rest', hv, hread, ⟨⟨x, rfl⟩, hne⟩, ⟨y, rfl⟩, hend⟩ := h
  obtain ⟨item, hv', href, -⟩ := readPackage_eq_some_iff.1 hread
  obtain ⟨front', hfront'⟩ := hv.suffix ledByWord_packageUse.consumes
  have hx : x ≠ [] := by
    rintro rfl
    exact hne rfl
  have hy : y ≠ [] := by
    rintro rfl
    exact hend rfl
  obtain rfl : front = front' ++ x := by simpa [← List.append_assoc] using hfront'.symm
  have htaken : x ++ y = w' ++ ':' :: ':' :: item := by
    have hfull : x ++ y ++ rest' = w' ++ ':' :: ':' :: item ++ rest' := by
      simpa [List.append_assoc] using hv'
    exact List.append_cancel_right hfull
  obtain ⟨c, hc, hword⟩ := hu
  obtain ⟨z, rfl, rfl⟩ := exists_of_inside href htaken hx
    (by simpa [List.getLast?_append_of_ne_nil _ hx] using hfront)
    ⟨c, by simpa [List.head?_append_of_ne_nil _ hy] using hc, hword⟩
  exact ⟨front', w', z, rest', rfl, fun d hd => href.item d (List.mem_append_left y hd), hv, hread⟩

/-- A reference is read where `isSeen` says so. The induction is on what stands in front of it: the
reference that hides another one stands there. -/
theorem tries_iff_isSeen (hfront : ∀ c ∈ front.getLast?, isWord c = false)
    (hread : packageUse.read u = some (w, rest)) :
    packageUse.Tries (front ++ u) u ↔ isSeen (front ++ w).reverse = true := by
  induction hn : front.length using Nat.strong_induction_on generalizing front u w rest with
  | _ n ih =>
  obtain ⟨item, -, href, -⟩ := readPackage_eq_some_iff.1 hread
  obtain ⟨c, hc, hword⟩ := ledByWord_packageUse.isWord_head hread
  constructor
  · intro htries
    rw [← Bool.not_eq_false]
    intro hhidden
    obtain ⟨back, z, rfl, hz, hseen⟩ := exists_of_not_isSeen href.nonempty href.word hhidden
    obtain ⟨front', w', hback, hne, hw', hfront'⟩ := exists_word_of_isSeen hseen
    have hhead : ∃ c ∈ u.head?, isItemChar c = true := ⟨c, hc, isItemChar_of_isWord hword⟩
    have hlen : front'.length < n := by
      rw [← hn, hback]
      simp only [List.length_append, List.length_cons]
      omega
    have htries' := (ih _ hlen hfront' (readPackage_of_item hne hw' hz hhead) rfl).2
      (by simpa [← hback] using hseen)
    refine not_tries_of_item hne hw' hz hhead htries' ?_
    simpa [hback] using htries
  · intro hseen
    refine (Pattern.tries_or_covered ledByWord_packageUse.consumes
      (List.suffix_append front u)).resolve_right fun hcovered => ?_
    obtain ⟨front', w', z, rest', rfl, hz, hv, hread'⟩ :=
      exists_of_covered hcovered hfront ⟨c, hc, hword⟩
    rw [List.append_assoc front'] at hv
    have hlen : front'.length < n := by
      rw [← hn]
      simp only [List.length_append, List.length_cons]
      omega
    have hseen' :=
      (ih _ hlen (hv.begins_word ledByWord_packageUse hread') hread' rfl).1 hv
    have hhides : isSeen (front' ++ w' ++ ':' :: ':' :: z ++ w).reverse =
        !isSeen (front' ++ w').reverse := isSeen_of_item href.nonempty href.word hz
    rw [hseen', List.append_assoc front' w', hseen] at hhides
    cases hhides

-- ---------------------------------------------------------------------------
-- What is found
-- ---------------------------------------------------------------------------

/-- A whole word `w` stands behind `front`, and `::` and an item behind it. -/
structure StandsBehind (s front w : List Char) : Prop where
  nonempty : w ≠ []
  word : ∀ c ∈ w, isWord c = true
  begins : ∀ c ∈ front.getLast?, isWord c = false
  item : ∃ c behind, s = front ++ (w ++ ':' :: ':' :: c :: behind) ∧ isItemChar c = true

theorem mem_findAll_packageUse :
    w ∈ packageUse.findAll s ↔
      ∃ front, StandsBehind s front w ∧ isSeen (front ++ w).reverse = true := by
  rw [Pattern.mem_findAll_iff]
  constructor
  · rintro ⟨u, rest, htries, hread⟩
    obtain ⟨front, rfl⟩ := htries.suffix ledByWord_packageUse.consumes
    have hfront := htries.begins_word ledByWord_packageUse hread
    refine ⟨front, ?_, (tries_iff_isSeen hfront hread).1 htries⟩
    obtain ⟨item, rfl, href, -⟩ := readPackage_eq_some_iff.1 hread
    obtain ⟨c, item, rfl⟩ := List.exists_cons_of_ne_nil href.hasItem
    exact ⟨href.nonempty, href.word, hfront, c, item ++ rest, rfl, href.item c List.mem_cons_self⟩
  · rintro ⟨front, ⟨hne, hw, hfront, c, behind, rfl, hitem⟩, hseen⟩
    have hread : readPackage (w ++ ':' :: ':' :: ([] ++ c :: behind)) = some (w, _) :=
      readPackage_of_item hne hw (by simp) ⟨c, rfl, hitem⟩
    exact ⟨_, _, (tries_iff_isSeen hfront hread).2 hseen, hread⟩

variable {module text : String}

/-- A word in front of `::` is found where no reference that is found has it in its item, so always
where it stands behind neither `::` nor a star. -/
theorem packages_seen (h : StandsBehind text.toList front w) (hmodule : String.ofList w ≠ module)
    (hcolons : ¬[':', ':'] <:+ front) :
    (String.ofList w ∈ (ofText module text).packages ↔
      ∃ front', StandsBehind text.toList front' w ∧ isSeen (front' ++ w).reverse = true) ∧
    (front.getLast? ≠ some '*' → String.ofList w ∈ (ofText module text).packages) := by
  have hmem : String.ofList w ∈ (ofText module text).packages ↔
      ∃ front', StandsBehind text.toList front' w ∧ isSeen (front' ++ w).reverse = true := by
    simp [ofText, packagesOf, hmodule, String.ofList_inj, mem_findAll_packageUse]
  refine ⟨hmem, fun hstar => hmem.2 ⟨front, h, ?_⟩⟩
  refine isSeen_of_apart h.nonempty h.word (fun c hc => ?_) hcolons
  simp only [isItemChar, h.begins c hc, Bool.false_or, beq_eq_false_iff_ne]
  rintro rfl
  exact hstar hc

theorem packages_seen_item :
    StandsBehind "b::x a::W".toList "b::x ".toList "a".toList ∧
      "a" ∈ (ofText "top" "b::x a::W").packages := by
  have h : StandsBehind "b::x a::W".toList "b::x ".toList "a".toList :=
    ⟨by decide, List.all_eq_true.1 (by decide +kernel), by rintro _ ⟨⟩; decide, 'W', [],
      by decide +kernel, by decide +kernel⟩
  exact ⟨h, (packages_seen h (by decide) (by decide +kernel)).2 (by decide +kernel)⟩

/-- A star in an item takes the next word into it. -/
theorem starred_unseen :
    StandsBehind "a::W*b::V".toList "a::W*".toList "b".toList ∧
      ¬[':', ':'] <:+ "a::W*".toList ∧ "b" ≠ "top" ∧
      "b" ∉ (ofText "top" "a::W*b::V").packages := by
  have hfound : packageUse.findAll "a::W*b::V".toList = ["a".toList] := by cbv
  refine ⟨⟨by decide, List.all_eq_true.1 (by decide +kernel), by rintro _ ⟨⟩; decide, 'V', [],
    by decide +kernel, by decide +kernel⟩, by decide +kernel, by decide, ?_⟩
  simp only [ofText, packagesOf, hfound]
  simp

end

end DesignDeps.Dependencies
