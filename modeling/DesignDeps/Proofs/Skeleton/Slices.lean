import DesignDeps.Proofs.Skeleton.Groups
import DesignDeps.Proofs.Text.Bytes
import Mathlib.Data.List.Induction

/-!
# Collapsing by offsets

What collapsing keeps of a text are slices of it. `slices?` goes through the bytes of the text and
takes the slices by their offsets: from the last cut through an opening parenthesis or up to an
opening bracket, and from the last cut to the end. The offsets are always good (`collapse_slices`):
no slice is backward, ends behind the text or cuts a character in two, no counter goes below zero,
and what the slices hold is the collapsed text.
-/

namespace DesignDeps.Skeleton

open Text

-- ---------------------------------------------------------------------------
-- Slices
-- ---------------------------------------------------------------------------

/-- The bytes of a text from `start` up to `stop`, which is not among them. -/
structure Slice where
  start : Nat
  stop : Nat
  deriving DecidableEq

namespace Slice

def bytes (x : Slice) (s : String) : List UInt8 :=
  (bytesOf s).extract x.start x.stop

/-- The bytes of all slices, one behind the other. -/
def joined (s : String) (xs : List Slice) : List UInt8 :=
  xs.flatMap (·.bytes s)

/-- The slice can be taken: its ends are in order, in the text, and between characters. -/
structure Fits (x : Slice) (s : String) : Prop where
  ordered : x.start ≤ x.stop
  inside : x.stop ≤ s.utf8ByteSize
  startBoundary : String.Pos.Raw.IsValid s ⟨x.start⟩
  stopBoundary : String.Pos.Raw.IsValid s ⟨x.stop⟩

end Slice

-- ---------------------------------------------------------------------------
-- Going through the bytes
-- ---------------------------------------------------------------------------

/-- How far the bytes have been gone through: the slices taken, how many groups of either kind are
open, and where the text was cut last. -/
structure Scan where
  taken : List Slice
  parens : Nat
  brackets : Nat
  cut : Nat

namespace Scan

def start : Scan := ⟨[], 0, 0, 0⟩

def outside (x : Scan) : Bool :=
  x.parens == 0 && x.brackets == 0

def decrement? : Nat → Option Nat
  | 0 => none
  | n + 1 => some n

def step (x : Scan) (i : Nat) (b : UInt8) : Option Scan :=
  if b = '('.toUInt8 then
    some ⟨if x.outside then x.taken ++ [⟨x.cut, i + 1⟩] else x.taken, x.parens + 1,
      x.brackets, x.cut⟩
  else if b = '['.toUInt8 then
    some ⟨if x.outside then x.taken ++ [⟨x.cut, i⟩] else x.taken, x.parens, x.brackets + 1,
      x.cut⟩
  else if b = ')'.toUInt8 && x.parens != 0 then
    (decrement? x.parens).map fun n => ⟨x.taken, n, x.brackets, i⟩
  else if b = ']'.toUInt8 && x.brackets != 0 then
    (decrement? x.brackets).map fun n => ⟨x.taken, x.parens, n, i + 1⟩
  else some x

def run (x : Scan) (i : Nat) : List UInt8 → Option Scan
  | [] => some x
  | b :: bytes => (x.step i b).bind (·.run (i + 1) bytes)

end Scan

/-- The slices that collapsing puts together, unless a counter goes below zero on the way. -/
def slices? (s : String) : Option (List Slice) :=
  (Scan.start.run 0 (bytesOf s)).map fun x => x.taken ++ [⟨x.cut, s.utf8ByteSize⟩]

section
variable {s : String} {x : Scan} {y : Collapse} {u v w front rest : List Char} {c : Char}

theorem Scan.run_append {i : Nat} {bytes bytes' : List UInt8} :
    x.run i (bytes ++ bytes') = (x.run i bytes).bind (·.run (i + bytes.length) bytes') := by
  induction bytes generalizing x i with
  | nil => simp [run]
  | cons b bytes ih =>
    rw [List.cons_append, run, run, Option.bind_assoc]
    congr 1
    funext z
    rw [ih, List.length_cons, Nat.add_right_comm, Nat.add_assoc]

@[simp] theorem Scan.run_singleton {i : Nat} {b : UInt8} : x.run i [b] = x.step i b := by
  simp [run]

-- ---------------------------------------------------------------------------
-- Slices between characters
-- ---------------------------------------------------------------------------

theorem boundary_of_append (hs : s.toList = u ++ v) :
    String.Pos.Raw.IsValid s ⟨(encode u).length⟩ := by
  have hu : (encode u).length = (String.ofList u).utf8ByteSize := by
    rw [← length_bytesOf, bytesOf_eq, String.toList_ofList]
  refine String.Pos.Raw.isValid_iff_exists_append.2 ⟨.ofList u, .ofList v, ?_, ?_⟩
  · rw [← String.ofList_append, ← hs, String.ofList_toList]
  · rw [hu]
    rfl

theorem Slice.fits_of_append (hs : s.toList = u ++ (v ++ w)) :
    (⟨(encode u).length, (encode (u ++ v)).length⟩ : Slice).Fits s where
  ordered := by simp
  inside := by simp [← length_bytesOf, bytesOf_eq, hs]
  startBoundary := boundary_of_append hs
  stopBoundary := boundary_of_append (by rw [hs, List.append_assoc])

theorem Slice.bytes_of_append (hs : s.toList = u ++ (v ++ w)) :
    (⟨(encode u).length, (encode (u ++ v)).length⟩ : Slice).bytes s = encode v := by
  rw [bytes, bytesOf_eq, hs]
  simp

-- ---------------------------------------------------------------------------
-- One character
-- ---------------------------------------------------------------------------

theorem Scan.run_of_not_mark (hc : isGroupMark c = false) (x : Scan) (i : Nat) :
    x.run i (String.utf8EncodeChar c) = some x := by
  have hplain : ∀ b ∈ String.utf8EncodeChar c, ∀ j, x.step j b = some x := by
    intro b hb j
    have hne {d : Char} (hd : d.val.toNat < 0x80) (hmark : isGroupMark d = true) :
        b ≠ d.toUInt8 := by
      rintro rfl
      rw [eq_of_toUInt8_mem hd hb, hmark] at hc
      cases hc
    have h₁ : b ≠ '('.toUInt8 := hne (by decide) (by decide)
    have h₂ : b ≠ '['.toUInt8 := hne (by decide) (by decide)
    have h₃ : b ≠ ')'.toUInt8 := hne (by decide) (by decide)
    have h₄ : b ≠ ']'.toUInt8 := hne (by decide) (by decide)
    simp [step, h₁, h₂, h₃, h₄]
  generalize String.utf8EncodeChar c = bytes at hplain
  induction bytes generalizing i with
  | nil => rfl
  | cons b bytes ih =>
    obtain ⟨hb, hbytes⟩ := List.forall_mem_cons.1 hplain
    rw [run, hb i, Option.bind_some]
    exact ih (i + 1) hbytes

/-- What has been made of the characters `front` of a text, by offsets and by characters. -/
structure Mirrors (s : String) (front : List Char) (x : Scan) (y : Collapse) : Prop where
  parens : x.parens = y.parens
  brackets : x.brackets = y.brackets
  pending : ∃ settled, front = settled ++ y.pending.reverse ∧ x.cut = (encode settled).length
  fits : ∀ z ∈ x.taken, z.Fits s
  kept : Slice.joined s x.taken = encode y.kept.reverse

theorem Mirrors.outside (h : Mirrors s front x y) : x.outside = y.outside := by
  rw [Scan.outside, Collapse.outside, h.parens, h.brackets]

theorem Mirrors.slice (h : Mirrors s front x y) (hs : s.toList = front ++ rest) :
    (⟨x.cut, (encode front).length⟩ : Slice).Fits s ∧
      (⟨x.cut, (encode front).length⟩ : Slice).bytes s = encode y.pending.reverse := by
  obtain ⟨settled, hfront, hcut⟩ := h.pending
  rw [hfront, List.append_assoc] at hs
  rw [hcut, hfront]
  exact ⟨Slice.fits_of_append hs, Slice.bytes_of_append hs⟩

theorem Mirrors.take (h : Mirrors s front x y) (hs : s.toList = front ++ rest) :
    (∀ z ∈ x.taken ++ [⟨x.cut, (encode front).length⟩], z.Fits s) ∧
      Slice.joined s (x.taken ++ [⟨x.cut, (encode front).length⟩]) =
        encode (y.pending ++ y.kept).reverse := by
  obtain ⟨hfits, hbytes⟩ := h.slice hs
  constructor
  · intro z hz
    rcases List.mem_append.1 hz with hz | hz
    · exact h.fits z hz
    · exact List.mem_singleton.1 hz ▸ hfits
  · have hkept := h.kept
    rw [Slice.joined] at hkept ⊢
    simp [hkept, hbytes]

theorem Mirrors.pass (h : Mirrors s front x y) (c : Char) :
    Mirrors s (front ++ [c]) x { y with pending := c :: y.pending } := by
  obtain ⟨settled, hfront, hcut⟩ := h.pending
  exact { h with pending := ⟨settled, by simp [hfront], hcut⟩ }

theorem Mirrors.opens (h : Mirrors s front x y) {z : Slice} {kept : List Char} {n m : Nat}
    (hfits : ∀ z' ∈ x.taken ++ [z], z'.Fits s)
    (hkept : Slice.joined s (x.taken ++ [z]) = encode kept.reverse) :
    Mirrors s (front ++ [c]) ⟨if x.outside then x.taken ++ [z] else x.taken, n, m, x.cut⟩
      ⟨if y.outside then kept else y.kept, c :: y.pending, n, m⟩ := by
  rw [h.outside]
  cases y.outside with
  | true => exact ⟨rfl, rfl, (h.pass c).pending, hfits, hkept⟩
  | false => exact ⟨rfl, rfl, (h.pass c).pending, h.fits, h.kept⟩

theorem Mirrors.openParen (h : Mirrors s front x y) (hs : s.toList = front ++ '(' :: rest) :
    ∃ x', x.step (encode front).length '('.toUInt8 = some x' ∧
      Mirrors s (front ++ ['(']) x' (y.step '(') := by
  have hthrough : s.toList = (front ++ ['(']) ++ rest := by simpa using hs
  obtain ⟨hfits, hkept⟩ := (h.pass '(').take hthrough
  rw [length_encode_concat_ascii (by decide)] at hfits hkept
  refine ⟨_, rfl, ?_⟩
  rw [h.parens, h.brackets]
  exact h.opens hfits hkept

theorem Mirrors.openBracket (h : Mirrors s front x y) (hs : s.toList = front ++ '[' :: rest) :
    ∃ x', x.step (encode front).length '['.toUInt8 = some x' ∧
      Mirrors s (front ++ ['[']) x' (y.step '[') := by
  obtain ⟨hfits, hkept⟩ := h.take hs
  refine ⟨_, rfl, ?_⟩
  rw [h.parens, h.brackets]
  exact h.opens hfits hkept

theorem Mirrors.closeParen (h : Mirrors s front x y) :
    ∃ x', x.step (encode front).length ')'.toUInt8 = some x' ∧
      Mirrors s (front ++ [')']) x' (y.step ')') := by
  cases hparens : y.parens with
  | zero =>
    have hstep : y.step ')' = { y with pending := ')' :: y.pending } := by
      simp [Collapse.step, hparens]
    rw [hstep]
    exact ⟨x, by simp +decide [Scan.step, h.parens, hparens], h.pass ')'⟩
  | succ n =>
    have hstep : y.step ')' = ⟨y.kept, [')'], n, y.brackets⟩ := by
      simp [Collapse.step, hparens]
    rw [hstep]
    refine ⟨⟨x.taken, n, x.brackets, (encode front).length⟩, ?_, rfl, h.brackets,
      ⟨front, rfl, rfl⟩, h.fits, h.kept⟩
    simp +decide [Scan.step, h.parens, hparens, Scan.decrement?]

theorem Mirrors.closeBracket (h : Mirrors s front x y) :
    ∃ x', x.step (encode front).length ']'.toUInt8 = some x' ∧
      Mirrors s (front ++ [']']) x' (y.step ']') := by
  cases hbrackets : y.brackets with
  | zero =>
    have hstep : y.step ']' = { y with pending := ']' :: y.pending } := by
      simp [Collapse.step, hbrackets]
    rw [hstep]
    exact ⟨x, by simp +decide [Scan.step, h.brackets, hbrackets], h.pass ']'⟩
  | succ n =>
    have hstep : y.step ']' = ⟨y.kept, [], y.parens, n⟩ := by
      simp [Collapse.step, hbrackets]
    rw [hstep]
    refine ⟨⟨x.taken, x.parens, n, (encode front).length + 1⟩, ?_, h.parens, rfl,
      ⟨front ++ [']'], by simp, (length_encode_concat_ascii (by decide)).symm⟩, h.fits, h.kept⟩
    simp +decide [Scan.step, h.brackets, hbrackets, Scan.decrement?]

theorem Mirrors.step (h : Mirrors s front x y) (hs : s.toList = front ++ c :: rest) :
    ∃ x', x.run (encode front).length (String.utf8EncodeChar c) = some x' ∧
      Mirrors s (front ++ [c]) x' (y.step c) := by
  cases hmark : isGroupMark c with
  | false =>
    rw [Collapse.step_of_not_mark hmark]
    exact ⟨x, Scan.run_of_not_mark hmark x _, h.pass c⟩
  | true =>
    have hc : c = '(' ∨ c = ')' ∨ c = '[' ∨ c = ']' := by
      simpa [isGroupMark, or_assoc] using hmark
    rcases hc with rfl | rfl | rfl | rfl <;>
      rw [utf8EncodeChar_ascii (by decide), Scan.run_singleton]
    · exact h.openParen hs
    · exact h.closeParen
    · exact h.openBracket hs
    · exact h.closeBracket

theorem mirrors_run (hs : s.toList = front ++ rest) :
    ∃ x, Scan.start.run 0 (encode front) = some x ∧
      Mirrors s front x (front.foldl Collapse.step .start) := by
  induction front using List.reverseRecOn generalizing rest with
  | nil => exact ⟨.start, rfl, rfl, rfl, ⟨[], rfl, rfl⟩, by simp [Scan.start], rfl⟩
  | append_singleton front c ih =>
    rw [List.append_assoc] at hs
    obtain ⟨x, hrun, hmirrors⟩ := ih hs
    obtain ⟨x', hstep, hmirrors'⟩ := hmirrors.step hs
    refine ⟨x', ?_, by rwa [List.foldl_append]⟩
    rw [encode_append, Scan.run_append, hrun, Option.bind_some, Nat.zero_add]
    simpa using hstep

/-- For every text the slices can be taken and no counter goes below zero. Put together, the slices
are the collapsed text. -/
theorem collapse_slices (s : String) :
    ∃ slices, slices? s = some slices ∧ (∀ x ∈ slices, x.Fits s) ∧
      Slice.joined s slices = encode (collapse s.toList) := by
  have hs : s.toList = s.toList ++ [] := (List.append_nil _).symm
  obtain ⟨x, hrun, hmirrors⟩ := mirrors_run hs
  obtain ⟨hfits, hjoined⟩ := hmirrors.take hs
  refine ⟨_, ?_, hfits, hjoined⟩
  rw [slices?, bytesOf_eq, hrun, Option.map_some, ← bytesOf_eq, length_bytesOf]

end

def accented : String := "é[ß(] x) u(y"

theorem collapse_slices_accented :
    slices? accented = some [⟨0, 2⟩, ⟨9, 13⟩, ⟨9, 14⟩] ∧ (⟨9, 13⟩ : Slice).Fits accented ∧
      Slice.joined accented [⟨0, 2⟩, ⟨9, 13⟩, ⟨9, 14⟩] = encode (collapse accented.toList) := by
  have htaken : slices? accented = some [⟨0, 2⟩, ⟨9, 13⟩, ⟨9, 14⟩] := by decide +kernel
  obtain ⟨slices, hslices, hfits, hjoined⟩ := collapse_slices accented
  obtain rfl := Option.some.inj (htaken.symm.trans hslices)
  exact ⟨htaken, hfits _ (by simp), hjoined⟩

end DesignDeps.Skeleton
