import DesignDeps.Text.Order
import Mathlib.Algebra.Group.Nat.Defs
import Mathlib.Data.List.Basic
import Mathlib.Order.Basic

/-!
# Texts as bytes

`lt_iff_bytesOf_lt`: texts are ordered by their characters as they are by their bytes in UTF-8. A
greater character has more bytes, or as many and greater digits in them, the highest digits first.
-/

namespace DesignDeps.Text

def bytesOf (s : String) : List UInt8 :=
  s.toUTF8.data.toList

/-- The bytes of characters. -/
def encode (s : List Char) : List UInt8 :=
  s.flatMap String.utf8EncodeChar

@[simp] theorem encode_nil : encode [] = [] := rfl

@[simp] theorem encode_cons (c : Char) (s : List Char) :
    encode (c :: s) = String.utf8EncodeChar c ++ encode s := rfl

@[simp] theorem encode_append (s t : List Char) : encode (s ++ t) = encode s ++ encode t :=
  List.flatMap_append

theorem bytesOf_eq (s : String) : bytesOf s = encode s.toList := by
  rw [bytesOf, String.toUTF8_eq_toByteArray, ← String.utf8Encode_toList, List.utf8Encode,
    List.data_toByteArray, encode]

theorem length_bytesOf (s : String) : (bytesOf s).length = s.utf8ByteSize := rfl

-- ---------------------------------------------------------------------------
-- Single characters
-- ---------------------------------------------------------------------------

theorem ofNat_lt_ofNat {m n : Nat} (hn : n < 256) (h : m < n) : UInt8.ofNat m < UInt8.ofNat n :=
  (UInt8.ofNat_lt_iff_lt (Nat.lt_trans h hn) hn).2 h

def trailing : Nat → Nat → List UInt8
  | 0, _ => []
  | k + 1, n => trailing k (n / 64) ++ [UInt8.ofNat (n % 64 + 0x80)]

theorem trailing_lt {m n : Nat} (k : Nat) (h : m < n) (s t : List UInt8) :
    m / 64 ^ k < n / 64 ^ k ∨
      m / 64 ^ k = n / 64 ^ k ∧ trailing k m ++ s < trailing k n ++ t := by
  induction k generalizing m n s t with
  | zero => simp [h]
  | succ k ih =>
    simp only [Nat.pow_succ', ← Nat.div_div_eq_div_mul, trailing, List.append_assoc]
    have hdigit : m / 64 < n / 64 ∨ m / 64 = n / 64 ∧ m % 64 < n % 64 := by omega
    rcases hdigit with hlt | ⟨heq, hlt⟩
    · exact ih hlt _ _
    · have hbyte : UInt8.ofNat (m % 64 + 0x80) < UInt8.ofNat (n % 64 + 0x80) :=
        ofNat_lt_ofNat (by omega) (by omega)
      rw [heq]
      exact .inr ⟨rfl, List.append_left_lt (List.Lex.rel hbyte)⟩

/-- How many bytes follow the first byte of a character, and the mark that tells so. -/
inductive Lead (n : Nat) : Nat → Nat → Prop
  | one : n < 0x80 → Lead n 0 0
  | two : 0x80 ≤ n → n < 0x800 → Lead n 1 0xc0
  | three : 0x800 ≤ n → n < 0x10000 → Lead n 2 0xe0
  | four : 0x10000 ≤ n → n < 0x110000 → Lead n 3 0xf0

theorem toNat_val_lt (c : Char) : c.val.toNat < 0x110000 := by
  rcases c.valid with h | h
  · exact Nat.lt_trans h (by decide)
  · exact h.2

theorem exists_lead (c : Char) :
    ∃ k mark, Lead c.val.toNat k mark ∧ String.utf8EncodeChar c =
      UInt8.ofNat (c.val.toNat / 64 ^ k + mark) :: trailing k c.val.toNat := by
  have hvalid := toNat_val_lt c
  unfold String.utf8EncodeChar
  dsimp only
  generalize c.val.toNat = n at hvalid
  split_ifs
  · exact ⟨0, _, .one (by omega), by simp [trailing]⟩
  · refine ⟨1, _, .two (by omega) (by omega), ?_⟩
    have hdigit : n / 64 % 32 = n / 64 := Nat.mod_eq_of_lt (by omega)
    simp [trailing, hdigit]
  · refine ⟨2, _, .three (by omega) (by omega), ?_⟩
    have hdigit : n / 4096 % 16 = n / 4096 := Nat.mod_eq_of_lt (by omega)
    simp [trailing, hdigit]
  · refine ⟨3, _, .four (by omega) (by omega), ?_⟩
    have hdigit : n / 262144 % 8 = n / 262144 := Nat.mod_eq_of_lt (by omega)
    simp [trailing, Nat.div_div_eq_div_mul, hdigit]

theorem utf8EncodeChar_append_lt {c d : Char} (h : c < d) (s t : List UInt8) :
    String.utf8EncodeChar c ++ s < String.utf8EncodeChar d ++ t := by
  obtain ⟨k, mark, hc, heq⟩ := exists_lead c
  obtain ⟨k', mark', hd, heq'⟩ := exists_lead d
  have hlt : c.val.toNat < d.val.toNat := h
  rw [heq, heq', List.cons_append, List.cons_append, List.cons_lt_cons_iff]
  generalize c.val.toNat = m at *
  generalize d.val.toNat = n at *
  have hbyte : n / 64 ^ k' + mark' < 256 := by
    cases hd <;> omega
  by_cases hk : k = k' ∧ mark = mark'
  · obtain ⟨rfl, rfl⟩ := hk
    rcases trailing_lt k hlt s t with hfirst | ⟨hfirst, hrest⟩
    · exact .inl (ofNat_lt_ofNat hbyte (by omega))
    · exact .inr ⟨by rw [hfirst], hrest⟩
  · -- The marks of longer characters are above all first bytes of the shorter ones.
    refine .inl (ofNat_lt_ofNat hbyte ?_)
    cases hc <;> cases hd <;> simp at * <;> omega

theorem le_of_mem_trailing {b : UInt8} {n : Nat} (k : Nat) (h : b ∈ trailing k n) :
    0x80 ≤ b.toNat := by
  induction k generalizing n with
  | zero => cases h
  | succ k ih =>
    rcases List.mem_append.1 h with h | h
    · exact ih h
    · rw [List.mem_singleton.1 h, UInt8.toNat_ofNat']
      omega

theorem utf8EncodeChar_ascii {c : Char} (h : c.val.toNat < 0x80) :
    String.utf8EncodeChar c = [c.toUInt8] := by
  have hsize : c.utf8Size = 1 :=
    Char.utf8Size_eq_one_iff.2 (UInt32.le_iff_toNat_le.2 (Nat.le_of_lt_succ h))
  exact String.utf8EncodeChar_eq_singleton hsize

theorem eq_of_toUInt8_mem {c d : Char} (hd : d.val.toNat < 0x80)
    (h : d.toUInt8 ∈ String.utf8EncodeChar c) : c = d := by
  have hbyte : d.toUInt8.toNat = d.val.toNat := by
    rw [Char.toUInt8, UInt32.toNat_toUInt8]
    omega
  obtain ⟨k, mark, hlead, heq⟩ := exists_lead c
  rw [heq] at h
  rcases List.mem_cons.1 h with h | h
  · have hfirst : (UInt8.ofNat (c.val.toNat / 64 ^ k + mark)).toNat = d.val.toNat := by
      rw [← h, hbyte]
    rw [UInt8.toNat_ofNat'] at hfirst
    cases hlead with
    | one => exact Char.ext (UInt32.toNat_inj.1 (by omega))
    | two => omega
    | three => omega
    | four => omega
  · have := le_of_mem_trailing k h
    omega

theorem length_encode_concat_ascii {s : List Char} {c : Char} (h : c.val.toNat < 0x80) :
    (encode (s ++ [c])).length = (encode s).length + 1 := by
  simp [utf8EncodeChar_ascii h]

-- ---------------------------------------------------------------------------
-- Texts
-- ---------------------------------------------------------------------------

theorem encode_lt_encode {s t : List Char} (h : s < t) : encode s < encode t := by
  induction h with
  | @nil d t =>
    obtain ⟨k, mark, -, heq⟩ := exists_lead d
    rw [encode_cons, heq, List.cons_append]
    exact List.nil_lt_cons _ _
  | cons _ ih => exact List.append_left_lt ih
  | rel hlt => exact utf8EncodeChar_append_lt hlt _ _

theorem lt_iff_bytesOf_lt {s t : String} : s < t ↔ bytesOf s < bytesOf t := by
  have hmono : ∀ {s t : String}, s < t → bytesOf s < bytesOf t := fun {s t} h => by
    rw [bytesOf_eq, bytesOf_eq]
    exact encode_lt_encode h
  refine ⟨hmono, fun h => ?_⟩
  by_contra hnot
  by_cases heq : s = t
  · exact List.lt_irrefl _ (heq ▸ h)
  · exact List.lt_asymm h (hmono (lt_of_not_lt_of_ne hnot heq))

end DesignDeps.Text
