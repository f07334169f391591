/-!
# Reading bytes as text

Files are bytes. Where a text must be well formed, `strict?` refuses the rest; where any file has to
be read, `lossy` puts U+FFFD in place of every longest run of bytes that begins a character without
completing it, and of every byte that begins none. Both agree on well-formed bytes.
-/

namespace DesignDeps.Text.Utf8

def continuation? (low high : UInt8) : List UInt8 → Option (Nat × List UInt8)
  | [] => none
  | b :: rest => if low ≤ b && b ≤ high then some (b.toNat % 64, rest) else none

/-- For the first byte of a longer character: its bits, the range of the second byte, and how many
bytes follow that one. The narrowed ranges keep out overlong forms, surrogates and code points above
U+10FFFF. -/
def lead? (b : UInt8) : Option (Nat × UInt8 × UInt8 × Nat) :=
  if 0xc2 ≤ b && b ≤ 0xdf then some (b.toNat % 32, 0x80, 0xbf, 0)
  else if b == 0xe0 then some (0, 0xa0, 0xbf, 1)
  else if b == 0xed then some (13, 0x80, 0x9f, 1)
  else if 0xe1 ≤ b && b ≤ 0xef then some (b.toNat % 16, 0x80, 0xbf, 1)
  else if b == 0xf0 then some (0, 0x90, 0xbf, 2)
  else if 0xf1 ≤ b && b ≤ 0xf3 then some (b.toNat % 8, 0x80, 0xbf, 2)
  else if b == 0xf4 then some (4, 0x80, 0x8f, 2)
  else none

/-- The last `n` bytes of a character whose earlier bits are `bits`. -/
def finish : Nat → Nat → List UInt8 → Option Char × List UInt8
  | 0, bits, bytes => (some (Char.ofNat bits), bytes)
  | n + 1, bits, bytes =>
    match continuation? 0x80 0xbf bytes with
    | none => (none, bytes)
    | some (low, rest) => finish n (bits * 64 + low) rest

/-- The character that begins with `b`, or none, and the bytes not used up. -/
def character (b : UInt8) (bytes : List UInt8) : Option Char × List UInt8 :=
  if b < 0x80 then (some (Char.ofNat b.toNat), bytes)
  else
    match lead? b with
    | none => (none, bytes)
    | some (bits, low, high, more) =>
      match continuation? low high bytes with
      | none => (none, bytes)
      | some (second, rest) => finish more (bits * 64 + second) rest

private theorem length_continuation? {low high : UInt8} {bytes rest : List UInt8} {n : Nat}
    (h : continuation? low high bytes = some (n, rest)) : rest.length < bytes.length := by
  cases bytes with
  | nil => simp [continuation?] at h
  | cons b bs =>
    simp only [continuation?] at h
    split at h
    · simp only [Option.some.injEq, Prod.mk.injEq] at h
      simp [h.2]
    · simp at h

private theorem length_finish (n bits : Nat) (bytes : List UInt8) :
    (finish n bits bytes).2.length ≤ bytes.length := by
  induction n generalizing bits bytes with
  | zero => simp [finish]
  | succ n ih =>
    simp only [finish]
    split
    · simp
    · next low rest h => exact Nat.le_trans (ih _ _) (Nat.le_of_lt (length_continuation? h))

theorem length_character (b : UInt8) (bytes : List UInt8) :
    (character b bytes).2.length ≤ bytes.length := by
  unfold character
  split
  · simp
  · split
    · simp
    · split
      · simp
      · next h => exact Nat.le_trans (length_finish _ _ _) (Nat.le_of_lt (length_continuation? h))

def lossyChars : List UInt8 → List Char
  | [] => []
  | b :: bytes =>
    (character b bytes).1.getD '\ufffd' :: lossyChars (character b bytes).2
termination_by bytes => bytes.length
decreasing_by
  have := length_character b bytes
  simp
  omega

def strict? (bytes : ByteArray) : Option String :=
  String.fromUTF8? bytes

def lossy (bytes : ByteArray) : String :=
  (strict? bytes).getD (String.ofList (lossyChars bytes.data.toList))

end DesignDeps.Text.Utf8
