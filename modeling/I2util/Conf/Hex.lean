import I2util.Conf.Text
import Mathlib.Data.Fintype.Basic

/-!
`hex.c`: the hexadecimal coding of keys and pass-phrases.

`i2HexDecode` reads a C string, so the end of the list is the terminating NUL.
Its loop index is a `ℕ`; the source's is an `unsigned int`, which agrees below
`2 ^ 32` bytes.
-/

namespace I2util

def hexTable : List UInt8 := ascii "0123456789abcdef"

def hexDigit (n : UInt8) : UInt8 := hexTable.getD n.toNat 0

def i2HexEncode (bytes : List UInt8) : List UInt8 :=
  bytes.flatMap fun b : UInt8 => [hexDigit (b >>> 4), hexDigit (b &&& 0x0f)]

/-- The search through `hex` for one character, after `tolower`. -/
def hexOffset (c : UInt8) : Option UInt8 :=
  (hexTable.idxOf? (tolower c)).map Nat.toUInt8

/-- The inner loop: up to two characters make one byte, and the end of the
string ends it early. The result is the byte and where `buff` then points. -/
def decodeByte : List UInt8 → Option (UInt8 × List UInt8)
  | [] => some (0, [])
  | [a] => (hexOffset a).map fun h : UInt8 => (h <<< 4, [])
  | a :: b :: s =>
      (hexOffset a).bind fun h : UInt8 => (hexOffset b).map fun l : UInt8 => ((h <<< 4) ||| l, s)

/-- The decoded bytes, or `none` where the source returns `False`. -/
def i2HexDecode : List UInt8 → ℕ → Option (List UInt8)
  | _, 0 => some []
  | buff, n + 1 =>
      (decodeByte buff).bind fun (byte, buff) => (i2HexDecode buff n).map (byte :: ·)

def isHexDigit (c : UInt8) : Bool := (hexOffset c).isSome

@[simp] theorem i2HexEncode_nil : i2HexEncode [] = [] := rfl

@[simp] theorem i2HexEncode_cons (b : UInt8) (bs : List UInt8) :
    i2HexEncode (b :: bs) =
      hexDigit (b >>> 4) :: hexDigit (b &&& 0x0f) :: i2HexEncode bs := rfl

@[simp] theorem i2HexEncode_length (bs : List UInt8) :
    (i2HexEncode bs).length = 2 * bs.length := by
  induction bs with
  | nil => rfl
  | cons b bs ih =>
      simp only [i2HexEncode_cons, List.length_cons, ih]
      omega

theorem forall_uint8 {P : UInt8 → Prop} (h : ∀ n : Fin 256, P (UInt8.ofNat n)) (b : UInt8) :
    P b := by
  simpa using h ⟨b.toNat, b.toNat_lt⟩

theorem hexOffset_digits (b : UInt8) :
    hexOffset (hexDigit (b >>> 4)) = some (b >>> 4) ∧
      hexOffset (hexDigit (b &&& 0x0f)) = some (b &&& 0x0f) ∧
      ((b >>> 4) <<< 4) ||| (b &&& 0x0f) = b := by
  revert b
  apply forall_uint8
  decide +kernel

theorem decodeByte_digits (b : UInt8) (s : List UInt8) :
    decodeByte (hexDigit (b >>> 4) :: hexDigit (b &&& 0x0f) :: s) = some (b, s) := by
  obtain ⟨hhigh, hlow, hbyte⟩ := hexOffset_digits b
  simp [decodeByte, hhigh, hlow, hbyte]

theorem i2HexDecode_encode_append (bs s : List UInt8) :
    i2HexDecode (i2HexEncode bs ++ s) bs.length = some bs := by
  induction bs with
  | nil => rfl
  | cons b bs ih => simp [i2HexDecode, decodeByte_digits, ih]

theorem i2HexDecode_encode (bs : List UInt8) :
    i2HexDecode (i2HexEncode bs) bs.length = some bs := by
  simpa using i2HexDecode_encode_append bs []

theorem not_isspace_hexDigit {c : UInt8} (h : isHexDigit c = true) :
    isspace c = false ∧ c ≠ 0 ∧ c ≠ hash := by
  revert c
  apply forall_uint8
  decide +kernel

theorem isHexDigit_of_mem_encode {bs : List UInt8} {c : UInt8} (h : c ∈ i2HexEncode bs) :
    isHexDigit c = true := by
  induction bs with
  | nil => simp at h
  | cons b bs ih =>
      obtain ⟨hhigh, hlow, -⟩ := hexOffset_digits b
      simp only [i2HexEncode_cons, List.mem_cons] at h
      rcases h with rfl | rfl | h
      · simp [isHexDigit, hhigh]
      · simp [isHexDigit, hlow]
      · exact ih h

/-- Only the first `2 * n` characters matter, and they are all digits when
decoding succeeds on a string that has them. -/
theorem i2HexDecode_isSome {n : ℕ} {digits s : List UInt8} (hlen : digits.length = 2 * n) :
    (i2HexDecode (digits ++ s) n).isSome = true ↔ ∀ c ∈ digits, isHexDigit c = true := by
  induction n generalizing digits with
  | zero =>
      obtain rfl : digits = [] := by simpa using hlen
      simp [i2HexDecode]
  | succ n ih =>
      obtain ⟨a, b, digits, rfl⟩ : ∃ a b t, digits = a :: b :: t := by
        match digits, hlen with
        | a :: b :: t, _ => exact ⟨a, b, t, rfl⟩
      have hlen : digits.length = 2 * n := by
        simp only [List.length_cons] at hlen
        omega
      have ih := ih hlen
      cases ha : hexOffset a with
      | none => simp [i2HexDecode, decodeByte, isHexDigit, ha]
      | some h =>
          cases hb : hexOffset b with
          | none => simp [i2HexDecode, decodeByte, isHexDigit, ha, hb]
          | some l =>
              simpa [i2HexDecode, decodeByte, isHexDigit, ha, hb] using ih

theorem i2HexDecode_length {n : ℕ} {s bytes : List UInt8}
    (h : i2HexDecode s n = some bytes) : bytes.length = n := by
  induction n generalizing s bytes with
  | zero =>
      obtain rfl : bytes = [] := by simpa [i2HexDecode] using h.symm
      rfl
  | succ n ih =>
      simp only [i2HexDecode, Option.bind_eq_some_iff, Option.map_eq_some_iff] at h
      obtain ⟨⟨byte, rest⟩, -, bytes, hrest, rfl⟩ := h
      simp [ih hrest]

/-- Decoding does not look past the characters it needs. -/
theorem i2HexDecode_append {n : ℕ} {digits : List UInt8} (hlen : digits.length = 2 * n)
    (s : List UInt8) : i2HexDecode (digits ++ s) n = i2HexDecode digits n := by
  induction n generalizing digits with
  | zero => rfl
  | succ n ih =>
      obtain ⟨a, b, digits, rfl⟩ : ∃ a b t, digits = a :: b :: t := by
        match digits, hlen with
        | a :: b :: t, _ => exact ⟨a, b, t, rfl⟩
      have hlen : digits.length = 2 * n := by
        simp only [List.length_cons] at hlen
        omega
      cases ha : hexOffset a <;> cases hb : hexOffset b <;>
        simp [i2HexDecode, decodeByte, ha, hb, ih hlen]

end I2util
