import Mathlib.Data.Nat.Notation
import Mathlib.Tactic.IntervalCases

/-!
Words of 32 bits: rotations, the bitwise functions that hash functions are made of, and
words as four bytes in either order.
-/

namespace Words

/-- The bits of `x` choose between those of `y` and `z`. -/
def choose (x y z : UInt32) : UInt32 := (x &&& y) ||| (~~~x &&& z)

def parity (x y z : UInt32) : UInt32 := x ^^^ y ^^^ z

def majority (x y z : UInt32) : UInt32 := (x &&& y) ||| (x &&& z) ||| (y &&& z)

def rotl (n : ℕ) (x : UInt32) : UInt32 := ⟨x.toBitVec.rotateLeft n⟩

/-- The word whose bytes are these, the most significant one first. -/
def ofBE (bs : List UInt8) : UInt32 := bs.foldl (fun w b => (w <<< 8) ||| b.toUInt32) 0

/-- The word whose bytes are these, the least significant one first. -/
def ofLE (bs : List UInt8) : UInt32 := bs.foldr (fun b w => b.toUInt32 ||| (w <<< 8)) 0

/-! The places in blocks of 4, 5 and 16 words are numerals. -/

theorem neZero_four : NeZero 4 := ⟨by decide⟩

theorem neZero_five : NeZero 5 := ⟨by decide⟩

theorem neZero_sixteen : NeZero 16 := ⟨by decide⟩

variable {x y z : UInt32}

/-! ### Two spellings -/

theorem choose_eq : (x &&& (y ^^^ z)) ^^^ z = choose x y z := by
  apply UInt32.toBitVec_inj.mp
  ext i hi
  simp only [choose, UInt32.toBitVec_xor, UInt32.toBitVec_and, UInt32.toBitVec_or,
    UInt32.toBitVec_not, BitVec.getElem_xor, BitVec.getElem_and, BitVec.getElem_or,
    BitVec.getElem_not]
  cases x.toBitVec[i] <;> cases y.toBitVec[i] <;> cases z.toBitVec[i] <;> rfl

theorem majority_eq : ((x ||| y) &&& z) ||| (x &&& y) = majority x y z := by
  apply UInt32.toBitVec_inj.mp
  ext i hi
  simp only [majority, UInt32.toBitVec_and, UInt32.toBitVec_or, BitVec.getElem_and,
    BitVec.getElem_or]
  cases x.toBitVec[i] <;> cases y.toBitVec[i] <;> cases z.toBitVec[i] <;> rfl

/-- A circular shift, put together from two shifts. -/
theorem rotl_eq {n : ℕ} (hpos : 0 < n) (hlt : n < 32) (x : UInt32) :
    (x <<< UInt32.ofNat n) ||| (x >>> (32 - UInt32.ofNat n)) = rotl n x := by
  have hn : (UInt32.ofNat n).toNat = n := UInt32.toNat_ofNat_of_lt' (by
    show n < 4294967296
    omega)
  have hrest : (32 - UInt32.ofNat n).toNat = 32 - n := by
    rw [UInt32.toNat_sub_of_le _ _ (UInt32.le_iff_toNat_le.mpr (by rw [hn]; exact hlt.le)), hn]
    rfl
  apply UInt32.toNat_inj.mp
  rw [rotl, UInt32.toNat_or, UInt32.toNat_shiftLeft, UInt32.toNat_shiftRight, hn, hrest,
    Nat.mod_eq_of_lt hlt, Nat.mod_eq_of_lt (show 32 - n < 32 by omega)]
  show _ = (x.toBitVec.rotateLeft n).toNat
  rw [BitVec.rotateLeft_def, BitVec.toNat_or, BitVec.toNat_shiftLeft, BitVec.toNat_ushiftRight,
    Nat.mod_eq_of_lt hlt]
  rfl

theorem and_mask : x &&& 0xffffffff = x := by
  apply UInt32.toNat_inj.mp
  rw [UInt32.toNat_and]
  show x.toNat &&& (2 ^ 32 - 1) = _
  rw [Nat.and_two_pow_sub_one_eq_mod]
  exact Nat.mod_eq_of_lt x.toNat_lt

/-! ### The bits of a word that is made of bytes -/

theorem take_four {α : Type*} {l : List α} {i : ℕ} (h : i + 4 ≤ l.length) :
    (l.drop i).take 4 = [l[i], l[i + 1], l[i + 2], l[i + 3]] := by
  rw [List.drop_eq_getElem_cons (by omega), List.drop_eq_getElem_cons (i := i + 1) (by omega),
    List.drop_eq_getElem_cons (i := i + 2) (by omega),
    List.drop_eq_getElem_cons (i := i + 3) (by omega)]
  rfl

section Bytes

variable {b0 b1 b2 b3 : UInt8} {i : ℕ}

theorem getElem_ofLE (hi : i < 32) :
    (ofLE [b0, b1, b2, b3]).toBitVec[i] =
      ([b0, b1, b2, b3].getD (i / 8) 0).toBitVec.getLsbD (i % 8) := by
  interval_cases i <;> simp [ofLE]

theorem getElem_ofBE (hi : i < 32) :
    (ofBE [b0, b1, b2, b3]).toBitVec[i] =
      ([b3, b2, b1, b0].getD (i / 8) 0).toBitVec.getLsbD (i % 8) := by
  interval_cases i <;> simp [ofBE]

/-- The bytes of a word turned around by two rotations. -/
theorem swap_eq :
    (((ofLE [b0, b1, b2, b3] <<< 24) ||| (ofLE [b0, b1, b2, b3] >>> 8)) &&& (0xFF00FF00 : UInt32)) |||
        (((ofLE [b0, b1, b2, b3] <<< 8) ||| (ofLE [b0, b1, b2, b3] >>> 24)) &&& (0x00FF00FF : UInt32)) =
      ofBE [b0, b1, b2, b3] := by
  apply UInt32.toBitVec_inj.mp
  ext i hi
  rw [getElem_ofBE hi]
  interval_cases i <;> simp [getElem_ofLE]

theorem ofLE_eq :
    b0.toUInt32 ||| (b1.toUInt32 <<< 8) ||| (b2.toUInt32 <<< 16) ||| (b3.toUInt32 <<< 24) =
      ofLE [b0, b1, b2, b3] := by
  apply UInt32.toBitVec_inj.mp
  ext i hi
  rw [getElem_ofLE hi]
  interval_cases i <;> simp

end Bytes

end Words
