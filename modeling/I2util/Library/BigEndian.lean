import Mathlib.Algebra.Order.Group.Nat
import Mathlib.Data.Nat.Notation

/-!
Numbers as bytes, in either order.
-/

/-- The `k` low bytes of a number, most significant byte first. -/
def bigEndian (k n : ℕ) : List UInt8 :=
  (List.range k).map fun i => UInt8.ofNat (n / 256 ^ (k - 1 - i))

namespace BigEndian

@[simp] theorem length (k n : ℕ) : (bigEndian k n).length = k := by
  simp [bigEndian]

/-- The bytes of a number are those of its high part and those of its low part. -/
theorem append (j k hi : ℕ) {lo : ℕ} (hlo : lo < 256 ^ k) :
    bigEndian (j + k) (hi * 256 ^ k + lo) = bigEndian j hi ++ bigEndian k lo := by
  rw [bigEndian, List.range_add, List.map_append, List.map_map]
  congr 1
  · apply List.map_congr_left
    intro i hi'
    have hi' := List.mem_range.mp hi'
    have hexp : j + k - 1 - i = k + (j - 1 - i) := by omega
    rw [hexp, Nat.pow_add, ← Nat.div_div_eq_div_mul, Nat.add_comm, Nat.add_mul_div_right _ _
      (Nat.pow_pos (by decide)), Nat.div_eq_of_lt hlo, Nat.zero_add]
  · apply List.map_congr_left
    intro i hi'
    have hi' := List.mem_range.mp hi'
    have hexp : j + k - 1 - (j + i) = k - 1 - i := by omega
    have hpow : hi * 256 ^ k = (hi * 256 ^ i * 256) * 256 ^ (k - 1 - i) := by
      rw [Nat.mul_assoc, Nat.mul_assoc, ← Nat.pow_succ', ← Nat.pow_add]
      congr 2
      omega
    apply UInt8.toNat_inj.mp
    simp only [Function.comp_apply, UInt8.toNat_ofNat']
    rw [hexp, hpow, Nat.add_comm, Nat.add_mul_div_right _ _ (Nat.pow_pos (by decide))]
    exact Nat.add_mul_mod_self_right _ _ _

/-- Only the low bytes of a number count. -/
theorem mod (k n : ℕ) : bigEndian k (n % 256 ^ k) = bigEndian k n := by
  apply List.map_congr_left
  intro i hi
  have hi := List.mem_range.mp hi
  have hpow : 256 ^ k = 256 ^ (k - 1 - i) * (256 * 256 ^ i) := by
    rw [← Nat.pow_succ', ← Nat.pow_add]
    congr 1
    omega
  apply UInt8.toNat_inj.mp
  simp only [UInt8.toNat_ofNat']
  rw [hpow, Nat.mod_mul_right_div_self]
  exact Nat.mod_mul_right_mod _ _ _

/-- A number that fits is determined by its bytes. -/
theorem inj {k n m : ℕ} (hn : n < 256 ^ k) (hm : m < 256 ^ k)
    (h : bigEndian k n = bigEndian k m) : n = m := by
  induction k generalizing n m with
  | zero =>
      rw [Nat.pow_zero] at hn hm
      omega
  | succ k ih =>
      -- the last byte on its own
      have hsplit : ∀ a : ℕ, bigEndian (k + 1) a =
          bigEndian k (a / 256) ++ [UInt8.ofNat (a % 256)] := by
        intro a
        have hlow := append k 1 (a / 256) (Nat.mod_lt a (show 0 < 256 ^ 1 by decide))
        have hlast : bigEndian 1 (a % 256 ^ 1) = [UInt8.ofNat (a % 256)] := by simp [bigEndian]
        rw [hlast, Nat.pow_one, Nat.div_add_mod' a 256] at hlow
        exact hlow
      rw [hsplit, hsplit] at h
      obtain ⟨hhigh, hlast⟩ := List.append_inj' h rfl
      have hdiv : ∀ a : ℕ, a < 256 ^ (k + 1) → a / 256 < 256 ^ k := fun a ha =>
        Nat.div_lt_of_lt_mul (by rwa [Nat.pow_succ, Nat.mul_comm] at ha)
      have hquot := ih (hdiv n hn) (hdiv m hm) hhigh
      have hrem := congrArg UInt8.toNat (List.singleton_inj.mp hlast)
      rw [UInt8.toNat_ofNat', UInt8.toNat_ofNat'] at hrem
      omega

theorem byte_eq (w : UInt32) {k : ℕ} (hk : k < 4) :
    ((w >>> UInt32.ofNat (k * 8)) &&& 255).toUInt8 = UInt8.ofNat (w.toNat / 256 ^ k) := by
  have hshift : (UInt32.ofNat (k * 8)).toNat % 32 = 8 * k := by
    rw [UInt32.toNat_ofNat_of_lt' (by simp only [UInt32.size]; omega)]
    omega
  have hmask : ∀ n : ℕ, n &&& 255 = n % 256 := fun n => Nat.and_two_pow_sub_one_eq_mod n 8
  apply UInt8.toNat_inj.mp
  rw [UInt32.toNat_toUInt8, UInt32.toNat_and, UInt32.toNat_shiftRight, hshift,
    Nat.shiftRight_eq_div_pow, Nat.pow_mul, UInt8.toNat_ofNat']
  show (_ &&& 255) % 256 = _
  rw [hmask, Nat.mod_mod]

theorem word_eq (w : UInt32) :
    ((List.range 4).map fun i => ((w >>> UInt32.ofNat ((3 - i) * 8)) &&& 255).toUInt8) =
      bigEndian 4 w.toNat := by
  apply List.map_congr_left
  intro i _
  exact byte_eq w (show 3 - i < 4 by omega)

end BigEndian

/-- The `k` low bytes of a number, least significant byte first. -/
def littleEndian (k n : ℕ) : List UInt8 := (bigEndian k n).reverse

namespace LittleEndian

@[simp] theorem length (k n : ℕ) : (littleEndian k n).length = k := by
  rw [littleEndian, List.length_reverse, BigEndian.length]

theorem append (j k hi : ℕ) {lo : ℕ} (hlo : lo < 256 ^ k) :
    littleEndian (j + k) (hi * 256 ^ k + lo) = littleEndian k lo ++ littleEndian j hi := by
  rw [littleEndian, BigEndian.append j k hi hlo, List.reverse_append]
  rfl

theorem mod (k n : ℕ) : littleEndian k (n % 256 ^ k) = littleEndian k n :=
  congrArg List.reverse (BigEndian.mod k n)

theorem word_eq (w : UInt32) :
    [w.toUInt8, (w >>> 8).toUInt8, (w >>> 16).toUInt8, (w >>> 24).toUInt8] =
      littleEndian 4 w.toNat := by
  have hbyte : ∀ k : UInt32, k.toNat < 32 →
      (w >>> k).toUInt8 = UInt8.ofNat (w.toNat / 2 ^ k.toNat) := by
    intro k hk
    apply UInt8.toNat_inj.mp
    rw [UInt32.toNat_toUInt8, UInt32.toNat_shiftRight, Nat.mod_eq_of_lt hk,
      Nat.shiftRight_eq_div_pow, UInt8.toNat_ofNat']
  have hfirst : w.toUInt8 = UInt8.ofNat w.toNat := by
    apply UInt8.toNat_inj.mp
    rw [UInt32.toNat_toUInt8, UInt8.toNat_ofNat']
  rw [hbyte 8 (by decide), hbyte 16 (by decide), hbyte 24 (by decide), hfirst]
  simp [littleEndian, bigEndian, List.range_succ]

end LittleEndian
