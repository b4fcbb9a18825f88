import I2util.Conf.Text
import I2util.Library.Memory

/-!
Strings that are written to a buffer.

The buffer is given by its bytes, so a write that goes past them has no result.
-/

namespace I2util

def strncpyTo (buf : List UInt8) (text : List UInt8) (len : ℕ) : Option (List UInt8) :=
  (Memory.write (Memory.block buf) 0 ((text ++ List.replicate len 0).take len)).map Subtype.val

/-- `strncat`: at most `n` characters behind the string in the buffer, and a NUL. -/
def strncat (buf src : List UInt8) (n : ℕ) : Option (List UInt8) :=
  if 0 ∈ buf then
    (Memory.write (Memory.block buf) (cstr buf).length (src.take n ++ [0])).map Subtype.val
  else none

section Buffer

variable {buf text tail src : List UInt8} {n len : ℕ}

theorem strncpyTo_eq (text : List UInt8) (hn : n ≤ buf.length) :
    strncpyTo buf text n =
      some (text.take n ++ (List.replicate (n - text.length) 0 ++ buf.drop n)) := by
  have hcells : (text ++ List.replicate n 0).take n =
      text.take n ++ List.replicate (n - text.length) (0 : UInt8) := by
    rw [List.take_append, List.take_replicate]
    congr 2
    omega
  have hlen : (text.take n ++ List.replicate (n - text.length) (0 : UInt8)).length = n := by
    simp only [List.length_append, List.length_take, List.length_replicate]
    omega
  rw [strncpyTo, hcells, Memory.write, dif_pos (by rw [hlen, Nat.zero_add]; exact hn)]
  simp only [List.take_zero, List.nil_append, hlen, Nat.zero_add, List.append_assoc]
  rfl

theorem strncat_eq (htext : 0 ∉ text) (tail src : List UInt8) (n : ℕ) :
    strncat (text ++ 0 :: tail) src n =
      if (src.take n).length ≤ tail.length then
        some ((text ++ src.take n) ++ 0 :: tail.drop (src.take n).length)
      else none := by
  rw [strncat, if_pos (by simp), cstr_append_nul htext]
  by_cases hroom : (src.take n).length ≤ tail.length
  · have hsplit : (Memory.block (text ++ 0 :: tail)).1 =
        text ++ ((0 :: tail).take ((src.take n).length + 1) ++
          (0 :: tail).drop ((src.take n).length + 1)) := by
      rw [List.take_append_drop]
      rfl
    have hlen : ((0 :: tail).take ((src.take n).length + 1)).length =
        (src.take n ++ [0]).length := by
      simp only [List.length_take, List.length_append, List.length_cons, List.length_nil]
        at hroom ⊢
      omega
    obtain ⟨m, hm, hcells⟩ := Memory.write_eq hsplit rfl hlen
    rw [if_pos hroom, hm]
    show some m.1 = _
    rw [hcells]
    simp
  · rw [if_neg hroom, Memory.write, dif_neg]
    · rfl
    · simp only [List.length_append, List.length_cons, List.length_nil]
      omega

theorem strncat_fits (htext : 0 ∉ text) (hn : src.length ≤ n) (htail : src.length ≤ tail.length) :
    strncat (text ++ 0 :: tail) src n = some ((text ++ src) ++ 0 :: tail.drop src.length) := by
  have hroom : (src.take n).length ≤ tail.length := by rwa [List.take_of_length_le hn]
  rw [strncat_eq htext, if_pos hroom, List.take_of_length_le hn]

theorem strncat_none (htext : 0 ∉ text) (hroom : tail.length < min n src.length) :
    strncat (text ++ 0 :: tail) src n = none := by
  rw [strncat_eq htext, if_neg (by rw [List.length_take]; omega)]

theorem strncpyTo_short (hn : n ≤ buf.length) (htext : text.length < n) :
    ∃ tail, strncpyTo buf text n = some (text ++ 0 :: tail) ∧
      tail.length + text.length + 1 = buf.length := by
  obtain ⟨k, hk⟩ := Nat.exists_eq_add_of_lt htext
  have hpad : n - text.length = k + 1 := by omega
  refine ⟨List.replicate k 0 ++ buf.drop n, ?_, ?_⟩
  · rw [strncpyTo_eq _ hn, List.take_of_length_le (Nat.le_of_lt htext), hpad]
    rfl
  · simp only [List.length_append, List.length_replicate, List.length_drop]
    omega

end Buffer

end I2util
