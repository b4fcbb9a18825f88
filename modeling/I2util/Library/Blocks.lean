import Mathlib.Data.Vector.Basic

/-!
A list cut into blocks of a fixed size.

What arrives piece by piece is cut as soon as a block is complete: the blocks of a
concatenation are the blocks of the first part and those of what is left over of it
with the second part behind it.
-/

namespace Blocks

variable {α : Type*} (n : ℕ)

def cut (xs : List α) : List (List.Vector α n) :=
  if h : 0 < n ∧ n ≤ xs.length then
    ⟨xs.take n, List.length_take_of_le h.2⟩ :: cut (xs.drop n)
  else []
termination_by xs.length
decreasing_by
  rw [List.length_drop]
  omega

def leftover (xs : List α) : List α :=
  if 0 < n ∧ n ≤ xs.length then leftover (xs.drop n) else xs
termination_by xs.length
decreasing_by
  rw [List.length_drop]
  omega

variable {n}

theorem cut_of_lt {xs : List α} (h : xs.length < n) : cut n xs = [] := by
  rw [cut, dif_neg (by omega)]

theorem leftover_of_lt {xs : List α} (h : xs.length < n) : leftover n xs = xs := by
  rw [leftover, if_neg (by omega)]

@[simp] theorem cut_nil : cut n ([] : List α) = [] := by
  rw [cut, dif_neg]
  simp only [List.length_nil]
  omega

theorem cut_block (hn : 0 < n) (b : List.Vector α n) (xs : List α) :
    cut n (b.1 ++ xs) = b :: cut n xs := by
  have hlen := b.2
  rw [cut, dif_pos ⟨hn, by rw [List.length_append]; omega⟩]
  congr 1
  · apply Subtype.ext
    show (b.1 ++ xs).take n = b.1
    rw [List.take_left' hlen]
  · rw [List.drop_left' hlen]

theorem leftover_block (hn : 0 < n) (b : List.Vector α n) (xs : List α) :
    leftover n (b.1 ++ xs) = leftover n xs := by
  have hlen := b.2
  rw [leftover, if_pos ⟨hn, by rw [List.length_append]; omega⟩, List.drop_left' hlen]

/-- A list that is long enough begins with a block. -/
theorem exists_block {xs : List α} (h : n ≤ xs.length) :
    ∃ (b : List.Vector α n) (ys : List α), xs = b.1 ++ ys :=
  ⟨⟨xs.take n, List.length_take_of_le h⟩, xs.drop n, (List.take_append_drop n xs).symm⟩

/-- Induction along the blocks of a list. -/
theorem block_induction (hn : 0 < n) {motive : List α → Prop}
    (short : ∀ xs, xs.length < n → motive xs)
    (block : ∀ (b : List.Vector α n) xs, motive xs → motive (b.1 ++ xs)) (xs : List α) :
    motive xs := by
  induction hlen : xs.length using Nat.strongRecOn generalizing xs with
  | _ k ih =>
      rcases Nat.lt_or_ge xs.length n with h | h
      · exact short xs h
      · obtain ⟨b, ys, rfl⟩ := exists_block h
        have hys : ys.length < k := by
          rw [List.length_append, b.2] at hlen
          omega
        exact block b ys (ih _ hys ys rfl)

theorem leftover_length (hn : 0 < n) (xs : List α) : (leftover n xs).length = xs.length % n := by
  induction xs using block_induction hn with
  | short xs h => rw [leftover_of_lt h, Nat.mod_eq_of_lt h]
  | block b xs ih => rw [leftover_block hn, ih, List.length_append, b.2, Nat.add_mod_left]

theorem cut_append (hn : 0 < n) (xs ys : List α) :
    cut n (xs ++ ys) = cut n xs ++ cut n (leftover n xs ++ ys) := by
  induction xs using block_induction hn with
  | short xs h => rw [cut_of_lt h, leftover_of_lt h, List.nil_append]
  | block b xs ih =>
      rw [List.append_assoc, cut_block hn, cut_block hn, leftover_block hn, ih, List.cons_append]

theorem leftover_append (hn : 0 < n) (xs ys : List α) :
    leftover n (xs ++ ys) = leftover n (leftover n xs ++ ys) := by
  induction xs using block_induction hn with
  | short xs h => rw [leftover_of_lt h]
  | block b xs ih => rw [List.append_assoc, leftover_block hn, leftover_block hn, ih]

/-- What is put behind a list without completing a block. -/
theorem append_part (hn : 0 < n) {xs ys : List α} (h : (leftover n xs ++ ys).length < n) :
    cut n (xs ++ ys) = cut n xs ∧ leftover n (xs ++ ys) = leftover n xs ++ ys := by
  rw [cut_append hn, leftover_append hn, cut_of_lt h, leftover_of_lt h, List.append_nil]
  exact ⟨rfl, rfl⟩

/-- What is put behind a list and completes one block, to the end. -/
theorem append_last (hn : 0 < n) {xs ys : List α} {b : List.Vector α n}
    (hb : b.1 = leftover n xs ++ ys) :
    cut n (xs ++ ys) = cut n xs ++ [b] ∧ leftover n (xs ++ ys) = [] := by
  have hnil : b.1 ++ [] = leftover n xs ++ ys := by rw [List.append_nil, hb]
  rw [cut_append hn, leftover_append hn, ← hnil, cut_block hn, leftover_block hn, cut_nil,
    leftover_of_lt (by exact hn)]
  exact ⟨rfl, rfl⟩

theorem cut_length (hn : 0 < n) (xs : List α) : (cut n xs).length = xs.length / n := by
  induction xs using block_induction hn with
  | short xs h => rw [cut_of_lt h, List.length_nil, Nat.div_eq_of_lt h]
  | block b xs ih =>
      rw [cut_block hn, List.length_cons, ih, List.length_append, b.2, Nat.add_div_left _ hn]

theorem length_flatMap (bs : List (List.Vector α n)) :
    (bs.flatMap List.Vector.toList).length = n * bs.length := by
  induction bs with
  | nil => rfl
  | cons b bs ih =>
      rw [List.flatMap_cons, List.length_append, ih, List.Vector.toList_length, List.length_cons,
        Nat.mul_succ, Nat.add_comm]

theorem flatMap_cut (hn : 0 < n) (xs : List α) :
    (cut n xs).flatMap List.Vector.toList ++ leftover n xs = xs := by
  induction xs using block_induction hn with
  | short xs h => simp [cut_of_lt h, leftover_of_lt h]
  | block b xs ih =>
      rw [cut_block hn, leftover_block hn, List.flatMap_cons, List.append_assoc, ih]
      rfl

end Blocks
