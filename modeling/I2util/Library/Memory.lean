import Mathlib.Data.Vector.Basic

/-!
Blocks of memory that are read and written by the slice.

A block of a fixed size is a vector of its cells. An access outside the block has
no result.
-/

namespace Memory

variable {α : Type*} {n : ℕ}

def block (m : List α) : List.Vector α m.length := ⟨m, rfl⟩

def read (m : List α) (i k : ℕ) : Option (List.Vector α k) :=
  if h : i + k ≤ m.length then
    some ⟨(m.drop i).take k, by rw [List.length_take, List.length_drop]; omega⟩
  else none

def write (m : List.Vector α n) (i : ℕ) (src : List α) : Option (List.Vector α n) :=
  if h : i + src.length ≤ n then
    some ⟨m.1.take i ++ (src ++ m.1.drop (i + src.length)), by
      simp only [List.length_append, List.length_take, List.length_drop, m.2]
      omega⟩
  else none

/-- `memcpy`: `k` cells from `j` on copied to the block. -/
def copy (m : List.Vector α n) (i : ℕ) (src : List α) (j k : ℕ) : Option (List.Vector α n) :=
  (read src j k).bind fun cells => write m i cells.toList

theorem read_eq {m a b c : List α} {i k : ℕ} (hm : m = a ++ (b ++ c)) (hi : a.length = i)
    (hk : b.length = k) : read m i k = some ⟨b, hk⟩ := by
  subst hm hi hk
  rw [read, dif_pos (by simp only [List.length_append]; omega)]
  congr 2
  rw [List.drop_left, List.take_left]

theorem write_eq {m : List.Vector α n} {a b c src : List α} {i : ℕ} (hm : m.1 = a ++ (b ++ c))
    (hi : a.length = i) (hsrc : b.length = src.length) :
    ∃ m', write m i src = some m' ∧ m'.1 = a ++ (src ++ c) := by
  subst hi
  have hn : a.length + src.length ≤ n := by
    have hlen := congrArg List.length hm
    rw [m.2] at hlen
    simp only [List.length_append] at hlen
    omega
  refine ⟨_, dif_pos hn, ?_⟩
  show m.1.take a.length ++ (src ++ m.1.drop (a.length + src.length)) = _
  rw [hm, List.take_left, ← hsrc, ← List.append_assoc a b c, ← List.length_append,
    List.drop_left]

theorem copy_eq {m : List.Vector α n} {a b c src p cells q : List α} {i j k : ℕ}
    (hsrc : src = p ++ (cells ++ q)) (hj : p.length = j) (hk : cells.length = k)
    (hm : m.1 = a ++ (b ++ c)) (hi : a.length = i) (hb : b.length = k) :
    ∃ m', copy m i src j k = some m' ∧ m'.1 = a ++ (cells ++ c) := by
  obtain ⟨m', hwrite, hm'⟩ := @write_eq α n m a b c cells i hm hi (hb.trans hk.symm)
  refine ⟨m', ?_, hm'⟩
  rw [copy, read_eq hsrc hj hk]
  exact hwrite

theorem read_eq_some {m : List α} {i k : ℕ} {cells : List.Vector α k}
    (h : read m i k = some cells) : i + k ≤ m.length ∧ cells.1 = (m.drop i).take k := by
  rw [read] at h
  split at h
  · rename_i hroom
    obtain rfl := Option.some.inj h
    exact ⟨hroom, rfl⟩
  · cases h

/-- A copy stays in both blocks, and replaces a slice of the one by a slice of the
other. -/
theorem copy_eq_some {m m' : List.Vector α n} {src : List α} {i j k : ℕ}
    (h : copy m i src j k = some m') :
    j + k ≤ src.length ∧ i + k ≤ n ∧
      m'.1 = m.1.take i ++ ((src.drop j).take k ++ m.1.drop (i + k)) := by
  by_cases hread : j + k ≤ src.length
  · have hlen : ((src.drop j).take k).length = k := by
      rw [List.length_take, List.length_drop]
      omega
    rw [copy, read, dif_pos hread] at h
    change write m i ((src.drop j).take k) = some m' at h
    by_cases hwrite : i + ((src.drop j).take k).length ≤ n
    · rw [write, dif_pos hwrite] at h
      obtain rfl := Option.some.inj h
      refine ⟨hread, by rwa [hlen] at hwrite, ?_⟩
      show m.1.take i ++ (_ ++ m.1.drop (i + ((src.drop j).take k).length)) = _
      rw [hlen]
    · rw [write, dif_neg hwrite] at h
      cases h
  · rw [copy, read, dif_neg hread] at h
    cases h

theorem split {m : List α} {i k : ℕ} (h : i + k ≤ m.length) :
    ∃ a b c, m = a ++ (b ++ c) ∧ a.length = i ∧ b.length = k := by
  refine ⟨m.take i, (m.drop i).take k, (m.drop i).drop k, ?_, ?_, ?_⟩
  · rw [List.take_append_drop, List.take_append_drop]
  · rw [List.length_take]
    omega
  · rw [List.length_take, List.length_drop]
    omega

theorem copy_of_le (m : List.Vector α n) {src : List α} {i j k : ℕ} (hsrc : j + k ≤ src.length)
    (hm : i + k ≤ n) :
    ∃ m', copy m i src j k = some m' ∧
      m'.1 = m.1.take i ++ ((src.drop j).take k ++ m.1.drop (i + k)) := by
  have hlen : ((src.drop j).take k).length = k := by
    rw [List.length_take, List.length_drop]
    omega
  obtain ⟨m', hwrite⟩ : ∃ m', write m i ((src.drop j).take k) = some m' :=
    ⟨_, dif_pos (hlen.symm ▸ hm)⟩
  have hcopy : copy m i src j k = some m' := by
    rw [copy, read, dif_pos hsrc]
    exact hwrite
  exact ⟨m', hcopy, (copy_eq_some hcopy).2.2⟩

/-! ### Cells that are replaced -/

def patch (m : List α) (i : ℕ) (src : List α) : List α :=
  m.take i ++ (src ++ m.drop (i + src.length))

section Patch

variable {m src : List α} {i : ℕ}

theorem write_of_le (m : List.Vector α n) (h : i + src.length ≤ n) :
    ∃ m', write m i src = some m' ∧ m'.1 = patch m.1 i src :=
  ⟨_, dif_pos h, rfl⟩

theorem length_patch (h : i + src.length ≤ m.length) : (patch m i src).length = m.length := by
  simp only [patch, List.length_append, List.length_take, List.length_drop]
  omega

theorem patch_append (h : i + src.length ≤ m.length) (rest : List α) :
    patch (m ++ rest) i src = patch m i src ++ rest := by
  rw [patch, List.take_append_of_le_length (by omega), List.drop_append_of_le_length h, patch]
  simp only [List.append_assoc]

theorem getElem?_patch (h : i + src.length ≤ m.length) {k : ℕ} (hk : k < i ∨ i + src.length ≤ k) :
    (patch m i src)[k]? = m[k]? := by
  have htake : (m.take i).length = i := List.length_take_of_le (by omega)
  rcases hk with hbefore | hbehind
  · rw [patch, List.getElem?_append_left (by omega), List.getElem?_take, if_pos hbefore]
  · rw [patch, ← List.append_assoc, List.getElem?_append_right (by rw [List.length_append]; omega),
      List.getElem?_drop]
    congr 1
    rw [List.length_append]
    omega

theorem slice_patch (h : i + src.length ≤ m.length) :
    ((patch m i src).drop i).take src.length = src := by
  have htake : (m.take i).length = i := List.length_take_of_le (by omega)
  rw [patch, List.drop_left' htake, List.take_left]

theorem patch_patch {src' : List α} (h : i + src.length ≤ m.length)
    (hlen : src'.length = src.length) : patch (patch m i src) i src' = patch m i src' := by
  have htake : (m.take i).length = i := List.length_take_of_le (by omega)
  have hboth : (m.take i ++ src).length = i + src'.length := by
    rw [List.length_append]
    omega
  rw [patch, patch, List.take_left' htake, ← List.append_assoc (m.take i) src,
    List.drop_left' hboth, patch, hlen]

theorem patch_append_right {pre : List α} (h : pre.length ≤ i) (rest : List α) :
    patch (pre ++ rest) i src = pre ++ patch rest (i - pre.length) src := by
  rw [patch, patch, List.take_append, List.take_of_length_le h, List.drop_append,
    List.drop_eq_nil_of_le (by omega), List.nil_append, List.append_assoc]
  congr 4
  omega

theorem patch_patch_cons {a : α} (h : i < m.length) (src : List α) :
    patch (patch m i [a]) (i + 1) src = patch m i (a :: src) := by
  have htake : (m.take i).length = i := List.length_take_of_le (by omega)
  have hfirst : patch m i [a] = (m.take i ++ [a]) ++ m.drop (i + 1) := by
    rw [patch, List.append_assoc]
    rfl
  have hlen : (m.take i ++ [a]).length = i + 1 := by rw [List.length_append, htake]; rfl
  rw [hfirst, patch_append_right (Nat.le_of_eq hlen), hlen, Nat.sub_self, patch, List.take_zero,
    List.nil_append, List.drop_drop, List.append_assoc, patch, List.length_cons,
    show i + 1 + (0 + src.length) = i + (src.length + 1) by omega]
  rfl

theorem patch_same (pre : List α) (a : α) (rest : List α) :
    patch (pre ++ a :: rest) pre.length [a] = pre ++ a :: rest := by
  rw [patch_append_right (Nat.le_refl _), Nat.sub_self]
  rfl

/-- The beginning of a patched block, put over another block that begins in the same
way. -/
theorem patch_take {m' : List α} {k : ℕ} (h : i + src.length ≤ k) (hk : k ≤ m.length)
    (hk' : k ≤ m'.length) (htake : m'.take k = m.take k) :
    (patch m' i src).take k ++ m.drop k = patch m i src := by
  have hlen : (m'.take k).length = k := List.length_take_of_le hk'
  have hpatch : (patch m' i src).take k = patch (m'.take k) i src := by
    conv_lhs => rw [← List.take_append_drop k m']
    rw [patch_append (by omega), List.take_left' ((length_patch (by omega)).trans hlen)]
  rw [hpatch, htake, ← patch_append (by rw [List.length_take_of_le hk]; exact h),
    List.take_append_drop]

end Patch

end Memory
