import Mathlib.Data.List.Range

/-!
A stream whose items are dealt out to several parties.

The list of the takers says who has got each of the items so far.
-/

namespace Dealt

variable {ι α : Type*} [DecidableEq ι] {takers : List ι} {i j : ι} {k p : ℕ}

/-- The items that the party `i` has got, in order. -/
def positions (takers : List ι) (i : ι) : List ℕ :=
  (List.range takers.length).filter fun p => takers[p]? = some i

def share (stream : ℕ → α) (takers : List ι) (i : ι) : List α :=
  (positions takers i).map stream

@[simp] theorem positions_nil (i : ι) : positions [] i = [] := rfl

theorem mem_positions : p ∈ positions takers i ↔ takers[p]? = some i := by
  simp only [positions, List.mem_filter, List.mem_range, decide_eq_true_eq]
  exact and_iff_right_of_imp fun h => (List.getElem?_eq_some_iff.mp h).1

/-- Every item that is gone has gone to exactly one party. -/
theorem exists_unique_taker (hp : p < takers.length) : ∃! i, p ∈ positions takers i := by
  refine ⟨takers[p], mem_positions.mpr (List.getElem?_eq_getElem hp), fun i hi => ?_⟩
  have htaken := mem_positions.mp hi
  rw [List.getElem?_eq_getElem hp] at htaken
  exact (Option.some.inj htaken).symm

theorem positions_sorted (takers : List ι) (i : ι) : (positions takers i).Pairwise (· < ·) :=
  List.pairwise_lt_range.filter _

theorem positions_append (takers more : List ι) (i : ι) :
    positions (takers ++ more) i =
      positions takers i ++ (positions more i).map (takers.length + ·) := by
  rw [positions, List.length_append, List.range_add, List.filter_append, List.filter_map]
  congr 1
  · refine List.filter_congr fun p hp => ?_
    rw [List.getElem?_append_left (List.mem_range.mp hp)]
  · rw [positions]
    congr 1
    refine List.filter_congr fun p _ => ?_
    simp only [Function.comp_apply]
    rw [List.getElem?_append_right (Nat.le_add_right _ _), Nat.add_sub_cancel_left]

theorem positions_replicate_self (k : ℕ) (i : ι) :
    positions (List.replicate k i) i = List.range k := by
  rw [positions, List.length_replicate, List.filter_eq_self]
  intro p hp
  rw [decide_eq_true_eq, List.getElem?_replicate, if_pos (List.mem_range.mp hp)]

theorem positions_replicate_of_ne (k : ℕ) (h : j ≠ i) : positions (List.replicate k j) i = [] := by
  rw [positions, List.filter_eq_nil_iff]
  intro p _
  simp [List.getElem?_replicate, h]

theorem share_append_self (stream : ℕ → α) (takers : List ι) (k : ℕ) (i : ι) :
    share stream (takers ++ List.replicate k i) i =
      share stream takers i ++ (List.range' takers.length k).map stream := by
  rw [share, positions_append, positions_replicate_self, List.map_append,
    ← List.range'_eq_map_range]
  rfl

theorem share_append_of_ne (stream : ℕ → α) (takers : List ι) (k : ℕ) (h : j ≠ i) :
    share stream (takers ++ List.replicate k j) i = share stream takers i := by
  rw [share, positions_append, positions_replicate_of_ne k h, List.map_nil, List.append_nil]
  rfl

end Dealt
