import Mathlib.Data.Int.Notation
import Mathlib.Logic.Function.Basic
import Mathlib.Tactic.Common

/-!
Memory around an array, and the strings that are written there.

A cell is named by its distance from the start of the array, so a write in front of the
array or behind it has its place too. A cell that was never written holds `none`.
-/

namespace Cells

variable {α : Type*}

def store (m : ℤ → Option α) (i : ℤ) : List α → ℤ → Option α
  | [] => m
  | c :: cs => store (Function.update m i (some c)) (i + 1) cs

/-- Nothing outside the first `n` cells was written. -/
def Within (n : ℤ) (m : ℤ → Option α) : Prop := ∀ j, m j ≠ none → 0 ≤ j ∧ j < n

/-- The string at `i`: the values in front of the first `stop`, which is one of the next
`n` cells. -/
def readUntil [DecidableEq α] (stop : α) (m : ℤ → Option α) (i : ℤ) : ℕ → Option (List α)
  | 0 => none
  | n + 1 =>
      match m i with
      | none => none
      | some c => if c = stop then some [] else (readUntil stop m (i + 1) n).map (c :: ·)

theorem store_append (m : ℤ → Option α) (i : ℤ) (a b : List α) :
    store m i (a ++ b) = store (store m i a) (i + a.length) b := by
  induction a generalizing m i with
  | nil => simp [store]
  | cons c a ih =>
      have hi : i + 1 + a.length = i + (c :: a).length := by
        simp only [List.length_cons]
        omega
      rw [List.cons_append, store, ih, store, hi]

/-- The end of a string is overwritten by what is appended there. -/
theorem store_over (m : ℤ → Option α) (i : ℤ) (a : List α) (c : α) {b : List α} (hb : b ≠ []) :
    store (store m i (a ++ [c])) (i + a.length) b = store m i (a ++ b) := by
  obtain ⟨d, b, rfl⟩ := List.exists_cons_of_ne_nil hb
  rw [store_append, store_append]
  show store (Function.update (Function.update _ _ _) _ _) _ b = store (Function.update _ _ _) _ b
  rw [Function.update_idem]

/-- A frame: the cells in front of a write. -/
theorem store_of_lt (m : ℤ → Option α) {i j : ℤ} (cs : List α) (hj : j < i) :
    store m i cs j = m j := by
  induction cs generalizing m i with
  | nil => rfl
  | cons c cs ih => rw [store, ih _ (by omega), Function.update_of_ne (by omega)]

/-- The cells that a write reaches. -/
theorem store_ne_none_iff (m : ℤ → Option α) (i j : ℤ) (cs : List α) :
    store m i cs j ≠ none ↔ m j ≠ none ∨ i ≤ j ∧ j < i + cs.length := by
  induction cs generalizing m i with
  | nil =>
      have hnone : ¬(i ≤ j ∧ j < i + (0 : ℕ)) := by omega
      exact ⟨.inl, fun h => h.resolve_right hnone⟩
  | cons c cs ih =>
      rw [store, ih, List.length_cons]
      by_cases hj : j = i
      · subst hj
        have hhere : j ≤ j ∧ j < j + (cs.length + 1 : ℕ) := by omega
        exact ⟨fun _ => .inr hhere, fun _ => .inl (by simp)⟩
      · rw [Function.update_of_ne hj]
        apply or_congr Iff.rfl
        omega

theorem within_store {n : ℤ} {m : ℤ → Option α} {i : ℤ} {cs : List α} (hcs : cs ≠ []) :
    Within n (store m i cs) ↔ Within n m ∧ 0 ≤ i ∧ i + cs.length ≤ n := by
  have hlen : 0 < cs.length := List.length_pos_iff.mpr hcs
  constructor
  · intro h
    have hfirst := h i ((store_ne_none_iff m i i cs).mpr (by omega))
    have hlast := h (i + cs.length - 1) ((store_ne_none_iff m i _ cs).mpr (by omega))
    exact ⟨fun j hj => h j ((store_ne_none_iff m i j cs).mpr (.inl hj)), by omega, by omega⟩
  · rintro ⟨hm, hi, hn⟩ j hj
    rcases (store_ne_none_iff m i j cs).mp hj with hj | hj
    · exact hm j hj
    · omega

/-- A string that has been stored with its end is read back. -/
theorem readUntil_store [DecidableEq α] {stop : α} (m : ℤ → Option α) (i : ℤ) (t : List α)
    {n : ℕ} (hn : t.length < n) :
    readUntil stop (store m i (t ++ [stop])) i n = some (t.takeWhile (· ≠ stop)) := by
  induction t generalizing m i n with
  | nil =>
      cases n with
      | zero => omega
      | succ n => simp [readUntil, store]
  | cons c t ih =>
      cases n with
      | zero => omega
      | succ n =>
          have hc : store m i (c :: t ++ [stop]) i = some c := by
            rw [List.cons_append, store, store_of_lt _ _ (by omega), Function.update_self]
          rw [readUntil, hc]
          by_cases hstop : c = stop
          · simp [hstop]
          · have hrest := ih (Function.update m i (some c)) (i + 1) (Nat.lt_of_succ_lt_succ hn)
            simp only [hstop, if_false, List.cons_append, store, hrest]
            simp [hstop]

/-! ### Texts that stand in the cells -/

def Reads (m : ℤ → Option α) (i : ℤ) (t : List α) : Prop :=
  ∀ (k : ℕ) (c : α), t[k]? = some c → m (i + k) = some c

theorem reads_nil (m : ℤ → Option α) (i : ℤ) : Reads m i [] := fun k c h => by simp at h

theorem Reads.of_prefix {m : ℤ → Option α} {i : ℤ} {t s : List α} (h : Reads m i s)
    (hpre : t <+: s) : Reads m i t := by
  obtain ⟨u, rfl⟩ := hpre
  intro k c hk
  obtain ⟨hlt, -⟩ := List.getElem?_eq_some_iff.mp hk
  exact h k c (by rwa [List.getElem?_append_left hlt])

theorem reads_cons {m : ℤ → Option α} {i : ℤ} {c : α} {t : List α} :
    Reads m i (c :: t) ↔ m i = some c ∧ Reads m (i + 1) t := by
  have hnext : ∀ k : ℕ, i + ((k + 1 : ℕ) : ℤ) = i + 1 + k := fun k => by omega
  constructor
  · intro h
    refine ⟨by simpa using h 0 c rfl, fun k d hk => ?_⟩
    rw [← hnext]
    exact h (k + 1) d hk
  · rintro ⟨hc, ht⟩ k d hk
    cases k with
    | zero =>
        obtain rfl : c = d := by simpa using hk
        simpa using hc
    | succ k =>
        rw [hnext]
        exact ht k d hk

theorem reads_store (m : ℤ → Option α) (i : ℤ) (t : List α) : Reads (store m i t) i t := by
  induction t generalizing m i with
  | nil => exact reads_nil _ _
  | cons c t ih =>
      rw [reads_cons, store, store_of_lt _ _ (by omega), Function.update_self]
      exact ⟨rfl, ih _ _⟩

theorem Reads.append {m : ℤ → Option α} {i : ℤ} {t : List α} (h : Reads m i t) (cs : List α) :
    Reads (store m (i + t.length) cs) i (t ++ cs) := by
  intro k c hk
  by_cases hlt : k < t.length
  · rw [List.getElem?_append_left hlt] at hk
    rw [store_of_lt _ _ (by omega)]
    exact h k c hk
  · rw [List.getElem?_append_right (by omega)] at hk
    have hcell := reads_store m (i + t.length) cs _ c hk
    rwa [show i + t.length + ((k - t.length : ℕ) : ℤ) = i + k by omega] at hcell

theorem readUntil_of_reads [DecidableEq α] {stop : α} {m : ℤ → Option α} {i : ℤ} {t : List α}
    (h : Reads m i (t ++ [stop])) {n : ℕ} (hn : t.length < n) :
    readUntil stop m i n = some (t.takeWhile (· ≠ stop)) := by
  induction t generalizing i n with
  | nil =>
      cases n with
      | zero => omega
      | succ n => simp [readUntil, (reads_cons.mp h).1]
  | cons c t ih =>
      cases n with
      | zero => omega
      | succ n =>
          rw [List.cons_append, reads_cons] at h
          rw [readUntil, h.1]
          by_cases hstop : c = stop
          · simp [hstop]
          · simp [hstop, ih h.2 (Nat.lt_of_succ_lt_succ hn)]

end Cells
