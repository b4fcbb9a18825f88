import Mathlib.Data.List.TakeWhile

/-!
Scanning a list up to the first element that fails a test.

A scanner that reads `xs ++ t` stops exactly between the two parts when every
element of `xs` passes the test and `t` is empty or begins with an element that
fails it. The second condition is `Stops`.
-/

namespace Scan

variable {α : Type*} {p : α → Bool} {xs t : List α}

/-- A scan that tests with `p` takes nothing from `t`. -/
def Stops (p : α → Bool) (t : List α) : Prop := ∀ a ∈ t.head?, p a = false

@[simp] theorem stops_nil : Stops p ([] : List α) := by simp [Stops]

@[simp] theorem stops_cons {a : α} : Stops p (a :: t) ↔ p a = false := by
  simp [Stops]

/-- A nonempty list whose elements all fail the test stops the scan, whatever
follows it. -/
theorem stops_append_of_all (hne : xs ≠ []) (h : ∀ a ∈ xs, p a = false) :
    Stops p (xs ++ t) := by
  cases xs with
  | nil => exact absurd rfl hne
  | cons a xs => simpa using h a List.mem_cons_self

theorem stops_of_all (h : ∀ a ∈ t, p a = false) : Stops p t := by
  intro a ha
  exact h a (List.mem_of_head? ha)

theorem takeWhile_of_stops (h : Stops p t) : t.takeWhile p = [] := by
  cases t with
  | nil => rfl
  | cons a t => simp [stops_cons.mp h]

theorem dropWhile_of_stops (h : Stops p t) : t.dropWhile p = t := by
  cases t with
  | nil => rfl
  | cons a t => simp [stops_cons.mp h]

theorem takeWhile_append (hxs : ∀ a ∈ xs, p a = true) (ht : Stops p t) :
    (xs ++ t).takeWhile p = xs := by
  rw [List.takeWhile_append_of_pos hxs, takeWhile_of_stops ht, List.append_nil]

theorem dropWhile_append (hxs : ∀ a ∈ xs, p a = true) (ht : Stops p t) :
    (xs ++ t).dropWhile p = t := by
  rw [List.dropWhile_append_of_pos hxs, dropWhile_of_stops ht]

theorem takeWhile_of_all (hxs : ∀ a ∈ xs, p a = true) : xs.takeWhile p = xs := by
  simpa using takeWhile_append hxs stops_nil

theorem dropWhile_of_all (hxs : ∀ a ∈ xs, p a = true) : xs.dropWhile p = [] := by
  simpa using dropWhile_append hxs stops_nil

theorem stops_dropWhile (p : α → Bool) (xs : List α) : Stops p (xs.dropWhile p) := by
  intro a ha
  have hhead := @List.head?_dropWhile_not _ p xs
  rw [Option.mem_def.mp ha] at hhead
  simpa using hhead

section First

variable [DecidableEq α] {c : α}

theorem ne_of_not_mem (h : c ∉ xs) : ∀ a ∈ xs, decide (a ≠ c) = true := by
  intro a ha
  exact decide_eq_true fun hac => h (hac ▸ ha)

theorem takeWhile_ne_of_not_mem (h : c ∉ xs) : xs.takeWhile (· ≠ c) = xs :=
  takeWhile_of_all (ne_of_not_mem h)

theorem takeWhile_ne_append (h : c ∉ xs) (t : List α) : (xs ++ c :: t).takeWhile (· ≠ c) = xs :=
  takeWhile_append (ne_of_not_mem h) (by simp)

theorem dropWhile_ne_append (h : c ∉ xs) (t : List α) :
    (xs ++ c :: t).dropWhile (· ≠ c) = c :: t :=
  dropWhile_append (ne_of_not_mem h) (by simp)

end First

/-- Two ways to write a list around the first element with a property. -/
theorem first_unique {P : α → Prop} {pre pre' post post' : List α} {x x' : α}
    (h : pre ++ x :: post = pre' ++ x' :: post') (hpre : ∀ y ∈ pre, ¬P y) (hx : P x)
    (hpre' : ∀ y ∈ pre', ¬P y) (hx' : P x') : pre = pre' ∧ x = x' ∧ post = post' := by
  induction pre generalizing pre' with
  | nil =>
      cases pre' with
      | nil => simpa using h
      | cons y pre' =>
          simp only [List.nil_append, List.cons_append, List.cons.injEq] at h
          exact absurd hx (h.1 ▸ hpre' y List.mem_cons_self)
  | cons y pre ih =>
      cases pre' with
      | nil =>
          simp only [List.nil_append, List.cons_append, List.cons.injEq] at h
          exact absurd hx' (h.1 ▸ hpre y List.mem_cons_self)
      | cons y' pre' =>
          simp only [List.cons_append, List.cons.injEq] at h
          obtain ⟨rfl, rfl, rfl⟩ := ih h.2 (fun z hz => hpre z (List.mem_cons_of_mem y hz))
            fun z hz => hpre' z (List.mem_cons_of_mem y' hz)
          exact ⟨by rw [h.1], rfl, rfl⟩

end Scan
