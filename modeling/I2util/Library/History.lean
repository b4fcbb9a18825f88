import Mathlib.Data.List.Basic

/-!
What holds of a history because of one event in it and because of the ones behind that event.
-/

namespace History

variable {α : Type*} {P Q : List α → α → Prop} {es : List α} {e : α}

/-- There is an event with `P`, and every event behind it has `Q`. Both see what was before
the event. -/
def Since (P Q : List α → α → Prop) (es : List α) : Prop :=
  ∃ a e b, es = a ++ e :: b ∧ P a e ∧ ∀ x e' y, b = x ++ e' :: y → Q (a ++ e :: x) e'

theorem not_since_nil : ¬Since P Q [] := by
  rintro ⟨a, e, b, hes, -⟩
  simp at hes

/-- The last event has `P`, or it has `Q` and there was one before. -/
theorem since_append_singleton : Since P Q (es ++ [e]) ↔ P es e ∨ Since P Q es ∧ Q es e := by
  constructor
  · rintro ⟨a, e', b, hes, hP, hQ⟩
    rcases List.eq_nil_or_concat' b with rfl | ⟨b', e'', rfl⟩
    · obtain ⟨rfl, he⟩ := List.append_inj' hes rfl
      obtain rfl := List.singleton_inj.mp he
      exact .inl hP
    · rw [← List.cons_append, ← List.append_assoc] at hes
      obtain ⟨rfl, he⟩ := List.append_inj' hes rfl
      obtain rfl := List.singleton_inj.mp he
      refine .inr ⟨⟨a, e', b', rfl, hP, fun x e'' y hb => ?_⟩, hQ b' e [] rfl⟩
      exact hQ x e'' (y ++ [e]) (by rw [hb, List.append_assoc, List.cons_append])
  · rintro (hP | ⟨⟨a, e', b, rfl, hP, hQ⟩, hlast⟩)
    · refine ⟨es, e, [], rfl, hP, fun x e' y hb => ?_⟩
      simp at hb
    · refine ⟨a, e', b ++ [e], by rw [List.append_assoc, List.cons_append], hP,
        fun x e'' y hb => ?_⟩
      rcases List.eq_nil_or_concat' y with rfl | ⟨y', z, rfl⟩
      · obtain ⟨rfl, he⟩ := List.append_inj' hb rfl
        obtain rfl := List.singleton_inj.mp he
        exact hlast
      · rw [← List.cons_append, ← List.append_assoc] at hb
        obtain ⟨rfl, -⟩ := List.append_inj' hb rfl
        exact hQ x e'' y' rfl

end History
