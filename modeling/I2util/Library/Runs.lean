import Mathlib.Data.Nat.Find

/-!
Infinite runs of a system: sequences of states in which every state is the one before or
comes from it by a step.

A property of all states is proved from its steps. What happens at last is proved from a
rank that gets smaller until it does.
-/

namespace Runs

variable {σ α : Type*}

structure IsRun (start : σ → Prop) (step : σ → σ → Prop) (run : ℕ → σ) : Prop where
  start : start (run 0)
  step : ∀ n, run (n + 1) = run n ∨ step (run n) (run (n + 1))

variable {start : σ → Prop} {step : σ → σ → Prop} {run : ℕ → σ} {I : σ → Prop} {n m : ℕ}

/-- What every step keeps holds from any time on at which it holds. -/
theorem IsRun.always_from (h : IsRun start step run) (hn : I (run n))
    (hstep : ∀ s s', I s → step s s' → I s') (hm : n ≤ m) : I (run m) := by
  induction m, hm using Nat.le_induction with
  | base => exact hn
  | succ m _ ih =>
      rcases h.step m with hsame | hnext
      · rwa [hsame]
      · exact hstep _ _ ih hnext

theorem IsRun.always (h : IsRun start step run) (hstart : ∀ s, start s → I s)
    (hstep : ∀ s s', I s → step s s' → I s') (n : ℕ) : I (run n) :=
  h.always_from (hstart _ h.start) hstep (Nat.zero_le n)

/-- What changes at some time has a first time at which it does. -/
theorem exists_first_change {f : ℕ → α} (h : ∃ m, n ≤ m ∧ f (m + 1) ≠ f m) :
    ∃ m, n ≤ m ∧ f m = f n ∧ f (m + 1) ≠ f m := by
  classical
  obtain ⟨hle, hchange⟩ := Nat.find_spec h
  refine ⟨Nat.find h, hle, ?_, hchange⟩
  have hbefore : ∀ k, n ≤ k → k ≤ Nat.find h → f k = f n := by
    intro k hk
    induction k, hk using Nat.le_induction with
    | base => exact fun _ => rfl
    | succ k hk ih =>
        intro hlt
        have hsame : f (k + 1) = f k := by
          by_contra hne
          exact Nat.find_min h hlt ⟨hk, hne⟩
        rw [hsame, ih (Nat.le_of_succ_le hlt)]
  exact hbefore _ hle (Nat.le_refl _)

/-- A rank that gets smaller as long as the goal is not reached. -/
theorem leads_to_of_rank {P Q : ℕ → Prop} (rank : ℕ → ℕ)
    (h : ∀ n, P n → ∃ m, n ≤ m ∧ (Q m ∨ P m ∧ rank m < rank n)) (hn : P n) :
    ∃ m, n ≤ m ∧ Q m := by
  induction hrank : rank n using Nat.strongRecOn generalizing n with
  | _ r ih =>
      subst hrank
      obtain ⟨m, hle, hQ | ⟨hP, hless⟩⟩ := h n hn
      · exact ⟨m, hle, hQ⟩
      · obtain ⟨k, hmk, hQ⟩ := ih _ hless hP rfl
        exact ⟨k, Nat.le_trans hle hmk, hQ⟩

/-! ### Schedules -/

/-- The state after `n` entries of a schedule. Nothing happens where there is no step, and
when the schedule is at its end. -/
def follow (next : σ → α → Option σ) (s : σ) : List α → ℕ → σ
  | _, 0 => s
  | [], _ + 1 => s
  | a :: schedule, n + 1 => follow next ((next s a).getD s) schedule n

section Follow

variable {next : σ → α → Option σ} {s : σ} {schedule : List α}

theorem follow_nil (next : σ → α → Option σ) (s : σ) (n : ℕ) : follow next s [] n = s := by
  cases n <;> rfl

/-- Behind the end of a schedule nothing happens any more. -/
theorem follow_of_length_le (h : schedule.length ≤ n) :
    follow next s schedule n = follow next s schedule schedule.length := by
  induction schedule generalizing s n with
  | nil => rw [follow_nil, follow_nil]
  | cons a schedule ih =>
      obtain ⟨n, rfl⟩ : ∃ k, n = k + 1 := Nat.exists_eq_succ_of_ne_zero (by
        rintro rfl
        simp at h)
      exact ih (Nat.le_of_succ_le_succ h)

/-- A schedule is a run, when its entries make steps. -/
theorem follow_isRun (hs : start s)
    (hstep : ∀ a ∈ schedule, ∀ s s', next s a = some s' → step s s') :
    IsRun start step (follow next s schedule) := by
  refine ⟨by cases schedule <;> exact hs, fun n => ?_⟩
  clear hs
  induction schedule generalizing s n with
  | nil => exact .inl (by rw [follow_nil, follow_nil])
  | cons a schedule ih =>
      cases n with
      | succ n => exact ih (fun b hb => hstep b (List.mem_cons_of_mem a hb)) n
      | zero =>
          have hfirst : follow next s (a :: schedule) 1 = (next s a).getD s := by
            show follow next ((next s a).getD s) schedule 0 = _
            cases schedule <;> rfl
          rw [show 0 + 1 = 1 from rfl, hfirst]
          cases hnext : next s a with
          | none => exact .inl rfl
          | some s' => exact .inr (hstep a List.mem_cons_self s s' hnext)

end Follow

end Runs
