import Mathlib.Data.Nat.Notation
import Mathlib.Data.Option.Basic

/-!
A loop whose body either goes on with a new state or leaves with a result.

`iterate` runs the body a bounded number of times, so it computes and needs no
termination argument of its own. `whileLoop` takes the bound from a measure of
the state. When the body decreases the measure the bound is never reached, and
`whileLoop_eq` is then the unfolding equation of the unbounded loop.
-/

namespace Loop

variable {σ ρ : Type*}

/-- At most `n` iterations of `body`; `none` when the loop has not been left by
then. -/
def iterate (body : σ → σ ⊕ ρ) : ℕ → σ → Option ρ
  | 0, _ => none
  | n + 1, s =>
      match body s with
      | .inl s' => iterate body n s'
      | .inr r => some r

def Decreases (body : σ → σ ⊕ ρ) (size : σ → ℕ) : Prop :=
  ∀ s s', body s = .inl s' → size s' < size s

/-- The loop, with enough fuel for a body that decreases `size`. -/
def whileLoop (body : σ → σ ⊕ ρ) (size : σ → ℕ) (s : σ) : Option ρ :=
  iterate body (size s + 1) s

variable {body : σ → σ ⊕ ρ} {size : σ → ℕ}

theorem iterate_goes_on {n : ℕ} {s s' : σ} (h : body s = .inl s') :
    iterate body (n + 1) s = iterate body n s' := by
  simp [iterate, h]

theorem iterate_leaves {n : ℕ} {s : σ} {r : ρ} (h : body s = .inr r) :
    iterate body (n + 1) s = some r := by
  simp [iterate, h]

/-- A loop that goes on from every state that it can be in is never left. -/
theorem iterate_never_leaves {I : σ → Prop} (hgo : ∀ s, I s → ∃ s', body s = .inl s' ∧ I s')
    (n : ℕ) {s : σ} (hs : I s) : iterate body n s = none := by
  induction n generalizing s with
  | zero => rfl
  | succ n ih =>
      obtain ⟨s', hbody, hs'⟩ := hgo s hs
      rw [iterate_goes_on hbody]
      exact ih hs'

/-- Beyond the measure of the state, more fuel changes nothing. -/
theorem iterate_fuel (hdec : Decreases body size) {n m : ℕ} {s : σ}
    (hn : size s < n) (hm : size s < m) :
    iterate body n s = iterate body m s := by
  induction n generalizing m s with
  | zero => omega
  | succ n ih =>
      cases m with
      | zero => omega
      | succ m =>
          cases hbody : body s with
          | inl s' =>
              have hlt := hdec s s' hbody
              rw [iterate_goes_on hbody, iterate_goes_on hbody]
              exact ih (by omega) (by omega)
          | inr r => rw [iterate_leaves hbody, iterate_leaves hbody]

theorem whileLoop_goes_on (hdec : Decreases body size) {s s' : σ}
    (h : body s = .inl s') :
    whileLoop body size s = whileLoop body size s' := by
  have hlt := hdec s s' h
  rw [whileLoop, iterate_goes_on h]
  exact iterate_fuel hdec (by omega) (by omega)

theorem whileLoop_leaves {s : σ} {r : ρ} (h : body s = .inr r) :
    whileLoop body size s = some r :=
  iterate_leaves h

theorem whileLoop_eq (hdec : Decreases body size) (s : σ) :
    whileLoop body size s =
      match body s with
      | .inl s' => whileLoop body size s'
      | .inr r => some r := by
  cases h : body s with
  | inl s' => exact whileLoop_goes_on hdec h
  | inr r => exact whileLoop_leaves h

/-- What the states of the loop keep, and what holds when it is left from such
a state, gives a property of every start and result. -/
theorem whileLoop_induct (hdec : Decreases body size) {motive : σ → ρ → Prop}
    (hleave : ∀ s r, body s = .inr r → motive s r)
    (hgo : ∀ s s' r, body s = .inl s' → motive s' r → motive s r)
    (s : σ) : ∃ r, whileLoop body size s = some r ∧ motive s r := by
  induction hsize : size s using Nat.strongRecOn generalizing s with
  | _ n ih =>
      subst hsize
      cases h : body s with
      | inl s' =>
          obtain ⟨r, hr, hm⟩ := ih _ (hdec s s' h) s' rfl
          exact ⟨r, (whileLoop_goes_on hdec h).trans hr, hgo s s' r h hm⟩
      | inr r => exact ⟨r, whileLoop_leaves h, hleave s r h⟩

/-! ### Two loops side by side -/

variable {σ' ρ' : Type*} {body' : σ' → σ' ⊕ ρ'} {size' : σ' → ℕ} {R : σ → σ' → Prop}
  {Q : ρ → ρ' → Prop}

/-- Loops whose bodies take related states to related states or results. -/
theorem iterate_rel (hbody : ∀ s s', R s s' → Sum.LiftRel R Q (body s) (body' s')) {n : ℕ} {s : σ}
    {s' : σ'} (hs : R s s') : Option.Rel Q (iterate body n s) (iterate body' n s') := by
  induction n generalizing s s' with
  | zero => exact .none
  | succ n ih =>
      have hturn := hbody s s' hs
      rw [iterate, iterate]
      generalize body s = o at hturn
      generalize body' s' = o' at hturn
      cases hturn with
      | inl h => exact ih h
      | inr h => exact .some h

theorem whileLoop_rel (hbody : ∀ s s', R s s' → Sum.LiftRel R Q (body s) (body' s')) {s : σ}
    {s' : σ'} (hsize : size s = size' s') (hs : R s s') :
    Option.Rel Q (whileLoop body size s) (whileLoop body' size' s') := by
  rw [whileLoop, whileLoop, hsize]
  exact iterate_rel hbody hs

end Loop
