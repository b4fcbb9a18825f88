import Mathlib.Data.Nat.Notation
import Mathlib.Data.Option.Basic
import Mathlib.Logic.Function.Basic

/-!
Memory as blocks that are allocated and freed.

Addresses are handed out in increasing order and are not used again. Whether an
allocation succeeds is decided by the memory itself.
-/

structure Heap (α : Type*) where
  mem : ℕ → Option (List α)
  next : ℕ
  avail : ℕ → Bool
  fresh : ∀ p, next ≤ p → mem p = none

namespace Heap

variable {α : Type*}

/-- An allocation of something that is not kept in a block: whether it succeeds. -/
def permit (h : Heap α) : Bool × Heap α :=
  (h.avail h.next,
    { h with next := h.next + 1, fresh := fun p hp => h.fresh p (Nat.le_of_succ_le hp) })

def store (h : Heap α) (block : List α) : ℕ × Heap α :=
  (h.next,
    { h with
      mem := Function.update h.mem h.next (some block)
      next := h.next + 1
      fresh := fun p hp => by
        rw [Function.update_of_ne (by omega)]
        exact h.fresh p (Nat.le_of_succ_le hp) })

def alloc (h : Heap α) (block : List α) : Option ℕ × Heap α :=
  if h.avail h.next then (some (h.store block).1, (h.store block).2) else (none, h.permit.2)

def set (h : Heap α) (p : ℕ) (block : List α) : Heap α :=
  { h with
    mem := Function.update h.mem p ((h.mem p).map fun _ => block)
    fresh := fun q hq => by
      by_cases hqp : q = p
      · subst hqp
        rw [Function.update_self, h.fresh q hq, Option.map_none]
      · rw [Function.update_of_ne hqp]
        exact h.fresh q hq }

def free (h : Heap α) (p : ℕ) : Heap α :=
  { h with
    mem := Function.update h.mem p none
    fresh := fun q hq => by
      by_cases hqp : q = p
      · rw [hqp, Function.update_self]
      · rw [Function.update_of_ne hqp]
        exact h.fresh q hq }

theorem store_mem_self (h : Heap α) (block : List α) : (h.store block).2.mem h.next = some block :=
  Function.update_self _ _ _

theorem store_mem_of_ne (h : Heap α) (block : List α) {q : ℕ} (hq : q ≠ h.next) :
    (h.store block).2.mem q = h.mem q :=
  Function.update_of_ne hq _ _

theorem set_mem_self {h : Heap α} {p : ℕ} {old : List α} (hp : h.mem p = some old)
    (block : List α) : (h.set p block).mem p = some block := by
  show Function.update _ _ _ p = _
  rw [Function.update_self, hp, Option.map_some]

theorem set_mem_of_ne (h : Heap α) {p q : ℕ} (block : List α) (hq : q ≠ p) :
    (h.set p block).mem q = h.mem q :=
  Function.update_of_ne hq _ _

theorem set_set (h : Heap α) (p : ℕ) (block block' : List α) :
    (h.set p block).set p block' = h.set p block' := by
  have hmem : ((h.set p block).set p block').mem = (h.set p block').mem := by
    have hblock : (h.set p block).mem p = (h.mem p).map fun _ => block := Function.update_self ..
    show Function.update (Function.update h.mem p _) p ((h.set p block).mem p |>.map _) = _
    rw [Function.update_idem, hblock, Option.map_map]
    rfl
  rw [Heap.mk.injEq]
  exact ⟨hmem, rfl, rfl⟩

/-- An allocation that succeeds is a new block at the next address. -/
theorem alloc_eq_some {h h' : Heap α} {block : List α} {p : ℕ} (ha : h.alloc block = (some p, h')) :
    p = h.next ∧ h' = (h.store block).2 := by
  rw [alloc] at ha
  split at ha
  · obtain ⟨hp, hh⟩ := Prod.mk.inj ha
    exact ⟨(Option.some.inj hp).symm, hh.symm⟩
  · cases (Prod.mk.inj ha).1

structure Extends (h h' : Heap α) : Prop where
  next : h.next ≤ h'.next
  mem : ∀ p < h.next, h'.mem p = h.mem p

variable {h h' h'' : Heap α}

theorem Extends.refl (h : Heap α) : h.Extends h := ⟨Nat.le_refl _, fun _ _ => rfl⟩

theorem Extends.trans (h₁ : h.Extends h') (h₂ : h'.Extends h'') : h.Extends h'' :=
  ⟨Nat.le_trans h₁.next h₂.next, fun p hp =>
    (h₂.mem p (Nat.lt_of_lt_of_le hp h₁.next)).trans (h₁.mem p hp)⟩

theorem Extends.mem_some (he : h.Extends h') {p : ℕ} {block : List α} (hp : h.mem p = some block) :
    h'.mem p = some block := by
  have hlt : p < h.next := by
    apply Nat.lt_of_not_le
    intro hle
    rw [h.fresh p hle] at hp
    cases hp
  exact (he.mem p hlt).trans hp

theorem permit_extends (h : Heap α) : h.Extends h.permit.2 :=
  ⟨Nat.le_succ _, fun _ _ => rfl⟩

theorem store_extends (h : Heap α) (block : List α) : h.Extends (h.store block).2 :=
  ⟨Nat.le_succ _, fun _ hp => store_mem_of_ne h block (Nat.ne_of_lt hp)⟩

theorem Extends.set (he : h.Extends h') {p : ℕ} (hp : h.next ≤ p) (block : List α) :
    h.Extends (h'.set p block) :=
  ⟨he.next, fun q hq => (set_mem_of_ne h' block (by omega)).trans (he.mem q hq)⟩

end Heap
