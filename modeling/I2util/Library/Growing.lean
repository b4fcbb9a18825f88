import Mathlib.Data.Nat.Notation
import Mathlib.Tactic.Common

/-!
A block that grows by steps of a fixed size, and the text that stands at its start.

The size that the program keeps is not the size of the block by definition: `Sound` says
that it is no larger, and that no cell behind it was written.
-/

namespace Growing

variable {α : Type*}

/-- The cells of the block, the size that the program keeps for it, and whether a cell
behind that size or behind the block has been written. A null pointer has no cells. -/
structure Block (α : Type*) where
  cells : List α
  max : ℕ
  overrun : Bool

/-- `realloc`: the new block of that size, or a failure. What fits of the old cells is
kept. -/
structure Realloc (α : Type*) where
  run : List α → ℕ → Option (List α)
  length_eq : ∀ {old n new}, run old n = some new → new.length = n
  keeps : ∀ {old n new}, run old n = some new → old.take n <+: new

def Realloc.Succeeds (a : Realloc α) : Prop := ∀ old n, (a.run old n).isSome

def Realloc.padding (c : α) : Realloc α where
  run old n := some (old.take n ++ List.replicate (n - old.length) c)
  length_eq h := by
    obtain rfl := Option.some.inj h
    simp only [List.length_append, List.length_take, List.length_replicate]
    omega
  keeps h := by
    obtain rfl := Option.some.inj h
    exact List.prefix_append _ _

def Realloc.refusing : Realloc α := ⟨fun _ _ => none, nofun, nofun⟩

/-- The sizes that are tried until one is large enough. -/
def raise (inc need : ℕ) : ℕ → ℕ → ℕ
  | 0, max => max
  | fuel + 1, max => if max < need then raise inc need fuel (max + inc) else max

namespace Block

def put (b : Block α) (i : ℕ) (c : α) : Block α :=
  if i < b.max ∧ i < b.cells.length then { b with cells := b.cells.set i c }
  else { b with overrun := true }

/-- Room for `need` cells, and whether there is. -/
def grow (a : Realloc α) (inc need : ℕ) (b : Block α) : Bool × Block α :=
  if b.max < need then
    let max := raise inc need need b.max
    match a.run b.cells max with
    | some cells => (true, { b with cells, max })
    | none => (false, { b with cells := [], max })
  else (true, b)

structure Sound (b : Block α) : Prop where
  max_le : b.max ≤ b.cells.length
  no_overrun : b.overrun = false

structure Starts (b : Block α) (text : List α) : Prop where
  sound : b.Sound
  isPrefix : text <+: b.cells
  fits : text.length ≤ b.max

end Block

theorem need_le_raise {inc need : ℕ} (hinc : 0 < inc) {fuel max : ℕ} (hfuel : need ≤ max + fuel) :
    need ≤ raise inc need fuel max := by
  induction fuel generalizing max with
  | zero => exact hfuel
  | succ fuel ih =>
      rw [raise]
      split
      · exact ih (by omega)
      · omega

namespace Block

variable {b : Block α} {text : List α} {a : Realloc α}

@[simp] theorem put_max (i : ℕ) (c : α) : (b.put i c).max = b.max := by
  rw [put]
  split <;> rfl

theorem Sound.starts_nil (h : b.Sound) : b.Starts [] := ⟨h, List.nil_prefix, Nat.zero_le _⟩

theorem Starts.take (h : b.Starts text) {t : List α} (ht : t <+: text) : b.Starts t :=
  ⟨h.sound, ht.trans h.isPrefix, Nat.le_trans ht.length_le h.fits⟩

theorem Starts.drop {x y : List α} (h : b.Starts (x ++ y)) :
    ∃ rest, b.cells.drop x.length = y ++ rest := by
  obtain ⟨rest, hrest⟩ := h.isPrefix
  refine ⟨rest, ?_⟩
  rw [← hrest, List.append_assoc, List.drop_left]

theorem Starts.getD {x y : List α} {c : α} (h : b.Starts (x ++ c :: y)) (d : α) :
    b.cells.getD x.length d = c := by
  obtain ⟨rest, hrest⟩ := h.isPrefix
  rw [← hrest, List.append_assoc]
  simp

theorem Starts.set {x y : List α} {c : α} (h : b.Starts (x ++ c :: y)) (d : α) :
    (b.put x.length d).Starts (x ++ d :: y) := by
  have hmax := h.fits
  have hcells := h.sound.max_le
  rw [List.length_append, List.length_cons] at hmax
  rw [put, if_pos ⟨by omega, by omega⟩]
  obtain ⟨rest, hrest⟩ := h.isPrefix
  refine ⟨⟨?_, h.sound.no_overrun⟩, ⟨rest, ?_⟩, ?_⟩
  · rw [List.length_set]
    exact hcells
  · rw [← hrest, List.append_assoc, List.append_assoc, List.set_append_right _ _ (Nat.le_refl _),
      Nat.sub_self]
    rfl
  · rw [List.length_append, List.length_cons]
    exact hmax

theorem Starts.push (h : b.Starts text) (hroom : text.length < b.max) (c : α) :
    (b.put text.length c).Starts (text ++ [c]) := by
  have hcells := h.sound.max_le
  rw [put, if_pos ⟨hroom, by omega⟩]
  obtain ⟨rest, hrest⟩ := h.isPrefix
  have hlen := congrArg List.length hrest
  rw [List.length_append] at hlen
  obtain ⟨d, rest, rfl⟩ := List.exists_cons_of_length_pos (l := rest) (by omega)
  refine ⟨⟨?_, h.sound.no_overrun⟩, ⟨rest, ?_⟩, ?_⟩
  · rw [List.length_set]
    exact hcells
  · rw [← hrest, List.set_append_right _ _ (Nat.le_refl _), Nat.sub_self, List.set_cons_zero,
      List.append_assoc]
    rfl
  · rw [List.length_append]
    exact hroom

/-- Growing keeps the text and makes the room, where it succeeds. -/
theorem Starts.of_grow (h : b.Starts text) {inc : ℕ} (hinc : 0 < inc) {need : ℕ} {b' : Block α}
    (hgrow : b.grow a inc need = (true, b')) : b'.Starts text ∧ need ≤ b'.max := by
  rw [Block.grow] at hgrow
  by_cases hneed : b.max < need
  · have hmax := h.fits
    have hraise := need_le_raise hinc (Nat.le_add_left need b.max)
    rw [if_pos hneed] at hgrow
    cases hcells : a.run b.cells (raise inc need need b.max) with
    | none => simp [hcells] at hgrow
    | some cells =>
        simp only [hcells, Prod.mk.injEq, true_and] at hgrow
        obtain rfl := hgrow
        have hkept : text <+: b.cells.take (raise inc need need b.max) :=
          List.prefix_take_iff.mpr ⟨h.isPrefix, by omega⟩
        refine ⟨⟨⟨?_, h.sound.no_overrun⟩, hkept.trans (a.keeps hcells), ?_⟩, hraise⟩
        · exact Nat.le_of_eq (a.length_eq hcells).symm
        · show text.length ≤ raise inc need need b.max
          omega
  · rw [if_neg hneed] at hgrow
    obtain rfl := (Prod.mk.inj hgrow).2
    exact ⟨h, Nat.not_lt.mp hneed⟩

theorem grow_fst (ha : a.Succeeds) (inc need : ℕ) : (b.grow a inc need).1 = true := by
  rw [Block.grow]
  split
  · obtain ⟨cells, hcells⟩ := Option.isSome_iff_exists.mp
      (ha b.cells (raise inc need need b.max))
    simp only [hcells]
  · rfl

theorem Starts.grow (h : b.Starts text) (ha : a.Succeeds) {inc : ℕ} (hinc : 0 < inc) (need : ℕ) :
    ∃ b', b.grow a inc need = (true, b') ∧ b'.Starts text ∧ need ≤ b'.max := by
  have hgrow : b.grow a inc need = (true, (b.grow a inc need).2) :=
    Prod.ext (grow_fst ha inc need) rfl
  exact ⟨_, hgrow, h.of_grow hinc hgrow⟩

/-! ### Blocks that are handed on -/

structure Whole (b : Block α) : Prop where
  max_eq : b.max = b.cells.length
  no_overrun : b.overrun = false

/-- What a refused allocation leaves: no cells, but a size. -/
structure Lost (b : Block α) : Prop where
  cells : b.cells = []
  max_pos : 0 < b.max

/-- The block behind an operation. -/
structure Settled (b : Block α) (refused : Bool) : Prop where
  whole : refused = false → b.Whole
  lost : refused = true → b.Lost

theorem Whole.sound (h : b.Whole) : b.Sound := ⟨Nat.le_of_eq h.max_eq, h.no_overrun⟩

theorem Lost.not_sound (h : b.Lost) : ¬b.Sound := by
  intro hsound
  have hle := hsound.max_le
  have hpos := h.max_pos
  rw [h.cells, List.length_nil] at hle
  omega

theorem Settled.sound_iff {refused : Bool} (h : b.Settled refused) : b.Sound ↔ refused = false := by
  constructor
  · intro hsound
    cases refused with
    | false => rfl
    | true => exact absurd hsound (h.lost rfl).not_sound
  · exact fun hno => (h.whole hno).sound

theorem Whole.settled (h : b.Whole) : b.Settled false := ⟨fun _ => h, nofun⟩

theorem Lost.settled (h : b.Lost) : b.Settled true := ⟨nofun, fun _ => h⟩

theorem Whole.put (h : b.Whole) {i : ℕ} (hi : i < b.max) (c : α) : (b.put i c).Whole := by
  rw [Block.put, if_pos ⟨hi, Nat.lt_of_lt_of_eq hi h.max_eq⟩]
  exact ⟨h.max_eq.trans (List.length_set ..).symm, h.no_overrun⟩

/-- Growing ends in one of two ways. -/
theorem Whole.grow_cases (h : b.Whole) {inc : ℕ} (hinc : 0 < inc) (need : ℕ) :
    (∃ b', b.grow a inc need = (true, b') ∧ b'.Whole ∧ need ≤ b'.max) ∨
      ∃ b', b.grow a inc need = (false, b') ∧ b'.Lost := by
  rw [Block.grow]
  by_cases hneed : b.max < need
  · have hraise := need_le_raise hinc (Nat.le_add_left need b.max)
    rw [if_pos hneed]
    cases hcells : a.run b.cells (raise inc need need b.max) with
    | some cells =>
        simp only [hcells]
        exact .inl ⟨_, rfl, ⟨(a.length_eq hcells).symm, h.no_overrun⟩, hraise⟩
    | none =>
        simp only [hcells]
        refine .inr ⟨_, rfl, rfl, ?_⟩
        exact Nat.lt_of_lt_of_le (Nat.zero_lt_of_lt hneed) hraise
  · rw [if_neg hneed]
    exact .inl ⟨b, rfl, h, Nat.not_lt.mp hneed⟩

end Block

end Growing
