import I2util.Hash.Md5
import I2util.Library.Sines

/-!
One turn of `body` against the operations of RFC 1321.

The source renames its variables from step to step, has the constants as numbers and the
functions in another spelling, and reads the words of the block in one of two ways. The
standard is written here with the words moved by one place in each operation.
-/

namespace I2util

attribute [local instance] Words.neZero_four Words.neZero_sixteen

open Words

namespace Rfc1321

/-- `T[i]`: the integer part of 4294967296 times the absolute value of the sine. -/
noncomputable def T (i : ℕ) : UInt32 := UInt32.ofNat ⌊((4294967296 : ℕ) : ℝ) * |Real.sin i|⌋₊

def F (X Y Z : UInt32) : UInt32 := (X &&& Y) ||| (~~~X &&& Z)
def G (X Y Z : UInt32) : UInt32 := (X &&& Z) ||| (Y &&& ~~~Z)
def H (X Y Z : UInt32) : UInt32 := X ^^^ Y ^^^ Z
def I (X Y Z : UInt32) : UInt32 := Y ^^^ (X ||| ~~~Z)

/-- The function of the operation `t`, counted from zero. -/
def auxiliary (t : ℕ) : UInt32 → UInt32 → UInt32 → UInt32 :=
  if t < 16 then F else if t < 32 then G else if t < 48 then H else I

/-- The word of the block that it adds. -/
def k (t : ℕ) : ℕ :=
  if t < 16 then t % 16
  else if t < 32 then (5 * t + 1) % 16
  else if t < 48 then (3 * t + 5) % 16
  else 7 * t % 16

/-- The distance by which it rotates. -/
def s (t : ℕ) : ℕ :=
  (if t < 16 then [7, 12, 17, 22]
    else if t < 32 then [5, 9, 14, 20]
    else if t < 48 then [4, 11, 16, 23]
    else [6, 10, 15, 21]).getD (t % 4) 0

/-- The words of a block, the low-order byte first. -/
def X (M : Md5Block) (j : ℕ) : UInt32 := ofLE ((M.1.drop (j * 4)).take 4)

noncomputable def operation (M : Md5Block) (v : Md5State) (t : ℕ) : Md5State :=
  let A := v.get 0
  let B := v.get 1
  let C := v.get 2
  let D := v.get 3
  ⟨[D, B + rotl (s t) (A + auxiliary t B C D + X M (k t) + T (t + 1)), B, C], rfl⟩

noncomputable def compress (v : Md5State) (M : Md5Block) : Md5State :=
  List.Vector.map₂ (· + ·) ((List.range 64).foldl (operation M) v) v

theorem k_lt (t : ℕ) : k t < 16 := by
  rw [k]
  split_ifs <;> exact Nat.mod_lt _ (by decide)

theorem s_bounds : ∀ t < 64, 0 < s t ∧ s t < 32 := by decide

end Rfc1321

namespace Md5

/-! ### The table of the source -/

def constant (t : ℕ) : UInt32 := (steps.map Step.t).getD t 0

def basicFunction (t : ℕ) : BasicFunction :=
  if t < 16 then .F else if t < 32 then .G else if t < 48 then .H else .I

def row (t : ℕ) : Step where
  f := basicFunction t
  a := 0 - Fin.ofNat 4 t
  b := 1 - Fin.ofNat 4 t
  c := 2 - Fin.ofNat 4 t
  d := 3 - Fin.ofNat 4 t
  x := if t < 16 then .SET (Fin.ofNat 16 t) else .GET (Fin.ofNat 16 (Rfc1321.k t))
  t := constant t
  s := UInt32.ofNat (Rfc1321.s t)

theorem steps_eq : steps = (List.range 64).map row := by decide +kernel

theorem constant_digits :
    ∀ t < 64, Sines.Digits 23 4294967296 100 (t + 1) (constant t).toNat := by
  decide +kernel

theorem constant_eq {t : ℕ} (ht : t < 64) : constant t = Rfc1321.T (t + 1) := by
  rw [Rfc1321.T, Sines.floor_eq (by decide) (by decide) (constant_digits t ht)]
  exact (UInt32.ofNat_toNat).symm

theorem apply_eq (t : ℕ) : (basicFunction t).apply = Rfc1321.auxiliary t := by
  funext x y z
  rw [basicFunction, Rfc1321.auxiliary]
  split_ifs
  · show z ^^^ (x &&& (y ^^^ z)) = choose x y z
    rw [UInt32.xor_comm, choose_eq]
  · show y ^^^ (z &&& (x ^^^ y)) = (x &&& z) ||| (y &&& ~~~z)
    rw [UInt32.xor_comm, choose_eq, choose, UInt32.and_comm z, UInt32.and_comm _ y]
  · rfl
  · rfl

/-! ### The words -/

variable {access : Access} {M : Md5Block} {t : ℕ} {block : List.Vector UInt32 16}

theorem assemble_eq (M : Md5Block) (n : Fin 16) : assemble M n = Rfc1321.X M n.1 := by
  have hroom : n.1 * 4 + 4 ≤ M.1.length := by
    rw [M.2]
    omega
  rw [Rfc1321.X, take_four hroom, ← ofLE_eq]
  rfl

/-- The words that the steps in front of the step `t` have left in `ctx->block`, where it
is used. -/
def Loaded (access : Access) (M : Md5Block) (t : ℕ) (block : List.Vector UInt32 16) : Prop :=
  access = .portable → ∀ n : Fin 16, n.1 < t → block.get n = Rfc1321.X M n.1

/-- The step reads its word of the block. In the first round it leaves it for the others. -/
theorem Loaded.eval (h : Loaded access M t block) :
    ((row t).x.eval access M block).1 = Rfc1321.X M (Rfc1321.k t) ∧
      Loaded access M (t + 1) ((row t).x.eval access M block).2 := by
  by_cases ht : t < 16
  · have hx : (row t).x = .SET ⟨t, ht⟩ :=
      (if_pos ht).trans (congrArg Word.SET (Fin.ext (Nat.mod_eq_of_lt ht)))
    have hk : Rfc1321.k t = t := (if_pos ht).trans (Nat.mod_eq_of_lt ht)
    rw [hx, hk]
    cases access with
    | unaligned => exact ⟨rfl, fun hno => absurd hno (by decide)⟩
    | portable =>
        refine ⟨assemble_eq M _, fun _ n hn => ?_⟩
        show (block.set ⟨t, ht⟩ (assemble M ⟨t, ht⟩)).get n = _
        by_cases hlast : n = ⟨t, ht⟩
        · rw [hlast, List.Vector.get_set_same, assemble_eq]
        · have hne : n.1 ≠ t := fun heq => hlast (Fin.ext heq)
          rw [List.Vector.get_set_of_ne (Ne.symm hlast)]
          exact h rfl n (by omega)
  · have hx : (row t).x = .GET ⟨Rfc1321.k t, Rfc1321.k_lt t⟩ :=
      (if_neg ht).trans (congrArg Word.GET (Fin.ext (Nat.mod_eq_of_lt (Rfc1321.k_lt t))))
    have hlt := Rfc1321.k_lt t
    rw [hx]
    cases access with
    | unaligned => exact ⟨rfl, fun hno => absurd hno (by decide)⟩
    | portable => exact ⟨h rfl _ (by omega), fun _ n hn => h rfl n (by omega)⟩

/-! ### The steps -/

/-- The variables, under the names that they have in the step `t`, are the words of the
standard. -/
structure InStep (access : Access) (M : Md5Block) (t : ℕ) (v : Vars) (r : Md5State) : Prop where
  state : ∀ j : Fin 4, v.state.get (j - Fin.ofNat 4 t) = r.get j
  block : Loaded access M t v.block

variable {v : Vars} {r : Md5State}

theorem inStep_start (access : Access) (M : Md5Block) (v : Vars) :
    InStep access M 0 v v.state where
  state := fun j => congrArg v.state.get (sub_zero j)
  block := fun _ _ hn => absurd hn (Nat.not_lt_zero _)

/-- The value that a step gives its first variable. -/
theorem step_value (h : InStep access M t v r) (ht : t < 64) :
    (Step.run access M v (row t)).state = v.state.set (0 - Fin.ofNat 4 t)
      ((Rfc1321.operation M r t).get 1) := by
  obtain ⟨hpos, hlt⟩ := Rfc1321.s_bounds t ht
  have hA : v.state.get (row t).a = r.get 0 := h.state 0
  have hB : v.state.get (row t).b = r.get 1 := h.state 1
  have hC : v.state.get (row t).c = r.get 2 := h.state 2
  have hD : v.state.get (row t).d = r.get 3 := h.state 3
  have hf : (row t).f.apply = Rfc1321.auxiliary t := apply_eq t
  have hconst : (row t).t = Rfc1321.T (t + 1) := constant_eq ht
  have hsum : v.state.get (row t).a + ((row t).f.apply (v.state.get (row t).b)
      (v.state.get (row t).c) (v.state.get (row t).d) + ((row t).x.eval access M v.block).1 +
        (row t).t) =
      r.get 0 + Rfc1321.auxiliary t (r.get 1) (r.get 2) (r.get 3) + Rfc1321.X M (Rfc1321.k t) +
        Rfc1321.T (t + 1) := by
    rw [hA, hB, hC, hD, hf, hconst, h.block.eval.1]
    simp only [UInt32.add_assoc]
  rw [Step.run]
  dsimp only
  rw [hsum, hB, and_mask]
  show v.state.set _ (((_ <<< UInt32.ofNat (Rfc1321.s t)) |||
    (_ >>> (32 - UInt32.ofNat (Rfc1321.s t)))) + r.get 1) = _
  rw [rotl_eq hpos hlt, UInt32.add_comm]
  rfl

/-- The names of a step are those of the one before it, moved by one place. -/
theorem names_moved : ∀ k : Variable,
    0 - (k + 1) = 3 - k ∧ 1 - (k + 1) = 0 - k ∧ 2 - (k + 1) = 1 - k ∧ 3 - (k + 1) = 2 - k := by
  decide

theorem names_distinct : ∀ k : Variable, 0 - k ≠ 3 - k ∧ 0 - k ≠ 1 - k ∧ 0 - k ≠ 2 - k := by
  decide

theorem InStep.step (h : InStep access M t v r) (ht : t < 64) :
    InStep access M (t + 1) (Step.run access M v (row t)) (Rfc1321.operation M r t) := by
  have hnext : Fin.ofNat 4 (t + 1) = Fin.ofNat 4 t + 1 := by
    apply Fin.ext
    show (t + 1) % 4 = (t % 4 + 1) % 4
    omega
  obtain ⟨h0, h1, h2, h3⟩ := names_moved (Fin.ofNat 4 t)
  obtain ⟨hne3, hne1, hne2⟩ := names_distinct (Fin.ofNat 4 t)
  refine ⟨fun j => ?_, h.block.eval.2⟩
  rw [step_value h ht, hnext]
  match j with
  | 0 =>
      rw [h0, List.Vector.get_set_of_ne hne3]
      exact h.state 3
  | 1 => rw [h1, List.Vector.get_set_same]
  | 2 =>
      rw [h2, List.Vector.get_set_of_ne hne1]
      exact h.state 1
  | 3 =>
      rw [h3, List.Vector.get_set_of_ne hne2]
      exact h.state 2

theorem InStep.steps (h : InStep access M t v r) {n : ℕ} (hn : t + n ≤ 64) :
    InStep access M (t + n) (((List.range' t n).map row).foldl (Step.run access M) v)
      ((List.range' t n).foldl (Rfc1321.operation M) r) := by
  induction n generalizing t v r with
  | zero => exact h
  | succ n ih =>
      rw [List.range'_succ, List.map_cons, List.foldl_cons, List.foldl_cons,
        ← Nat.succ_add_eq_add_succ]
      exact ih (h.step (by omega)) (by omega)

/-- A turn of the loop is the computation of RFC 1321 on the block, whatever is in
`ctx->block` before. -/
theorem turn_eq (access : Access) (v : Vars) (M : Md5Block) :
    (turn access v M).state = Rfc1321.compress v.state M := by
  have hend := ((inStep_start access M v).steps (n := 64) (by decide)).state
  rw [← List.range_eq_range', ← steps_eq] at hend
  have hstate : (steps.foldl (Step.run access M) v).state =
      (List.range 64).foldl (Rfc1321.operation M) v.state := by
    apply List.Vector.ext
    intro j
    rw [← hend j]
    exact congrArg _ (sub_zero j).symm
  rw [turn, Rfc1321.compress, ← hstate]

end Md5

end I2util
