import I2util.Hash.Sha1Blocks
import I2util.Library.Words

/-!
`sha1_transform` against the computation of FIPS 180-1.

The source keeps the last 16 words of the expansion in a circular buffer, loads them in the
order of the machine, and has its own spelling of the logical functions. The standard
expands the block to 80 words first.
-/

namespace I2util

attribute [local instance] Words.neZero_five Words.neZero_sixteen

open Words Blocks

/-! ### The standard -/

def fipsW (M : Block) (t : ℕ) : UInt32 :=
  if t < 16 then ofBE ((M.1.drop (4 * t)).take 4)
  else rotl 1 (fipsW M (t - 3) ^^^ fipsW M (t - 8) ^^^ fipsW M (t - 14) ^^^ fipsW M (t - 16))
termination_by t
decreasing_by all_goals omega

def fipsF (t : ℕ) (B C D : UInt32) : UInt32 :=
  if t < 20 then choose B C D
  else if t < 40 then parity B C D
  else if t < 60 then majority B C D
  else parity B C D

def fipsK (t : ℕ) : UInt32 :=
  if t < 20 then 0x5A827999
  else if t < 40 then 0x6ED9EBA1
  else if t < 60 then 0x8F1BBCDC
  else 0xCA62C1D6

structure FipsVars where
  A : UInt32
  B : UInt32
  C : UInt32
  D : UInt32
  E : UInt32

def FipsVars.step (M : Block) (v : FipsVars) (t : ℕ) : FipsVars :=
  let TEMP := rotl 5 v.A + fipsF t v.B v.C v.D + v.E + fipsW M t + fipsK t
  ⟨TEMP, v.A, rotl 30 v.B, v.C, v.D⟩

def fipsCompress (H : Sha1State) (M : Block) : Sha1State :=
  let v := (List.range 80).foldl (FipsVars.step M)
    ⟨H.get 0, H.get 1, H.get 2, H.get 3, H.get 4⟩
  ⟨[H.get 0 + v.A, H.get 1 + v.B, H.get 2 + v.C, H.get 3 + v.D, H.get 4 + v.E], rfl⟩

def fipsH : Sha1State :=
  0x67452301 ::ᵥ 0xEFCDAB89 ::ᵥ 0x98BADCFE ::ᵥ 0x10325476 ::ᵥ 0xC3D2E1F0 ::ᵥ .nil

def fipsSha1 (m : List UInt8) : List UInt8 :=
  ((cut 64 (fipsPad m)).foldl fipsCompress fipsH).toList.flatMap fun H => bigEndian 4 H.toNat

variable {M : Block} {t : ℕ} {block : WordBlock}

/-! ### The words -/

theorem loadBlock_get (M : Block) (i : Fin 16) :
    ∃ b0 b1 b2 b3, (M.1.drop (4 * i.1)).take 4 = [b0, b1, b2, b3] ∧
      (loadBlock M).get i = ofLE [b0, b1, b2, b3] := by
  have hroom : 4 * i.1 + 4 ≤ M.1.length := by
    rw [M.2]
    show _ ≤ 64
    omega
  refine ⟨_, _, _, _, take_four hroom, ?_⟩
  rw [← ofLE_eq, loadBlock, List.Vector.get_ofFn]
  rfl

theorem rol_eq {n : ℕ} (hpos : 0 < n) (hlt : n < 32) (x : UInt32) :
    rol x (UInt32.ofNat n) = rotl n x := rotl_eq hpos hlt x

theorem swap_loadBlock (M : Block) (i : Fin 16) :
    ((rol ((loadBlock M).get i) 24 &&& 0xFF00FF00) |||
        (rol ((loadBlock M).get i) 8 &&& 0x00FF00FF)) = fipsW M i.1 := by
  obtain ⟨b0, b1, b2, b3, hbytes, hword⟩ := loadBlock_get M i
  rw [fipsW, if_pos i.2, hbytes, hword]
  exact swap_eq

/-- The circular buffer in front of the step `t`: the last words of the expansion, and in the
first steps the words of the block that have not been turned around yet. -/
structure Expanded (M : Block) (t : ℕ) (block : WordBlock) : Prop where
  loaded : ∀ i : Fin 16, t ≤ i.1 → block.get i = (loadBlock M).get i
  expanded : ∀ s < t, t ≤ s + 16 → block.get (Fin.ofNat 16 s) = fipsW M s

theorem expanded_start (M : Block) : Expanded M 0 (loadBlock M) :=
  ⟨fun _ _ => rfl, fun _ hs => absurd hs (Nat.not_lt_zero _)⟩

theorem Expanded.set (h : Expanded M t block) {w : UInt32} (hw : w = fipsW M t) :
    Expanded M (t + 1) (block.set (Fin.ofNat 16 t) w) := by
  have hother : ∀ i : Fin 16, i ≠ Fin.ofNat 16 t → (block.set (Fin.ofNat 16 t) w).get i =
      block.get i := fun i hi => List.Vector.get_set_of_ne (Ne.symm hi) w
  refine ⟨fun i hi => ?_, fun s hs hlast => ?_⟩
  · rw [hother i, h.loaded i (Nat.le_of_succ_le hi)]
    intro heq
    have hval := congrArg Fin.val heq
    have hmod : (Fin.ofNat 16 t).1 = t % 16 := rfl
    have hlt := i.2
    omega
  · rcases Nat.lt_succ_iff_lt_or_eq.mp hs with hbefore | rfl
    · rw [hother _, h.expanded s hbefore (by omega)]
      intro heq
      have hval : s % 16 = t % 16 := congrArg Fin.val heq
      omega
    · rw [List.Vector.get_set_same, hw]

def Round.blkAt (r : Round) (i : ℕ) : WordBlock :=
  if i < 16 then blk0 r.block (Fin.ofNat 16 i) else blk r.block (Fin.ofNat 16 i)

theorem ofNat_add (ht : 16 ≤ t) {k : ℕ} (hk : k ≤ 16) :
    Fin.ofNat 16 t + Fin.ofNat 16 (16 - k) = Fin.ofNat 16 (t - k) := by
  apply Fin.ext
  show (t % 16 + (16 - k) % 16) % 16 = (t - k) % 16
  omega

theorem Expanded.blkAt {r : Round} (h : Expanded M t r.block) :
    Expanded M (t + 1) (r.blkAt t) := by
  rw [Round.blkAt]
  by_cases ht : t < 16
  · rw [if_pos ht, blk0]
    have hplace : Fin.ofNat 16 t = ⟨t, ht⟩ := Fin.ext (Nat.mod_eq_of_lt ht)
    apply h.set
    rw [h.loaded _ (by rw [hplace]), hplace]
    exact swap_loadBlock M ⟨t, ht⟩
  · have hge : 16 ≤ t := Nat.le_of_not_lt ht
    rw [if_neg ht, blk]
    apply h.set
    have hword : ∀ k, 1 ≤ k → k ≤ 16 →
        r.block.get (Fin.ofNat 16 t + Fin.ofNat 16 (16 - k)) = fipsW M (t - k) := by
      intro k hone hk
      rw [ofNat_add hge hk]
      exact h.expanded (t - k) (by omega) (by omega)
    have hself : r.block.get (Fin.ofNat 16 t) = fipsW M (t - 16) := by
      have hlast := hword 16 (by decide) (Nat.le_refl _)
      rwa [show Fin.ofNat 16 t + Fin.ofNat 16 (16 - 16) = Fin.ofNat 16 t from
        Fin.ext (by show (t % 16 + 0) % 16 = t % 16; omega)] at hlast
    have h3 := hword 3 (by decide) (by decide)
    have h8 := hword 8 (by decide) (by decide)
    have h14 := hword 14 (by decide) (by decide)
    rw [fipsW, if_neg ht, ← h3, ← h8, ← h14, ← hself]
    exact rol_eq (by decide) (by decide) _

/-! ### The rounds -/

/-- The working variables of the source are those of the standard. -/
structure InStep (M : Block) (t : ℕ) (r : Round) (v : FipsVars) : Prop where
  vars : r.v = v.A ∧ r.w = v.B ∧ r.x = v.C ∧ r.y = v.D ∧ r.z = v.E
  block : Expanded M t r.block

theorem roundFunction_eq (t : ℕ) (w x y : UInt32) :
    roundFunction t w x y = (fipsF t w x y, fipsK t) := by
  rw [roundFunction, fipsF, fipsK]
  split_ifs
  · rw [choose_eq]
  · rfl
  · rw [majority_eq]
  · rfl

theorem InStep.step {r : Round} {v : FipsVars} (h : InStep M t r v) :
    InStep M (t + 1) (r.step t) (v.step M t) := by
  obtain ⟨hv, hw, hx, hy, hz⟩ := h.vars
  have hblock := h.block.blkAt
  have hword : (r.blkAt t).get (Fin.ofNat 16 t) = fipsW M t :=
    hblock.expanded t (Nat.lt_succ_self t) (by omega)
  have hz' : (r.step t).v = (v.step M t).A := by
    have h5 : rol v.A 5 = rotl 5 v.A := rol_eq (n := 5) (by decide) (by decide) _
    rw [Round.step, FipsVars.step]
    simp only [roundFunction_eq]
    show r.z + (fipsF t r.w r.x r.y + (r.blkAt t).get (Fin.ofNat 16 t) + fipsK t + rol r.v 5) = _
    rw [hword, hv, hw, hx, hy, hz, h5]
    ac_rfl
  have h30 : rol v.B 30 = rotl 30 v.B := rol_eq (n := 30) (by decide) (by decide) _
  refine ⟨⟨hz', hv, ?_, hx, hy⟩, hblock⟩
  show rol r.w 30 = rotl 30 v.B
  rw [hw, h30]

theorem InStep.steps {r : Round} {v : FipsVars} (h : InStep M t r v) (n : ℕ) :
    InStep M (t + n) ((List.range' t n).foldl Round.step r)
      ((List.range' t n).foldl (FipsVars.step M) v) := by
  induction n generalizing t r v with
  | zero => exact h
  | succ n ih =>
      rw [List.range'_succ, List.foldl_cons, List.foldl_cons, ← Nat.succ_add_eq_add_succ]
      exact ih h.step

/-- The compression function is that of FIPS 180-1. -/
theorem sha1Transform_eq (state : Sha1State) (M : Block) :
    sha1Transform state M = fipsCompress state M := by
  have hstart : InStep M 0
      ⟨state.get 0, state.get 1, state.get 2, state.get 3, state.get 4, loadBlock M⟩
      ⟨state.get 0, state.get 1, state.get 2, state.get 3, state.get 4⟩ :=
    ⟨⟨rfl, rfl, rfl, rfl, rfl⟩, expanded_start M⟩
  obtain ⟨⟨hv, hw, hx, hy, hz⟩, -⟩ := hstart.steps 80
  rw [← List.range_eq_range'] at hv hw hx hy hz
  apply List.Vector.eq
  show [_ + _, _ + _, _ + _, _ + _, _ + _] = [_ + _, _ + _, _ + _, _ + _, _ + _]
  rw [hv, hw, hx, hy, hz]

/-! ### The digest -/

theorem digestBytes_toList (state : Sha1State) :
    (digestBytes state).toList = state.toList.flatMap fun H => bigEndian 4 H.toNat := by
  obtain ⟨words, hlen⟩ := state
  match words, hlen with
  | [H0, H1, H2, H3, H4], _ =>
      show _ = bigEndian 4 H0.toNat ++ (bigEndian 4 H1.toNat ++ (bigEndian 4 H2.toNat ++
        (bigEndian 4 H3.toNat ++ (bigEndian 4 H4.toNat ++ []))))
      simp only [← BigEndian.word_eq]
      rfl

theorem sha1Digest_eq (m : List UInt8) : (sha1Digest sha1Transform m).toList = fipsSha1 m := by
  have hcompress : sha1Transform = fipsCompress := by
    funext state M
    exact sha1Transform_eq state M
  rw [sha1Digest, digestBytes_toList, hcompress]
  rfl

/-- The functions of `sha1.c` compute the hash of FIPS 180-1, for every way to cut the message
into chunks, and in one call. -/
theorem sha1_standard (sha1 : I2Sha1Context) {chunks : List (List UInt8)}
    (hchunks : ∀ chunk ∈ chunks, chunk.length < 536870912)
    (htotal : chunks.flatten.length < 2305843009213693952) :
    (∃ digest sha1', i2Sha1Message sha1Transform sha1 chunks = some (digest, sha1') ∧
        digest.toList = fipsSha1 chunks.flatten) ∧
      (chunks.flatten.length < 536870912 →
        ∃ digest, i2Sha1 sha1Transform chunks.flatten (UInt32.ofNat chunks.flatten.length) =
            some digest ∧ digest.toList = fipsSha1 chunks.flatten) := by
  obtain ⟨sha1', hrun, -⟩ := i2Sha1Message_eq sha1Transform sha1 hchunks htotal
  exact ⟨⟨_, sha1', hrun, sha1Digest_eq _⟩, fun hshort => ⟨_, i2Sha1_eq hshort, sha1Digest_eq _⟩⟩

theorem sha1_standard_abc :
    ∃ digest, (i2Sha1Message sha1Transform .zero [[0x61], [], [0x62, 0x63]]).map Prod.fst =
        some digest ∧ digest.toList = fipsSha1 [0x61, 0x62, 0x63] := by
  obtain ⟨⟨digest, sha1', hrun, hdigest⟩, -⟩ := @sha1_standard .zero [[0x61], [], [0x62, 0x63]]
    (by decide) (by decide)
  exact ⟨digest, by rw [hrun]; rfl, hdigest⟩

end I2util
