import I2util.Hash.HmacSha1
import I2util.Hash.Pbkdf2

/-!
The derived key of RFC 2898, and `I2pbkdf2` computes it.
-/

namespace I2util

/-! ### The derived key of RFC 2898 -/

section Rfc

variable {h : ℕ} (prf : List UInt8 → List UInt8 → List.Vector UInt8 h) (P S : List UInt8)

def xorVector (a b : List.Vector UInt8 h) : List.Vector UInt8 h :=
  List.Vector.map₂ (· ^^^ ·) a b

/-- The iterate `U_{j+1}` of the block `i`. -/
def rfcU (i : ℕ) : ℕ → List.Vector UInt8 h
  | 0 => prf P (S ++ bigEndian 4 i)
  | j + 1 => prf P (rfcU i j).toList

/-- The block `T_i`: `U_1` to `U_c` combined. -/
def rfcT (c i : ℕ) : List.Vector UInt8 h :=
  ((List.range c).map (rfcU prf P S i)).foldl xorVector (List.Vector.replicate h 0)

def rfcBlocks (c n : ℕ) : List UInt8 :=
  (List.range n).flatMap fun i => (rfcT prf P S c (i + 1)).toList

theorem xorVector_zero (a : List.Vector UInt8 h) :
    xorVector (List.Vector.replicate h 0) a = a := by
  apply List.Vector.ext
  intro i
  rw [xorVector, List.Vector.get_map₂, List.Vector.get_replicate, UInt8.zero_xor]

theorem rfcT_one (i : ℕ) : rfcT prf P S 1 i = rfcU prf P S i 0 := by
  rw [rfcT, List.range_one, List.map_singleton, List.foldl_cons, List.foldl_nil, xorVector_zero]

theorem rfcT_succ (c i : ℕ) :
    rfcT prf P S (c + 1) i = xorVector (rfcT prf P S c i) (rfcU prf P S i c) := by
  rw [rfcT, List.range_succ, List.map_append, List.foldl_append]
  rfl

theorem rfcBlocks_length (c n : ℕ) : (rfcBlocks prf P S c n).length = n * h := by
  induction n with
  | zero => simp [rfcBlocks]
  | succ n ih =>
      rw [rfcBlocks, List.range_succ, List.flatMap_append, List.length_append]
      rw [rfcBlocks] at ih
      rw [ih, List.flatMap_singleton, List.Vector.toList_length, Nat.succ_mul]

theorem rfcBlocks_succ (c n : ℕ) :
    rfcBlocks prf P S c (n + 1) = rfcBlocks prf P S c n ++ (rfcT prf P S c (n + 1)).toList := by
  rw [rfcBlocks, List.range_succ, List.flatMap_append, List.flatMap_singleton]
  rfl

theorem rfcBlocks_take {c n l k : ℕ} (hl : l ≤ n) (hk : k ≤ l * h) :
    (rfcBlocks prf P S c n).take k = (rfcBlocks prf P S c l).take k := by
  induction n, hl using Nat.le_induction with
  | base => rfl
  | succ n hl ih =>
      have hlen := rfcBlocks_length prf P S c n
      have hle : l * h ≤ n * h := Nat.mul_le_mul_right h hl
      rw [rfcBlocks_succ, List.take_append_of_le_length (by omega), ih]

end Rfc

variable {prf_hlen : UInt32} {n m : ℕ}
  {prf : List UInt8 → List UInt8 → List.Vector UInt8 prf_hlen.toNat}
  {pw salt : List UInt8} {pwlen saltlen count : UInt32}

/-! ### One block -/

theorem ival_eq (i : UInt32) : ival i = bigEndian 4 i.toNat := by
  rw [← BigEndian.word_eq]
  show ival i = [_, _, _, _]
  simp [ival]

theorem TmpBuff.call_eq {tmp : TmpBuff n} {txt rest : List UInt8} {txtlen : UInt32}
    (hpw : pw.length = pwlen.toNat) (htxt : txt.length = txtlen.toNat)
    (hbuffer : tmp.buffer.1 = txt ++ rest) (hroom : prf_hlen.toNat ≤ n) :
    ∃ tmp' unused, tmp.call prf pw pwlen txtlen = some tmp' ∧
      tmp'.buffer.1 = (prf pw txt).toList ++ unused ∧ tmp'.calls = tmp.calls + 1 := by
  have hkey : Memory.read pw 0 pwlen.toNat = some ⟨pw, hpw⟩ :=
    @Memory.read_eq _ pw [] pw [] 0 _ (by simp) rfl hpw
  have hread : Memory.read tmp.buffer.1 0 txtlen.toNat = some ⟨txt, htxt⟩ :=
    @Memory.read_eq _ tmp.buffer.1 [] txt rest 0 _ (by simpa using hbuffer) rfl htxt
  have hlen := tmp.buffer.2
  obtain ⟨buffer, hwrite, hnew⟩ := @Memory.write_eq _ n tmp.buffer []
    (tmp.buffer.1.take prf_hlen.toNat) (tmp.buffer.1.drop prf_hlen.toNat) (prf pw txt).toList 0
    (by rw [List.nil_append, List.take_append_drop]) rfl
    (by rw [List.length_take, List.Vector.toList_length]; omega)
  refine ⟨⟨buffer, tmp.calls + 1⟩, tmp.buffer.1.drop prf_hlen.toNat, ?_, hnew, rfl⟩
  rw [TmpBuff.call, hkey]
  show (Memory.read tmp.buffer.1 0 txtlen.toNat).bind _ = _
  rw [hread]
  show (Memory.write tmp.buffer 0 (prf pw txt).1).map _ = _
  rw [show (prf pw txt).1 = (prf pw txt).toList from rfl, hwrite]
  rfl

/-- The inner loop combines the bytes `b` of the buffer with the bytes `a` of the
block, from the position that it has reached. -/
theorem F.xor_eq {buffer : List.Vector UInt8 n} {u : List.Vector UInt8 m} {out k : UInt32}
    {p a s q b rest : List UInt8} {fuel : ℕ} (hu : u.1 = p ++ (a ++ s))
    (hp : p.length = out.toNat + k.toNat) (hbuffer : buffer.1 = q ++ (b ++ rest))
    (hq : q.length = k.toNat) (hab : a.length = b.length)
    (hend : k.toNat + b.length = prf_hlen.toNat) (hfuel : b.length < fuel) :
    ∃ u', Loop.iterate (F.xor prf_hlen buffer out) fuel (k, u) = some (some u') ∧
      u'.1 = p ++ (List.zipWith (· ^^^ ·) a b ++ s) := by
  induction b generalizing a p q k u fuel with
  | nil =>
      obtain rfl := List.eq_nil_of_length_eq_zero hab
      obtain ⟨fuel, rfl⟩ : ∃ f, fuel = f + 1 := ⟨fuel - 1, by omega⟩
      have hstop : ¬k < prf_hlen := by
        rw [UInt32.lt_iff_toNat_lt]
        simp only [List.length_nil] at hend
        omega
      refine ⟨u, ?_, hu⟩
      apply Loop.iterate_leaves
      rw [F.xor, if_neg hstop]
  | cons b₁ b ih =>
      cases a with
      | nil => simp at hab
      | cons a₁ a =>
      obtain ⟨fuel, rfl⟩ : ∃ f, fuel = f + 1 := ⟨fuel - 1, by omega⟩
      rw [List.length_cons] at hend hfuel
      have hlt : k < prf_hlen := UInt32.lt_iff_toNat_lt.mpr (by omega)
      have hnext : (k + 1).toNat = k.toNat + 1 := by
        have hbound := prf_hlen.toNat_lt
        rw [UInt32.toNat_add]
        exact Nat.mod_eq_of_lt (show k.toNat + 1 < 4294967296 by omega)
      have ha : u.1[out.toNat + k.toNat]? = some a₁ := by
        rw [hu, ← hp, List.getElem?_append_right (Nat.le_refl _), Nat.sub_self]
        rfl
      have hb : buffer.1[k.toNat]? = some b₁ := by
        rw [hbuffer, ← hq, List.getElem?_append_right (Nat.le_refl _), Nat.sub_self]
        rfl
      obtain ⟨u₁, hwrite, hu₁⟩ := @Memory.write_eq _ m u p [a₁] (a ++ s) [a₁ ^^^ b₁]
        (out.toNat + k.toNat) hu hp rfl
      have hstep : F.xor prf_hlen buffer out (k, u) = .inl (k + 1, u₁) := by
        have hbyte : xorByte buffer out k u = some u₁ := by
          rw [xorByte, ha, hb]
          exact hwrite
        rw [F.xor, if_pos hlt, hbyte]
      obtain ⟨u', hrun, hu'⟩ := @ih u₁ (k + 1) (p ++ [a₁ ^^^ b₁]) a (q ++ [b₁]) fuel
        (by rw [hu₁]; simp) (by rw [List.length_append, hp, hnext]; rfl)
        (by rw [hbuffer]; simp) (by rw [List.length_append, hq, hnext]; rfl)
        (by simpa using hab) (by omega) (by omega)
      refine ⟨u', (Loop.iterate_goes_on hstep).trans hrun, ?_⟩
      rw [hu', List.zipWith_cons_cons]
      simp

theorem toNat_next {i k : UInt32} (h : i < k) : (i + 1).toNat = i.toNat + 1 := by
  have hlt := UInt32.lt_iff_toNat_lt.mp h
  have hbound := k.toNat_lt
  rw [UInt32.toNat_add]
  exact Nat.mod_eq_of_lt (show i.toNat + 1 < 4294967296 by omega)

/-- What the outer loop keeps before its turn `j`: the last iterate is in the buffer,
and the iterates so far are combined in the block. -/
structure Unrolled (prf : List UInt8 → List UInt8 → List.Vector UInt8 prf_hlen.toNat)
    (pw salt : List UInt8) (i : ℕ) (p s : List UInt8) (c : ℕ) (tmp : TmpBuff n)
    (u : List.Vector UInt8 m) : Prop where
  buffer : ∃ unused, tmp.buffer.1 = (rfcU prf pw salt i c).toList ++ unused
  block : u.1 = p ++ ((rfcT prf pw salt (c + 1) i).toList ++ s)

variable {tmp : TmpBuff n} {u : List.Vector UInt8 m} {out : UInt32} {p s : List UInt8} {i c : ℕ}

theorem Unrolled.next (h : Unrolled prf pw salt i p s c tmp u) (hpw : pw.length = pwlen.toNat)
    (hp : p.length = out.toNat) (hroom : prf_hlen.toNat ≤ n) :
    ∃ tmp' u', F.next prf pw pwlen tmp u out = some (tmp', u') ∧
      Unrolled prf pw salt i p s (c + 1) tmp' u' ∧ tmp'.calls = tmp.calls + 1 := by
  obtain ⟨unused, hbuffer⟩ := h.buffer
  obtain ⟨tmp', unused', hcall, hnew, hcalls⟩ := @TmpBuff.call_eq prf_hlen n prf pw pwlen tmp
    (rfcU prf pw salt i c).toList unused prf_hlen hpw (List.Vector.toList_length _) hbuffer hroom
  obtain ⟨u', hxor, hu'⟩ := @F.xor_eq prf_hlen n m tmp'.buffer u out 0 p
    (rfcT prf pw salt (c + 1) i).toList s [] (rfcU prf pw salt i (c + 1)).toList unused'
    (prf_hlen.toNat + 1) h.block hp hnew rfl
    (by rw [List.Vector.toList_length, List.Vector.toList_length])
    (by rw [List.Vector.toList_length]; exact Nat.zero_add _)
    (by rw [List.Vector.toList_length]; omega)
  refine ⟨tmp', u', ?_, ⟨⟨unused', hnew⟩, ?_⟩, hcalls⟩
  · rw [F.next, hcall]
    show (Loop.iterate (F.xor prf_hlen tmp'.buffer out) _ (0, u)).join.map _ = _
    rw [hxor]
    rfl
  · rw [hu', rfcT_succ prf pw salt (c + 1) i]
    rfl

/-- The outer loop ends when all iterates are combined. -/
theorem Unrolled.run {j : UInt32} {fuel : ℕ} (h : Unrolled prf pw salt i p s c tmp u)
    (hpw : pw.length = pwlen.toNat) (hp : p.length = out.toNat) (hroom : prf_hlen.toNat ≤ n)
    (hj : j.toNat = c + 2) (hc : c + 1 ≤ count.toNat) (hcount : count.toNat ≤ 4294967294)
    (hfuel : count.toNat < fuel + c + 1) :
    ∃ tmp' u', Loop.iterate (F.iterates prf pw pwlen count out) fuel (j, tmp, u) =
        some (some (tmp', u')) ∧
      Unrolled prf pw salt i p s (count.toNat - 1) tmp' u' ∧
      tmp'.calls + c + 1 = tmp.calls + count.toNat := by
  induction fuel generalizing c j tmp u with
  | zero => omega
  | succ fuel ih =>
      by_cases hgo : j ≤ count
      · have hle := UInt32.le_iff_toNat_le.mp hgo
        have hnext : (j + 1).toNat = j.toNat + 1 := by
          rw [UInt32.toNat_add]
          exact Nat.mod_eq_of_lt (show j.toNat + 1 < 4294967296 by omega)
        obtain ⟨tmp₁, u₁, hturn, h₁, hcalls₁⟩ := h.next hpw hp hroom
        have hstep : F.iterates prf pw pwlen count out (j, tmp, u) = .inl (j + 1, tmp₁, u₁) := by
          rw [F.iterates, if_pos hgo, hturn]
        obtain ⟨tmp', u', hrun, hdone, hcalls⟩ := ih (j := j + 1) h₁ (by omega) (by omega)
          (by omega)
        exact ⟨tmp', u', (Loop.iterate_goes_on hstep).trans hrun, hdone, by omega⟩
      · have hgt : ¬j.toNat ≤ count.toNat := fun hle => hgo (UInt32.le_iff_toNat_le.mpr hle)
        obtain rfl : c = count.toNat - 1 := by omega
        refine ⟨tmp, u, ?_, h, by omega⟩
        apply Loop.iterate_leaves
        rw [F.iterates, if_neg hgo]

/-- What `F` does in front of its outer loop, however many turns that has. -/
theorem F.start {i : UInt32} {a : List UInt8} (hpw : pw.length = pwlen.toNat)
    (hsalt : salt.length = saltlen.toNat) (hsmall : saltlen.toNat + 4 < 4294967296)
    (hn : saltlen.toNat + 4 ≤ n) (hroom : prf_hlen.toNat ≤ n) (hu : u.1 = p ++ (a ++ s))
    (hp : p.length = out.toNat) (ha : a.length = prf_hlen.toNat) :
    ∃ tmp₁ u₁, Unrolled prf pw salt i.toNat p s 0 tmp₁ u₁ ∧ tmp₁.calls = tmp.calls + 1 ∧
      ∀ turns, F.within prf pw pwlen salt saltlen count turns i tmp u out =
        (Loop.iterate (F.iterates prf pw pwlen count out) turns (2, tmp₁, u₁)).join := by
  have hlen := tmp.buffer.2
  have htext : (saltlen + 4).toNat = saltlen.toNat + 4 := by
    rw [UInt32.toNat_add]
    exact Nat.mod_eq_of_lt hsmall
  -- the salt and the index of the block
  obtain ⟨buffer₁, hcopy₁, hnew₁⟩ := @Memory.copy_eq _ n tmp.buffer []
    (tmp.buffer.1.take saltlen.toNat) (tmp.buffer.1.drop saltlen.toNat) salt [] salt [] 0 0
    saltlen.toNat (by simp) rfl hsalt (by rw [List.nil_append, List.take_append_drop]) rfl
    (by rw [List.length_take]; omega)
  obtain ⟨buffer₂, hcopy₂, hnew₂⟩ := @Memory.copy_eq _ n buffer₁ salt
    ((tmp.buffer.1.drop saltlen.toNat).take 4) ((tmp.buffer.1.drop saltlen.toNat).drop 4)
    (ival i) [] (ival i) [] saltlen.toNat 0 4 (by simp) rfl rfl
    (by rw [List.take_append_drop]; exact hnew₁) hsalt
    (by rw [List.length_take, List.length_drop]; omega)
  -- the first iterate
  obtain ⟨tmp₁, unused, hcall, hbuffer, hcalls₁⟩ := @TmpBuff.call_eq prf_hlen n prf pw pwlen
    ⟨buffer₂, tmp.calls⟩ (salt ++ ival i) ((tmp.buffer.1.drop saltlen.toNat).drop 4)
    (saltlen + 4) hpw (by rw [List.length_append, hsalt, htext]; rfl)
    (by rw [List.append_assoc]; exact hnew₂) hroom
  rw [ival_eq] at hbuffer
  obtain ⟨u₁, hcopy₃, hu₁⟩ := @Memory.copy_eq _ m u p a s tmp₁.buffer.1 []
    (rfcU prf pw salt i.toNat 0).toList unused out.toNat 0 prf_hlen.toNat hbuffer rfl
    (List.Vector.toList_length _) hu hp ha
  refine ⟨tmp₁, u₁, ⟨⟨unused, hbuffer⟩, ?_⟩, hcalls₁, fun turns => ?_⟩
  · rw [rfcT_one]
    exact hu₁
  · rw [F.within, hcopy₁]
    show (Memory.copy buffer₁ saltlen.toNat (ival i) 0 4).bind _ = _
    rw [hcopy₂]
    show (TmpBuff.call prf pw pwlen ⟨buffer₂, tmp.calls⟩ (saltlen + 4)).bind _ = _
    rw [hcall]
    show (Memory.copy u out.toNat tmp₁.buffer.1 0 prf_hlen.toNat).bind _ = _
    rw [hcopy₃]
    rfl

/-- `F` writes one block of the derived key over the bytes that its result points to,
and calls the pseudorandom function `count` times. -/
theorem F_eq {i : UInt32} {a : List UInt8} (hpw : pw.length = pwlen.toNat)
    (hsalt : salt.length = saltlen.toNat) (hsmall : saltlen.toNat + 4 < 4294967296)
    (hn : saltlen.toNat + 4 ≤ n) (hroom : prf_hlen.toNat ≤ n) (hone : 1 ≤ count.toNat)
    (hcount : count.toNat ≤ 4294967294) (hu : u.1 = p ++ (a ++ s)) (hp : p.length = out.toNat)
    (ha : a.length = prf_hlen.toNat) :
    ∃ tmp' u', F prf pw pwlen salt saltlen count i tmp u out = some (tmp', u') ∧
      u'.1 = p ++ ((rfcT prf pw salt count.toNat i.toNat).toList ++ s) ∧
      tmp'.calls = tmp.calls + count.toNat := by
  obtain ⟨tmp₁, u₁, hstart, hcalls₁, hF⟩ := @F.start prf_hlen n m prf pw salt pwlen saltlen count
    tmp u out p s i a hpw hsalt hsmall hn hroom hu hp ha
  obtain ⟨tmp', u', hrun, hdone, hcalls⟩ := @Unrolled.run prf_hlen n m prf pw salt pwlen count
    tmp₁ u₁ out p s i.toNat 0 2 (count.toNat + 1) hstart hpw hp hroom rfl hone hcount (by omega)
  refine ⟨tmp', u', ?_, ?_, by omega⟩
  · rw [F_eq_within, hF, hrun]
    rfl
  · have hblock := hdone.block
    rwa [Nat.sub_add_cancel hone] at hblock

/-! ### All blocks -/

theorem MAX_toNat (a b : UInt32) : (MAX a b).toNat = max a.toNat b.toNat := by
  by_cases h : b < a
  · have hlt := UInt32.lt_iff_toNat_lt.mp h
    rw [MAX, if_pos h]
    omega
  · have hge := mt UInt32.lt_iff_toNat_lt.mpr h
    rw [MAX, if_neg h]
    omega

theorem tmpbuff_size (hhlen : prf_hlen.toNat ≤ 4294967291) (hsalt : saltlen.toNat < 4294967292) :
    (MAX saltlen prf_hlen + 4).toNat = max saltlen.toNat prf_hlen.toNat + 4 := by
  rw [UInt32.toNat_add, MAX_toNat]
  exact Nat.mod_eq_of_lt (show max saltlen.toNat prf_hlen.toNat + 4 < 4294967296 by omega)

/-- The sums and products of `F` and `I2pbkdf2` are those of the numbers: none of them
wraps. -/
structure NoWrap (prf_hlen saltlen count dklen : UInt32) : Prop where
  tmpbuff : (MAX saltlen prf_hlen + 4).toNat = max saltlen.toNat prf_hlen.toNat + 4
  text : (saltlen + 4).toNat = saltlen.toNat + 4
  iterate : ∀ j ≤ count, (j + 1).toNat = j.toNat + 1
  byte : ∀ k < prf_hlen, (k + 1).toNat = k.toNat + 1
  block : ∀ i < dklen / prf_hlen, (i + 1).toNat = i.toNat + 1 ∧
    (i * prf_hlen).toNat = i.toNat * prf_hlen.toNat
  last : dklen % prf_hlen ≠ 0 →
    (dklen / prf_hlen + 1).toNat = (dklen / prf_hlen).toNat + 1 ∧
      (dklen / prf_hlen * prf_hlen).toNat = (dklen / prf_hlen).toNat * prf_hlen.toNat

theorem toNat_mul_of_le {i l k dklen : UInt32} (hi : i.toNat ≤ l.toNat)
    (hl : l.toNat * k.toNat ≤ dklen.toNat) : (i * k).toNat = i.toNat * k.toNat := by
  have hle : i.toNat * k.toNat ≤ l.toNat * k.toNat := Nat.mul_le_mul_right _ hi
  have hbound := dklen.toNat_lt
  rw [UInt32.toNat_mul]
  exact Nat.mod_eq_of_lt (show i.toNat * k.toNat < 4294967296 by omega)

theorem noWrap {dklen : UInt32} (hone : 1 ≤ prf_hlen.toNat) (hhlen : prf_hlen.toNat ≤ 4294967291)
    (hsalt : saltlen.toNat < 4294967292) (hcount : count.toNat ≤ 4294967294) :
    NoWrap prf_hlen saltlen count dklen := by
  have hdiv : (dklen / prf_hlen).toNat * prf_hlen.toNat ≤ dklen.toNat := by
    rw [UInt32.toNat_div]
    exact Nat.div_mul_le_self _ _
  refine ⟨tmpbuff_size hhlen hsalt, ?_, ?_, fun k hk => toNat_next hk, ?_, ?_⟩
  · rw [UInt32.toNat_add]
    exact Nat.mod_eq_of_lt (show saltlen.toNat + 4 < 4294967296 by omega)
  · intro j hj
    have hle := UInt32.le_iff_toNat_le.mp hj
    rw [UInt32.toNat_add]
    exact Nat.mod_eq_of_lt (show j.toNat + 1 < 4294967296 by omega)
  · intro i hi
    have hlt := UInt32.lt_iff_toNat_lt.mp hi
    exact ⟨toNat_next hi, toNat_mul_of_le (Nat.le_of_lt hlt) hdiv⟩
  · intro hr
    refine ⟨?_, toNat_mul_of_le (Nat.le_refl _) hdiv⟩
    -- a remainder needs a digest of more than one byte
    have htwo : prf_hlen.toNat ≠ 1 := by
      intro h1
      apply hr
      apply UInt32.toNat_inj.mp
      rw [UInt32.toNat_mod, h1, Nat.mod_one]
      rfl
    have hhalf : (dklen / prf_hlen).toNat * 2 ≤ (dklen / prf_hlen).toNat * prf_hlen.toNat :=
      Nat.mul_le_mul_left _ (by omega)
    have hbound := dklen.toNat_lt
    rw [UInt32.toNat_add]
    exact Nat.mod_eq_of_lt (show (dklen / prf_hlen).toNat + 1 < 4294967296 by omega)

section Blocks

variable {dklen l : UInt32} {dk : List.Vector UInt8 dklen.toNat}

/-- The loop writes the complete blocks of the derived key to their places. -/
theorem i2pbkdf2.blocks_eq {i : UInt32} {rest : List UInt8} {fuel : ℕ}
    (hpw : pw.length = pwlen.toNat) (hsalt : salt.length = saltlen.toNat)
    (hsmall : saltlen.toNat + 4 < 4294967296) (hn : saltlen.toNat + 4 ≤ n)
    (hroom : prf_hlen.toNat ≤ n) (hone : 1 ≤ count.toNat) (hcount : count.toNat ≤ 4294967294)
    (hl : l.toNat * prf_hlen.toNat ≤ dklen.toNat) (hi : i.toNat ≤ l.toNat)
    (hdk : dk.1 = rfcBlocks prf pw salt count.toNat i.toNat ++ rest)
    (hfuel : l.toNat < fuel + i.toNat) :
    ∃ tmp' dk' rest', Loop.iterate (i2pbkdf2.blocks prf pw pwlen salt saltlen count l) fuel
        (i, tmp, dk) = some (some (tmp', dk')) ∧
      dk'.1 = rfcBlocks prf pw salt count.toNat l.toNat ++ rest' := by
  induction fuel generalizing i tmp dk rest with
  | zero => omega
  | succ fuel ih =>
      by_cases hgo : i < l
      · have hlt := UInt32.lt_iff_toNat_lt.mp hgo
        have hnext := toNat_next hgo
        have hout : (i * prf_hlen).toNat = i.toNat * prf_hlen.toNat := toNat_mul_of_le hi hl
        have hlen := congrArg List.length hdk
        have hblock : (i.toNat + 1) * prf_hlen.toNat ≤ l.toNat * prf_hlen.toNat :=
          Nat.mul_le_mul_right _ hlt
        rw [Nat.succ_mul] at hblock
        rw [dk.2, List.length_append, rfcBlocks_length] at hlen
        obtain ⟨tmp₁, dk₁, hF, hdk₁, -⟩ := @F_eq prf_hlen n dklen.toNat prf pw salt pwlen saltlen
          count tmp dk (i * prf_hlen) (rfcBlocks prf pw salt count.toNat i.toNat)
          (rest.drop prf_hlen.toNat) (i + 1) (rest.take prf_hlen.toNat) hpw hsalt hsmall hn hroom
          hone hcount (by rw [List.take_append_drop]; exact hdk)
          (by rw [rfcBlocks_length, hout]) (by rw [List.length_take]; omega)
        rw [hnext, ← List.append_assoc, ← rfcBlocks_succ] at hdk₁
        have hstep : i2pbkdf2.blocks prf pw pwlen salt saltlen count l (i, tmp, dk) =
            .inl (i + 1, tmp₁, dk₁) := by
          rw [i2pbkdf2.blocks, if_pos hgo, hF]
        obtain ⟨tmp', dk', rest', hrun, hdone⟩ := ih (i := i + 1) (by omega)
          (by rw [hnext]; exact hdk₁) (by omega)
        exact ⟨tmp', dk', rest', (Loop.iterate_goes_on hstep).trans hrun, hdone⟩
      · have hge : ¬i.toNat < l.toNat := fun hlt => hgo (UInt32.lt_iff_toNat_lt.mpr hlt)
        have heq : i = l := UInt32.toNat_inj.mp (by omega)
        refine ⟨tmp, dk, rest, ?_, by rw [← heq]; exact hdk⟩
        apply Loop.iterate_leaves
        rw [i2pbkdf2.blocks, if_neg hgo]

/-- The last block goes behind the complete ones, cut to what is left of the key. -/
theorem i2pbkdf2.last_eq {r : UInt32} {rest : List UInt8}
    {outbuff : List.Vector UInt8 prf_hlen.toNat} (hpw : pw.length = pwlen.toNat)
    (hsalt : salt.length = saltlen.toNat) (hsmall : saltlen.toNat + 4 < 4294967296)
    (hn : saltlen.toNat + 4 ≤ n) (hroom : prf_hlen.toNat ≤ n) (hone : 1 ≤ count.toNat)
    (hcount : count.toNat ≤ 4294967294) (hr : r.toNat < prf_hlen.toNat)
    (hlast : r ≠ 0 → (l + 1).toNat = l.toNat + 1 ∧
      (l * prf_hlen).toNat = l.toNat * prf_hlen.toNat)
    (hdk : dk.1 = rfcBlocks prf pw salt count.toNat l.toNat ++ rest)
    (hrest : rest.length = r.toNat) :
    ∃ dk', i2pbkdf2.last prf pw pwlen salt saltlen count l r tmp outbuff dk = some dk' ∧
      dk'.1 = rfcBlocks prf pw salt count.toNat l.toNat ++
        (rfcT prf pw salt count.toNat (l.toNat + 1)).toList.take r.toNat := by
  by_cases hzero : r ≠ 0
  · obtain ⟨hnext, hmul⟩ := hlast hzero
    obtain ⟨tmp', outbuff', hF, hout, -⟩ := @F_eq prf_hlen n prf_hlen.toNat prf pw salt pwlen
      saltlen count tmp outbuff 0 [] [] (l + 1) outbuff.1 hpw hsalt hsmall hn hroom hone hcount
      (by simp) rfl outbuff.2
    rw [List.nil_append, List.append_nil, hnext] at hout
    obtain ⟨dk', hcopy, hdk'⟩ := @Memory.copy_eq _ dklen.toNat dk
      (rfcBlocks prf pw salt count.toNat l.toNat) rest [] outbuff'.1 []
      (outbuff'.1.take r.toNat) (outbuff'.1.drop r.toNat) (l * prf_hlen).toNat 0 r.toNat
      (by rw [List.nil_append, List.take_append_drop]) rfl
      (by rw [List.length_take, outbuff'.2]; omega) (by rw [List.append_nil]; exact hdk)
      (by rw [rfcBlocks_length, hmul]) hrest
    refine ⟨dk', ?_, by rw [hdk', List.append_nil, hout]⟩
    rw [i2pbkdf2.last, if_pos hzero, hF]
    exact hcopy
  · have hr0 : r.toNat = 0 := by
      rw [not_not.mp hzero]
      rfl
    obtain rfl := List.eq_nil_of_length_eq_zero (hrest.trans hr0)
    refine ⟨dk, if_neg hzero, ?_⟩
    rw [hdk, hr0, List.take_zero]

/-- The complete blocks and a part of the next one are the front of any longer
sequence of blocks. -/
theorem rfcBlocks_take_add (prf : List UInt8 → List UInt8 → List.Vector UInt8 prf_hlen.toNat)
    {c k l r : ℕ} (hr : r < prf_hlen.toNat) (hk : l * prf_hlen.toNat + r ≤ k * prf_hlen.toNat) :
    (rfcBlocks prf pw salt c k).take (l * prf_hlen.toNat + r) =
      rfcBlocks prf pw salt c l ++ (rfcT prf pw salt c (l + 1)).toList.take r := by
  have hlen := rfcBlocks_length prf pw salt c l
  cases r with
  | zero =>
      have hle : l ≤ k := Nat.le_of_mul_le_mul_right (by omega) hr
      rw [Nat.add_zero, rfcBlocks_take prf pw salt hle (Nat.le_refl _), List.take_zero,
        List.append_nil]
      exact List.take_of_length_le (by omega)
  | succ r =>
      have hlt : l < k := Nat.lt_of_mul_lt_mul_right (a := prf_hlen.toNat) (by omega)
      rw [rfcBlocks_take prf pw salt hlt (by rw [Nat.succ_mul]; omega), rfcBlocks_succ,
        List.take_append, List.take_of_length_le (by omega), hlen, Nat.add_sub_cancel_left]

theorem i2pbkdf2.derive_eq {outbuff : List.Vector UInt8 prf_hlen.toNat}
    (hexact : NoWrap prf_hlen saltlen count dklen) (hhlen : 1 ≤ prf_hlen.toNat)
    (hpw : pw.length = pwlen.toNat) (hsalt : salt.length = saltlen.toNat)
    (hsmall : saltlen.toNat + 4 < 4294967296) (hn : saltlen.toNat + 4 ≤ n)
    (hroom : prf_hlen.toNat ≤ n) (hone : 1 ≤ count.toNat) (hcount : count.toNat ≤ 4294967294) :
    ∃ dk', i2pbkdf2.derive prf pw pwlen salt saltlen count tmp outbuff dklen dk = some dk' ∧
      ∀ k, dklen.toNat ≤ k * prf_hlen.toNat →
        dk'.1 = (rfcBlocks prf pw salt count.toNat k).take dklen.toNat := by
  have hzero : prf_hlen ≠ 0 := by
    rintro rfl
    exact absurd hhlen (by decide)
  have hdiv : (dklen / prf_hlen).toNat * prf_hlen.toNat + (dklen % prf_hlen).toNat =
      dklen.toNat := by
    rw [UInt32.toNat_div, UInt32.toNat_mod, Nat.mul_comm]
    exact Nat.div_add_mod _ _
  have hrem : (dklen % prf_hlen).toNat < prf_hlen.toNat := by
    rw [UInt32.toNat_mod]
    exact Nat.mod_lt _ hhlen
  obtain ⟨tmp₁, dk₁, rest, hblocks, hdk₁⟩ := @i2pbkdf2.blocks_eq prf_hlen n prf pw salt pwlen
    saltlen count tmp dklen (dklen / prf_hlen) dk 0 dk.1 ((dklen / prf_hlen).toNat + 1) hpw hsalt
    hsmall hn hroom hone hcount (by omega) (Nat.zero_le _) rfl (by omega)
  have hrest := congrArg List.length hdk₁
  rw [dk₁.2, List.length_append, rfcBlocks_length] at hrest
  obtain ⟨dk₂, hlast, hdk₂⟩ := @i2pbkdf2.last_eq prf_hlen n prf pw salt pwlen saltlen count tmp₁
    dklen (dklen / prf_hlen) dk₁ (dklen % prf_hlen) rest outbuff hpw hsalt hsmall hn hroom hone
    hcount hrem hexact.last hdk₁ (by omega)
  refine ⟨dk₂, ?_, ?_⟩
  · rw [i2pbkdf2.derive, if_neg hzero]
    show (Loop.iterate (i2pbkdf2.blocks prf pw pwlen salt saltlen count _) _
      (0, tmp, dk)).join.bind _ = _
    rw [hblocks]
    exact hlast
  · intro k hk
    rw [hdk₂, ← hdiv]
    exact (rfcBlocks_take_add prf hrem (by omega)).symm

/-- With its buffers allocated, `I2pbkdf2` writes the first `dklen` bytes of the blocks
of RFC 2898, however many of them are written out. -/
theorem pbkdf2_blocks (prf : List UInt8 → List UInt8 → List.Vector UInt8 prf_hlen.toNat)
    (hhlen : 1 ≤ prf_hlen.toNat ∧ prf_hlen.toNat ≤ 4294967291)
    (hpw : pw.length = pwlen.toNat) (hsalt : salt.length = saltlen.toNat)
    (hsaltlen : saltlen.toNat < 4294967292)
    (hcount : 1 ≤ count.toNat ∧ count.toNat ≤ 4294967294) (errno : ℤ)
    (dk_ret : List.Vector UInt8 dklen.toNat) :
    NoWrap prf_hlen saltlen count dklen ∧
      ∃ dk, i2pbkdf2 prf pw pwlen salt saltlen count true true errno dklen dk_ret =
          some ⟨0, errno, dk⟩ ∧
        ∀ k, dklen.toNat ≤ k * prf_hlen.toNat →
          dk.toList = (rfcBlocks prf pw salt count.toNat k).take dklen.toNat := by
  have hexact : NoWrap prf_hlen saltlen count dklen :=
    noWrap hhlen.1 hhlen.2 hsaltlen hcount.2
  have hsize := hexact.tmpbuff
  obtain ⟨dk, hderive, hdk⟩ := @i2pbkdf2.derive_eq prf_hlen (MAX saltlen prf_hlen + 4).toNat prf
    pw salt pwlen saltlen count ⟨List.Vector.replicate _ 0, 0⟩ dklen dk_ret
    (List.Vector.replicate _ 0) hexact hhlen.1 hpw hsalt (by omega) (by omega) (by omega)
    hcount.1 hcount.2
  refine ⟨hexact, dk, ?_, hdk⟩
  show (i2pbkdf2.derive prf pw pwlen salt saltlen count _ _ dklen dk_ret).map _ = _
  rw [hderive]
  rfl

end Blocks

def hmacPrf (key txt : List UInt8) : List.Vector UInt8 (20 : UInt32).toNat :=
  (i2HMACSha1 sha1Transform key (UInt32.ofNat key.length) txt (UInt32.ofNat txt.length)).getD
    (List.Vector.replicate I2SHA1_DIGEST_SIZE 0)

def testPassword : List UInt8 := [0x70, 0x61, 0x73, 0x73, 0x77, 0x6f, 0x72, 0x64]

def testSalt : List UInt8 :=
  [0x41, 0x54, 0x48, 0x45, 0x4e, 0x41, 0x2e, 0x4d, 0x49, 0x54, 0x2e, 0x45, 0x44, 0x55, 0x72,
    0x61, 0x65, 0x62, 0x75, 0x72, 0x6e]

theorem pbkdf2_blocks_raeburn :
    ∃ dk : List.Vector UInt8 32, i2pbkdf2 hmacPrf testPassword 8 testSalt 21 2 true true 0 32
        (List.Vector.replicate 32 0) = some ⟨0, 0, dk⟩ ∧
      dk.toList = (rfcBlocks hmacPrf testPassword testSalt 2 2).take 32 := by
  obtain ⟨-, dk, hrun, hdk⟩ := @pbkdf2_blocks 20 testPassword testSalt 8 21 2 32 hmacPrf
    (by decide) rfl rfl (by decide) (by decide) 0 (List.Vector.replicate 32 0)
  exact ⟨dk, hrun, hdk 2 (by decide)⟩

end I2util
