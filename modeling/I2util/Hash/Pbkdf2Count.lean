import I2util.Hash.Pbkdf2Blocks

/-!
How often `I2pbkdf2` calls the pseudorandom function, and for which counts it ends.

The run here has any number of turns for the outer loop of `F`, so a loop that is never
left has no result for any of them. It also keeps the number of calls of every block.
-/

namespace I2util

section Counted

variable {prf_hlen : UInt32} {n m : ℕ}
variable (prf : List UInt8 → List UInt8 → List.Vector UInt8 prf_hlen.toNat)
variable (pw : List UInt8) (pwlen : UInt32) (salt : List UInt8) (saltlen count : UInt32)

/-- `F`, with the number of its calls of the pseudorandom function. -/
def F.counted (turns : ℕ) (i : UInt32) (tmp : TmpBuff n) (u : List.Vector UInt8 m)
    (out : UInt32) : Option (ℕ × TmpBuff n × List.Vector UInt8 m) :=
  (F.within prf pw pwlen salt saltlen count turns i tmp u out).map fun r =>
    (r.1.calls - tmp.calls, r)

def i2pbkdf2.countedBlocks (turns : ℕ) (l : UInt32) :
    UInt32 × List ℕ × TmpBuff n × List.Vector UInt8 m →
      (UInt32 × List ℕ × TmpBuff n × List.Vector UInt8 m) ⊕
        Option (List ℕ × TmpBuff n × List.Vector UInt8 m)
  | (i, log, tmp, dk_ret) =>
      if i < l then
        match F.counted prf pw pwlen salt saltlen count turns (i + 1) tmp dk_ret (i * prf_hlen) with
        | some (calls, tmp, dk_ret) => .inl (i + 1, log ++ [calls], tmp, dk_ret)
        | none => .inr none
      else .inr (some (log, tmp, dk_ret))

def i2pbkdf2.countedLast (turns : ℕ) (l r : UInt32) (log : List ℕ) (tmpbuff : TmpBuff n)
    (outbuff : List.Vector UInt8 prf_hlen.toNat) (dk_ret : List.Vector UInt8 m) :
    Option (List ℕ × List.Vector UInt8 m) :=
  if r ≠ 0 then
    (F.counted prf pw pwlen salt saltlen count turns (l + 1) tmpbuff outbuff 0).bind
      fun (calls, _, outbuff) =>
        (Memory.copy dk_ret (l * prf_hlen).toNat outbuff.1 0 r.toNat).map fun dk_ret =>
          (log ++ [calls], dk_ret)
  else some (log, dk_ret)

def i2pbkdf2.countedDerive (turns : ℕ) (tmpbuff : TmpBuff n)
    (outbuff : List.Vector UInt8 prf_hlen.toNat) (dklen : UInt32) (dk_ret : List.Vector UInt8 m) :
    Option (List ℕ × List.Vector UInt8 m) :=
  if prf_hlen = 0 then none
  else
    let l := dklen / prf_hlen
    let r := dklen % prf_hlen
    (Loop.iterate (i2pbkdf2.countedBlocks prf pw pwlen salt saltlen count turns l) (l.toNat + 1)
        (0, [], tmpbuff, dk_ret)).join.bind fun (log, tmpbuff, dk_ret) =>
      i2pbkdf2.countedLast prf pw pwlen salt saltlen count turns l r log tmpbuff outbuff dk_ret

/-- `I2pbkdf2`, with the calls of the pseudorandom function for each block. -/
def i2pbkdf2.counted (turns : ℕ) (tmpbuffOk outbuffOk : Bool) (errno : ℤ) (dklen : UInt32)
    (dk_ret : List.Vector UInt8 m) : Option (List ℕ × DerivedKey m) :=
  if tmpbuffOk && outbuffOk then
    let tmpbuff : TmpBuff (MAX saltlen prf_hlen + 4).toNat := ⟨List.Vector.replicate _ 0, 0⟩
    let outbuff : List.Vector UInt8 prf_hlen.toNat := List.Vector.replicate _ 0
    (i2pbkdf2.countedDerive prf pw pwlen salt saltlen count turns tmpbuff outbuff dklen dk_ret).map
      fun (log, dk_ret) => (log, ⟨0, errno, dk_ret⟩)
  else some ([], ⟨-1, ENOMEM, dk_ret⟩)

def blockCount (prf_hlen dklen : UInt32) : ℕ :=
  (dklen / prf_hlen).toNat + if dklen % prf_hlen ≠ 0 then 1 else 0

/-- What `F` may rely on: the texts have their lengths, and the salt with the index of the
block and the digest fit in the buffer. -/
structure F.Fits (prf_hlen : UInt32) (pw : List UInt8) (pwlen : UInt32) (salt : List UInt8)
    (saltlen : UInt32) (n : ℕ) : Prop where
  pw : pw.length = pwlen.toNat
  salt : salt.length = saltlen.toNat
  text : saltlen.toNat + 4 < 4294967296
  buffer : saltlen.toNat + 4 ≤ n
  digest : prf_hlen.toNat ≤ n

end Counted

variable {prf_hlen : UInt32} {n m : ℕ}
  {prf : List UInt8 → List UInt8 → List.Vector UInt8 prf_hlen.toNat}
  {pw salt : List UInt8} {pwlen saltlen count : UInt32} {tmp : TmpBuff n}
  {u : List.Vector UInt8 m} {out i : UInt32}

/-! ### One block -/

/-- A counter that is never greater than its bound: with the greatest count the loop goes
on from every state. -/
theorem F.iterates_max {p s : List UInt8} {j : UInt32} {c : ℕ} {block : ℕ}
    (h : Unrolled prf pw salt block p s c tmp u) (hpw : pw.length = pwlen.toNat)
    (hp : p.length = out.toNat) (hroom : prf_hlen.toNat ≤ n) (hcount : count = 4294967295)
    (turns : ℕ) :
    Loop.iterate (F.iterates prf pw pwlen count out) turns (j, tmp, u) = none := by
  refine Loop.iterate_never_leaves (I := fun st : UInt32 × TmpBuff n × List.Vector UInt8 m =>
    ∃ c, Unrolled prf pw salt block p s c st.2.1 st.2.2) ?_ turns ⟨c, h⟩
  rintro ⟨j, tmp, u⟩ ⟨c, h⟩
  have hle : j ≤ count := by
    rw [hcount, UInt32.le_iff_toNat_le]
    exact Nat.le_of_lt_succ j.toNat_lt
  obtain ⟨tmp', u', hturn, hnext, -⟩ := h.next hpw hp hroom
  refine ⟨(j + 1, tmp', u'), ?_, c + 1, hnext⟩
  rw [F.iterates, if_pos hle, hturn]

/-- The memory around the place of a block. -/
theorem split_at_block (hout : out.toNat + prf_hlen.toNat ≤ m) :
    u.1 = u.1.take out.toNat ++ ((u.1.drop out.toNat).take prf_hlen.toNat ++
        (u.1.drop out.toNat).drop prf_hlen.toNat) ∧
      (u.1.take out.toNat).length = out.toNat ∧
      ((u.1.drop out.toNat).take prf_hlen.toNat).length = prf_hlen.toNat := by
  have hlen := u.2
  refine ⟨by rw [List.take_append_drop, List.take_append_drop], ?_, ?_⟩
  · exact List.length_take_of_le (by omega)
  · exact List.length_take_of_le (by rw [List.length_drop]; omega)

/-- `F` never returns with the greatest count. -/
theorem F.counted_max (h : F.Fits prf_hlen pw pwlen salt saltlen n)
    (hout : out.toNat + prf_hlen.toNat ≤ m) (hcount : count = 4294967295) (turns : ℕ) :
    F.counted prf pw pwlen salt saltlen count turns i tmp u out = none := by
  obtain ⟨hu, hp, ha⟩ := @split_at_block prf_hlen m u out hout
  obtain ⟨tmp₁, u₁, hstart, -, hF⟩ := @F.start prf_hlen n m prf pw salt pwlen saltlen count tmp u
    out _ _ i _ h.pw h.salt h.text h.buffer h.digest hu hp ha
  rw [F.counted, hF, F.iterates_max hstart h.pw hp h.digest hcount turns]
  rfl

/-- With every other count it returns, after as many calls. -/
theorem F.counted_eq (h : F.Fits prf_hlen pw pwlen salt saltlen n)
    (hout : out.toNat + prf_hlen.toNat ≤ m) (hone : 1 ≤ count.toNat)
    (hcount : count ≠ 4294967295) :
    ∃ tmp' u', F.counted prf pw pwlen salt saltlen count (count.toNat + 1) i tmp u out =
      some (count.toNat, tmp', u') := by
  obtain ⟨hu, hp, ha⟩ := @split_at_block prf_hlen m u out hout
  have hless : count.toNat ≤ 4294967294 := by
    have hlt := count.toNat_lt
    have hne : count.toNat ≠ 4294967295 := fun heq => hcount (UInt32.toNat_inj.mp heq)
    omega
  obtain ⟨tmp', u', hrun, -, hcalls⟩ := @F_eq prf_hlen n m prf pw salt pwlen saltlen count tmp u
    out _ _ i _ h.pw h.salt h.text h.buffer h.digest hone hless hu hp ha
  refine ⟨tmp', u', ?_⟩
  rw [F.counted, ← F_eq_within, hrun, Option.map_some, hcalls, Nat.add_sub_cancel_left]

/-! ### All blocks -/

section Blocks

variable {dklen l r : UInt32} {dk : List.Vector UInt8 dklen.toNat} {log : List ℕ}

theorem i2pbkdf2.countedBlocks_eq {fuel : ℕ} (h : F.Fits prf_hlen pw pwlen salt saltlen n)
    (hone : 1 ≤ count.toNat) (hcount : count ≠ 4294967295)
    (hl : l.toNat * prf_hlen.toNat ≤ dklen.toNat) (hi : i.toNat ≤ l.toNat)
    (hfuel : l.toNat < fuel + i.toNat) :
    ∃ tmp' dk', Loop.iterate
        (i2pbkdf2.countedBlocks prf pw pwlen salt saltlen count (count.toNat + 1) l) fuel
        (i, log, tmp, dk) =
      some (some (log ++ List.replicate (l.toNat - i.toNat) count.toNat, tmp', dk')) := by
  induction fuel generalizing i tmp dk log with
  | zero => omega
  | succ fuel ih =>
      by_cases hgo : i < l
      · have hlt := UInt32.lt_iff_toNat_lt.mp hgo
        have hnext := toNat_next hgo
        have hout : (i * prf_hlen).toNat = i.toNat * prf_hlen.toNat := toNat_mul_of_le hi hl
        have hblock : (i.toNat + 1) * prf_hlen.toNat ≤ l.toNat * prf_hlen.toNat :=
          Nat.mul_le_mul_right _ hlt
        rw [Nat.succ_mul] at hblock
        obtain ⟨tmp₁, dk₁, hF⟩ := @F.counted_eq prf_hlen n dklen.toNat prf pw salt pwlen saltlen
          count tmp dk (i * prf_hlen) (i + 1) h (by omega) hone hcount
        have hstep : i2pbkdf2.countedBlocks prf pw pwlen salt saltlen count (count.toNat + 1) l
            (i, log, tmp, dk) = .inl (i + 1, log ++ [count.toNat], tmp₁, dk₁) := by
          rw [i2pbkdf2.countedBlocks, if_pos hgo, hF]
        obtain ⟨tmp', dk', hrun⟩ := @ih tmp₁ (i + 1) dk₁ (log ++ [count.toNat]) (by omega)
          (by omega)
        refine ⟨tmp', dk', (Loop.iterate_goes_on hstep).trans ?_⟩
        have hleft : l.toNat - i.toNat = (l.toNat - (i + 1).toNat) + 1 := by omega
        rw [hrun, hleft, List.replicate_succ, List.append_assoc]
        rfl
      · have hge : ¬i.toNat < l.toNat := fun hlt => hgo (UInt32.lt_iff_toNat_lt.mpr hlt)
        refine ⟨tmp, dk, ?_⟩
        rw [Nat.sub_eq_zero_of_le (by omega), List.replicate_zero, List.append_nil]
        apply Loop.iterate_leaves
        rw [i2pbkdf2.countedBlocks, if_neg hgo]

theorem i2pbkdf2.countedLast_eq {outbuff : List.Vector UInt8 prf_hlen.toNat}
    (h : F.Fits prf_hlen pw pwlen salt saltlen n) (hone : 1 ≤ count.toNat)
    (hcount : count ≠ 4294967295) (hr : r.toNat ≤ prf_hlen.toNat)
    (hplace : r ≠ 0 → (l * prf_hlen).toNat + r.toNat ≤ dklen.toNat) :
    ∃ dk', i2pbkdf2.countedLast prf pw pwlen salt saltlen count (count.toNat + 1) l r log tmp
        outbuff dk = some (log ++ List.replicate (if r ≠ 0 then 1 else 0) count.toNat, dk') := by
  by_cases hzero : r ≠ 0
  · obtain ⟨tmp', outbuff', hF⟩ := @F.counted_eq prf_hlen n prf_hlen.toNat prf pw salt pwlen
      saltlen count tmp outbuff 0 (l + 1) h (Nat.le_of_eq (Nat.zero_add _)) hone hcount
    have hend := hplace hzero
    have hlen := dk.2
    obtain ⟨dk', hcopy, -⟩ := @Memory.copy_eq _ dklen.toNat dk (dk.1.take (l * prf_hlen).toNat)
      ((dk.1.drop (l * prf_hlen).toNat).take r.toNat)
      ((dk.1.drop (l * prf_hlen).toNat).drop r.toNat) outbuff'.1 []
      (outbuff'.1.take r.toNat) (outbuff'.1.drop r.toNat) (l * prf_hlen).toNat 0 r.toNat
      (by rw [List.nil_append, List.take_append_drop]) rfl
      (List.length_take_of_le (by rw [outbuff'.2]; exact hr))
      (by rw [List.take_append_drop, List.take_append_drop])
      (List.length_take_of_le (by omega))
      (List.length_take_of_le (by rw [List.length_drop]; omega))
    refine ⟨dk', ?_⟩
    rw [i2pbkdf2.countedLast, if_pos hzero, if_pos hzero, hF, Option.bind_some]
    show (Memory.copy dk (l * prf_hlen).toNat outbuff'.1 0 r.toNat).map _ = _
    rw [hcopy]
    rfl
  · refine ⟨dk, ?_⟩
    rw [i2pbkdf2.countedLast, if_neg hzero, if_neg hzero, List.replicate_zero, List.append_nil]

/-- With a block to compute and the greatest count there is no result. -/
theorem i2pbkdf2.countedDerive_max {outbuff : List.Vector UInt8 prf_hlen.toNat}
    (h : F.Fits prf_hlen pw pwlen salt saltlen n) (hcount : count = 4294967295)
    (hdklen : dklen ≠ 0) (turns : ℕ) :
    i2pbkdf2.countedDerive prf pw pwlen salt saltlen count turns tmp outbuff dklen dk = none := by
  by_cases hzero : prf_hlen = 0
  · exact if_pos hzero
  · rw [i2pbkdf2.countedDerive, if_neg hzero]
    by_cases hfirst : 0 < dklen / prf_hlen
    · have hone : 1 ≤ (dklen / prf_hlen).toNat := UInt32.lt_iff_toNat_lt.mp hfirst
      have hplace : ((0 : UInt32) * prf_hlen).toNat + prf_hlen.toNat ≤ dklen.toNat := by
        have hle := Nat.mul_le_of_le_div _ _ _ ((UInt32.toNat_div dklen prf_hlen) ▸ hone)
        rw [UInt32.zero_mul]
        show 0 + _ ≤ _
        omega
      have hstep : i2pbkdf2.countedBlocks prf pw pwlen salt saltlen count turns (dklen / prf_hlen)
          (0, [], tmp, dk) = .inr none := by
        rw [i2pbkdf2.countedBlocks, if_pos hfirst, F.counted_max h hplace hcount]
      show (Loop.iterate _ ((dklen / prf_hlen).toNat + 1) (0, [], tmp, dk)).join.bind _ = none
      rw [Loop.iterate_leaves hstep]
      rfl
    · have hnone : (dklen / prf_hlen).toNat = 0 := by
        have hle := mt UInt32.lt_iff_toNat_lt.mpr hfirst
        exact Nat.eq_zero_of_not_pos hle
      have hrest : dklen % prf_hlen ≠ 0 := by
        intro hmod
        apply hdklen
        apply UInt32.toNat_inj.mp
        have hdiv := Nat.div_add_mod dklen.toNat prf_hlen.toNat
        rw [← UInt32.toNat_div, ← UInt32.toNat_mod, hnone, hmod] at hdiv
        simpa using hdiv.symm
      have hstep : i2pbkdf2.countedBlocks prf pw pwlen salt saltlen count turns (dklen / prf_hlen)
          (0, [], tmp, dk) = .inr (some ([], tmp, dk)) := by
        rw [i2pbkdf2.countedBlocks, if_neg hfirst]
      show (Loop.iterate _ ((dklen / prf_hlen).toNat + 1) (0, [], tmp, dk)).join.bind _ = none
      rw [Loop.iterate_leaves hstep]
      show i2pbkdf2.countedLast prf pw pwlen salt saltlen count turns _ _ [] tmp outbuff dk = none
      rw [i2pbkdf2.countedLast, if_pos hrest,
        F.counted_max h (Nat.le_of_eq (Nat.zero_add _)) hcount]
      rfl

theorem i2pbkdf2.countedDerive_eq {outbuff : List.Vector UInt8 prf_hlen.toNat}
    (h : F.Fits prf_hlen pw pwlen salt saltlen n) (hhlen : 1 ≤ prf_hlen.toNat)
    (hone : 1 ≤ count.toNat) (hcount : count ≠ 4294967295) :
    ∃ dk', i2pbkdf2.countedDerive prf pw pwlen salt saltlen count (count.toNat + 1) tmp outbuff
      dklen dk = some (List.replicate (blockCount prf_hlen dklen) count.toNat, dk') := by
  have hzero : prf_hlen ≠ 0 := by
    rintro rfl
    exact absurd hhlen (by decide)
  have hdiv : (dklen / prf_hlen).toNat * prf_hlen.toNat + (dklen % prf_hlen).toNat =
      dklen.toNat := by
    rw [UInt32.toNat_div, UInt32.toNat_mod, Nat.mul_comm]
    exact Nat.div_add_mod _ _
  have hrem : (dklen % prf_hlen).toNat < prf_hlen.toNat := by
    rw [UInt32.toNat_mod]
    exact Nat.mod_lt _ hhlen
  obtain ⟨tmp₁, dk₁, hblocks⟩ := @i2pbkdf2.countedBlocks_eq prf_hlen n prf pw salt pwlen saltlen
    count tmp 0 dklen (dklen / prf_hlen) dk [] ((dklen / prf_hlen).toNat + 1) h hone hcount
    (by omega) (Nat.zero_le _) (by omega)
  have hmul : (dklen / prf_hlen * prf_hlen).toNat = (dklen / prf_hlen).toNat * prf_hlen.toNat :=
    toNat_mul_of_le (Nat.le_refl _) (Nat.le.intro hdiv)
  obtain ⟨dk₂, hlast⟩ := @i2pbkdf2.countedLast_eq prf_hlen n prf pw salt pwlen saltlen count tmp₁
    dklen (dklen / prf_hlen) (dklen % prf_hlen) dk₁
    ([] ++ List.replicate ((dklen / prf_hlen).toNat - 0) count.toNat) outbuff h hone hcount
    (Nat.le_of_lt hrem) (fun _ => by omega)
  refine ⟨dk₂, ?_⟩
  rw [i2pbkdf2.countedDerive, if_neg hzero]
  show (Loop.iterate _ ((dklen / prf_hlen).toNat + 1) (0, [], tmp, dk)).join.bind _ = _
  rw [hblocks]
  show i2pbkdf2.countedLast prf pw pwlen salt saltlen count _ _ _ _ tmp₁ outbuff dk₁ = _
  rw [show (0 : UInt32).toNat = 0 from rfl, hlast, List.nil_append, Nat.sub_zero,
    List.replicate_append_replicate, blockCount]

theorem i2pbkdf2.countedDerive_zero {outbuff : List.Vector UInt8 prf_hlen.toNat}
    (hhlen : prf_hlen ≠ 0) (hdklen : dklen = 0) (turns : ℕ) :
    i2pbkdf2.countedDerive prf pw pwlen salt saltlen count turns tmp outbuff dklen dk =
      some (List.replicate (blockCount prf_hlen dklen) count.toNat, dk) := by
  have hdiv : dklen / prf_hlen = 0 := by
    apply UInt32.toNat_inj.mp
    rw [hdklen, UInt32.toNat_div]
    exact Nat.zero_div _
  have hmod : dklen % prf_hlen = 0 := by
    apply UInt32.toNat_inj.mp
    rw [hdklen, UInt32.toNat_mod]
    exact Nat.zero_mod _
  rw [i2pbkdf2.countedDerive, if_neg hhlen, blockCount]
  simp only [hdiv, hmod]
  rfl

/-! ### The run without the count -/

theorem i2pbkdf2.countedBlocks_snd (l : UInt32) (fuel : ℕ) (i : UInt32) (log : List ℕ)
    (tmp : TmpBuff n) (dk : List.Vector UInt8 dklen.toNat) :
    (Loop.iterate (i2pbkdf2.countedBlocks prf pw pwlen salt saltlen count (count.toNat + 1) l) fuel
        (i, log, tmp, dk)).join.map Prod.snd =
      (Loop.iterate (i2pbkdf2.blocks prf pw pwlen salt saltlen count l) fuel
        (i, tmp, dk)).join := by
  induction fuel generalizing i log tmp dk with
  | zero => rfl
  | succ fuel ih =>
      rw [Loop.iterate, Loop.iterate, i2pbkdf2.countedBlocks, i2pbkdf2.blocks, F.counted,
        ← F_eq_within]
      by_cases hgo : i < l
      · rw [if_pos hgo, if_pos hgo]
        cases F prf pw pwlen salt saltlen count (i + 1) tmp dk (i * prf_hlen) with
        | none => rfl
        | some r => exact ih (i + 1) _ r.1 r.2
      · rw [if_neg hgo, if_neg hgo]
        rfl

theorem i2pbkdf2.countedLast_snd (l r : UInt32) (log : List ℕ) (tmp : TmpBuff n)
    (outbuff : List.Vector UInt8 prf_hlen.toNat) (dk : List.Vector UInt8 dklen.toNat) :
    (i2pbkdf2.countedLast prf pw pwlen salt saltlen count (count.toNat + 1) l r log tmp outbuff
        dk).map Prod.snd =
      i2pbkdf2.last prf pw pwlen salt saltlen count l r tmp outbuff dk := by
  rw [i2pbkdf2.countedLast, i2pbkdf2.last, F.counted, ← F_eq_within]
  by_cases hzero : r ≠ 0
  · rw [if_pos hzero, if_pos hzero]
    cases F prf pw pwlen salt saltlen count (l + 1) tmp outbuff 0 with
    | none => rfl
    | some t =>
        show ((Memory.copy dk (l * prf_hlen).toNat t.2.1 0 r.toNat).map _).map _ = _
        rw [Option.map_map]
        exact Option.map_id'
  · rw [if_neg hzero, if_neg hzero]
    rfl

theorem i2pbkdf2.countedDerive_snd (tmp : TmpBuff n) (outbuff : List.Vector UInt8 prf_hlen.toNat)
    (dk : List.Vector UInt8 dklen.toNat) :
    (i2pbkdf2.countedDerive prf pw pwlen salt saltlen count (count.toNat + 1) tmp outbuff dklen
        dk).map Prod.snd =
      i2pbkdf2.derive prf pw pwlen salt saltlen count tmp outbuff dklen dk := by
  rw [i2pbkdf2.countedDerive, i2pbkdf2.derive]
  by_cases hzero : prf_hlen = 0
  · rw [if_pos hzero, if_pos hzero]
    rfl
  · rw [if_neg hzero, if_neg hzero]
    simp only
    rw [← i2pbkdf2.countedBlocks_snd _ _ 0 []]
    generalize (Loop.iterate (i2pbkdf2.countedBlocks prf pw pwlen salt saltlen count
      (count.toNat + 1) (dklen / prf_hlen)) _ _).join = o
    cases o with
    | none => rfl
    | some t => exact i2pbkdf2.countedLast_snd _ _ t.1 t.2.1 outbuff t.2.2

theorem i2pbkdf2.counted_allocated {tmpbuffOk outbuffOk : Bool}
    (hok : (tmpbuffOk && outbuffOk) = true) (turns : ℕ) (errno : ℤ)
    (dk_ret : List.Vector UInt8 dklen.toNat) :
    i2pbkdf2.counted prf pw pwlen salt saltlen count turns tmpbuffOk outbuffOk errno dklen dk_ret =
      (i2pbkdf2.countedDerive prf pw pwlen salt saltlen count turns
          ⟨List.Vector.replicate (MAX saltlen prf_hlen + 4).toNat 0, 0⟩
          (List.Vector.replicate _ 0) dklen dk_ret).map
        fun r => (r.1, ⟨0, errno, r.2⟩) := by
  rw [i2pbkdf2.counted, if_pos hok]

/-- With a turn for every iterate the run is that of `I2pbkdf2`. -/
theorem i2pbkdf2_counted (tmpbuffOk outbuffOk : Bool) (errno : ℤ)
    (dk_ret : List.Vector UInt8 dklen.toNat) :
    (i2pbkdf2.counted prf pw pwlen salt saltlen count (count.toNat + 1) tmpbuffOk outbuffOk errno
        dklen dk_ret).map Prod.snd =
      i2pbkdf2 prf pw pwlen salt saltlen count tmpbuffOk outbuffOk errno dklen dk_ret := by
  by_cases hok : (tmpbuffOk && outbuffOk) = true
  · rw [i2pbkdf2.counted_allocated hok, i2pbkdf2, if_pos hok]
    simp only [← i2pbkdf2.countedDerive_snd, Option.map_map]
    rfl
  · rw [i2pbkdf2.counted, i2pbkdf2, if_neg hok, if_neg hok]
    rfl

end Blocks

variable {dklen : UInt32}

theorem F.fits_allocated (hhlen : prf_hlen.toNat ≤ 4294967291) (hpw : pw.length = pwlen.toNat)
    (hsalt : salt.length = saltlen.toNat) (hsaltlen : saltlen.toNat < 4294967292) :
    F.Fits prf_hlen pw pwlen salt saltlen (MAX saltlen prf_hlen + 4).toNat := by
  have hsize := tmpbuff_size hhlen hsaltlen
  exact ⟨hpw, hsalt, by omega, by omega, by omega⟩

/-- The run with a turn for every iterate, where it is one that returns. -/
theorem i2pbkdf2.counted_eq
    (h : F.Fits prf_hlen pw pwlen salt saltlen (MAX saltlen prf_hlen + 4).toNat)
    (hhlen : 1 ≤ prf_hlen.toNat) (hone : 1 ≤ count.toNat) {tmpbuffOk outbuffOk : Bool}
    (hcond : count ≠ 4294967295 ∨ dklen = 0 ∨ (tmpbuffOk && outbuffOk) = false) (errno : ℤ)
    (dk_ret : List.Vector UInt8 dklen.toNat) :
    ∃ key, i2pbkdf2.counted prf pw pwlen salt saltlen count (count.toNat + 1) tmpbuffOk outbuffOk
      errno dklen dk_ret =
        some (List.replicate (if tmpbuffOk && outbuffOk then blockCount prf_hlen dklen else 0)
          count.toNat, key) := by
  have hzero : prf_hlen ≠ 0 := by
    rintro rfl
    exact absurd hhlen (by decide)
  by_cases hok : (tmpbuffOk && outbuffOk) = true
  · have hderive : ∃ dk', i2pbkdf2.countedDerive prf pw pwlen salt saltlen count
        (count.toNat + 1) ⟨List.Vector.replicate (MAX saltlen prf_hlen + 4).toNat 0, 0⟩
        (List.Vector.replicate _ 0) dklen dk_ret =
          some (List.replicate (blockCount prf_hlen dklen) count.toNat, dk') := by
      rcases hcond with hless | hdklen | hnot
      · exact i2pbkdf2.countedDerive_eq h hhlen hone hless
      · exact ⟨_, i2pbkdf2.countedDerive_zero hzero hdklen _⟩
      · rw [hok] at hnot
        cases hnot
    obtain ⟨dk', hderive⟩ := hderive
    refine ⟨⟨0, errno, dk'⟩, ?_⟩
    rw [i2pbkdf2.counted_allocated hok, if_pos hok, hderive]
    rfl
  · exact ⟨_, by rw [i2pbkdf2.counted, if_neg hok, if_neg hok]; rfl⟩

/-- `I2pbkdf2` returns after `count` calls of the pseudorandom function for each block, unless
the count is the greatest one and there is a block to compute. -/
theorem i2pbkdf2_ends_iff (prf : List UInt8 → List UInt8 → List.Vector UInt8 prf_hlen.toNat)
    (hhlen : 1 ≤ prf_hlen.toNat ∧ prf_hlen.toNat ≤ 4294967291)
    (hpw : pw.length = pwlen.toNat) (hsalt : salt.length = saltlen.toNat)
    (hsaltlen : saltlen.toNat < 4294967292) (hcount : 1 ≤ count.toNat)
    (tmpbuffOk outbuffOk : Bool) (errno : ℤ) (dk_ret : List.Vector UInt8 dklen.toNat) :
    (∃ turns log key,
      i2pbkdf2.counted prf pw pwlen salt saltlen count turns tmpbuffOk outbuffOk errno dklen
          dk_ret = some (log, key) ∧
        i2pbkdf2 prf pw pwlen salt saltlen count tmpbuffOk outbuffOk errno dklen dk_ret =
          some key ∧
        log = List.replicate (if tmpbuffOk && outbuffOk then blockCount prf_hlen dklen else 0)
          count.toNat) ↔
      count ≠ 4294967295 ∨ dklen = 0 ∨ (tmpbuffOk && outbuffOk) = false := by
  have hfits := F.fits_allocated hhlen.2 hpw hsalt hsaltlen
  constructor
  · rintro ⟨turns, log, key, hrun, -, -⟩
    by_contra hnot
    obtain ⟨hmax, hdklen, hok⟩ := by simpa only [not_or, not_not] using hnot
    have hok : (tmpbuffOk && outbuffOk) = true := Bool.eq_true_of_not_eq_false hok
    rw [i2pbkdf2.counted_allocated hok,
      i2pbkdf2.countedDerive_max hfits hmax hdklen turns] at hrun
    cases hrun
  · intro hcond
    obtain ⟨key, hrun⟩ := i2pbkdf2.counted_eq hfits hhlen.1 hcount hcond errno dk_ret
    refine ⟨count.toNat + 1, _, key, hrun, ?_, rfl⟩
    rw [← i2pbkdf2_counted, hrun]
    rfl

theorem i2pbkdf2_ends_iff_raeburn :
    (∃ turns log key,
      i2pbkdf2.counted hmacPrf testPassword 8 testSalt 21 2 turns true true 0 32
          (List.Vector.replicate 32 0) = some (log, key) ∧
        i2pbkdf2 hmacPrf testPassword 8 testSalt 21 2 true true 0 32
          (List.Vector.replicate 32 0) = some key ∧ log = [2, 2]) ↔
      (2 : UInt32) ≠ 4294967295 ∨ (32 : UInt32) = 0 ∨ (true && true) = false :=
  @i2pbkdf2_ends_iff 20 testPassword testSalt 8 21 2 32 hmacPrf (by decide) rfl rfl (by decide)
    (by decide) true true 0 (List.Vector.replicate 32 0)

/-- The greatest count, for one block: `I2pbkdf2` has no result for any number of turns. -/
theorem i2pbkdf2_greatest_count :
    (∀ turns, i2pbkdf2.counted hmacPrf testPassword 8 testSalt 21 4294967295 turns true true 0 20
        (List.Vector.replicate 20 0) = none) ∧
      i2pbkdf2 hmacPrf testPassword 8 testSalt 21 4294967295 true true 0 20
        (List.Vector.replicate 20 0) = none := by
  have hfits : F.Fits 20 testPassword 8 testSalt 21 (MAX 21 20 + 4).toNat :=
    ⟨rfl, rfl, by decide, by decide, by decide⟩
  have hnone : ∀ turns, i2pbkdf2.counted hmacPrf testPassword 8 testSalt 21 4294967295 turns true
      true 0 20 (List.Vector.replicate 20 0) = none := fun turns => by
    rw [i2pbkdf2.counted_allocated rfl, i2pbkdf2.countedDerive_max hfits rfl (by decide) turns]
    rfl
  refine ⟨hnone, ?_⟩
  rw [← i2pbkdf2_counted, hnone]
  rfl

end I2util
