import I2util.Hash.Md5Rounds
import I2util.Hash.Sha1Blocks

/-!
`md5.c` computes the digest of RFC 1321, for every way to cut the message into chunks and
both ways to read a block.

Unlike the count of `sha1.c`, this one takes chunks of any size, and messages of any length:
it is the length modulo 2^64 bits, as the standard has it.
-/

namespace I2util

attribute [local instance] Words.neZero_four Words.neZero_sixteen

open Blocks

namespace Rfc1321

def initial : Md5State := 0x67452301 ::ᵥ 0xefcdab89 ::ᵥ 0x98badcfe ::ᵥ 0x10325476 ::ᵥ .nil

/-- The padded message: a 1 bit, zeros, and the 64 low bits of the length in bits. -/
def pad (m : List UInt8) : List UInt8 :=
  m ++ 0x80 :: (List.replicate (paddingZeros m.length) 0 ++ littleEndian 8 (8 * m.length))

noncomputable def md5 (m : List UInt8) : List UInt8 :=
  ((cut 64 (pad m)).foldl compress initial).toList.flatMap fun w => littleEndian 4 w.toNat

end Rfc1321

open Rfc1321 (compress)

variable {access : Md5.Access} {ctx : I2MD5Ctx} {m data : List UInt8} {size : UInt64} {ptr : ℕ}

structure Md5Collected (ctx : I2MD5Ctx) (m : List UInt8) : Prop where
  state : ctx.state = (cut 64 m).foldl compress Rfc1321.initial
  buffer : ∃ unused, ctx.buffer.1 = leftover 64 m ++ unused
  lo : ctx.lo.toNat = m.length % 536870912
  hi : ctx.hi.toNat = m.length / 536870912 % 4294967296

theorem md5Collected_init (ctx : I2MD5Ctx) : Md5Collected (i2MD5Init ctx) [] where
  state := by
    rw [cut_nil]
    rfl
  buffer := ⟨ctx.buffer.1, by rw [leftover_of_lt (by simp)]; rfl⟩
  lo := rfl
  hi := rfl

/-! ### The blocks in the data -/

/-- The loop takes the blocks one after the other. -/
theorem Md5.body.blocks_eq {p q : List UInt8} {b : Md5Block} {bs : List Md5Block} {v : Md5.Vars}
    {fuel : ℕ} (hdata : data = p ++ ((b :: bs).flatMap List.Vector.toList ++ q))
    (hptr : p.length = ptr) (hsize : size.toNat = 64 * (b :: bs).length)
    (hfuel : bs.length < fuel) :
    ∃ v', Loop.iterate (Md5.body.blocks access data) fuel (ptr, v, size) =
        some (some (ptr + 64 * (b :: bs).length, v')) ∧
      v'.state = (b :: bs).foldl compress v.state := by
  induction bs generalizing p b v ptr size fuel with
  | nil =>
      obtain ⟨fuel, rfl⟩ : ∃ f, fuel = f + 1 := ⟨fuel - 1, by omega⟩
      have hread : Memory.read data ptr 64 = some b :=
        Memory.read_eq (by simpa [List.Vector.toList] using hdata) hptr b.2
      obtain rfl : size = 64 := UInt64.toNat_inj.mp hsize
      refine ⟨Md5.turn access v b, ?_, Md5.turn_eq access v b⟩
      apply Loop.iterate_leaves
      rw [Md5.body.blocks, hread]
      rfl
  | cons b' bs ih =>
      rw [List.length_cons] at hfuel
      obtain ⟨fuel, rfl⟩ : ∃ f, fuel = f + 1 := ⟨fuel - 1, by omega⟩
      rw [List.flatMap_cons, List.append_assoc] at hdata
      have hread : Memory.read data ptr 64 = some b := Memory.read_eq hdata hptr b.2
      simp only [List.length_cons] at hsize
      have hless : (size - 64).toNat = size.toNat - 64 :=
        UInt64.toNat_sub_of_le _ _ (UInt64.le_iff_toNat_le.mpr (show 64 ≤ size.toNat by omega))
      have hgo : size - 64 ≠ 0 := by
        intro hzero
        rw [hzero] at hless
        have hz : (0 : UInt64).toNat = 0 := rfl
        omega
      have hstep : Md5.body.blocks access data (ptr, v, size) =
          .inl (ptr + 64, Md5.turn access v b, size - 64) := by
        rw [Md5.body.blocks, hread]
        exact if_pos hgo
      obtain ⟨v', hrun, hv'⟩ := @ih (size - 64) (ptr + 64) (p ++ b.1) b' (Md5.turn access v b) fuel
        (by rw [List.append_assoc]; exact hdata)
        (by rw [List.length_append, hptr, b.2]) (by rw [List.length_cons]; omega) (by omega)
      refine ⟨v', ?_, ?_⟩
      · rw [Loop.iterate_goes_on hstep, hrun, List.length_cons (a := b)]
        congr 3
        omega
      · rw [hv', Md5.turn_eq, List.foldl_cons (a := b)]

theorem Md5.body_eq {p q : List UInt8} {b : Md5Block} {bs : List Md5Block}
    (hdata : data = p ++ ((b :: bs).flatMap List.Vector.toList ++ q)) (hptr : p.length = ptr)
    (hsize : size.toNat = 64 * (b :: bs).length) :
    ∃ block, Md5.body access ctx data ptr size = some (ptr + 64 * (b :: bs).length,
      { ctx with state := (b :: bs).foldl compress ctx.state, block := block }) := by
  have hlen : bs.length < data.length + 1 := by
    have htotal := congrArg List.length hdata
    rw [List.length_append, List.length_append, length_flatMap, List.length_cons] at htotal
    omega
  obtain ⟨v', hrun, hv'⟩ := @Md5.body.blocks_eq access data size ptr p q b bs
    ⟨ctx.state, ctx.block⟩ (data.length + 1) hdata hptr hsize hlen
  refine ⟨v'.block, ?_⟩
  rw [Md5.body, hrun, ← hv']
  rfl

theorem Md5.body_buffer (access : Md5.Access) (ctx : I2MD5Ctx) :
    ∃ ptr block, Md5.body access ctx ctx.buffer.1 0 64 = some (ptr,
      { ctx with state := compress ctx.state ctx.buffer, block := block }) := by
  obtain ⟨block, hrun⟩ := @Md5.body_eq access ctx ctx.buffer.1 64 0 [] [] ctx.buffer []
    (by simp [List.Vector.toList]) rfl rfl
  exact ⟨_, block, hrun⟩

/-! ### One chunk -/

theorem count_toNat (ctx : I2MD5Ctx) (hlo : ctx.lo.toNat < 536870912) (size : UInt64) :
    (ctx.count size).lo.toNat = (ctx.lo.toNat + size.toNat) % 536870912 ∧
      (ctx.count size).hi.toNat =
        (ctx.hi.toNat + (ctx.lo.toNat + size.toNat) / 536870912) % 4294967296 := by
  have hsize := size.toNat_lt
  have hhi := ctx.hi.toNat_lt
  have hmask : ∀ n : ℕ, n &&& 536870911 = n % 536870912 := fun n =>
    Nat.and_two_pow_sub_one_eq_mod n 29
  have hlo' : (ctx.count size).lo.toNat = (ctx.lo.toNat + size.toNat) % 536870912 := by
    show (((ctx.lo.toUInt64 + size) &&& 0x1fffffff).toUInt32).toNat = _
    rw [UInt64.toNat_toUInt32, UInt64.toNat_and, UInt64.toNat_add, UInt32.toNat_toUInt64]
    show ((ctx.lo.toNat + size.toNat) % 18446744073709551616 &&& 536870911) % 4294967296 = _
    rw [hmask]
    omega
  refine ⟨hlo', ?_⟩
  have hshift : (size >>> 29).toNat = size.toNat / 536870912 := by
    rw [UInt64.toNat_shiftRight, Nat.shiftRight_eq_div_pow]
    rfl
  -- a carry is seen in the low part
  have hcarry : (if (ctx.count size).lo < ctx.lo then ctx.hi + 1 else ctx.hi).toNat =
      (ctx.hi.toNat + (ctx.lo.toNat + size.toNat % 536870912) / 536870912) % 4294967296 := by
    by_cases hlt : (ctx.count size).lo < ctx.lo
    · have hlt' := UInt32.lt_iff_toNat_lt.mp hlt
      rw [if_pos hlt, UInt32.toNat_add]
      show (ctx.hi.toNat + 1) % 4294967296 = _
      omega
    · have hge := mt UInt32.lt_iff_toNat_lt.mpr hlt
      rw [if_neg hlt]
      omega
  show (((if (ctx.count size).lo < ctx.lo then ctx.hi + 1 else ctx.hi).toUInt64 +
    (size >>> 29)).toUInt32).toNat = _
  rw [UInt64.toNat_toUInt32, UInt64.toNat_add, UInt32.toNat_toUInt64, hcarry, hshift]
  omega

/-- A slice of the data copied to the buffer, which begins with `xs`. -/
theorem I2MD5Ctx.copy_eq {used n : UInt64} {p src q xs unused : List UInt8}
    (hdata : data = p ++ (src ++ q)) (hptr : p.length = ptr) (hn : src.length = n.toNat)
    (hbuffer : ctx.buffer.1 = xs ++ unused) (hused : xs.length = used.toNat)
    (hroom : src.length ≤ unused.length) :
    ∃ buffer : Md5Block, ctx.copy used data ptr n = some { ctx with buffer := buffer } ∧
      buffer.1 = xs ++ (src ++ unused.drop src.length) := by
  obtain ⟨buffer, hcopy, hnew⟩ := @Memory.copy_eq _ 64 ctx.buffer xs (unused.take src.length)
    (unused.drop src.length) data p src q used.toNat ptr n.toNat hdata hptr hn
    (by rw [List.take_append_drop]; exact hbuffer) hused
    ((List.length_take_of_le hroom).trans hn)
  refine ⟨buffer, ?_, hnew⟩
  rw [I2MD5Ctx.copy, hcopy]
  rfl

theorem and_63 (size : UInt64) : (size &&& 0x3f).toNat = size.toNat % 64 := by
  rw [UInt64.toNat_and]
  exact Nat.and_two_pow_sub_one_eq_mod _ 6

theorem and_not_63 (size : UInt64) :
    (size &&& ~~~(0x3f : UInt64)).toNat = 64 * (size.toNat / 64) := by
  have hsplit : size &&& ~~~(0x3f : UInt64) = (size >>> 6) <<< 6 := by
    apply UInt64.toBitVec_inj.mp
    ext i hi
    interval_cases i <;> simp
  rw [hsplit, UInt64.toNat_shiftLeft, UInt64.toNat_shiftRight, Nat.shiftRight_eq_div_pow,
    Nat.shiftLeft_eq]
  have hlt := size.toNat_lt
  show size.toNat / 64 * 64 % 18446744073709551616 = _
  omega

/-- The data behind the block in the buffer: its blocks are taken, and the rest goes to
the buffer. -/
theorem i2MD5Update.rest_eq {p r : List UInt8} (access : Md5.Access) (ctx : I2MD5Ctx)
    (hdata : data = p ++ r) (hptr : p.length = ptr) (hlen : r.length = size.toNat) :
    ∃ (buffer : Md5Block) (block : List.Vector UInt32 16) (unused : List UInt8),
      i2MD5Update.rest access ctx data ptr size = some { ctx with
        state := (cut 64 r).foldl compress ctx.state, buffer := buffer, block := block } ∧
      buffer.1 = leftover 64 r ++ unused := by
  have hroom : ctx.buffer.1.length = 64 := ctx.buffer.2
  have hshort := leftover_length (show 0 < 64 by decide) r
  by_cases hlong : 64 ≤ size
  · have hle : 64 ≤ size.toNat := UInt64.le_iff_toNat_le.mp hlong
    have hcut := cut_length (show 0 < 64 by decide) r
    have hflat := flatMap_cut (show 0 < 64 by decide) r
    obtain ⟨b, bs, hbs⟩ := List.exists_cons_of_length_pos (show 0 < (cut 64 r).length by omega)
    rw [hbs] at hcut hflat
    obtain ⟨block, hbody⟩ := @Md5.body_eq access ctx data (size &&& ~~~(0x3f : UInt64)) ptr p
      (leftover 64 r) b bs (by rw [hflat, hdata]) hptr (by rw [and_not_63, hcut, hlen])
    obtain ⟨buffer, hcopy, hnew⟩ := @I2MD5Ctx.copy_eq
      { ctx with state := (b :: bs).foldl compress ctx.state, block := block } data
      (ptr + 64 * (b :: bs).length) 0 (size &&& 0x3f)
      (p ++ (b :: bs).flatMap List.Vector.toList) (leftover 64 r) [] [] ctx.buffer.1
      (by rw [List.append_nil, List.append_assoc, hflat, hdata])
      (by rw [List.length_append, hptr, length_flatMap]) (by rw [hshort, and_63, hlen]) rfl rfl
      (by omega)
    refine ⟨buffer, block, _, ?_, hnew⟩
    rw [i2MD5Update.rest, if_pos hlong, hbody, hbs]
    exact hcopy
  · have hlt : r.length < 64 := by
      have hnot := mt UInt64.le_iff_toNat_le.mpr hlong
      have h64 : (64 : UInt64).toNat = 64 := rfl
      omega
    obtain ⟨buffer, hcopy, hnew⟩ := @I2MD5Ctx.copy_eq ctx data ptr 0 size p r [] [] ctx.buffer.1
      (by rw [List.append_nil]; exact hdata) hptr hlen rfl rfl (by omega)
    refine ⟨buffer, ctx.block, _, ?_, by rw [leftover_of_lt hlt]; exact hnew⟩
    rw [i2MD5Update.rest, if_neg hlong, hcopy, cut_of_lt hlt]
    rfl

/-- One call: the blocks that the chunk completes are taken, and what is behind them is in
the buffer. -/
theorem i2MD5Update_eq {xs unused : List UInt8} (access : Md5.Access)
    (hbuffer : ctx.buffer.1 = xs ++ unused) (hused : xs.length = ctx.lo.toNat % 64)
    (hlen : data.length = size.toNat) :
    ∃ (buffer : Md5Block) (block : List.Vector UInt32 16) (unused' : List UInt8),
      i2MD5Update access ctx data size = some { ctx.count size with
        state := (cut 64 (xs ++ data)).foldl compress ctx.state, buffer := buffer, block := block } ∧
      buffer.1 = leftover 64 (xs ++ data) ++ unused' := by
  have hroom : 64 = xs.length + unused.length := by
    rw [← List.length_append, ← hbuffer]
    exact ctx.buffer.2.symm
  have hindex : (ctx.lo &&& 0x3f).toUInt64.toNat = xs.length := by
    rw [UInt32.toNat_toUInt64, UInt32.toNat_and, hused]
    exact Nat.and_two_pow_sub_one_eq_mod _ 6
  by_cases hzero : (ctx.lo &&& 0x3f).toUInt64 = 0
  · rw [hzero] at hindex
    obtain rfl := List.eq_nil_of_length_eq_zero hindex.symm
    obtain ⟨buffer, block, unused', hrest, hnew⟩ := i2MD5Update.rest_eq (p := []) access
      (ctx.count size) rfl rfl hlen
    refine ⟨buffer, block, unused', ?_, hnew⟩
    rw [i2MD5Update]
    dsimp only
    rw [if_neg (not_not.mpr hzero)]
    exact hrest
  · have hpos : 0 < xs.length := by
      rw [← hindex]
      exact Nat.pos_of_ne_zero fun h => hzero (UInt64.toNat_inj.mp h)
    have hfree : (64 - (ctx.lo &&& 0x3f).toUInt64).toNat = unused.length := by
      rw [UInt64.toNat_sub_of_le _ _
        (UInt64.le_iff_toNat_le.mpr (by rw [hindex]; show _ ≤ 64; omega)),
        hindex]
      show 64 - xs.length = _
      omega
    rw [i2MD5Update]
    dsimp only
    rw [if_pos hzero]
    generalize (ctx.lo &&& 0x3f).toUInt64 = used at *
    by_cases hpart : size < 64 - used
    · have hlt := UInt64.lt_iff_toNat_lt.mp hpart
      have hshort : (xs ++ data).length < 64 := by
        rw [List.length_append]
        omega
      obtain ⟨buffer, hcopy, hnew⟩ := @I2MD5Ctx.copy_eq (ctx.count size) data 0 used size [] data []
        xs unused (by simp) rfl hlen hbuffer hindex.symm (by omega)
      refine ⟨buffer, ctx.block, unused.drop data.length, ?_, ?_⟩
      · rw [if_pos hpart, hcopy, cut_of_lt hshort]
        rfl
      · rw [leftover_of_lt hshort, hnew, List.append_assoc]
    · have hge := mt UInt64.lt_iff_toNat_lt.mpr hpart
      have hfirst : (data.take unused.length).length = unused.length :=
        List.length_take_of_le (by omega)
      -- the block in the buffer
      obtain ⟨b, hcopy, hb⟩ := @I2MD5Ctx.copy_eq (ctx.count size) data 0 used (64 - used) []
        (data.take unused.length) (data.drop unused.length) xs unused
        (by rw [List.take_append_drop]; rfl) rfl (hfirst.trans hfree.symm) hbuffer hindex.symm
        (Nat.le_of_eq hfirst)
      rw [hfirst, List.drop_length, List.append_nil] at hb
      obtain ⟨ptr, block₁, hbody⟩ := Md5.body_buffer access { ctx.count size with buffer := b }
      -- what is behind it
      have hless : (data.drop unused.length).length = (size - (64 - used)).toNat := by
        rw [List.length_drop, UInt64.toNat_sub_of_le _ _ (UInt64.le_iff_toNat_le.mpr (by omega)),
          hfree, hlen]
      obtain ⟨buffer, block, unused', hrest, hnew⟩ := @i2MD5Update.rest_eq data (size - (64 - used))
        unused.length (data.take unused.length) (data.drop unused.length) access
        { ctx.count size with state := compress ctx.state b, buffer := b, block := block₁ }
        (List.take_append_drop _ _).symm hfirst hless
      have hdata : xs ++ data = b.1 ++ data.drop unused.length := by
        rw [hb, List.append_assoc, List.take_append_drop]
      refine ⟨buffer, block, unused', ?_, by rw [hdata, leftover_block (by decide)]; exact hnew⟩
      rw [if_neg hpart, hcopy, Option.bind_some, hbody, Option.bind_some, hfree, hdata,
        cut_block (by decide)]
      exact hrest

/-- A chunk is collected behind the message, wherever it ends and however long it is. -/
theorem Md5Collected.update (h : Md5Collected ctx m) (access : Md5.Access)
    (hlen : data.length = size.toNat) :
    ∃ ctx', i2MD5Update access ctx data size = some ctx' ∧ Md5Collected ctx' (m ++ data) := by
  obtain ⟨unused, hbuffer⟩ := h.buffer
  have hlo := h.lo
  have hhi := h.hi
  have hused : (leftover 64 m).length = ctx.lo.toNat % 64 := by
    rw [leftover_length (by decide), hlo]
    omega
  obtain ⟨buffer, block, unused', hrun, hnew⟩ := i2MD5Update_eq access hbuffer hused hlen
  obtain ⟨hcount, hcount'⟩ := count_toNat ctx (by omega) size
  refine ⟨_, hrun, ?_, ⟨unused', ?_⟩, ?_, ?_⟩
  · show (cut 64 (leftover 64 m ++ data)).foldl compress ctx.state = _
    rw [cut_append (by decide) m, List.foldl_append, ← h.state]
  · rw [leftover_append (by decide) m]
    exact hnew
  · show (ctx.count size).lo.toNat = _
    rw [List.length_append, hlen]
    omega
  · show (ctx.count size).hi.toNat = _
    rw [List.length_append, hlen]
    omega

/-! ### The padding -/

theorem I2MD5Ctx.clear_eq {used n : UInt64} {xs mid tail : List UInt8}
    (hbuffer : ctx.buffer.1 = xs ++ (mid ++ tail)) (hused : xs.length = used.toNat)
    (hn : mid.length = n.toNat) :
    ∃ buffer : Md5Block, ctx.clear used n = some { ctx with buffer := buffer } ∧
      buffer.1 = xs ++ (List.replicate n.toNat 0 ++ tail) := by
  obtain ⟨buffer, hwrite, hnew⟩ := @Memory.write_eq _ 64 ctx.buffer xs mid tail
    (List.replicate n.toNat 0) used.toNat hbuffer hused (by rw [List.length_replicate, hn])
  refine ⟨buffer, ?_, hnew⟩
  rw [I2MD5Ctx.clear, hwrite]
  rfl

/-- The bytes of the count are the length in bits. -/
theorem Md5Collected.bits (h : Md5Collected ctx m) :
    wordBytes (ctx.lo <<< 3) ++ wordBytes ctx.hi = littleEndian 8 (8 * m.length) := by
  have hlo := h.lo
  have hhi := h.hi
  have hshift : (ctx.lo <<< 3).toNat = 8 * ctx.lo.toNat := by
    rw [UInt32.toNat_shiftLeft, Nat.shiftLeft_eq]
    show ctx.lo.toNat * 8 % 4294967296 = _
    omega
  have happend := @LittleEndian.append 4 4 ctx.hi.toNat (ctx.lo <<< 3).toNat
    (ctx.lo <<< 3).toNat_lt
  rw [wordBytes, wordBytes, LittleEndian.word_eq, LittleEndian.word_eq, ← happend,
    ← LittleEndian.mod 8 (8 * m.length), hshift]
  congr 1
  show ctx.hi.toNat * 4294967296 + 8 * ctx.lo.toNat = 8 * m.length % 18446744073709551616
  omega

/-- Room for the length: the 1 bit, and where there is too little room behind it the rest of
the block is filled with zeros and taken. -/
theorem i2MD5Final.room_eq {rest : List UInt8} {used : UInt64} (access : Md5.Access)
    (hstate : ctx.state = (cut 64 m).foldl compress Rfc1321.initial)
    (hbuffer : ctx.buffer.1 = leftover 64 m ++ 0x80 :: rest)
    (hused : used.toNat = (leftover 64 m).length) :
    ∃ (z : ℕ) (ctx' : I2MD5Ctx) (used' free : UInt64) (unused : List UInt8),
      i2MD5Final.room access ctx (used + 1) (64 - (used + 1)) = some (ctx', used', free) ∧
      ctx'.lo = ctx.lo ∧ ctx'.hi = ctx.hi ∧
      ctx'.state = (cut 64 (m ++ 0x80 :: List.replicate z 0)).foldl compress Rfc1321.initial ∧
      ctx'.buffer.1 = leftover 64 (m ++ 0x80 :: List.replicate z 0) ++ unused ∧
      used'.toNat = (leftover 64 (m ++ 0x80 :: List.replicate z 0)).length ∧
      free.toNat = unused.length ∧ 8 ≤ free.toNat ∧
        z + (free.toNat - 8) = paddingZeros m.length := by
  have hshort := leftover_length (show 0 < 64 by decide) m
  have hroom : 64 = (leftover 64 m).length + (rest.length + 1) := by
    rw [← List.length_cons (a := 0x80), ← List.length_append, ← hbuffer]
    exact ctx.buffer.2.symm
  have hnext : (used + 1).toNat = used.toNat + 1 := by
    rw [UInt64.toNat_add]
    exact Nat.mod_eq_of_lt (show used.toNat + 1 < 18446744073709551616 by omega)
  have hfree : (64 - (used + 1)).toNat = rest.length := by
    rw [UInt64.toNat_sub_of_le _ _ (UInt64.le_iff_toNat_le.mpr (by rw [hnext]; show _ ≤ 64; omega)),
      hnext]
    show 64 - (used.toNat + 1) = _
    omega
  by_cases hsmall : 64 - (used + 1) < 8
  · have hlt : rest.length < 8 := hfree ▸ UInt64.lt_iff_toNat_lt.mp hsmall
    obtain ⟨b, hclear, hb⟩ := @I2MD5Ctx.clear_eq ctx (used + 1) (64 - (used + 1))
      (leftover 64 m ++ [0x80]) rest [] (by rw [hbuffer]; simp)
      (by rw [List.length_append, hnext, hused]; rfl) hfree.symm
    rw [hfree, List.append_nil, List.append_assoc] at hb
    obtain ⟨ptr, block, hbody⟩ := Md5.body_buffer access { ctx with buffer := b }
    obtain ⟨hcut, hleft⟩ := append_last (n := 64) (by decide) hb
    refine ⟨rest.length, { ctx with state := compress ctx.state b, buffer := b, block := block }, 0,
      64, b.1, ?_, rfl, rfl, ?_, ?_, ?_, b.2.symm, by decide, ?_⟩
    · rw [i2MD5Final.room, if_pos hsmall, hclear, Option.bind_some, hbody]
      rfl
    · show compress ctx.state b = (cut 64 (m ++ ([0x80] ++ _))).foldl compress _
      rw [hcut, List.foldl_append, ← hstate]
      rfl
    · show b.1 = leftover 64 (m ++ ([0x80] ++ _)) ++ b.1
      rw [hleft]
      rfl
    · show 0 = (leftover 64 (m ++ ([0x80] ++ _))).length
      rw [hleft]
      rfl
    · show rest.length + (64 - 8) = _
      rw [paddingZeros]
      omega
  · have hge : 8 ≤ rest.length := by
      have hnot := mt UInt64.lt_iff_toNat_lt.mpr hsmall
      rw [hfree] at hnot
      exact Nat.le_of_not_lt hnot
    have hshort : (leftover 64 m ++ [0x80]).length < 64 := by
      rw [List.length_append]
      show _ + 1 < 64
      omega
    obtain ⟨hcut, hleft⟩ := append_part (by decide) hshort
    refine ⟨0, ctx, used + 1, 64 - (used + 1), rest, if_neg hsmall, rfl, rfl, ?_, ?_, ?_, hfree,
      by omega, ?_⟩
    · rw [List.replicate_zero, hcut, hstate]
    · rw [List.replicate_zero, hleft, hbuffer, List.append_assoc]
      rfl
    · rw [List.replicate_zero, hleft, List.length_append, hnext, hused]
      rfl
    · rw [paddingZeros, hfree]
      omega

theorem resultBytes_toList (state : Md5State) :
    (resultBytes state).toList = state.toList.flatMap fun w => littleEndian 4 w.toNat := by
  obtain ⟨words, hlen⟩ := state
  match words, hlen with
  | [w0, w1, w2, w3], _ =>
      show _ = littleEndian 4 w0.toNat ++ (littleEndian 4 w1.toNat ++ (littleEndian 4 w2.toNat ++
        (littleEndian 4 w3.toNat ++ [])))
      simp only [← LittleEndian.word_eq]
      rfl

/-- The end of a message. -/
theorem i2MD5Final_eq (h : Md5Collected ctx m) (access : Md5.Access) :
    ∃ digest, i2MD5Final access ctx = some (digest, .zero) ∧ digest.toList = Rfc1321.md5 m := by
  obtain ⟨unused, hbuffer⟩ := h.buffer
  have hlo := h.lo
  have hshort := leftover_length (show 0 < 64 by decide) m
  have hroom : 64 = (leftover 64 m).length + unused.length := by
    rw [← List.length_append, ← hbuffer]
    exact ctx.buffer.2.symm
  have hused : (ctx.lo &&& 0x3f).toUInt64.toNat = (leftover 64 m).length := by
    have hmask : ctx.lo.toNat &&& 63 = ctx.lo.toNat % 64 := Nat.and_two_pow_sub_one_eq_mod _ 6
    rw [UInt32.toNat_toUInt64, UInt32.toNat_and]
    show ctx.lo.toNat &&& 63 = _
    omega
  obtain ⟨u, rest, rfl⟩ := List.exists_cons_of_length_pos (show 0 < unused.length by omega)
  -- the 1 bit
  obtain ⟨buffer₁, hwrite₁, h₁⟩ :=
    @Memory.write_eq _ 64 ctx.buffer (leftover 64 m) [u] rest [0x80] _ hbuffer hused.symm rfl
  obtain ⟨z, ctx', used', free, unused', hrun, hlo', hhi', hstate, hbuffer', hused', hfree, hge,
    hz⟩ := @i2MD5Final.room_eq { ctx with buffer := buffer₁ } m rest _ access h.state h₁ hused
  -- the zeros
  have hless : (free - 8).toNat = free.toNat - 8 :=
    UInt64.toNat_sub_of_le _ _ (UInt64.le_iff_toNat_le.mpr hge)
  obtain ⟨buffer₂, hclear, h₂⟩ := @I2MD5Ctx.clear_eq ctx' used' (free - 8) _
    (unused'.take (free.toNat - 8)) (unused'.drop (free.toNat - 8))
    (by rw [List.take_append_drop]; exact hbuffer') hused'.symm
    (by rw [List.length_take, hless]; omega)
  -- the length
  have hbits := h.bits
  have hplace : 56 = (leftover 64 (m ++ 0x80 :: List.replicate z 0)).length + (free - 8).toNat := by
    have hall := congrArg List.length hbuffer'
    rw [List.length_append, ctx'.buffer.2] at hall
    omega
  obtain ⟨b, hwrite₂, hb⟩ := @Memory.write_eq _ 64 buffer₂
    (leftover 64 (m ++ 0x80 :: List.replicate z 0) ++ List.replicate (free - 8).toNat 0)
    (unused'.drop (free.toNat - 8)) [] (wordBytes (ctx.lo <<< 3) ++ wordBytes ctx.hi) 56
    (by rw [h₂, List.append_assoc, List.append_nil])
    (by rw [List.length_append, List.length_replicate, ← hplace])
    (by rw [hbits, LittleEndian.length, List.length_drop]; omega)
  rw [List.append_nil, List.append_assoc, hbits] at hb
  rw [← show ctx'.lo = ctx.lo from hlo', ← show ctx'.hi = ctx.hi from hhi'] at hwrite₂
  obtain ⟨ptr, block, hbody⟩ := Md5.body_buffer access
    { ctx' with lo := ctx'.lo <<< 3, buffer := b }
  obtain ⟨hcut, -⟩ := append_last (n := 64) (by decide) hb
  have hpad : (m ++ 0x80 :: List.replicate z 0) ++ (List.replicate (free - 8).toNat 0 ++
      littleEndian 8 (8 * m.length)) = Rfc1321.pad m := by
    rw [Rfc1321.pad, ← hz, hless, List.replicate_add, List.append_assoc, List.append_assoc,
      List.cons_append]
  rw [hpad] at hcut
  refine ⟨resultBytes (compress ctx'.state b), ?_, ?_⟩
  · rw [i2MD5Final]
    dsimp only
    rw [hwrite₁, Option.bind_some, hrun, Option.bind_some, hclear, Option.bind_some]
    show (Memory.write buffer₂ 56 (wordBytes (ctx'.lo <<< 3) ++ wordBytes ctx'.hi)).bind _ = _
    rw [hwrite₂]
    show Option.map _ (Md5.body access { ctx' with lo := ctx'.lo <<< 3, buffer := b } b.1 0 64) = _
    rw [hbody]
    rfl
  · rw [resultBytes_toList, hstate, Rfc1321.md5, hcut, List.foldl_append]
    rfl

/-! ### Any chunks -/

/-- A whole message: `I2MD5Init`, one `I2MD5Update` for each chunk, `I2MD5Final`. -/
def i2MD5Message (access : Md5.Access) (ctx : I2MD5Ctx) (chunks : List (List UInt8)) :
    Option (Md5Digest × I2MD5Ctx) :=
  (chunks.foldlM (fun ctx chunk => i2MD5Update access ctx chunk (UInt64.ofNat chunk.length))
    (i2MD5Init ctx)).bind (i2MD5Final access)

theorem Md5Collected.updates {chunks : List (List UInt8)} (h : Md5Collected ctx m)
    (access : Md5.Access) (hchunks : ∀ chunk ∈ chunks, chunk.length < 18446744073709551616) :
    ∃ ctx', chunks.foldlM (fun ctx chunk =>
        i2MD5Update access ctx chunk (UInt64.ofNat chunk.length)) ctx = some ctx' ∧
      Md5Collected ctx' (m ++ chunks.flatten) := by
  induction chunks generalizing ctx m with
  | nil => exact ⟨ctx, rfl, by simpa using h⟩
  | cons chunk chunks ih =>
      have hlen : (UInt64.ofNat chunk.length).toNat = chunk.length :=
        UInt64.toNat_ofNat_of_lt' (hchunks chunk List.mem_cons_self)
      obtain ⟨ctx₁, hupdate, h₁⟩ := h.update access hlen.symm
      obtain ⟨ctx₂, hrest, h₂⟩ := ih h₁ fun c hc => hchunks c (List.mem_cons_of_mem chunk hc)
      refine ⟨ctx₂, ?_, by simpa using h₂⟩
      rw [List.foldlM_cons, hupdate]
      exact hrest

/-- The functions of `md5.c` compute the digest of RFC 1321, for every way to cut the message
into chunks and both ways to read a block, from any context, and leave no trace in it. -/
theorem md5_standard (access : Md5.Access) (ctx : I2MD5Ctx) {chunks : List (List UInt8)}
    (hchunks : ∀ chunk ∈ chunks, chunk.length < 18446744073709551616) :
    ∃ digest, i2MD5Message access ctx chunks = some (digest, .zero) ∧
      digest.toList = Rfc1321.md5 chunks.flatten := by
  obtain ⟨ctx', hupdates, h⟩ := (md5Collected_init ctx).updates access hchunks
  rw [i2MD5Message, hupdates]
  exact i2MD5Final_eq h access

theorem md5_standard_abc :
    ∃ digest, i2MD5Message .portable .zero [[0x61], [], [0x62, 0x63]] = some (digest, .zero) ∧
      digest.toList = Rfc1321.md5 [0x61, 0x62, 0x63] :=
  @md5_standard .portable .zero [[0x61], [], [0x62, 0x63]] (by decide)

end I2util
