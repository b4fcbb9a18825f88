import I2util.Hash.Sha1
import I2util.Library.BigEndian

/-!
The blocks that the compression function gets are those of the padded message, for
every way to cut the message into chunks.
-/

namespace I2util

open Blocks

/-- What a context has collected: the blocks of the message have been compressed,
starting with the state of `I2Sha1Init`, the rest is in the buffer, and the count is
the length of the message in bits. -/
structure Collected (f : Sha1State → Block → Sha1State) (sha1 : I2Sha1Context)
    (before : List Block) (m : List UInt8) : Prop where
  state : sha1.state = (cut 64 m).foldl f (i2Sha1Init .zero).state
  passed : sha1.passed = before ++ cut 64 m
  buffer : ∃ unused, sha1.buffer.1 = leftover 64 m ++ unused
  count : sha1.count1.toNat * 4294967296 + sha1.count0.toNat =
    8 * m.length % 18446744073709551616

variable {f : Sha1State → Block → Sha1State} {sha1 : I2Sha1Context} {before : List Block}
  {m data : List UInt8} {len : UInt32}

theorem collected_init (sha1 : I2Sha1Context) :
    Collected f (i2Sha1Init sha1) sha1.passed [] where
  state := by
    rw [cut_nil]
    rfl
  passed := by
    rw [cut_nil, List.append_nil]
    rfl
  buffer := ⟨sha1.buffer.1, by rw [leftover_of_lt (by simp)]; rfl⟩
  count := by simp [i2Sha1Init]

/-! ### The count of bits -/

/-- The new count, when the high word takes over what it should: the chunk has fewer than
`2 ^ 29` bytes, or there is a carry. -/
theorem countBits_toNat_iff (sha1 : I2Sha1Context) (len : UInt32) :
    (sha1.countBits len).count1.toNat * 4294967296 + (sha1.countBits len).count0.toNat =
        (sha1.count1.toNat * 4294967296 + sha1.count0.toNat + 8 * len.toNat) %
          18446744073709551616 ↔
      len.toNat < 536870912 ∨ 4294967296 ≤ sha1.count0.toNat + 8 * len.toNat % 4294967296 := by
  have hlen := len.toNat_lt
  have h0 := sha1.count0.toNat_lt
  have h1 := sha1.count1.toNat_lt
  have hbits : (len <<< 3).toNat = 8 * len.toNat % 4294967296 := by
    rw [UInt32.toNat_shiftLeft, Nat.shiftLeft_eq]
    have h3 : (3 : UInt32).toNat % 32 = 3 := rfl
    rw [h3]
    omega
  have hhigh : (len >>> 29).toNat = len.toNat / 536870912 := by
    rw [UInt32.toNat_shiftRight, Nat.shiftRight_eq_div_pow]
    rfl
  have hlow := UInt32.toNat_add sha1.count0 (len <<< 3)
  rw [hbits] at hlow
  by_cases hcarry : sha1.count0 + (len <<< 3) < sha1.count0
  · have hlt := UInt32.lt_iff_toNat_lt.mp hcarry
    have hone : (sha1.count1 + ((len >>> 29) + 1)).toNat =
        (sha1.count1.toNat + (len.toNat / 536870912 + 1)) % 4294967296 := by
      rw [UInt32.toNat_add, UInt32.toNat_add, hhigh, Nat.add_mod_mod]
      rfl
    simp only [I2Sha1Context.countBits, hcarry, if_true, hone, hlow] at hlt ⊢
    omega
  · have hge := mt UInt32.lt_iff_toNat_lt.mpr hcarry
    simp only [I2Sha1Context.countBits, hcarry, if_false, hlow] at hge ⊢
    omega

theorem countBits_zero (sha1 : I2Sha1Context) : sha1.countBits 0 = sha1 := by
  simp [I2Sha1Context.countBits]

def I2Sha1Context.index (sha1 : I2Sha1Context) : UInt32 := (sha1.count0 >>> 3) &&& 63

theorem index_toNat (sha1 : I2Sha1Context) : sha1.index.toNat = sha1.count0.toNat / 8 % 64 := by
  have hmask : ∀ n : ℕ, n &&& 63 = n % 64 := fun n => Nat.and_two_pow_sub_one_eq_mod n 6
  rw [I2Sha1Context.index, UInt32.toNat_and, UInt32.toNat_shiftRight, Nat.shiftRight_eq_div_pow]
  exact hmask _

theorem Collected.index (h : Collected f sha1 before m) : sha1.index.toNat = m.length % 64 := by
  have hcount := h.count
  have h0 := sha1.count0.toNat_lt
  rw [index_toNat]
  omega

def I2Sha1Context.held (sha1 : I2Sha1Context) : List UInt8 :=
  sha1.buffer.1.take sha1.index.toNat

theorem held_length (sha1 : I2Sha1Context) : sha1.held.length = sha1.index.toNat := by
  apply List.length_take_of_le
  rw [sha1.buffer.2, index_toNat]
  show _ ≤ 64
  omega

theorem Collected.held (h : Collected f sha1 before m) : sha1.held = leftover 64 m := by
  obtain ⟨unused, hbuffer⟩ := h.buffer
  rw [I2Sha1Context.held, hbuffer, h.index, ← leftover_length (show 0 < 64 by decide) m,
    List.take_left]

/-! ### One chunk -/

theorem I2Sha1Context.copy_eq {j i n : UInt32} {p src q a b c : List UInt8}
    (hdata : data = p ++ (src ++ q)) (hi : p.length = i.toNat) (hn : src.length = n.toNat)
    (hbuffer : sha1.buffer.1 = a ++ (b ++ c)) (hj : a.length = j.toNat)
    (hsrc : b.length = src.length) :
    ∃ buffer : Block, sha1.copy j data i n = some { sha1 with buffer := buffer } ∧
      buffer.1 = a ++ (src ++ c) := by
  obtain ⟨buffer, hwrite, hnew⟩ := Memory.write_eq hbuffer hj hsrc
  refine ⟨buffer, ?_, hnew⟩
  rw [I2Sha1Context.copy, Memory.read_eq hdata hi hn]
  show (Memory.write sha1.buffer j.toNat src).map _ = _
  rw [hwrite]
  rfl

def I2Sha1Context.compress (f : Sha1State → Block → Sha1State) (sha1 : I2Sha1Context)
    (bs : List Block) : I2Sha1Context :=
  { sha1 with state := bs.foldl f sha1.state, passed := sha1.passed ++ bs }

theorem I2Sha1Context.compress_nil : sha1.compress f [] = sha1 := by
  simp [I2Sha1Context.compress]

theorem I2Sha1Context.compress_cons (b : Block) (bs : List Block) :
    (sha1.transform f b).compress f bs = sha1.compress f (b :: bs) := by
  simp [I2Sha1Context.compress, I2Sha1Context.transform]

theorem toNat_add_of_lt {i k : UInt32} (h : i.toNat + k.toNat < 4294967296) :
    (i + k).toNat = i.toNat + k.toNat := by
  rw [UInt32.toNat_add]
  exact Nat.mod_eq_of_lt h

/-- The loop compresses the complete blocks of what is left of the data, and stops in
front of the rest. -/
theorem i2Sha1Append.blocks_eq {p rest : List UInt8} {i : UInt32} {n : ℕ}
    (hdata : data = p ++ rest) (hi : p.length = i.toNat) (hlen : data.length = len.toNat)
    (hfits : data.length - (leftover 64 rest).length + 63 < 4294967296)
    (hn : rest.length < 64 * n) :
    ∃ i' : UInt32, i'.toNat = data.length - (leftover 64 rest).length ∧
      Loop.iterate (i2Sha1Append.blocks f data len) n (i, sha1) =
        some (some (i', sha1.compress f (cut 64 rest))) := by
  induction rest using block_induction (show 0 < 64 by decide) generalizing p i n sha1 with
  | short rest h =>
      obtain ⟨n, rfl⟩ : ∃ k, n = k + 1 := ⟨n - 1, by omega⟩
      have htotal := congrArg List.length hdata
      rw [List.length_append] at htotal
      have hleft : leftover 64 rest = rest := leftover_of_lt h
      rw [hleft] at hfits
      have h63 : (i + 63).toNat = i.toNat + 63 :=
        toNat_add_of_lt (show i.toNat + 63 < 4294967296 by omega)
      have hend : ¬i + 63 < len := by
        rw [UInt32.lt_iff_toNat_lt, h63]
        omega
      refine ⟨i, by rw [hleft]; omega, ?_⟩
      rw [cut_of_lt h, I2Sha1Context.compress_nil]
      apply Loop.iterate_leaves
      rw [i2Sha1Append.blocks, if_neg hend]
  | block b rest ih =>
      have hb := b.2
      rw [List.length_append] at hn
      obtain ⟨n, rfl⟩ : ∃ k, n = k + 1 := ⟨n - 1, by omega⟩
      have htotal := congrArg List.length hdata
      rw [List.length_append, List.length_append] at htotal
      have hshort := leftover_length (show 0 < 64 by decide) rest
      rw [leftover_block (by decide)] at hfits
      have h63 : (i + 63).toNat = i.toNat + 63 :=
        toNat_add_of_lt (show i.toNat + 63 < 4294967296 by omega)
      have h64 : (i + 64).toNat = i.toNat + 64 :=
        toNat_add_of_lt (show i.toNat + 64 < 4294967296 by omega)
      have hgo : i + 63 < len := by
        rw [UInt32.lt_iff_toNat_lt, h63]
        omega
      have hread : Memory.read data i.toNat 64 = some b := Memory.read_eq hdata hi hb
      have hstep :
          i2Sha1Append.blocks f data len (i, sha1) = .inl (i + 64, sha1.transform f b) := by
        rw [i2Sha1Append.blocks, if_pos hgo, hread]
      have hp : (p ++ b.1).length = (i + 64).toNat := by
        rw [List.length_append, h64]
        omega
      obtain ⟨i', hi', hrun⟩ := @ih (sha1.transform f b) (p ++ b.1) (i + 64) n
        (by rw [List.append_assoc]; exact hdata) hp hfits (by omega)
      refine ⟨i', by rw [leftover_block (by decide)]; exact hi', ?_⟩
      rw [Loop.iterate_goes_on hstep, hrun, I2Sha1Context.compress_cons,
        cut_block (by decide)]

theorem copy_part {j : UInt32} {xs unused : List UInt8}
    (hbuffer : sha1.buffer.1 = xs ++ unused) (hj : xs.length = j.toNat)
    (hlen : data.length = len.toNat) (hroom : data.length ≤ unused.length) :
    ∃ (buffer : Block) (rest : List UInt8),
      sha1.copy j data 0 len = some { sha1 with buffer := buffer } ∧
        buffer.1 = xs ++ (data ++ rest) := by
  have hsplit : sha1.buffer.1 = xs ++ (unused.take data.length ++ unused.drop data.length) := by
    rw [List.take_append_drop]
    exact hbuffer
  obtain ⟨buffer, hcopy, hnew⟩ := @I2Sha1Context.copy_eq sha1 data j 0 len [] data [] xs
    (unused.take data.length) (unused.drop data.length) (by simp) rfl hlen hsplit hj
    (List.length_take_of_le hroom)
  exact ⟨buffer, _, hcopy, hnew⟩

/-- A chunk that completes the block in the buffer, which leaves `rest` of it. -/
theorem append_full {j : UInt32} {xs unused first rest : List UInt8}
    (hbuffer : sha1.buffer.1 = xs ++ unused) (hj : xs.length = j.toNat)
    (hfirst : first.length = unused.length) (hdata : data = first ++ rest)
    (hlen : data.length = len.toNat) (hfits : j.toNat + len.toNat < 4294967296) :
    ∃ (b buffer : Block) (tail : List UInt8), b.1 = xs ++ first ∧
      ((sha1.copy j data 0 (64 - j)).bind fun sha1 =>
        (Loop.iterate (i2Sha1Append.blocks f data len) (data.length + 1)
            (64 - j, sha1.transform f sha1.buffer)).join.bind fun p =>
          p.2.copy 0 data p.1 (len - p.1)) =
        some { sha1.compress f (b :: cut 64 rest) with buffer := buffer } ∧
      buffer.1 = leftover 64 rest ++ tail := by
  have hroom : 64 = xs.length + unused.length := by
    rw [← List.length_append, ← hbuffer]
    exact sha1.buffer.2.symm
  have htotal := congrArg List.length hdata
  rw [List.length_append] at htotal
  have hi : (64 - j).toNat = 64 - j.toNat :=
    UInt32.toNat_sub_of_le 64 j (UInt32.le_iff_toNat_le.mpr (show j.toNat ≤ 64 by omega))
  -- the block in the buffer
  obtain ⟨b, hcopy, hb⟩ := @I2Sha1Context.copy_eq sha1 data j 0 (64 - j) [] first rest xs unused []
    (by simpa using hdata) rfl (by omega) (by simpa using hbuffer) hj hfirst.symm
  rw [List.append_nil] at hb
  -- the blocks in the data
  have hshort := leftover_length (show 0 < 64 by decide) rest
  obtain ⟨i', hi', hrun⟩ := @i2Sha1Append.blocks_eq f
    (I2Sha1Context.transform f { sha1 with buffer := b } b) data len first rest (64 - j)
    (data.length + 1) hdata (by omega) hlen (by omega) (by omega)
  -- what is left of it
  have hflat := flatMap_cut (show 0 < 64 by decide) rest
  have hrest := congrArg List.length hflat
  rw [List.length_append] at hrest
  have hsub : (len - i').toNat = (leftover 64 rest).length := by
    have hle : i' ≤ len := UInt32.le_iff_toNat_le.mpr (by omega)
    have hdiff := UInt32.toNat_sub_of_le len i' hle
    omega
  obtain ⟨buffer, hcopy', hnew⟩ := @I2Sha1Context.copy_eq
    ((I2Sha1Context.transform f { sha1 with buffer := b } b).compress f (cut 64 rest)) data 0 i'
    (len - i') (first ++ (cut 64 rest).flatMap List.Vector.toList) (leftover 64 rest) []
    [] (b.1.take (leftover 64 rest).length) (b.1.drop (leftover 64 rest).length)
    (by rw [List.append_nil, List.append_assoc, hflat, hdata])
    (by rw [List.length_append]; omega) hsub.symm
    (List.take_append_drop _ _).symm rfl
    (List.length_take_of_le (by rw [b.2]; show _ ≤ 64; omega))
  refine ⟨b, buffer, _, hb, ?_, hnew⟩
  rw [hcopy]
  show (Loop.iterate _ _ (64 - j, I2Sha1Context.transform f { sha1 with buffer := b } b)).join.bind
    _ = _
  rw [hrun]
  show I2Sha1Context.copy _ 0 data i' (len - i') = _
  rw [hcopy', I2Sha1Context.compress_cons]
  rfl

/-- One call: the blocks that the chunk completes are compressed, and what is behind
them is in the buffer. -/
theorem i2Sha1Append_eq (f : Sha1State → Block → Sha1State) (hlen : data.length = len.toNat)
    (hfits : sha1.index.toNat + len.toNat < 4294967296) :
    ∃ sha1' unused, i2Sha1Append f sha1 data len = some sha1' ∧
      { sha1' with buffer := sha1.buffer } =
        (sha1.countBits len).compress f (cut 64 (sha1.held ++ data)) ∧
      sha1'.buffer.1 = leftover 64 (sha1.held ++ data) ++ unused := by
  have hheld := held_length sha1
  have hj := index_toNat sha1
  by_cases hempty : len ≤ 0
  · have hzero : len.toNat = 0 := Nat.le_zero.mp (UInt32.le_iff_toNat_le.mp hempty)
    obtain rfl : len = 0 := UInt32.toNat_inj.mp hzero
    obtain rfl : data = [] := List.eq_nil_of_length_eq_zero (hlen.trans hzero)
    have hshort : sha1.held.length < 64 := by omega
    refine ⟨sha1, sha1.buffer.1.drop sha1.index.toNat, if_pos hempty, ?_, ?_⟩
    · rw [List.append_nil, cut_of_lt hshort, I2Sha1Context.compress_nil, countBits_zero]
    · rw [List.append_nil, leftover_of_lt hshort]
      exact (List.take_append_drop _ _).symm
  · have hbuffer : sha1.buffer.1 = sha1.held ++ sha1.buffer.1.drop sha1.index.toNat :=
      (List.take_append_drop _ _).symm
    generalize sha1.buffer.1.drop sha1.index.toNat = unused at hbuffer
    have hroom : 64 = sha1.held.length + unused.length := by
      rw [← List.length_append, ← hbuffer]
      exact sha1.buffer.2.symm
    have hsum : (sha1.index + len).toNat = sha1.index.toNat + len.toNat := toNat_add_of_lt hfits
    rw [i2Sha1Append, if_neg hempty, ← I2Sha1Context.index]
    by_cases hfull : 63 < sha1.index + len
    · have hlt : 63 < (sha1.index + len).toNat := UInt32.lt_iff_toNat_lt.mp hfull
      have hfirst : (data.take unused.length).length = unused.length :=
        List.length_take_of_le (by omega)
      obtain ⟨b, buffer, tail, hb, hrun, hnew⟩ := @append_full f (sha1.countBits len) data len
        sha1.index sha1.held unused (data.take unused.length) (data.drop unused.length) hbuffer
        hheld hfirst (List.take_append_drop _ _).symm hlen hfits
      have hdata : sha1.held ++ data = b.1 ++ data.drop unused.length := by
        rw [hb, List.append_assoc, List.take_append_drop]
      refine ⟨_, tail, (if_pos hfull).trans hrun, ?_, ?_⟩
      · rw [hdata, cut_block (by decide)]
        rfl
      · rw [hdata, leftover_block (by decide)]
        exact hnew
    · have hle : ¬63 < (sha1.index + len).toNat := fun h => hfull (UInt32.lt_iff_toNat_lt.mpr h)
      have hshort : (sha1.held ++ data).length < 64 := by
        rw [List.length_append]
        omega
      obtain ⟨buffer, tail, hcopy, hnew⟩ := @copy_part (sha1.countBits len) data len sha1.index
        sha1.held unused hbuffer hheld hlen (by omega)
      refine ⟨_, tail, (if_neg hfull).trans hcopy, ?_, ?_⟩
      · rw [cut_of_lt hshort, I2Sha1Context.compress_nil]
        rfl
      · rw [leftover_of_lt hshort, List.append_assoc]
        exact hnew

/-- The count after `n` bytes takes up a chunk of `len` bytes: the chunk has fewer than
`2 ^ 29` of them, or the low word overflows. -/
def CountsUp (n len : ℕ) : Prop :=
  len < 536870912 ∨ 536870912 ≤ n % 536870912 + len % 536870912

instance (n len : ℕ) : Decidable (CountsUp n len) := inferInstanceAs (Decidable (_ ∨ _))

theorem Collected.count_iff (h : Collected f sha1 before m) (len : UInt32) :
    (sha1.countBits len).count1.toNat * 4294967296 + (sha1.countBits len).count0.toNat =
        8 * (m.length + len.toNat) % 18446744073709551616 ↔ CountsUp m.length len.toNat := by
  have hcount := countBits_toNat_iff sha1 len
  have h0 := sha1.count0.toNat_lt
  have hlen := len.toNat_lt
  have hsum : (8 * m.length % 18446744073709551616 + 8 * len.toNat) % 18446744073709551616 =
      8 * (m.length + len.toNat) % 18446744073709551616 := by omega
  rw [h.count, hsum] at hcount
  rw [hcount, CountsUp]
  have := h.count
  omega

/-- A chunk is collected behind the message, wherever it ends. -/
theorem Collected.append_counted (h : Collected f sha1 before m) (hlen : data.length = len.toNat)
    (hfits : m.length % 64 + len.toNat < 4294967296) (hcounts : CountsUp m.length len.toNat) :
    ∃ sha1', i2Sha1Append f sha1 data len = some sha1' ∧
      Collected f sha1' before (m ++ data) := by
  rw [← h.index] at hfits
  obtain ⟨sha1', unused, hrun, hnew, hbuffer⟩ := i2Sha1Append_eq f hlen hfits
  rw [h.held] at hnew hbuffer
  have hcount := (h.count_iff len).mpr hcounts
  have hcount1 := congrArg I2Sha1Context.count1 hnew
  have hcount0 := congrArg I2Sha1Context.count0 hnew
  have hstate := congrArg I2Sha1Context.state hnew
  have hpassed := congrArg I2Sha1Context.passed hnew
  change sha1'.count1 = (sha1.countBits len).count1 at hcount1
  change sha1'.count0 = (sha1.countBits len).count0 at hcount0
  refine ⟨sha1', hrun, ?_, ?_, ⟨unused, ?_⟩, ?_⟩
  · rw [cut_append (by decide), List.foldl_append, ← h.state]
    exact hstate
  · rw [cut_append (by decide), ← List.append_assoc, ← h.passed]
    exact hpassed
  · rw [leftover_append (by decide), hbuffer]
  · rw [hcount1, hcount0, hcount, List.length_append, hlen]

theorem Collected.append (h : Collected f sha1 before m) (hlen : data.length = len.toNat)
    (hsmall : len.toNat < 536870912) :
    ∃ sha1', i2Sha1Append f sha1 data len = some sha1' ∧
      Collected f sha1' before (m ++ data) :=
  h.append_counted hlen (by omega) (.inl hsmall)

/-! ### The padding -/

/-- The zeros of the padding: the fewest that leave room for 8 bytes in the last
block. -/
def paddingZeros (n : ℕ) : ℕ := (119 - n % 64) % 64

/-- The padded message of FIPS 180-1: a 1 bit, zeros, and the length in bits. -/
def fipsPad (m : List UInt8) : List UInt8 :=
  m ++ 0x80 :: (List.replicate (paddingZeros m.length) 0 ++ bigEndian 8 (8 * m.length))

def sha1Digest (f : Sha1State → Block → Sha1State) (m : List UInt8) : Digest :=
  digestBytes ((cut 64 (fipsPad m)).foldl f (i2Sha1Init .zero).state)

theorem fipsPad_length (m : List UInt8) : (fipsPad m).length % 64 = 0 := by
  simp only [fipsPad, paddingZeros, List.length_append, List.length_cons, List.length_replicate,
    BigEndian.length]
  omega

theorem fipsPad_blocks (m : List UInt8) :
    (cut 64 (fipsPad m)).flatMap List.Vector.toList = fipsPad m := by
  have hflat := flatMap_cut (show 0 < 64 by decide) (fipsPad m)
  have hnone : leftover 64 (fipsPad m) = [] := by
    apply List.eq_nil_of_length_eq_zero
    rw [leftover_length (by decide), fipsPad_length]
  rwa [hnone, List.append_nil] at hflat

theorem finalcount_words (sha1 : I2Sha1Context) :
    finalcount sha1 = bigEndian 8 (sha1.count1.toNat * 4294967296 + sha1.count0.toNat) := by
  have happend := @BigEndian.append 4 4 sha1.count1.toNat sha1.count0.toNat sha1.count0.toNat_lt
  rw [← BigEndian.word_eq, ← BigEndian.word_eq] at happend
  exact happend.symm

theorem finalcount_eq (h : Collected f sha1 before m) (hm : m.length < 2305843009213693952) :
    finalcount sha1 = bigEndian 8 (8 * m.length) := by
  rw [finalcount_words, h.count, Nat.mod_eq_of_lt (by omega)]

theorem and_504 (n : ℕ) : n &&& 504 = 8 * (n / 8 % 64) := by
  have hsmall : ∀ k : Fin 512, k.1 &&& 504 = 8 * (k.1 / 8 % 64) := by decide +kernel
  have hmod : (n &&& 504) % 512 = n % 512 &&& 504 := @Nat.and_mod_two_pow n 504 9
  have hle : n &&& 504 ≤ 504 := Nat.and_le_right
  have hn := hsmall ⟨n % 512, Nat.mod_lt n (by decide)⟩
  simp only at hn
  omega

/-- The bits of the count that the loop tests tell how full the buffer is. -/
theorem Collected.masked (h : Collected f sha1 before m) :
    (sha1.count0 &&& 504).toNat = 8 * (m.length % 64) := by
  have hcount := h.count
  have h0 := sha1.count0.toNat_lt
  rw [UInt32.toNat_and]
  show sha1.count0.toNat &&& 504 = _
  rw [and_504]
  omega

def zerosLeft (n : ℕ) : ℕ := (120 - n % 64) % 64

/-- The loop stops as soon as 8 bytes are left in the block. -/
theorem i2Sha1Finish.pad_eq {n : ℕ} (h : Collected f sha1 before m)
    (hn : zerosLeft m.length < n) :
    ∃ sha1', Loop.iterate (i2Sha1Finish.pad f) n sha1 = some (some sha1') ∧
      Collected f sha1' before (m ++ List.replicate (zerosLeft m.length) 0) := by
  induction n generalizing sha1 m with
  | zero => omega
  | succ n ih =>
      have hmasked := h.masked
      by_cases hstop : sha1.count0 &&& 504 = 448
      · have hfull : 448 = 8 * (m.length % 64) := by
          rw [← hmasked, hstop]
          rfl
        have hzero : zerosLeft m.length = 0 := by
          rw [zerosLeft]
          omega
        refine ⟨sha1, ?_, ?_⟩
        · apply Loop.iterate_leaves
          rw [i2Sha1Finish.pad, if_neg (not_not.mpr hstop)]
        · rwa [hzero, List.replicate_zero, List.append_nil]
      · have hnot : 8 * (m.length % 64) ≠ 448 := fun heq =>
          hstop (UInt32.toNat_inj.mp (hmasked.trans heq))
        have hleft : zerosLeft m.length = zerosLeft (m ++ [0]).length + 1 := by
          rw [zerosLeft, zerosLeft, List.length_append, List.length_singleton]
          omega
        obtain ⟨sha1', happend, hnext⟩ := @Collected.append f sha1 before m [0] 1 h rfl (by decide)
        have hstep : i2Sha1Finish.pad f sha1 = .inl sha1' := by
          rw [i2Sha1Finish.pad, if_pos hstop, happend]
        obtain ⟨sha1'', hrun, hdone⟩ := ih hnext (by omega)
        refine ⟨sha1'', (Loop.iterate_goes_on hstep).trans hrun, ?_⟩
        rw [hleft, List.replicate_succ]
        simpa using hdone

/-- The end of a message: its digest, and the blocks of the padding are passed on. -/
theorem i2Sha1Finish_eq (h : Collected f sha1 before m) (hm : m.length < 2305843009213693952) :
    ∃ sha1', i2Sha1Finish f sha1 = some (sha1Digest f m, sha1') ∧
      sha1'.passed = before ++ cut 64 (fipsPad m) := by
  have hcount := finalcount_eq h hm
  obtain ⟨sha1a, hone, ha⟩ := @Collected.append f sha1 before m [0o200] 1 h rfl (by decide)
  obtain ⟨sha1b, hzeros, hb⟩ := @i2Sha1Finish.pad_eq f sha1a before (m ++ [0o200]) 64 ha
    (by rw [zerosLeft]; omega)
  have hlen : (finalcount sha1).length = (8 : UInt32).toNat := by
    rw [hcount, BigEndian.length]
    rfl
  obtain ⟨sha1c, hlast, hc⟩ := hb.append hlen (by decide)
  have hpad : m ++ [0o200] ++ List.replicate (zerosLeft (m ++ [0o200]).length) 0 ++
      finalcount sha1 = fipsPad m := by
    have hzeros : zerosLeft (m ++ [0o200]).length = paddingZeros m.length := by
      rw [zerosLeft, paddingZeros, List.length_append, List.length_singleton]
      omega
    rw [hzeros, hcount, fipsPad]
    simp
  rw [hpad] at hc
  refine ⟨sha1c.wipe, ?_, hc.passed⟩
  rw [i2Sha1Finish, hone]
  show (Loop.iterate _ _ sha1a).join.bind _ = _
  rw [hzeros]
  show (i2Sha1Append f sha1b (finalcount sha1) 8).map _ = _
  rw [hlast, sha1Digest, ← hc.state]
  rfl

/-! ### Any chunks -/

def i2Sha1AppendAll (f : Sha1State → Block → Sha1State) (sha1 : I2Sha1Context)
    (chunks : List (List UInt8)) : Option I2Sha1Context :=
  chunks.foldlM (fun sha1 chunk => i2Sha1Append f sha1 chunk (UInt32.ofNat chunk.length)) sha1

theorem toNat_ofNat_length {chunk : List UInt8} (h : chunk.length < 536870912) :
    (UInt32.ofNat chunk.length).toNat = chunk.length :=
  UInt32.toNat_ofNat_of_lt' (by simp only [UInt32.size]; omega)

theorem Collected.appendAll {chunks : List (List UInt8)} (h : Collected f sha1 before m)
    (hchunks : ∀ chunk ∈ chunks, chunk.length < 536870912) :
    ∃ sha1', i2Sha1AppendAll f sha1 chunks = some sha1' ∧
      Collected f sha1' before (m ++ chunks.flatten) := by
  induction chunks generalizing sha1 m with
  | nil => exact ⟨sha1, rfl, by simpa using h⟩
  | cons chunk chunks ih =>
      have hchunk := hchunks chunk List.mem_cons_self
      have hlen := toNat_ofNat_length hchunk
      obtain ⟨sha1', happend, hnext⟩ := h.append hlen.symm (by omega)
      obtain ⟨sha1'', hrest, hdone⟩ := ih hnext fun c hc =>
        hchunks c (List.mem_cons_of_mem chunk hc)
      refine ⟨sha1'', ?_, by simpa using hdone⟩
      rw [i2Sha1AppendAll, List.foldlM_cons, happend]
      exact hrest

theorem i2Sha1_eq (hm : m.length < 536870912) :
    i2Sha1 f m (UInt32.ofNat m.length) = some (sha1Digest f m) := by
  have hlen := toNat_ofNat_length hm
  obtain ⟨sha1', happend, hnext⟩ := (@collected_init f .zero).append hlen.symm (by omega)
  obtain ⟨sha1'', hfinish, -⟩ := i2Sha1Finish_eq hnext (by rw [List.nil_append]; omega)
  rw [i2Sha1, happend]
  show (i2Sha1Finish f sha1').map Prod.fst = _
  rw [hfinish]
  rfl

/-- A whole message: `I2Sha1Init`, the chunks, `I2Sha1Finish`. -/
def i2Sha1Message (f : Sha1State → Block → Sha1State) (sha1 : I2Sha1Context)
    (chunks : List (List UInt8)) : Option (Digest × I2Sha1Context) :=
  (i2Sha1AppendAll f (i2Sha1Init sha1) chunks).bind (i2Sha1Finish f)

theorem i2Sha1Message_eq (f : Sha1State → Block → Sha1State) (sha1 : I2Sha1Context)
    {chunks : List (List UInt8)} (hchunks : ∀ chunk ∈ chunks, chunk.length < 536870912)
    (htotal : chunks.flatten.length < 2305843009213693952) :
    ∃ sha1', i2Sha1Message f sha1 chunks = some (sha1Digest f chunks.flatten, sha1') ∧
      sha1'.passed = sha1.passed ++ cut 64 (fipsPad chunks.flatten) := by
  obtain ⟨sha1', happend, hnext⟩ := (@collected_init f sha1).appendAll hchunks
  rw [List.nil_append] at hnext
  obtain ⟨sha1'', hfinish, hpassed⟩ := i2Sha1Finish_eq hnext htotal
  refine ⟨sha1'', ?_, hpassed⟩
  rw [i2Sha1Message, happend]
  exact hfinish

/-- The blocks passed to the compression function are the padding of the message cut
into blocks, so the digest is a function of the message, and `I2Sha1` computes it too.
The loops all end. -/
theorem sha1_blocks (f : Sha1State → Block → Sha1State) (sha1 : I2Sha1Context)
    {chunks : List (List UInt8)} (hchunks : ∀ chunk ∈ chunks, chunk.length < 536870912)
    (htotal : chunks.flatten.length < 2305843009213693952) :
    ∃ blocks sha1', i2Sha1Message f sha1 chunks = some (sha1Digest f chunks.flatten, sha1') ∧
      sha1'.passed = sha1.passed ++ blocks ∧
      blocks.flatMap List.Vector.toList = fipsPad chunks.flatten ∧
      sha1Digest f chunks.flatten = digestBytes (blocks.foldl f (i2Sha1Init .zero).state) ∧
      (chunks.flatten.length < 536870912 →
        i2Sha1 f chunks.flatten (UInt32.ofNat chunks.flatten.length) =
          some (sha1Digest f chunks.flatten)) := by
  obtain ⟨sha1', hrun, hpassed⟩ := i2Sha1Message_eq f sha1 hchunks htotal
  exact ⟨cut 64 (fipsPad chunks.flatten), sha1', hrun, hpassed, fipsPad_blocks _, rfl, i2Sha1_eq⟩

theorem sha1_blocks_abc :
    (i2Sha1Message sha1Transform .zero [[0x61], [], [0x62, 0x63]]).map Prod.fst =
      some (sha1Digest sha1Transform [0x61, 0x62, 0x63]) := by
  obtain ⟨blocks, sha1', hrun, -⟩ := @sha1_blocks sha1Transform .zero
    [[0x61], [], [0x62, 0x63]] (by decide) (by decide)
  rw [hrun]
  rfl

end I2util
