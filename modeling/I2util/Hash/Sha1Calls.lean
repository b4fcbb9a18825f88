import I2util.Hash.Sha1Blocks
import Mathlib.Data.List.Induction

/-!
One `I2Sha1Append` call with any length: the memory it accesses, and the count of bits
that a sequence of calls leaves.

The accesses of a call do not depend on the bytes. They are listed first, and
`i2Sha1Append_replay` says that the call performs them.
-/

namespace I2util

open Blocks

/-- An access of `I2Sha1Append`: `memcpy(&sha1->buffer[j], &data[i], n)`, the compression
of `sha1->buffer`, or that of the block at `&data[i]`. -/
inductive Access
  | copy (j i n : UInt32)
  | flush
  | compress (i : UInt32)
  deriving DecidableEq

namespace Access

def reads : Access → List ℕ
  | .copy _ i n => List.range' i.toNat n.toNat
  | .flush => []
  | .compress i => List.range' i.toNat I2SHA1_BLOCK_SIZE

def writes : Access → List ℕ
  | .copy j _ n => List.range' j.toNat n.toNat
  | .flush => []
  | .compress _ => []

def perform (f : Sha1State → Block → Sha1State) (data : List UInt8) (sha1 : I2Sha1Context) :
    Access → Option I2Sha1Context
  | .copy j i n => sha1.copy j data i n
  | .flush => some (sha1.transform f sha1.buffer)
  | .compress i => (Memory.read data i.toNat I2SHA1_BLOCK_SIZE).map (sha1.transform f)

end Access

/-- The `for` loop, with at most `n` turns: where `i` ends, and the blocks read. -/
def i2Sha1Append.blockAccesses (len : UInt32) : ℕ → UInt32 → Option (UInt32 × List Access)
  | 0, _ => none
  | n + 1, i =>
      if i + 63 < len then
        (i2Sha1Append.blockAccesses len n (i + 64)).map fun p => (p.1, .compress i :: p.2)
      else some (i, [])

def i2Sha1Append.accesses (sha1 : I2Sha1Context) (len : UInt32) : Option (List Access) :=
  if len ≤ 0 then some []
  else
    let j := sha1.index
    if 63 < j + len then
      let i := 64 - j
      (i2Sha1Append.blockAccesses len (len.toNat + 1) i).map fun p =>
        .copy j 0 i :: .flush :: (p.2 ++ [.copy 0 p.1 (len - p.1)])
    else some [.copy j 0 len]

variable {f : Sha1State → Block → Sha1State} {sha1 : I2Sha1Context} {data : List UInt8}
  {len : UInt32}

/-! ### The accesses are those of the call -/

theorem i2Sha1Append.blocks_replay (n : ℕ) (i : UInt32) (sha1 : I2Sha1Context) :
    (Loop.iterate (i2Sha1Append.blocks f data len) n (i, sha1)).join =
      (i2Sha1Append.blockAccesses len n i).bind fun p =>
        (p.2.foldlM (Access.perform f data) sha1).map fun sha1 => (p.1, sha1) := by
  induction n generalizing i sha1 with
  | zero => rfl
  | succ n ih =>
      by_cases hgo : i + 63 < len
      · rw [i2Sha1Append.blockAccesses, if_pos hgo]
        cases hread : Memory.read data i.toNat I2SHA1_BLOCK_SIZE with
        | none =>
            have hstep : i2Sha1Append.blocks f data len (i, sha1) = .inr none := by
              rw [i2Sha1Append.blocks, if_pos hgo, hread]
            rw [Loop.iterate_leaves hstep]
            cases i2Sha1Append.blockAccesses len n (i + 64) with
            | none => rfl
            | some p => simp [Access.perform, hread]
        | some block =>
            have hstep : i2Sha1Append.blocks f data len (i, sha1) =
                .inl (i + 64, sha1.transform f block) := by
              rw [i2Sha1Append.blocks, if_pos hgo, hread]
            rw [Loop.iterate_goes_on hstep, ih]
            cases i2Sha1Append.blockAccesses len n (i + 64) with
            | none => rfl
            | some p => simp [Access.perform, hread]
      · have hstep : i2Sha1Append.blocks f data len (i, sha1) = .inr (some (i, sha1)) := by
          rw [i2Sha1Append.blocks, if_neg hgo]
        rw [i2Sha1Append.blockAccesses, if_neg hgo, Loop.iterate_leaves hstep]
        rfl

/-- The branch of a call that completes a block. -/
theorem i2Sha1Append.full_replay (n : ℕ) (j i : UInt32) (sha1 : I2Sha1Context) :
    ((sha1.copy j data 0 i).bind fun sha1 =>
        (Loop.iterate (i2Sha1Append.blocks f data len) n
            (i, sha1.transform f sha1.buffer)).join.bind fun p =>
          p.2.copy 0 data p.1 (len - p.1)) =
      ((i2Sha1Append.blockAccesses len n i).map fun p =>
          Access.copy j 0 i :: .flush :: (p.2 ++ [.copy 0 p.1 (len - p.1)])).bind fun accesses =>
        accesses.foldlM (Access.perform f data) sha1 := by
  rw [Option.bind_map]
  cases hcopy : sha1.copy j data 0 i with
  | none =>
      cases i2Sha1Append.blockAccesses len n i with
      | none => rfl
      | some p => simp [Access.perform, hcopy]
  | some sha1' =>
      rw [Option.bind_some, i2Sha1Append.blocks_replay]
      cases i2Sha1Append.blockAccesses len n i with
      | none => rfl
      | some p =>
          rw [Option.bind_some, Option.bind_some, Option.bind_map]
          simp [Access.perform, hcopy, List.foldlM_append]

/-- A call updates the count and then performs its accesses. -/
theorem i2Sha1Append_replay (hlen : data.length = len.toNat) :
    i2Sha1Append f sha1 data len =
      (i2Sha1Append.accesses sha1 len).bind fun accesses =>
        accesses.foldlM (Access.perform f data) (sha1.countBits len) := by
  by_cases hempty : len ≤ 0
  · have hzero : len.toNat = 0 := Nat.le_zero.mp (UInt32.le_iff_toNat_le.mp hempty)
    obtain rfl : len = 0 := UInt32.toNat_inj.mp hzero
    rw [i2Sha1Append, i2Sha1Append.accesses, if_pos hempty, if_pos hempty, countBits_zero]
    rfl
  · rw [i2Sha1Append, i2Sha1Append.accesses, if_neg hempty, if_neg hempty, hlen,
      ← I2Sha1Context.index]
    by_cases hfull : 63 < sha1.index + len
    · simp only [hfull, if_true]
      exact i2Sha1Append.full_replay _ _ _ _
    · simp only [hfull, if_false]
      simp [Access.perform]

/-! ### What is accessed -/

/-- The loop reads the complete blocks behind `i`, one after the other. -/
theorem i2Sha1Append.blockAccesses_eq {n : ℕ} {i : UInt32} (hi : i.toNat ≤ len.toNat)
    (hfits : i.toNat + (len.toNat - i.toNat) / 64 * 64 + 63 < 4294967296)
    (hn : (len.toNat - i.toNat) / 64 < n) :
    ∃ i' accesses, i2Sha1Append.blockAccesses len n i = some (i', accesses) ∧
      i'.toNat = i.toNat + (len.toNat - i.toNat) / 64 * 64 ∧
      accesses.flatMap Access.reads = List.range' i.toNat (i'.toNat - i.toNat) ∧
      accesses.flatMap Access.writes = [] := by
  induction n generalizing i with
  | zero => omega
  | succ n ih =>
      have h63 : (i + 63).toNat = i.toNat + 63 :=
        toNat_add_of_lt (show i.toNat + 63 < 4294967296 by omega)
      by_cases hgo : i + 63 < len
      · have hlt : i.toNat + 63 < len.toNat := by
          rw [← h63]
          exact UInt32.lt_iff_toNat_lt.mp hgo
        have h64 : (i + 64).toNat = i.toNat + 64 :=
          toNat_add_of_lt (show i.toNat + 64 < 4294967296 by omega)
        obtain ⟨i', accesses, hrun, hi', hreads, hwrites⟩ := @ih (i + 64)
          (by omega) (by omega) (by omega)
        refine ⟨i', .compress i :: accesses, ?_, by omega, ?_, ?_⟩
        · rw [i2Sha1Append.blockAccesses, if_pos hgo, hrun]
          rfl
        · have hsplit : i'.toNat - i.toNat = 64 + (i'.toNat - (i + 64).toNat) := by omega
          rw [List.flatMap_cons, hreads, hsplit, h64]
          exact List.range'_append_1
        · rw [List.flatMap_cons, hwrites]
          rfl
      · have hge : ¬i.toNat + 63 < len.toNat := by
          rw [← h63]
          exact mt UInt32.lt_iff_toNat_lt.mpr hgo
        refine ⟨i, [], ?_, by omega, ?_, rfl⟩
        · rw [i2Sha1Append.blockAccesses, if_neg hgo]
        · rw [Nat.sub_self]
          rfl

/-- A call whose end does not overflow reads the data once, from its beginning to its end,
and stays in the buffer. -/
theorem i2Sha1Append.accesses_eq (hfits : sha1.index.toNat + len.toNat < 4294967296) :
    ∃ accesses, i2Sha1Append.accesses sha1 len = some accesses ∧
      accesses.flatMap Access.reads = List.range len.toNat ∧
      ∀ k ∈ accesses.flatMap Access.writes, k < I2SHA1_BLOCK_SIZE := by
  have hj := index_toNat sha1
  by_cases hempty : len ≤ 0
  · have hzero : len.toNat = 0 := Nat.le_zero.mp (UInt32.le_iff_toNat_le.mp hempty)
    refine ⟨[], if_pos hempty, ?_, by simp⟩
    rw [hzero]
    rfl
  · rw [i2Sha1Append.accesses, if_neg hempty]
    have hsum : (sha1.index + len).toNat = sha1.index.toNat + len.toNat := toNat_add_of_lt hfits
    generalize sha1.index = j at hfits hj hsum
    by_cases hfull : 63 < j + len
    · have hlt : 63 < (j + len).toNat := UInt32.lt_iff_toNat_lt.mp hfull
      have hi : (64 - j).toNat = 64 - j.toNat :=
        UInt32.toNat_sub_of_le 64 j (UInt32.le_iff_toNat_le.mpr (show j.toNat ≤ 64 by omega))
      obtain ⟨i', accesses, hrun, hi', hreads, hwrites⟩ := @i2Sha1Append.blockAccesses_eq len
        (len.toNat + 1) (64 - j) (by omega) (by omega) (by omega)
      have hrest : (len - i').toNat = len.toNat - i'.toNat :=
        UInt32.toNat_sub_of_le len i' (UInt32.le_iff_toNat_le.mpr (by omega))
      refine ⟨.copy j 0 (64 - j) :: .flush :: (accesses ++ [.copy 0 i' (len - i')]), ?_, ?_, ?_⟩
      · simp only [hfull, if_true, hrun, Option.map_some]
      · have hfirst : List.range' 0 (64 - j).toNat ++
            List.range' (64 - j).toNat (i'.toNat - (64 - j).toNat) = List.range' 0 i'.toNat := by
          have h := @List.range'_append_1 0 (64 - j).toNat (i'.toNat - (64 - j).toNat)
          rwa [Nat.zero_add, Nat.add_sub_cancel' (by omega)] at h
        have hlast : List.range' 0 i'.toNat ++ List.range' i'.toNat (len - i').toNat =
            List.range' 0 len.toNat := by
          have h := @List.range'_append_1 0 i'.toNat (len - i').toNat
          rwa [Nat.zero_add, show i'.toNat + (len - i').toNat = len.toNat by omega] at h
        rw [List.range_eq_range', ← hlast, ← hfirst, ← hreads]
        simp [Access.reads]
      · intro k hk
        simp only [List.flatMap_cons, List.flatMap_append, hwrites, Access.writes,
          List.flatMap_nil, List.append_nil, List.nil_append, List.mem_append,
          List.mem_range'_1] at hk
        have h0 : (0 : UInt32).toNat = 0 := rfl
        show k < 64
        omega
    · have hle : ¬63 < (j + len).toNat := fun h => hfull (UInt32.lt_iff_toNat_lt.mpr h)
      refine ⟨_, if_neg hfull, ?_, ?_⟩
      · rw [List.range_eq_range']
        simp [Access.reads]
      · intro k hk
        simp only [List.flatMap_cons, List.flatMap_nil, Access.writes, List.append_nil,
          List.mem_range'_1] at hk
        show k < 64
        omega

/-- A call whose end overflows is taken for one that does not complete the block: it
copies all of the data to the buffer. -/
theorem i2Sha1Append.accesses_overflow
    (hover : ¬sha1.index.toNat + len.toNat < 4294967296) :
    i2Sha1Append.accesses sha1 len = some [.copy sha1.index 0 len] := by
  have hj := index_toNat sha1
  have hlen := len.toNat_lt
  have hempty : ¬len ≤ 0 := by
    intro h
    have hzero : len.toNat = 0 := Nat.le_zero.mp (UInt32.le_iff_toNat_le.mp h)
    omega
  have hnot : ¬63 < sha1.index + len := by
    rw [UInt32.lt_iff_toNat_lt, UInt32.toNat_add]
    show ¬63 < _ % 4294967296
    omega
  rw [i2Sha1Append.accesses, if_neg hempty]
  exact if_neg hnot

/-- What one call has to do: it ends; it reads the data once and in order and nothing
else; it writes inside the buffer; the bytes that were in the buffer and the data are in
the blocks compressed and, less than a block of them, in the buffer. -/
def AppendsOnce (f : Sha1State → Block → Sha1State) (sha1 : I2Sha1Context) (data : List UInt8)
    (len : UInt32) : Prop :=
  ∃ accesses sha1' bs, i2Sha1Append.accesses sha1 len = some accesses ∧
    accesses.flatMap Access.reads = List.range len.toNat ∧
    (∀ k ∈ accesses.flatMap Access.writes, k < I2SHA1_BLOCK_SIZE) ∧
    accesses.foldlM (Access.perform f data) (sha1.countBits len) = some sha1' ∧
    i2Sha1Append f sha1 data len = some sha1' ∧
    sha1'.index.toNat = (sha1.index.toNat + len.toNat) % 64 ∧
    sha1'.passed = sha1.passed ++ bs ∧
    sha1.held ++ data = bs.flatMap List.Vector.toList ++ sha1'.held

/-- A call does so exactly when the index behind the data is a 32 bit number. -/
theorem appendsOnce_iff (f : Sha1State → Block → Sha1State) (sha1 : I2Sha1Context)
    (hlen : data.length = len.toNat) :
    AppendsOnce f sha1 data len ↔ sha1.index.toNat + len.toNat < 4294967296 := by
  constructor
  · rintro ⟨accesses, -, -, haccesses, -, hwrites, -⟩
    by_contra hover
    have hj := index_toNat sha1
    rw [i2Sha1Append.accesses_overflow hover] at haccesses
    obtain rfl := Option.some.inj haccesses
    have hout := hwrites 64 (by
      simp only [List.flatMap_cons, List.flatMap_nil, Access.writes, List.append_nil,
        List.mem_range'_1]
      omega)
    exact absurd hout (by decide)
  · intro hfits
    obtain ⟨accesses, haccesses, hreads, hwrites⟩ := i2Sha1Append.accesses_eq hfits
    obtain ⟨sha1', unused, hrun, hnew, hbuffer⟩ := i2Sha1Append_eq f hlen hfits
    have hreplay := @i2Sha1Append_replay f sha1 data len hlen
    rw [haccesses] at hreplay
    have hcount0 : sha1'.count0 = sha1.count0 + (len <<< 3) := congrArg I2Sha1Context.count0 hnew
    have hindex : sha1'.index.toNat = (sha1.index.toNat + len.toNat) % 64 := by
      rw [index_toNat, index_toNat, hcount0, UInt32.toNat_add, UInt32.toNat_shiftLeft,
        Nat.shiftLeft_eq]
      show (_ + len.toNat * 8 % 4294967296) % 4294967296 / 8 % 64 = _
      omega
    have hheld : sha1'.held = leftover 64 (sha1.held ++ data) := by
      have hleft := leftover_length (show 0 < 64 by decide) (sha1.held ++ data)
      rw [List.length_append, held_length, hlen, ← hindex] at hleft
      rw [I2Sha1Context.held, hbuffer, ← hleft, List.take_left]
    refine ⟨accesses, sha1', cut 64 (sha1.held ++ data), haccesses, hreads, hwrites,
      hreplay.symm.trans hrun, hrun, hindex, congrArg I2Sha1Context.passed hnew, ?_⟩
    rw [hheld, flatMap_cut (by decide)]

theorem appendsOnce_carry :
    AppendsOnce sha1Transform { I2Sha1Context.zero with count0 := 504 }
      (List.replicate 9 0) 9 :=
  (appendsOnce_iff _ _ (by decide)).mpr (by decide)

/-- With 63 bytes in the buffer, a chunk of the greatest length is copied to the bytes
behind it. -/
theorem not_appendsOnce_overflow :
    ¬AppendsOnce sha1Transform { I2Sha1Context.zero with count0 := 504 }
      (List.replicate 4294967295 0) 4294967295 := by
  rintro ⟨accesses, -, -, haccesses, -, hwrites, -⟩
  have hcopy : i2Sha1Append.accesses { I2Sha1Context.zero with count0 := 504 } 4294967295 =
      some [.copy 63 0 4294967295] := i2Sha1Append.accesses_overflow (by decide)
  obtain rfl := Option.some.inj (hcopy.symm.trans haccesses)
  have hout : (64 : ℕ) < I2SHA1_BLOCK_SIZE := by
    apply hwrites
    simp only [List.flatMap_cons, List.flatMap_nil, Access.writes, List.append_nil,
      List.mem_range'_1]
    decide
  exact absurd hout (by decide)

theorem i2Sha1Append_overflow (hlen : data.length = len.toNat)
    (hover : ¬sha1.index.toNat + len.toNat < 4294967296) : i2Sha1Append f sha1 data len = none := by
  have hj := index_toNat sha1
  rw [i2Sha1Append_replay hlen, i2Sha1Append.accesses_overflow hover]
  show ((sha1.countBits len).copy sha1.index data 0 len).bind _ = none
  rw [I2Sha1Context.copy, Memory.read, dif_pos (by rw [hlen]; show 0 + _ ≤ _; omega)]
  show ((Memory.write _ _ ((data.drop 0).take len.toNat)).map _).bind _ = none
  rw [Memory.write, dif_neg]
  · rfl
  · rw [List.length_take, List.length_drop]
    show ¬_ ≤ 64
    omega

/-- A call that ends leaves the count as it was set at its beginning. -/
theorem i2Sha1Append_count {sha1' : I2Sha1Context} (hlen : data.length = len.toNat)
    (hrun : i2Sha1Append f sha1 data len = some sha1') :
    sha1.index.toNat + len.toNat < 4294967296 ∧ sha1'.count1 = (sha1.countBits len).count1 ∧
      sha1'.count0 = (sha1.countBits len).count0 := by
  have hfits : sha1.index.toNat + len.toNat < 4294967296 := by
    by_contra hover
    rw [i2Sha1Append_overflow hlen hover] at hrun
    cases hrun
  obtain ⟨sha1'', unused, hrun', hnew, -⟩ := i2Sha1Append_eq f hlen hfits
  obtain rfl := Option.some.inj (hrun'.symm.trans hrun)
  have hcount1 := congrArg I2Sha1Context.count1 hnew
  have hcount0 := congrArg I2Sha1Context.count0 hnew
  exact ⟨hfits, hcount1, hcount0⟩

/-! ### The count over many calls -/

/-- After `I2Sha1Init` every call ends, and leaves the length of the message so far as the
count of bits, and as the length that `I2Sha1Finish` writes. -/
def CountsAll (f : Sha1State → Block → Sha1State) (sha1 : I2Sha1Context)
    (chunks : List (List UInt8)) : Prop :=
  ∀ done rest, chunks = done ++ rest →
    ∃ sha1', i2Sha1AppendAll f (i2Sha1Init sha1) done = some sha1' ∧
      sha1'.count1.toNat * 4294967296 + sha1'.count0.toNat =
        8 * done.flatten.length % 18446744073709551616 ∧
      finalcount sha1' = bigEndian 8 (8 * done.flatten.length)

/-- A call after `n` bytes stays in the buffer, and the count takes it up. -/
def CallCounts (n len : ℕ) : Prop := n % 64 + len < 4294967296 ∧ CountsUp n len

def CallsCount (chunks : List (List UInt8)) : Prop :=
  ∀ done chunk rest, chunks = done ++ chunk :: rest →
    CallCounts done.flatten.length chunk.length

/-- So do those for the first chunks. -/
theorem CallsCount.of_append {done rest : List (List UInt8)} (h : CallsCount (done ++ rest)) :
    CallsCount done := by
  intro pre chunk post heq
  apply h pre chunk (post ++ rest)
  rw [heq, List.append_assoc, List.cons_append]

theorem CallsCount.concat {chunks : List (List UInt8)} {chunk : List UInt8}
    (h : CallsCount chunks) (hcall : CallCounts chunks.flatten.length chunk.length) :
    CallsCount (chunks ++ [chunk]) := by
  intro done c rest heq
  cases rest using List.reverseRecOn with
  | nil =>
      obtain ⟨rfl, hc⟩ := List.append_inj' heq rfl
      obtain rfl := List.singleton_inj.mp hc
      exact hcall
  | append_singleton rest c' =>
      rw [← List.cons_append, ← List.append_assoc] at heq
      exact h done c rest (List.append_inj' heq rfl).1

theorem i2Sha1AppendAll_concat (f : Sha1State → Block → Sha1State) (sha1 : I2Sha1Context)
    (chunks : List (List UInt8)) (chunk : List UInt8) :
    i2Sha1AppendAll f sha1 (chunks ++ [chunk]) =
      (i2Sha1AppendAll f sha1 chunks).bind fun sha1 =>
        i2Sha1Append f sha1 chunk (UInt32.ofNat chunk.length) := by
  rw [i2Sha1AppendAll, List.foldlM_append]
  simp only [List.foldlM_cons, List.foldlM_nil, bind_pure]
  rfl

/-- As long as every call counts, the message is collected. -/
theorem Collected.appendAll_counted {sha1 : I2Sha1Context} {chunks : List (List UInt8)}
    (hlens : ∀ chunk ∈ chunks, chunk.length < 4294967296) (hcalls : CallsCount chunks) :
    ∃ sha1', i2Sha1AppendAll f (i2Sha1Init sha1) chunks = some sha1' ∧
      Collected f sha1' sha1.passed chunks.flatten := by
  induction chunks using List.reverseRecOn with
  | nil => exact ⟨i2Sha1Init sha1, rfl, collected_init sha1⟩
  | append_singleton chunks chunk ih =>
      obtain ⟨sha1', hrun, hcollected⟩ := ih
        (fun c hc => hlens c (List.mem_append_left _ hc)) hcalls.of_append
      have hlen : (UInt32.ofNat chunk.length).toNat = chunk.length :=
        UInt32.toNat_ofNat_of_lt' (hlens chunk (by simp))
      -- the last of the calls counts as well
      obtain ⟨hfits, hcounts⟩ := hcalls chunks chunk [] rfl
      obtain ⟨sha1'', happend, hnext⟩ := hcollected.append_counted hlen.symm
        (by rwa [hlen]) (by rwa [hlen])
      refine ⟨sha1'', ?_, ?_⟩
      · rw [i2Sha1AppendAll_concat, hrun]
        exact happend
      · rwa [List.flatten_concat]

theorem CountsAll.init {sha1 : I2Sha1Context} {chunks : List (List UInt8)} {chunk : List UInt8}
    (h : CountsAll f sha1 (chunks ++ [chunk])) : CountsAll f sha1 chunks := by
  intro done rest heq
  exact h done (rest ++ [chunk]) (by rw [heq, List.append_assoc])

/-- After calls that count, a call with the right count counts. -/
theorem CountsAll.last {sha1 : I2Sha1Context} {chunks : List (List UInt8)} {chunk : List UInt8}
    (h : CountsAll f sha1 (chunks ++ [chunk]))
    (hlens : ∀ c ∈ chunks ++ [chunk], c.length < 4294967296) (hcalls : CallsCount chunks) :
    CallCounts chunks.flatten.length chunk.length := by
  -- the state before the last call
  obtain ⟨sha1', hrun, hcollected⟩ := @Collected.appendAll_counted f sha1 chunks
    (fun c hc => hlens c (List.mem_append_left _ hc)) hcalls
  obtain ⟨sha1'', hlast, hcount, -⟩ := h (chunks ++ [chunk]) [] (by simp)
  rw [i2Sha1AppendAll_concat, hrun, Option.bind_some] at hlast
  have hlen : (UInt32.ofNat chunk.length).toNat = chunk.length :=
    UInt32.toNat_ofNat_of_lt' (hlens chunk (by simp))
  obtain ⟨hfits, hcount1, hcount0⟩ := i2Sha1Append_count hlen.symm hlast
  have hcounts := hcollected.count_iff (UInt32.ofNat chunk.length)
  rw [hcollected.index, hlen] at hfits
  rw [hlen, ← hcount1, ← hcount0] at hcounts
  rw [List.flatten_concat, List.length_append] at hcount
  exact ⟨hfits, hcounts.mp hcount⟩

/-- The count is right after every call exactly when every call counts. -/
theorem countsAll_iff (f : Sha1State → Block → Sha1State) (sha1 : I2Sha1Context)
    {chunks : List (List UInt8)} (hlens : ∀ chunk ∈ chunks, chunk.length < 4294967296) :
    CountsAll f sha1 chunks ↔ CallsCount chunks := by
  constructor
  · intro hall
    induction chunks using List.reverseRecOn with
    | nil =>
        intro done chunk rest heq
        exact absurd heq (by simp)
    | append_singleton chunks chunk ih =>
        have hinit : CallsCount chunks :=
          ih (fun c hc => hlens c (List.mem_append_left _ hc)) hall.init
        exact hinit.concat (hall.last hlens hinit)
  · intro hcalls done rest heq
    subst heq
    obtain ⟨sha1', hrun, hcollected⟩ := @Collected.appendAll_counted f sha1 done
      (fun c hc => hlens c (List.mem_append_left _ hc)) hcalls.of_append
    refine ⟨sha1', hrun, hcollected.count, ?_⟩
    rw [finalcount_words, hcollected.count]
    exact BigEndian.mod 8 _

theorem countsAll_halves :
    CountsAll sha1Transform .zero [List.replicate 268435456 0, List.replicate 268435456 0] := by
  apply (countsAll_iff sha1Transform .zero _).mpr
  · intro done chunk rest heq
    have hmem : chunk ∈ [List.replicate 268435456 (0 : UInt8), List.replicate 268435456 0] := by
      rw [heq]
      simp
    have hlen : chunk.length = 268435456 := by
      rw [List.mem_pair, or_self] at hmem
      rw [hmem, List.length_replicate]
    exact ⟨by omega, .inl (by omega)⟩
  · intro chunk hmem
    rw [List.mem_pair, or_self] at hmem
    rw [hmem, List.length_replicate]
    decide

/-- The bits of one chunk of `2 ^ 29` bytes are lost. -/
theorem not_countsAll_long :
    ¬CountsAll sha1Transform .zero [List.replicate 536870912 0] := by
  intro hall
  obtain ⟨sha1', hrun, hcount, -⟩ := hall [List.replicate 536870912 0] [] rfl
  have hstart : i2Sha1AppendAll sha1Transform (i2Sha1Init .zero) [] = some (i2Sha1Init .zero) := rfl
  have hone := i2Sha1AppendAll_concat sha1Transform (i2Sha1Init .zero) []
    (List.replicate 536870912 0)
  rw [List.nil_append, hstart, Option.bind_some, hrun, List.length_replicate] at hone
  have hlen : (List.replicate 536870912 (0 : UInt8)).length =
      (UInt32.ofNat 536870912).toNat := by
    rw [List.length_replicate]
    rfl
  obtain ⟨-, hcount1, hcount0⟩ := i2Sha1Append_count hlen hone.symm
  have hzero1 : sha1'.count1 = 0 := hcount1.trans (by decide)
  have hzero0 : sha1'.count0 = 0 := hcount0.trans (by decide)
  rw [hzero1, hzero0, List.flatten_singleton, List.length_replicate] at hcount
  exact absurd hcount (by decide)

end I2util
