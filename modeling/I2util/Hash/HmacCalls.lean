import I2util.Hash.HmacSha1
import I2util.Hash.Sha1Calls

/-!
The one call of `I2HMACSha1` beside the calls for a text in chunks.

A key of any length has a key block, also one whose bits are more than the count of
`I2Sha1Append` takes up. Both sides have the same block, whatever it is.
-/

namespace I2util

variable {f : Sha1State → Block → Sha1State} {hmac : I2HMACSha1Context} {before : List Block}
  {K : Block} {key text data : List UInt8} {len : UInt32}

/-! ### SHA-1 has a result

The calls that close a message end for every count, so also where the count is not the
length of the message. -/

theorem masked_eq (sha1 : I2Sha1Context) :
    (sha1.count0 &&& 504).toNat = 8 * sha1.index.toNat := by
  rw [UInt32.toNat_and, index_toNat]
  exact and_504 _

/-- A call ends where its data fit, and the buffer is fuller by them. -/
theorem i2Sha1Append_ends (f : Sha1State → Block → Sha1State) (sha1 : I2Sha1Context)
    (hlen : data.length = len.toNat) (hfits : sha1.index.toNat + len.toNat < 4294967296) :
    ∃ sha1', i2Sha1Append f sha1 data len = some sha1' ∧
      sha1'.index.toNat = (sha1.index.toNat + len.toNat) % 64 := by
  obtain ⟨sha1', unused, hrun, -, -⟩ := i2Sha1Append_eq f hlen hfits
  obtain ⟨-, -, hcount0⟩ := i2Sha1Append_count hlen hrun
  refine ⟨sha1', hrun, ?_⟩
  have hbits : (len <<< 3).toNat = 8 * len.toNat % 4294967296 := by
    rw [UInt32.toNat_shiftLeft, Nat.shiftLeft_eq]
    have h3 : (3 : UInt32).toNat % 32 = 3 := rfl
    rw [h3]
    omega
  have hsum : sha1'.count0.toNat = (sha1.count0.toNat + 8 * len.toNat % 4294967296) %
      4294967296 := by
    rw [hcount0, ← hbits]
    exact UInt32.toNat_add _ _
  rw [index_toNat, index_toNat, hsum]
  omega

/-- The loop that appends zeros leaves, from every context. -/
theorem i2Sha1Finish.pad_ends {n : ℕ} (f : Sha1State → Block → Sha1State) (sha1 : I2Sha1Context)
    (hn : zerosLeft sha1.index.toNat < n) :
    ∃ sha1', Loop.iterate (i2Sha1Finish.pad f) n sha1 = some (some sha1') := by
  induction n generalizing sha1 with
  | zero => omega
  | succ n ih =>
      have hmasked := masked_eq sha1
      by_cases hstop : sha1.count0 &&& 504 = 448
      · refine ⟨sha1, ?_⟩
        apply Loop.iterate_leaves
        rw [i2Sha1Finish.pad, if_neg (not_not.mpr hstop)]
      · have hnot : 8 * sha1.index.toNat ≠ 448 := fun heq =>
          hstop (UInt32.toNat_inj.mp (hmasked.trans heq))
        have hindex := index_toNat sha1
        obtain ⟨sha1', happend, hnext⟩ := @i2Sha1Append_ends [0] 1 f sha1 rfl
          (by show _ + 1 < _; omega)
        change sha1'.index.toNat = (sha1.index.toNat + 1) % 64 at hnext
        have hless : zerosLeft sha1'.index.toNat < n := by
          rw [zerosLeft] at hn ⊢
          omega
        have hstep : i2Sha1Finish.pad f sha1 = .inl sha1' := by
          rw [i2Sha1Finish.pad, if_pos hstop, happend]
        obtain ⟨sha1'', hrun⟩ := ih sha1' hless
        exact ⟨sha1'', (Loop.iterate_goes_on hstep).trans hrun⟩

theorem i2Sha1Finish_ends (f : Sha1State → Block → Sha1State) (sha1 : I2Sha1Context) :
    ∃ digest sha1', i2Sha1Finish f sha1 = some (digest, sha1') := by
  have hindex : ∀ sha1 : I2Sha1Context, sha1.index.toNat < 64 := fun sha1 => by
    rw [index_toNat]
    omega
  obtain ⟨sha1a, hone, -⟩ := @i2Sha1Append_ends [0o200] 1 f sha1 rfl
    (by have := hindex sha1; show _ + 1 < _; omega)
  obtain ⟨sha1b, hzeros⟩ := @i2Sha1Finish.pad_ends 64 f sha1a (by rw [zerosLeft]; omega)
  obtain ⟨sha1c, hlast, -⟩ := @i2Sha1Append_ends (finalcount sha1) 8 f sha1b
    (by rw [finalcount, List.length_map, List.length_range]; rfl)
    (by have := hindex sha1b; show _ + 8 < _; omega)
  refine ⟨digestBytes sha1c.state, sha1c.wipe, ?_⟩
  rw [i2Sha1Finish, hone]
  show (Loop.iterate _ _ sha1a).join.bind _ = _
  rw [hzeros]
  show (i2Sha1Append f sha1b (finalcount sha1) 8).map _ = _
  rw [hlast]
  rfl

theorem i2Sha1_ends (f : Sha1State → Block → Sha1State) (hlen : data.length = len.toNat) :
    ∃ digest, i2Sha1 f data len = some digest := by
  obtain ⟨sha1, happend, -⟩ := i2Sha1Append_ends f (i2Sha1Init .zero) hlen
    (by
      have hzero : (i2Sha1Init .zero).index.toNat = 0 := rfl
      have hlt := len.toNat_lt
      omega)
  obtain ⟨digest, sha1', hfinish⟩ := i2Sha1Finish_ends f sha1
  refine ⟨digest, ?_⟩
  rw [i2Sha1, happend, Option.bind_some, hfinish]
  rfl

/-! ### The two ways -/

theorem i2HMACSha1Init.key_ends (f : Sha1State → Block → Sha1State)
    (hkey : key.length < 4294967296) :
    ∃ K : Block, i2HMACSha1Init.key f key (UInt32.ofNat key.length) = some K := by
  have hlen : (UInt32.ofNat key.length).toNat = key.length := UInt32.toNat_ofNat_of_lt' hkey
  by_cases hlong : 64 < UInt32.ofNat key.length
  · obtain ⟨digest, hdigest⟩ := i2Sha1_ends f hlen.symm
    obtain ⟨K, hrun, -⟩ := i2HMACSha1Init.key_long hlong hdigest
    exact ⟨K, hrun⟩
  · obtain ⟨K, hrun, -⟩ := i2HMACSha1Init.key_short (f := f) hlen hlong
    exact ⟨K, hrun⟩

/-- The digest of a context is told by its key block and its text. -/
theorem Keyed.finish (h : Keyed f hmac before K text) (htext : text.length < 268435456) :
    ∃ digest, (∃ hmac', i2HMACSha1Finish f hmac = some (digest, hmac')) ∧
      ∀ hmac' before', Keyed f hmac' before' K text →
        ∃ hmac'', i2HMACSha1Finish f hmac' = some (digest, hmac'') := by
  obtain ⟨digest, hmac', hfinish, hdigest⟩ := i2HMACSha1Finish_eq h (by omega)
  refine ⟨digest, ⟨hmac', hfinish⟩, fun other before' hother => ?_⟩
  obtain ⟨digest', hmac'', hfinish', hdigest'⟩ := i2HMACSha1Finish_eq hother (by omega)
  obtain rfl := Option.some.inj (hdigest'.symm.trans hdigest)
  exact ⟨hmac'', hfinish'⟩

/-- The text goes to `I2HMACSha1Append` at once, so an empty one fails its assertion. -/
theorem i2HMACSha1_nil (f : Sha1State → Block → Sha1State) (key : List UInt8) (keylen : UInt32) :
    i2HMACSha1 f key keylen [] 0 = none := by
  rw [i2HMACSha1]
  cases i2HMACSha1Init f .zero key keylen with
  | none => rfl
  | some hmac => rfl

/-- The one call and the calls for the chunks have the same digest, unless the text is
empty: then the chunks have one, and the one call does not return. -/
theorem i2HMACSha1_eq_message (f : Sha1State → Block → Sha1State) (hmac : I2HMACSha1Context)
    (key : List UInt8) (hkey : key.length < 4294967296) (text : List UInt8)
    (htext : text.length < 268435456) (chunks : List (List UInt8))
    (hchunks : ∀ chunk ∈ chunks, chunk ≠ []) (hflat : chunks.flatten = text) :
    ∃ digest hmac', i2HMACSha1Message f hmac key chunks = some (digest, hmac') ∧
      (i2HMACSha1 f key (UInt32.ofNat key.length) text (UInt32.ofNat text.length) = some digest ↔
        text ≠ []) := by
  subst hflat
  obtain ⟨K, hK⟩ := i2HMACSha1Init.key_ends f hkey
  obtain ⟨hmac₁, hinit, h₁⟩ := i2HMACSha1Init_eq hmac hK
  obtain ⟨hmac₂, happend, h₂⟩ := @Keyed.appendAll f _ _ _ _ chunks h₁ fun chunk hc =>
    ⟨hchunks chunk hc, by have := length_le_flatten hc; omega⟩
  rw [List.nil_append] at h₂
  obtain ⟨digest, ⟨hmac₃, hfinish⟩, hsame⟩ := h₂.finish htext
  refine ⟨digest, hmac₃, ?_, ?_⟩
  · rw [i2HMACSha1Message, hinit, Option.bind_some, happend]
    exact hfinish
  · constructor
    · intro hrun hnil
      rw [hnil] at hrun
      rw [show UInt32.ofNat ([] : List UInt8).length = 0 from rfl, i2HMACSha1_nil] at hrun
      cases hrun
    · intro hne
      -- the same text in one chunk, in the context on the stack
      obtain ⟨hmac₄, hinit', h₄⟩ := i2HMACSha1Init_eq .zero hK
      obtain ⟨hmac₅, happend', h₅⟩ := h₄.append hne (by omega)
      rw [List.nil_append] at h₅
      obtain ⟨hmac₆, hfinish'⟩ := hsame hmac₅ _ h₅
      rw [i2HMACSha1, hinit', Option.bind_some, happend', Option.bind_some, hfinish']
      rfl

theorem i2HMACSha1_eq_message_two :
    ∃ digest hmac', i2HMACSha1Message sha1Transform .zero [0x0b] [[0x48], [0x69]] =
        some (digest, hmac') ∧
      (i2HMACSha1 sha1Transform [0x0b] 1 [0x48, 0x69] 2 = some digest ↔
        ([0x48, 0x69] : List UInt8) ≠ []) :=
  i2HMACSha1_eq_message sha1Transform .zero [0x0b] (by decide) [0x48, 0x69] (by decide)
    [[0x48], [0x69]] (by decide) rfl

theorem i2HMACSha1_empty_text :
    i2HMACSha1 sha1Transform [] 0 [] 0 = none ∧
      (i2HMACSha1Message sha1Transform .zero [] []).map (fun r => r.1.toList) =
        some [0xfb, 0xdb, 0x1d, 0x1b, 0x18, 0xaa, 0x6c, 0x08, 0x32, 0x4b, 0x7d, 0x64, 0xb7, 0x1f,
          0xb7, 0x63, 0x70, 0x69, 0x0e, 0x1d] := by
  refine ⟨rfl, ?_⟩
  decide +kernel

end I2util
