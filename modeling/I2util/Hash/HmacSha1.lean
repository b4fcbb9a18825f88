import I2util.Hash.Sha1Blocks

/-!
`hmac-sha1.c`: the keyed hash over the incremental SHA-1.

The pointers to the context, to its SHA-1 context and to the texts are not `NULL`. A
failed assertion has no result.
-/

namespace I2util

/-- The context. The outer pad is computed with the key, and is used by
`I2HMACSha1Finish`. -/
structure I2HMACSha1Context where
  sha1 : I2Sha1Context
  opad : Block

variable (sha1_transform : Sha1State → Block → Sha1State)

/-- The block `key`: the key, or the digest of a key that is longer than a block. -/
def i2HMACSha1Init.key (inkey : List UInt8) (len : UInt32) : Option Block :=
  let key : Block := List.Vector.replicate I2SHA1_BLOCK_SIZE 0
  if 64 < len then
    (i2Sha1 sha1_transform inkey len).bind fun digest => Memory.write key 0 digest.toList
  else
    (Memory.read inkey 0 len.toNat).bind fun src => Memory.write key 0 src.toList

def xorKey (pad : UInt8) (key : Block) : Block :=
  List.Vector.map₂ (· ^^^ ·) (List.Vector.replicate I2SHA1_BLOCK_SIZE pad) key

def i2HMACSha1Init (hmac : I2HMACSha1Context) (inkey : List UInt8) (len : UInt32) :
    Option I2HMACSha1Context :=
  (i2HMACSha1Init.key sha1_transform inkey len).bind fun key =>
    let ipad := xorKey 0x36 key
    let hmac := { hmac with opad := xorKey 0x5c key }
    (i2Sha1Append sha1_transform (i2Sha1Init hmac.sha1) ipad.toList 64).map fun sha1 =>
      { hmac with sha1 := sha1 }

def i2HMACSha1Append (hmac : I2HMACSha1Context) (txt : List UInt8) (len : UInt32) :
    Option I2HMACSha1Context :=
  if len = 0 then none
  else (i2Sha1Append sha1_transform hmac.sha1 txt len).map fun sha1 => { hmac with sha1 := sha1 }

def i2HMACSha1Finish (hmac : I2HMACSha1Context) : Option (Digest × I2HMACSha1Context) :=
  (i2Sha1Finish sha1_transform hmac.sha1).bind fun (opad_digest, sha1) =>
    (i2Sha1Append sha1_transform (i2Sha1Init sha1) hmac.opad.toList 64).bind fun sha1 =>
      (i2Sha1Append sha1_transform sha1 opad_digest.toList 20).bind fun sha1 =>
        (i2Sha1Finish sha1_transform sha1).map fun (digest_ret, sha1) =>
          (digest_ret, { hmac with sha1 := sha1 })

def I2HMACSha1Context.zero : I2HMACSha1Context :=
  ⟨.zero, List.Vector.replicate I2SHA1_BLOCK_SIZE 0⟩

def i2HMACSha1 (key : List UInt8) (keylen : UInt32) (txt : List UInt8) (txtlen : UInt32) :
    Option Digest :=
  (i2HMACSha1Init sha1_transform .zero key keylen).bind fun hmac =>
    (i2HMACSha1Append sha1_transform hmac txt txtlen).bind fun hmac =>
      (i2HMACSha1Finish sha1_transform hmac).map Prod.fst

/-! ### The keyed hash of RFC 2104 -/

/-- The key with zeros behind it, as long as a block. -/
def zeroPad (key : List UInt8) : List UInt8 :=
  key ++ List.replicate (I2SHA1_BLOCK_SIZE - key.length) 0

/-- `H(K xor opad, H(K xor ipad, text))`, for a hash that may have no result. -/
def rfcHmac (H : List UInt8 → Option Digest) (key text : List UInt8) : Option Digest :=
  let hash := fun key : List UInt8 =>
    let K := zeroPad key
    (H (K.map (· ^^^ 0x36) ++ text)).bind fun inner => H (K.map (· ^^^ 0x5c) ++ inner.toList)
  if I2SHA1_BLOCK_SIZE < key.length then (H key).bind fun digest => hash digest.toList
  else hash key

def oneShot (f : Sha1State → Block → Sha1State) (m : List UInt8) : Option Digest :=
  i2Sha1 f m (UInt32.ofNat m.length)

def i2HMACSha1AppendAll (f : Sha1State → Block → Sha1State) (hmac : I2HMACSha1Context)
    (chunks : List (List UInt8)) : Option I2HMACSha1Context :=
  chunks.foldlM (fun hmac chunk => i2HMACSha1Append f hmac chunk (UInt32.ofNat chunk.length)) hmac

/-- A text that arrives in chunks: `I2HMACSha1Init`, the chunks, `I2HMACSha1Finish`. -/
def i2HMACSha1Message (f : Sha1State → Block → Sha1State) (hmac : I2HMACSha1Context)
    (key : List UInt8) (chunks : List (List UInt8)) : Option (Digest × I2HMACSha1Context) :=
  (i2HMACSha1Init f hmac key (UInt32.ofNat key.length)).bind fun hmac =>
    (i2HMACSha1AppendAll f hmac chunks).bind (i2HMACSha1Finish f)

variable {f : Sha1State → Block → Sha1State} {hmac : I2HMACSha1Context} {before : List Block}

/-! ### The key -/

theorem write_zeroPad {key : List UInt8} (h : key.length ≤ 64) :
    ∃ K : Block, Memory.write (List.Vector.replicate 64 0) 0 key = some K ∧ K.1 = zeroPad key := by
  have hzeros : (List.Vector.replicate 64 (0 : UInt8)).1 =
      [] ++ (List.replicate key.length 0 ++ List.replicate (64 - key.length) 0) := by
    rw [List.nil_append, List.replicate_append_replicate, Nat.add_sub_cancel' h]
    rfl
  exact Memory.write_eq hzeros rfl (List.length_replicate)

theorem zipWith_replicate_length (pad : UInt8) (key : List UInt8) :
    List.zipWith (· ^^^ ·) (List.replicate key.length pad) key = key.map (· ^^^ pad) := by
  induction key with
  | nil => rfl
  | cons b key ih =>
      rw [List.length_cons, List.replicate_succ, List.zipWith_cons_cons, ih, List.map_cons,
        UInt8.xor_comm]

theorem xorKey_toList (pad : UInt8) (key : Block) :
    (xorKey pad key).toList = key.1.map (· ^^^ pad) := by
  have hlen : key.1.length = 64 := key.2
  have hzip := zipWith_replicate_length pad key.1
  rwa [hlen] at hzip

theorem i2HMACSha1Init.key_long {key : List UInt8} {digest : Digest}
    (hlong : 64 < UInt32.ofNat key.length)
    (hdigest : i2Sha1 f key (UInt32.ofNat key.length) = some digest) :
    ∃ K : Block, i2HMACSha1Init.key f key (UInt32.ofNat key.length) = some K ∧
      K.1 = zeroPad digest.toList := by
  obtain ⟨K, hwrite, hK⟩ := @write_zeroPad digest.toList
    (by rw [List.Vector.toList_length]; decide)
  refine ⟨K, ?_, hK⟩
  rw [i2HMACSha1Init.key, if_pos hlong, hdigest, Option.bind_some]
  exact hwrite

theorem i2HMACSha1Init.key_short {key : List UInt8}
    (hlen : (UInt32.ofNat key.length).toNat = key.length)
    (hlong : ¬64 < UInt32.ofNat key.length) :
    ∃ K : Block, i2HMACSha1Init.key f key (UInt32.ofNat key.length) = some K ∧
      K.1 = zeroPad key := by
  have hle : ¬64 < key.length := fun h => hlong (UInt32.lt_iff_toNat_lt.mpr (hlen.symm ▸ h))
  have hread : Memory.read key 0 (UInt32.ofNat key.length).toNat = some ⟨key, hlen.symm⟩ :=
    @Memory.read_eq _ key [] key [] 0 _ (by simp) rfl hlen.symm
  obtain ⟨K, hwrite, hK⟩ := @write_zeroPad key (Nat.le_of_not_lt hle)
  refine ⟨K, ?_, hK⟩
  rw [i2HMACSha1Init.key, if_neg hlong, hread]
  exact hwrite

/-- The key block is the key of RFC 2104: the key, or its digest, with zeros behind
it. -/
theorem i2HMACSha1Init.key_eq {key : List UInt8} (hkey : key.length < 536870912) :
    ∃ K : Block, i2HMACSha1Init.key f key (UInt32.ofNat key.length) = some K ∧
      rfcHmac (oneShot f) key = fun text =>
        (oneShot f (K.1.map (· ^^^ 0x36) ++ text)).bind fun inner =>
          oneShot f (K.1.map (· ^^^ 0x5c) ++ inner.toList) := by
  have hlen := toNat_ofNat_length hkey
  by_cases hlong : 64 < UInt32.ofNat key.length
  · have hlt : 64 < key.length := hlen ▸ UInt32.lt_iff_toNat_lt.mp hlong
    have hdigest : oneShot f key = some (sha1Digest f key) := i2Sha1_eq hkey
    obtain ⟨K, hrun, hK⟩ := i2HMACSha1Init.key_long hlong hdigest
    refine ⟨K, hrun, ?_⟩
    funext text
    rw [rfcHmac, if_pos hlt, hdigest, hK, Option.bind_some]
  · have hle : ¬64 < key.length := fun h => hlong (UInt32.lt_iff_toNat_lt.mpr (hlen.symm ▸ h))
    obtain ⟨K, hrun, hK⟩ := i2HMACSha1Init.key_short (f := f) hlen hlong
    refine ⟨K, hrun, ?_⟩
    funext text
    rw [rfcHmac, if_neg hle, hK]

/-! ### The three hashes -/

/-- A context after `I2HMACSha1Init` and some chunks: the pad is in its place, and the
inner message is collected. -/
structure Keyed (f : Sha1State → Block → Sha1State) (hmac : I2HMACSha1Context)
    (before : List Block) (K : Block) (text : List UInt8) : Prop where
  opad : hmac.opad.1 = K.1.map (· ^^^ 0x5c)
  inner : Collected f hmac.sha1 before (K.1.map (· ^^^ 0x36) ++ text)

variable {K : Block} {text : List UInt8}

/-- Any context will do: nothing of its history is left. -/
theorem i2HMACSha1Init_eq {key : List UInt8} (hmac : I2HMACSha1Context)
    (hK : i2HMACSha1Init.key f key (UInt32.ofNat key.length) = some K) :
    ∃ hmac', i2HMACSha1Init f hmac key (UInt32.ofNat key.length) = some hmac' ∧
      Keyed f hmac' hmac.sha1.passed K [] := by
  have hipad := xorKey_toList 0x36 K
  obtain ⟨sha1, happend, hnext⟩ := @Collected.append f _ _ [] (xorKey 0x36 K).toList 64
    (collected_init hmac.sha1) (List.Vector.toList_length _) (by decide)
  rw [hipad] at hnext
  refine ⟨⟨sha1, xorKey 0x5c K⟩, ?_, xorKey_toList 0x5c K, by rwa [List.append_nil]⟩
  rw [i2HMACSha1Init, hK]
  show (i2Sha1Append f (i2Sha1Init hmac.sha1) (xorKey 0x36 K).toList 64).map _ = _
  rw [happend]
  rfl

theorem Keyed.append {chunk : List UInt8} (h : Keyed f hmac before K text) (hne : chunk ≠ [])
    (hlen : chunk.length < 536870912) :
    ∃ hmac', i2HMACSha1Append f hmac chunk (UInt32.ofNat chunk.length) = some hmac' ∧
      Keyed f hmac' before K (text ++ chunk) := by
  have hto := toNat_ofNat_length hlen
  have hpos := List.length_pos_iff.mpr hne
  have hnot : UInt32.ofNat chunk.length ≠ 0 := by
    intro hzero
    rw [hzero] at hto
    exact hpos.ne hto
  obtain ⟨sha1, happend, hnext⟩ := h.inner.append hto.symm (by omega)
  refine ⟨⟨sha1, hmac.opad⟩, ?_, h.opad, by rwa [List.append_assoc] at hnext⟩
  rw [i2HMACSha1Append, if_neg hnot, happend]
  rfl

theorem Keyed.appendAll {chunks : List (List UInt8)} (h : Keyed f hmac before K text)
    (hchunks : ∀ chunk ∈ chunks, chunk ≠ [] ∧ chunk.length < 536870912) :
    ∃ hmac', i2HMACSha1AppendAll f hmac chunks = some hmac' ∧
      Keyed f hmac' before K (text ++ chunks.flatten) := by
  induction chunks generalizing hmac text with
  | nil => exact ⟨hmac, rfl, by simpa using h⟩
  | cons chunk chunks ih =>
      have hchunk := hchunks chunk List.mem_cons_self
      obtain ⟨hmac', happend, hnext⟩ := h.append hchunk.1 hchunk.2
      obtain ⟨hmac'', hrest, hdone⟩ := ih hnext fun c hc =>
        hchunks c (List.mem_cons_of_mem chunk hc)
      refine ⟨hmac'', ?_, by simpa using hdone⟩
      rw [i2HMACSha1AppendAll, List.foldlM_cons, happend]
      exact hrest

/-- The outer hash is computed over the pad and the inner digest. -/
theorem i2HMACSha1Finish_eq (h : Keyed f hmac before K text) (htext : text.length < 536870848) :
    ∃ digest hmac', i2HMACSha1Finish f hmac = some (digest, hmac') ∧
      ((oneShot f (K.1.map (· ^^^ 0x36) ++ text)).bind fun inner =>
        oneShot f (K.1.map (· ^^^ 0x5c) ++ inner.toList)) = some digest := by
  have hpad : ∀ pad : UInt8, (K.1.map (· ^^^ pad)).length = 64 := by
    intro pad
    rw [List.length_map]
    exact K.2
  have hinner : (K.1.map (· ^^^ 0x36) ++ text).length < 536870912 := by
    rw [List.length_append, hpad]
    omega
  obtain ⟨sha1a, hfinish, -⟩ := i2Sha1Finish_eq h.inner (by omega)
  rw [oneShot, i2Sha1_eq hinner]
  generalize sha1Digest f (K.1.map (· ^^^ 0x36) ++ text) = opad_digest at hfinish
  -- the outer message
  obtain ⟨sha1b, hopad, hb⟩ := @Collected.append f _ _ [] hmac.opad.toList 64
    (collected_init sha1a) (List.Vector.toList_length _) (by decide)
  obtain ⟨sha1c, hlast, hc⟩ := @Collected.append f _ _ _ opad_digest.toList 20 hb
    (List.Vector.toList_length _) (by decide)
  have houter : [] ++ hmac.opad.toList ++ opad_digest.toList =
      K.1.map (· ^^^ 0x5c) ++ opad_digest.toList := by
    rw [List.nil_append, ← h.opad]
    rfl
  have hlen : (K.1.map (· ^^^ 0x5c) ++ opad_digest.toList).length < 536870912 := by
    rw [List.length_append, hpad, List.Vector.toList_length]
    decide
  rw [houter] at hc
  obtain ⟨sha1d, hend, -⟩ := i2Sha1Finish_eq hc (by omega)
  refine ⟨sha1Digest f (K.1.map (· ^^^ 0x5c) ++ opad_digest.toList), ⟨sha1d, hmac.opad⟩, ?_,
    i2Sha1_eq hlen⟩
  rw [i2HMACSha1Finish, hfinish]
  show (i2Sha1Append f (i2Sha1Init sha1a) hmac.opad.toList 64).bind _ = _
  rw [hopad]
  show (i2Sha1Append f sha1b opad_digest.toList 20).bind _ = _
  rw [hlast]
  show (i2Sha1Finish f sha1c).map _ = _
  rw [hend]
  rfl

/-- Every chunk is shorter than all of them. -/
theorem length_le_flatten {chunks : List (List UInt8)} {chunk : List UInt8}
    (h : chunk ∈ chunks) : chunk.length ≤ chunks.flatten.length :=
  (List.sublist_flatten_of_mem h).length_le

/-- The three calls compute the keyed hash of RFC 2104 of the concatenated chunks,
whatever the context was used for before. -/
theorem hmac_sha1 (f : Sha1State → Block → Sha1State) (hmac : I2HMACSha1Context)
    {key : List UInt8} (hkey : key.length < 536870912) {chunks : List (List UInt8)}
    (hchunks : ∀ chunk ∈ chunks, chunk ≠ []) (htotal : chunks.flatten.length < 268435456) :
    ∃ digest hmac', i2HMACSha1Message f hmac key chunks = some (digest, hmac') ∧
      rfcHmac (oneShot f) key chunks.flatten = some digest := by
  obtain ⟨K, hK, hrfc⟩ := @i2HMACSha1Init.key_eq f key hkey
  obtain ⟨hmac₁, hinit, h₁⟩ := i2HMACSha1Init_eq hmac hK
  obtain ⟨hmac₂, happend, h₂⟩ := @Keyed.appendAll f _ _ _ _ chunks h₁ fun chunk hc =>
    ⟨hchunks chunk hc, by have := length_le_flatten hc; omega⟩
  obtain ⟨digest, hmac₃, hfinish, hdigest⟩ := i2HMACSha1Finish_eq h₂
    (by rw [List.nil_append]; omega)
  refine ⟨digest, hmac₃, ?_, ?_⟩
  · rw [i2HMACSha1Message, hinit]
    show (i2HMACSha1AppendAll f hmac₁ chunks).bind _ = _
    rw [happend]
    exact hfinish
  · rw [hrfc]
    exact hdigest

theorem hmac_sha1_hi_there :
    ∃ digest, (i2HMACSha1Message sha1Transform .zero (List.replicate 20 0x0b)
        [[0x48, 0x69, 0x20], [0x54, 0x68, 0x65, 0x72, 0x65]]).map Prod.fst = some digest ∧
      rfcHmac (oneShot sha1Transform) (List.replicate 20 0x0b)
        [0x48, 0x69, 0x20, 0x54, 0x68, 0x65, 0x72, 0x65] = some digest := by
  obtain ⟨digest, hmac', hrun, hrfc⟩ := @hmac_sha1 sha1Transform .zero (List.replicate 20 0x0b)
    (by decide) [[0x48, 0x69, 0x20], [0x54, 0x68, 0x65, 0x72, 0x65]] (by decide) (by decide)
  refine ⟨digest, ?_, hrfc⟩
  rw [hrun, Option.map_some]

/-- The first case of the test program. -/
example : (rfcHmac (oneShot sha1Transform) (List.replicate 20 0x0b)
      [0x48, 0x69, 0x20, 0x54, 0x68, 0x65, 0x72, 0x65]).map List.Vector.toList =
    some [0xb6, 0x17, 0x31, 0x86, 0x55, 0x05, 0x72, 0x64, 0xe2, 0x8b, 0xc0, 0xb6, 0xfb, 0x37,
      0x8c, 0x8e, 0xf1, 0x46, 0xbe, 0x00] := by
  decide +kernel

end I2util
