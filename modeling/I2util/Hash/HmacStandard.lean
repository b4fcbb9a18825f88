import I2util.Hash.Pbkdf2Blocks
import I2util.Hash.Sha1Rounds

/-!
The key that `I2pbkdf2` derives with `I2HMACSha1`, against the standards that the three
files follow: RFC 2898 over RFC 2104 over FIPS 180-1.
-/

namespace I2util

theorem fipsSha1_length (m : List UInt8) : (fipsSha1 m).length = 20 := by
  rw [← sha1Digest_eq]
  exact List.Vector.toList_length _

def rfcHmacSha1 (key text : List UInt8) : List UInt8 :=
  let K := zeroPad (if 64 < key.length then fipsSha1 key else key)
  fipsSha1 (K.map (· ^^^ 0x5c) ++ fipsSha1 (K.map (· ^^^ 0x36) ++ text))

def rfcPrf (key text : List UInt8) : List.Vector UInt8 20 :=
  ⟨rfcHmacSha1 key text, fipsSha1_length _⟩

variable {key text m : List UInt8} {digest : Digest}

/-! ### The keyed hash -/

theorem zeroPad_length (hkey : key.length ≤ 64) : (zeroPad key).length = 64 := by
  rw [zeroPad, List.length_append, List.length_replicate]
  exact Nat.add_sub_cancel' hkey

theorem oneShot_eq (hm : m.length < 536870912) :
    ∃ digest, oneShot sha1Transform m = some digest ∧ digest.toList = fipsSha1 m :=
  ⟨_, i2Sha1_eq hm, sha1Digest_eq m⟩

/-- The two hashes over a key block. -/
theorem rfcHmac_block {K : List UInt8} (hK : K.length = 64) (htext : text.length < 536870848) :
    ∃ digest, ((oneShot sha1Transform (K.map (· ^^^ 0x36) ++ text)).bind fun inner =>
        oneShot sha1Transform (K.map (· ^^^ 0x5c) ++ inner.toList)) = some digest ∧
      digest.toList =
        fipsSha1 (K.map (· ^^^ 0x5c) ++ fipsSha1 (K.map (· ^^^ 0x36) ++ text)) := by
  have hinner : (K.map (· ^^^ 0x36) ++ text).length < 536870912 := by
    rw [List.length_append, List.length_map, hK]
    omega
  obtain ⟨inner, hrun, hvalue⟩ := oneShot_eq hinner
  have houter : (K.map (· ^^^ 0x5c) ++ inner.toList).length < 536870912 := by
    rw [List.length_append, List.length_map, hK, List.Vector.toList_length]
    decide
  obtain ⟨digest, hrun', hvalue'⟩ := oneShot_eq houter
  refine ⟨digest, ?_, by rw [hvalue', hvalue]⟩
  rw [hrun]
  exact hrun'

theorem rfcHmac_eq (hkey : key.length < 536870912) (htext : text.length < 536870848) :
    ∃ digest, rfcHmac (oneShot sha1Transform) key text = some digest ∧
      digest.toList = rfcHmacSha1 key text := by
  rw [rfcHmac, rfcHmacSha1]
  by_cases hlong : 64 < key.length
  · obtain ⟨digest, hrun, hvalue⟩ := oneShot_eq hkey
    rw [if_pos hlong, if_pos hlong, hrun, Option.bind_some, hvalue]
    exact rfcHmac_block (zeroPad_length (by rw [fipsSha1_length]; decide)) htext
  · rw [if_neg hlong, if_neg hlong]
    exact rfcHmac_block (zeroPad_length (Nat.le_of_not_lt hlong)) htext

/-- `I2HMACSha1` of a text that is not empty. -/
theorem i2HMACSha1_eq (hkey : key.length < 536870912) (hne : text ≠ [])
    (htext : text.length < 536870848) :
    ∃ digest, i2HMACSha1 sha1Transform key (UInt32.ofNat key.length) text
        (UInt32.ofNat text.length) = some digest ∧ digest.toList = rfcHmacSha1 key text := by
  obtain ⟨K, hK, hrfc⟩ := @i2HMACSha1Init.key_eq sha1Transform key hkey
  obtain ⟨hmac₁, hinit, h₁⟩ := i2HMACSha1Init_eq .zero hK
  obtain ⟨hmac₂, happend, h₂⟩ := h₁.append hne (by omega)
  rw [List.nil_append] at h₂
  obtain ⟨digest, hmac₃, hfinish, hdigest⟩ := i2HMACSha1Finish_eq h₂ htext
  obtain ⟨digest', hrun, hvalue⟩ := rfcHmac_eq hkey htext
  rw [hrfc] at hrun
  obtain rfl := Option.some.inj (hdigest.symm.trans hrun)
  refine ⟨digest, ?_, hvalue⟩
  rw [i2HMACSha1, hinit, Option.bind_some, happend, Option.bind_some, hfinish]
  rfl

/-! ### The derived key -/

/-- The blocks are the same for two pseudorandom functions that agree on the texts of
the blocks and on the digests. -/
theorem rfcBlocks_congr {h : ℕ} {prf prf' : List UInt8 → List UInt8 → List.Vector UInt8 h}
    {P S : List UInt8} (hfirst : ∀ i, prf P (S ++ bigEndian 4 i) = prf' P (S ++ bigEndian 4 i))
    (hnext : ∀ u : List.Vector UInt8 h, prf P u.toList = prf' P u.toList) (c n : ℕ) :
    rfcBlocks prf P S c n = rfcBlocks prf' P S c n := by
  have hU : ∀ i j, rfcU prf P S i j = rfcU prf' P S i j := by
    intro i j
    induction j with
    | zero => exact hfirst i
    | succ j ih => rw [rfcU, ih, hnext, rfcU]
  have hT : ∀ i, rfcT prf P S c i = rfcT prf' P S c i := by
    intro i
    rw [rfcT, rfcT, funext (hU i)]
  rw [rfcBlocks, rfcBlocks]
  simp only [hT]

variable {pw salt txt : List UInt8} {pwlen saltlen count dklen : UInt32}

theorem hmacPrf_eq (hpw : pw.length < 536870912) (hne : txt ≠ [])
    (htxt : txt.length < 536870848) :
    i2HMACSha1 sha1Transform pw (UInt32.ofNat pw.length) txt (UInt32.ofNat txt.length) =
        some (hmacPrf pw txt) ∧
      hmacPrf pw txt = rfcPrf pw txt := by
  obtain ⟨digest, hrun, hvalue⟩ := i2HMACSha1_eq hpw hne htxt
  have hdigest : hmacPrf pw txt = digest := by
    rw [hmacPrf, hrun]
    rfl
  refine ⟨by rw [hrun, hdigest], ?_⟩
  rw [hdigest]
  exact Subtype.ext hvalue

/-- `I2pbkdf2` with `I2HMACSha1` derives the key of the three standards, and each of
its calls of `I2HMACSha1` has a digest. -/
theorem pbkdf2_standard (hpw : pw.length = pwlen.toNat) (hpwlen : pwlen.toNat < 536870912)
    (hsalt : salt.length = saltlen.toNat) (hsaltlen : saltlen.toNat + 4 < 536870848)
    (hcount : 1 ≤ count.toNat ∧ count.toNat ≤ 4294967294) (errno : ℤ)
    (dk_ret : List.Vector UInt8 dklen.toNat) :
    (∀ txt, txt ≠ [] → txt.length ≤ max (saltlen.toNat + 4) 20 →
        i2HMACSha1 sha1Transform pw (UInt32.ofNat pw.length) txt (UInt32.ofNat txt.length) =
          some (hmacPrf pw txt)) ∧
      ∃ dk, i2pbkdf2 hmacPrf pw pwlen salt saltlen count true true errno dklen dk_ret =
          some ⟨0, errno, dk⟩ ∧
        ∀ k, dklen.toNat ≤ k * 20 →
          dk.toList = (rfcBlocks rfcPrf pw salt count.toNat k).take dklen.toNat := by
  have hsmall : pw.length < 536870912 := by omega
  have hexact : NoWrap 20 saltlen count dklen := noWrap (by decide) (by decide) (by omega) hcount.2
  have hsize : (MAX saltlen 20 + 4).toNat = max saltlen.toNat 20 + 4 := hexact.tmpbuff
  obtain ⟨dk, hderive, hdk⟩ := @i2pbkdf2.derive_eq 20 (MAX saltlen 20 + 4).toNat hmacPrf pw salt
    pwlen saltlen count ⟨List.Vector.replicate _ 0, 0⟩ dklen dk_ret (List.Vector.replicate _ 0)
    hexact (by decide) hpw hsalt (by omega) (by omega) (show 20 ≤ _ by omega) hcount.1 hcount.2
  have hblocks : ∀ k, rfcBlocks hmacPrf pw salt count.toNat k =
      rfcBlocks rfcPrf pw salt count.toNat k := by
    refine @rfcBlocks_congr 20 hmacPrf rfcPrf pw salt ?_ ?_ count.toNat
    · intro i
      refine (hmacPrf_eq hsmall (by simp [bigEndian]) ?_).2
      rw [List.length_append, BigEndian.length, hsalt]
      exact hsaltlen
    · intro u
      have hlen : u.toList.length = 20 := List.Vector.toList_length _
      refine (hmacPrf_eq hsmall ?_ ?_).2
      · intro hnil
        rw [hnil] at hlen
        exact absurd hlen (by decide)
      · rw [hlen]
        decide
  refine ⟨fun txt hne htxt => (hmacPrf_eq hsmall hne (by omega)).1, dk, ?_, fun k hk => ?_⟩
  · show (i2pbkdf2.derive hmacPrf pw pwlen salt saltlen count _ _ dklen dk_ret).map _ = _
    rw [hderive]
    rfl
  · rw [← hblocks]
    exact hdk k hk

theorem pbkdf2_standard_raeburn :
    ∃ dk : List.Vector UInt8 32, i2pbkdf2 hmacPrf testPassword 8 testSalt 21 2 true true 0 32
        (List.Vector.replicate 32 0) = some ⟨0, 0, dk⟩ ∧
      dk.toList = (rfcBlocks rfcPrf testPassword testSalt 2 2).take 32 := by
  obtain ⟨-, dk, hrun, hdk⟩ := @pbkdf2_standard testPassword testSalt 8 21 2 32 rfl (by decide)
    rfl (by decide) (by decide) 0 (List.Vector.replicate 32 0)
  exact ⟨dk, hrun, hdk 2 (by decide)⟩

end I2util
