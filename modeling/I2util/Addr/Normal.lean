import I2util.Addr.Loopback

/-!
The address that `I2AddrBySAddr` stores, and what `I2SockAddrEqual` says of it.
-/

namespace I2util

structure I2Addr.Stores (addr : I2Addr) (stored : Sockaddr) : Prop where
  saddr : ∃ p, addr.saddr = some p ∧ addr.sockaddr p = some stored
  saddrlen : addr.saddrlen = stored.bytes.length

/-- What is asked of the stored address. Storing it once more changes nothing. -/
structure NormalForm (sa : Sockaddr) (sa_len : ℕ) (stored : Sockaddr) : Prop where
  unmapped : ¬Mapped stored
  equal : ∃ r, i2SockAddrEqual sa sa_len stored stored.bytes.length I2SADDR_ALL = some r ∧ 0 < r
  port : sinPort stored.bytes = sinPort sa.bytes
  native : ¬Mapped sa → stored.bytes = sa.bytes.take sa_len
  again : ∀ h socktype protocol addr,
    i2AddrBySAddr h stored stored.bytes.length socktype protocol = some (some addr) →
      addr.Stores stored

variable {chk_what : UInt32} {sa sa1 sa2 stored : Sockaddr} {sa_len : ℕ} {h : Heap UInt8}
  {socktype protocol : ℤ} {addr : I2Addr}

/-- Two addresses of one length that differ in the flow label and the scope only. -/
theorem i2SockAddrEqual_upToScope (h1 : Ample sa1 sa_len) (h2 : Ample sa2 sa_len)
    (hsame : UpToScope sa1 sa2) : i2SockAddrEqual sa1 sa_len sa2 sa_len chk_what = some 1 := by
  obtain ⟨sau1, hu1, hs1⟩ := h1.holds
  obtain ⟨sau2, hu2, hs2⟩ := h2.holds
  have hnot : ¬(sa_len ≠ sa_len ∨ saFamily sa1.bytes ≠ saFamily sa2.bytes) := by
    rintro (hlen | hfamily)
    · exact hlen rfl
    · exact hfamily hsame.family.symm
  have hport : sinPort sau1.1 = sinPort sau2.1 := by rw [hs1.port, hs2.port, hsame.port]
  have hresult : i2SockAddrEqual.same chk_what sau1 sau2 = 1 := by
    rcases h1.family with ⟨h4, -⟩ | ⟨h6, -⟩
    · have hn6 : ¬saFamily sau1.1 = AF_INET6 := by
        rw [hs1.family, h4]
        decide
      have haddr : sinAddr sau1.1 = sinAddr sau2.1 := by rw [hs1.addr, hs2.addr, hsame.addr h4]
      rw [i2SockAddrEqual.same, if_neg hn6, if_pos (hs1.family.trans h4)]
      simp [haddr, hport]
    · have haddr : sin6Addr sau1.1 = sin6Addr sau2.1 := by
        rw [hs1.addr6 h6, hs2.addr6 (hsame.family.trans h6), hsame.addr6 h6]
      rw [i2SockAddrEqual.same, if_pos (hs1.family.trans h6)]
      simp [haddr, hport]
  rw [← hresult]
  apply i2SockAddrEqual_returns
  rw [i2SockAddrEqual.call, if_neg hnot]
  simp only [hu1, hu2]

/-- A mapped address and its IPv4 form. -/
theorem i2SockAddrEqual_mapped (h1 : Ample sa1 sa_len) (hm : Mapped sa1)
    (hsame : ∀ sau, SameAddr sau sa1 → UpToScope (v4rec sau) sa2)
    (h2 : Ample sa2 sizeofSockaddrIn) :
    i2SockAddrEqual sa1 sa_len sa2 sizeofSockaddrIn chk_what = some 1 := by
  obtain ⟨sau1, hu1, hs1⟩ := h1.holds
  obtain ⟨sau2, hu2, hs2⟩ := h2.holds
  have hv4 := hsame sau1 hs1
  have hdiffer : saFamily sa1.bytes ≠ saFamily sa2.bytes := by
    rw [hm.1, hv4.family, v4rec_family]
    decide
  have hcall := @i2SockAddrEqual.call_differ chk_what _ _ _ _ _ _ hdiffer hu1 hs1 hu2 hs2
  rw [if_pos hm] at hcall
  rw [i2SockAddrEqual_again hcall]
  exact i2SockAddrEqual_upToScope (v4rec_canonical sau1).ample h2 hv4

/-! ### The stored address -/

/-- What is read of an address is in its first bytes. -/
theorem upToScope_take (ha : Ample sa sa_len) (hroom : 2 ≤ (sa.bytes.take sa_len).length) :
    UpToScope sa ⟨sa.bytes.take sa_len, hroom⟩ := by
  have hlen := ha.sixteen_le
  refine ⟨?_, field_take (by omega), fun _ => field_take (by omega), fun h6 => ?_⟩
  · rw [saFamily, field_take (by omega)]
    rfl
  · have hlen6 := ha.len6 h6
    exact field_take (by omega)

theorem UpToScope.mapped (hsame : UpToScope sa1 sa2) : Mapped sa2 ↔ Mapped sa1 := by
  rw [Mapped, Mapped, hsame.family]
  constructor
  · rintro ⟨h6, hm⟩
    exact ⟨h6, hsame.addr6 h6 ▸ hm⟩
  · rintro ⟨h6, hm⟩
    exact ⟨h6, (hsame.addr6 h6).symm ▸ hm⟩

theorem stores_build {bytes : List UInt8} {len : ℕ} (hlen : 2 ≤ len)
    (hb : i2AddrBySAddr.build h bytes len socktype protocol = some (some addr)) :
    ∃ hroom : 2 ≤ (bytes.take len).length, addr.Stores ⟨bytes.take len, hroom⟩ := by
  obtain ⟨hsize, p, heap, rfl, hmem⟩ := i2AddrBySAddr.build_eq_some hb
  have htake : (bytes.take len).length = len := List.length_take_of_le hsize
  refine ⟨htake.symm ▸ hlen, ⟨p, rfl, ?_⟩, htake.symm⟩
  rw [I2Addr.sockaddr, hmem]
  exact dif_pos (htake.symm ▸ hlen)

/-- An address that is not mapped is stored as it is. -/
theorem stores_again (hm : ¬Mapped stored) {h : Heap UInt8}
    (hb : i2AddrBySAddr h stored stored.bytes.length socktype protocol = some (some addr)) :
    addr.Stores stored := by
  rcases i2AddrBySAddr_eq_some hb with ⟨hbuild, -⟩ | ⟨-, hmapped, -⟩
  · obtain ⟨hroom, hstores⟩ := stores_build stored.room hbuild
    have hwhole : (⟨stored.bytes.take stored.bytes.length, hroom⟩ : Sockaddr) = stored := by
      obtain ⟨bytes, room⟩ := stored
      congr 1
      exact List.take_length
    exact hwhole ▸ hstores
  · exact absurd hmapped hm

theorem build_ne_none {bytes : List UInt8} {len : ℕ} (hlen : len ≤ bytes.length) :
    i2AddrBySAddr.build h bytes len socktype protocol ≠ none := by
  have hread : Memory.read bytes 0 len ≠ none := by
    rw [Memory.read, dif_pos (by omega)]
    exact Option.some_ne_none _
  rw [i2AddrBySAddr.build]
  split
  · exact Option.some_ne_none _
  · split
    · split
      · exact Option.some_ne_none _
      · exact fun hnone => hread (Option.map_eq_none_iff.mp hnone)
    · exact Option.some_ne_none _

/-- Nothing is read behind the address. -/
theorem i2AddrBySAddr_ne_none (ha : Ample sa sa_len) :
    i2AddrBySAddr h sa sa_len socktype protocol ≠ none := by
  rw [i2AddrBySAddr]
  rcases ha.family with ⟨h4, -⟩ | ⟨h6, hlen⟩
  · have hn6 : ¬saFamily sa.bytes = AF_INET6 := by
      rw [h4]
      decide
    rw [if_neg hn6, if_pos (.inl h4)]
    exact build_ne_none ha.room
  · have hroom : 0 + sizeofSockaddrIn6 ≤ sa.bytes.length := by
      rw [Nat.zero_add]
      exact hlen.trans ha.room
    obtain ⟨v6addr, hread⟩ : ∃ v6addr, Memory.read sa.bytes 0 sizeofSockaddrIn6 = some v6addr :=
      ⟨_, dif_pos hroom⟩
    have hcells : 24 ≤ v6addr.1.length := by
      rw [v6addr.2]
      decide
    rw [if_pos h6, if_neg (Nat.not_lt.mpr hlen), hread, Option.bind_some]
    split
    · exact build_ne_none (v4bytes_length hcells).ge
    · exact build_ne_none ha.room

/-- An address that is not mapped is its own normal form, cut to its length. -/
theorem normalForm_take (ha : Ample sa sa_len) (hm : ¬Mapped sa)
    (hroom : 2 ≤ (sa.bytes.take sa_len).length) :
    NormalForm sa sa_len ⟨sa.bytes.take sa_len, hroom⟩ := by
  have hsame := upToScope_take ha hroom
  have htake : (sa.bytes.take sa_len).length = sa_len := List.length_take_of_le ha.room
  have hunmapped := mt hsame.mapped.mp hm
  have hstored : Ample ⟨sa.bytes.take sa_len, hroom⟩ sa_len := by
    refine ⟨?_, htake.ge, ha.size⟩
    rw [hsame.family]
    exact ha.family
  refine ⟨hunmapped, ⟨1, ?_, by decide⟩, hsame.port, fun _ => rfl,
    fun _ _ _ _ => stores_again hunmapped⟩
  show i2SockAddrEqual sa sa_len _ (sa.bytes.take sa_len).length _ = _
  rw [htake]
  exact i2SockAddrEqual_upToScope ha hstored hsame

/-- The normal form of a mapped address is the IPv4 address in it. -/
theorem normalForm_v4 (ha : Ample sa sa_len) (hm : Mapped sa)
    (hlen : sizeofSockaddrIn6 ≤ sa.bytes.length)
    (hbytes : stored.bytes = v4bytes (sa.bytes.take sizeofSockaddrIn6)) :
    NormalForm sa sa_len stored := by
  have hcells : 24 ≤ (sa.bytes.take sizeofSockaddrIn6).length := by
    rw [List.length_take_of_le hlen]
    decide
  have hfamily : saFamily stored.bytes = AF_INET := by
    rw [hbytes]
    rfl
  have hsize : stored.bytes.length = sizeofSockaddrIn := by rw [hbytes, v4bytes_length hcells]
  have hport : sinPort stored.bytes = sinPort sa.bytes := by
    rw [hbytes, v4bytes_port hcells]
    exact field_take (by decide)
  have haddr : sinAddr stored.bytes = (sin6Addr sa.bytes).drop 12 := by
    have htake : sin6Addr (sa.bytes.take sizeofSockaddrIn6) = sin6Addr sa.bytes :=
      field_take (by decide)
    rw [hbytes, v4bytes_addr hcells, htake]
  have hunmapped := not_mapped_v4 hfamily
  refine ⟨hunmapped, ⟨1, ?_, by decide⟩, hport, fun hno => absurd hm hno,
    fun _ _ _ _ => stores_again hunmapped⟩
  rw [hsize]
  apply i2SockAddrEqual_mapped ha hm
  · intro sau hs
    refine ⟨hfamily, hport.trans hs.v4rec_port.symm, fun _ => ?_, fun h6 => ?_⟩
    · rw [haddr, v4rec_addr, hs.addr6 hm.1]
    · rw [v4rec_family] at h6
      cases h6
  · exact ⟨.inl ⟨hfamily, Nat.le_refl _⟩, hsize.ge, by decide⟩

/-- An address that is stored is never a mapped one. `I2SockAddrEqual` takes it to be the
address that was given. -/
theorem bySAddr_normalForm (ha : Ample sa sa_len) :
    i2AddrBySAddr h sa sa_len socktype protocol ≠ none ∧
      ∀ addr, i2AddrBySAddr h sa sa_len socktype protocol = some (some addr) →
        ∃ stored, addr.Stores stored ∧ NormalForm sa sa_len stored := by
  refine ⟨i2AddrBySAddr_ne_none ha, fun addr hb => ?_⟩
  rcases i2AddrBySAddr_eq_some hb with ⟨hbuild, hm⟩ | ⟨hbuild, hm, hlen⟩
  · obtain ⟨hroom, hstores⟩ := stores_build (Nat.le_trans (by decide) ha.sixteen_le) hbuild
    exact ⟨_, hstores, normalForm_take ha hm hroom⟩
  · obtain ⟨hroom, hstores⟩ := stores_build (by decide) hbuild
    have hcells : 24 ≤ (sa.bytes.take sizeofSockaddrIn6).length := by
      rw [List.length_take_of_le hlen]
      decide
    exact ⟨_, hstores, normalForm_v4 ha hm hlen
      (List.take_of_length_le (v4bytes_length hcells).le)⟩

theorem bySAddr_normalForm_mapped :
    ∃ addr, i2AddrBySAddr emptyHeap loopbackMapped 28 1 0 = some (some addr) ∧
      ∃ stored, addr.Stores stored ∧ NormalForm loopbackMapped 28 stored :=
  ⟨_, rfl, (@bySAddr_normalForm loopbackMapped 28 emptyHeap 1 0
    ⟨.inr ⟨by decide, by decide⟩, by decide, by decide⟩).2 _ rfl⟩

end I2util
