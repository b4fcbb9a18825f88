import I2util.Addr.SockAddr

/-!
`I2SockAddrEqual` compares what the addresses mean.
-/

namespace I2util

variable {chk_what : UInt32} {sa1 sa2 : Sockaddr} {sa1_len sa2_len : ℕ}

/-- Each call that is made again has one address of the family `AF_INET6` less. -/
theorem i2SockAddrEqual.call_decreases (chk_what : UInt32) :
    Loop.Decreases (i2SockAddrEqual.call chk_what) SockAddrPair.size := by
  intro p p' h
  by_cases hdiffer : p.sa1_len ≠ p.sa2_len ∨ saFamily p.sa1.bytes ≠ saFamily p.sa2.bytes
  · rw [i2SockAddrEqual.call, if_pos hdiffer] at h
    match h₁ : i2SockAddrToSockUnion p.sa1 p.sa1_len with
    | none | some none => simp [h₁] at h
    | some (some sau1) =>
        have hfamily1 := i2SockAddrToSockUnion_family h₁
        by_cases hm1 : saFamily sau1.1 = AF_INET6 ∧ in6IsAddrV4mapped (sin6Addr sau1.1)
        · have hsa1 : saFamily p.sa1.bytes = AF_INET6 := hfamily1 ▸ hm1.1
          -- the call is made again with the IPv4 form of the first address
          simp only [h₁, if_pos hm1] at h
          obtain rfl := Sum.inl.inj h
          simp [SockAddrPair.size, hsa1, AF_INET, AF_INET6]
        · simp only [h₁, if_neg hm1] at h
          match h₂ : i2SockAddrToSockUnion p.sa2 p.sa2_len with
          | none | some none => simp [h₂] at h
          | some (some sau2) =>
              have hfamily2 := i2SockAddrToSockUnion_family h₂
              by_cases hm2 : saFamily sau2.1 = AF_INET6 ∧ in6IsAddrV4mapped (sin6Addr sau2.1)
              · have hsa2 : saFamily p.sa2.bytes = AF_INET6 := hfamily2 ▸ hm2.1
                -- and here with that of the second one
                simp only [h₂, if_pos hm2] at h
                obtain rfl := Sum.inl.inj h
                simp [SockAddrPair.size, hsa2, AF_INET, AF_INET6]
              · simp [h₂, if_neg hm2] at h
  · rw [i2SockAddrEqual.call, if_neg hdiffer] at h
    match h₁ : i2SockAddrToSockUnion p.sa1 p.sa1_len with
    | none | some none => simp [h₁] at h
    | some (some sau1) =>
        match h₂ : i2SockAddrToSockUnion p.sa2 p.sa2_len with
        | none | some none => simp [h₁, h₂] at h
        | some (some sau2) => simp [h₁, h₂] at h

theorem i2SockAddrEqual_again {p : SockAddrPair}
    (h : i2SockAddrEqual.call chk_what ⟨sa1, sa1_len, sa2, sa2_len⟩ = .inl p) :
    i2SockAddrEqual sa1 sa1_len sa2 sa2_len chk_what =
      i2SockAddrEqual p.sa1 p.sa1_len p.sa2 p.sa2_len chk_what :=
  congrArg Option.join (Loop.whileLoop_goes_on (i2SockAddrEqual.call_decreases chk_what) h)

theorem i2SockAddrEqual_returns {r : Option ℤ}
    (h : i2SockAddrEqual.call chk_what ⟨sa1, sa1_len, sa2, sa2_len⟩ = .inr r) :
    i2SockAddrEqual sa1 sa1_len sa2 sa2_len chk_what = r := by
  rw [i2SockAddrEqual, Loop.whileLoop_leaves h]
  rfl

/-- What is asked for: the hosts are the same, and the ports if they are looked at. -/
def SameHost (chk_what : UInt32) (sa1 sa2 : Sockaddr) : Prop :=
  sa1.host = sa2.host ∧ (chk_what &&& I2SADDR_PORT ≠ 0 → sinPort sa1.bytes = sinPort sa2.bytes)

instance : Decidable (SameHost chk_what sa1 sa2) := inferInstanceAs (Decidable (_ ∧ _))

/-! ### Addresses of one family -/

/-- Two native or mapped IPv6 addresses have one host only if all bytes are the same. -/
theorem host_eq_iff_v6 (h1 : saFamily sa1.bytes = AF_INET6) (h2 : saFamily sa2.bytes = AF_INET6) :
    sa1.host = sa2.host ↔ sin6Addr sa1.bytes = sin6Addr sa2.bytes := by
  have hmapped : ∀ {sa : Sockaddr}, Mapped sa → sin6Addr sa.bytes =
      List.replicate 10 0 ++ [0xff, 0xff] ++ (sin6Addr sa.bytes).drop 12 := by
    intro sa h
    rw [← of_decide_eq_true h.2, List.take_append_drop]
  constructor
  · intro hhost
    by_cases hm1 : Mapped sa1
    · by_cases hm2 : Mapped sa2
      · rw [Sockaddr.host_mapped hm1, Sockaddr.host_mapped hm2] at hhost
        rw [hmapped hm1, hmapped hm2, Host.v4.inj hhost]
      · rw [Sockaddr.host_mapped hm1, Sockaddr.host_v6 h2 hm2] at hhost
        cases hhost
    · by_cases hm2 : Mapped sa2
      · rw [Sockaddr.host_v6 h1 hm1, Sockaddr.host_mapped hm2] at hhost
        cases hhost
      · rw [Sockaddr.host_v6 h1 hm1, Sockaddr.host_v6 h2 hm2] at hhost
        exact Host.v6.inj hhost
  · intro haddr
    have hiff : Mapped sa1 ↔ Mapped sa2 := by rw [Mapped, Mapped, h1, h2, haddr]
    by_cases hm1 : Mapped sa1
    · rw [Sockaddr.host_mapped hm1, Sockaddr.host_mapped (hiff.mp hm1), haddr]
    · rw [Sockaddr.host_v6 h1 hm1, Sockaddr.host_v6 h2 (mt hiff.mpr hm1), haddr]

def SameParts (chk_what : UInt32) (sa1 sa2 : Sockaddr) : Prop :=
  (chk_what &&& I2SADDR_ADDR ≠ 0 → sa1.host = sa2.host) ∧
    (chk_what &&& I2SADDR_PORT ≠ 0 → sinPort sa1.bytes = sinPort sa2.bytes)

instance : Decidable (SameParts chk_what sa1 sa2) := inferInstanceAs (Decidable (_ ∧ _))

theorem i2SockAddrEqual_same_family (hc1 : Canonical sa1 sa1_len) (hc2 : Canonical sa2 sa2_len)
    (hfamily : saFamily sa1.bytes = saFamily sa2.bytes) :
    i2SockAddrEqual sa1 sa1_len sa2 sa2_len chk_what =
      some (if SameParts chk_what sa1 sa2 then 1 else 0) := by
  have hlen : sa1_len = sa2_len := by
    rcases hc1.family with ⟨h1, rfl⟩ | ⟨h1, rfl⟩ <;> rcases hc2.family with ⟨h2, rfl⟩ | ⟨h2, rfl⟩
    · rfl
    · rw [h1, h2] at hfamily
      cases hfamily
    · rw [h1, h2] at hfamily
      cases hfamily
    · rfl
  obtain ⟨sau1, h₁, hs1⟩ := hc1.holds
  obtain ⟨sau2, h₂, hs2⟩ := hc2.holds
  have hnot : ¬(sa1_len ≠ sa2_len ∨ saFamily sa1.bytes ≠ saFamily sa2.bytes) := by
    rintro (h | h)
    · exact h hlen
    · exact h hfamily
  have hresult : i2SockAddrEqual sa1 sa1_len sa2 sa2_len chk_what =
      some (i2SockAddrEqual.same chk_what sau1 sau2) := by
    apply i2SockAddrEqual_returns
    rw [i2SockAddrEqual.call, if_neg hnot]
    simp only [h₁, h₂]
  have hparts : ∀ (a1 a2 : List UInt8), (sa1.host = sa2.host ↔ a1 = a2) →
      (if chk_what &&& I2SADDR_ADDR ≠ 0 ∧ a1 ≠ a2 then (0 : ℤ)
        else if chk_what &&& I2SADDR_PORT ≠ 0 ∧ sinPort sau1.1 ≠ sinPort sau2.1 then 0 else 1) =
      if SameParts chk_what sa1 sa2 then 1 else 0 := by
    intro a1 a2 haddr
    rw [hs1.port, hs2.port]
    simp only [SameParts, haddr]
    by_cases ha : a1 = a2 <;> by_cases hp : sinPort sa1.bytes = sinPort sa2.bytes <;>
      by_cases hk : chk_what &&& I2SADDR_ADDR = 0 <;>
      by_cases hk' : chk_what &&& I2SADDR_PORT = 0 <;> simp [ha, hp, hk, hk']
  rw [hresult]
  rcases hc1.family with ⟨h1, -⟩ | ⟨h1, -⟩
  · -- two IPv4 addresses
    have hn6 : ¬saFamily sau1.1 = AF_INET6 := by
      rw [hs1.family, h1]
      decide
    have hhost : sa1.host = sa2.host ↔ sinAddr sau1.1 = sinAddr sau2.1 := by
      rw [Sockaddr.host_v4 h1, Sockaddr.host_v4 (hfamily ▸ h1), Host.v4.injEq, hs1.addr, hs2.addr]
    rw [i2SockAddrEqual.same, if_neg hn6, if_pos (hs1.family.trans h1), hparts _ _ hhost]
  · -- two IPv6 addresses
    have hhost : sa1.host = sa2.host ↔ sin6Addr sau1.1 = sin6Addr sau2.1 := by
      rw [host_eq_iff_v6 h1 (hfamily ▸ h1), hs1.addr6 h1, hs2.addr6 (hfamily ▸ h1)]
    rw [i2SockAddrEqual.same, if_pos (hs1.family.trans h1), hparts _ _ hhost]

/-! ### Addresses of two families -/

theorem SameAddr.mapped {sau : I2SockUnion} {sa : Sockaddr} (h : SameAddr sau sa) :
    (saFamily sau.1 = AF_INET6 ∧ in6IsAddrV4mapped (sin6Addr sau.1)) ↔ Mapped sa := by
  rw [Mapped, h.family]
  constructor
  · rintro ⟨h6, hm⟩
    exact ⟨h6, h.addr6 h6 ▸ hm⟩
  · rintro ⟨h6, hm⟩
    exact ⟨h6, (h.addr6 h6).symm ▸ hm⟩

theorem SameAddr.v4rec_host {sau : I2SockUnion} {sa : Sockaddr} (h : SameAddr sau sa)
    (hm : Mapped sa) :
    (v4rec sau).host = sa.host := by
  rw [I2util.v4rec_host, Sockaddr.host_mapped hm, h.addr6 hm.1]

theorem SameAddr.v4rec_port {sau : I2SockUnion} {sa : Sockaddr} (h : SameAddr sau sa) :
    sinPort (v4rec sau).bytes = sinPort sa.bytes := by
  rw [I2util.v4rec_port, h.port]

/-- A native IPv6 address is no IPv4 address. -/
theorem host_ne_of_not_mapped (h6 : saFamily sa1.bytes = AF_INET6) (hm : ¬Mapped sa1)
    (h4 : saFamily sa2.bytes = AF_INET) : sa1.host ≠ sa2.host := by
  rw [Sockaddr.host_v6 h6 hm, Sockaddr.host_v4 h4]
  intro h
  cases h

/-- A mapped address is taken first on the left and then on the right. -/
theorem i2SockAddrEqual.call_differ {sau1 sau2 : I2SockUnion}
    (hdiffer : saFamily sa1.bytes ≠ saFamily sa2.bytes)
    (h₁ : i2SockAddrToSockUnion sa1 sa1_len = some (some sau1)) (hs1 : SameAddr sau1 sa1)
    (h₂ : i2SockAddrToSockUnion sa2 sa2_len = some (some sau2)) (hs2 : SameAddr sau2 sa2) :
    i2SockAddrEqual.call chk_what ⟨sa1, sa1_len, sa2, sa2_len⟩ =
      if Mapped sa1 then .inl ⟨v4rec sau1, sizeofSockaddrIn, sa2, sa2_len⟩
      else if Mapped sa2 then .inl ⟨sa1, sa1_len, v4rec sau2, sizeofSockaddrIn⟩
      else .inr (some 0) := by
  rw [i2SockAddrEqual.call, if_pos (.inr hdiffer)]
  simp only [h₁, h₂]
  by_cases hm1 : Mapped sa1
  · rw [if_pos hm1, if_pos (hs1.mapped.mpr hm1)]
  · rw [if_neg hm1, if_neg (mt hs1.mapped.mp hm1)]
    by_cases hm2 : Mapped sa2
    · rw [if_pos hm2, if_pos (hs2.mapped.mpr hm2)]
    · rw [if_neg hm2, if_neg (mt hs2.mapped.mp hm2)]

/-- An IPv4 address and an IPv6 address that is not mapped. -/
def Apart (sa1 sa2 : Sockaddr) : Prop :=
  saFamily sa1.bytes = AF_INET ∧ saFamily sa2.bytes = AF_INET6 ∧ ¬Mapped sa2

instance : Decidable (Apart sa1 sa2) := inferInstanceAs (Decidable (_ ∧ _))

theorem Apart.host_ne (h : Apart sa1 sa2) : sa1.host ≠ sa2.host :=
  (host_ne_of_not_mapped h.2.1 h.2.2 h.1).symm

theorem i2SockAddrEqual_two_families (hc1 : Canonical sa1 sa1_len) (hc2 : Canonical sa2 sa2_len)
    (hdiffer : saFamily sa1.bytes ≠ saFamily sa2.bytes) :
    i2SockAddrEqual sa1 sa1_len sa2 sa2_len chk_what =
      some (if SameParts chk_what sa1 sa2 ∧ ¬Apart sa1 sa2 ∧ ¬Apart sa2 sa1 then 1 else 0) := by
  obtain ⟨sau1, h₁, hs1⟩ := hc1.holds
  obtain ⟨sau2, h₂, hs2⟩ := hc2.holds
  have hcall := @i2SockAddrEqual.call_differ chk_what _ _ _ _ _ _ hdiffer h₁ hs1 h₂ hs2
  by_cases hm1 : Mapped sa1
  · have h4 : saFamily sa2.bytes = AF_INET := by
      rcases hc2.family with ⟨h4, -⟩ | ⟨h6, -⟩
      · exact h4
      · exact absurd (hm1.1.trans h6.symm) hdiffer
    have hapart : ¬Apart sa1 sa2 ∧ ¬Apart sa2 sa1 :=
      ⟨fun h => not_mapped_v4 h.1 hm1, fun h => h.2.2 hm1⟩
    rw [if_pos hm1] at hcall
    rw [i2SockAddrEqual_again hcall, i2SockAddrEqual_same_family (v4rec_canonical sau1) hc2
      ((v4rec_family sau1).trans h4.symm)]
    refine congrArg some (if_congr ?_ rfl rfl)
    rw [SameParts, hs1.v4rec_host hm1, hs1.v4rec_port, SameParts]
    exact (and_iff_left hapart).symm
  · rw [if_neg hm1] at hcall
    by_cases hm2 : Mapped sa2
    · have h4 : saFamily sa1.bytes = AF_INET := by
        rcases hc1.family with ⟨h4, -⟩ | ⟨h6, -⟩
        · exact h4
        · exact absurd (h6.trans hm2.1.symm) hdiffer
      have hapart : ¬Apart sa1 sa2 ∧ ¬Apart sa2 sa1 :=
        ⟨fun h => h.2.2 hm2, fun h => not_mapped_v4 h.1 hm2⟩
      rw [if_pos hm2] at hcall
      rw [i2SockAddrEqual_again hcall, i2SockAddrEqual_same_family hc1 (v4rec_canonical sau2)
        (h4.trans (v4rec_family sau2).symm)]
      refine congrArg some (if_congr ?_ rfl rfl)
      rw [SameParts, hs2.v4rec_host hm2, hs2.v4rec_port, SameParts]
      exact (and_iff_left hapart).symm
    · have hapart : Apart sa1 sa2 ∨ Apart sa2 sa1 := by
        rcases hc1.family with ⟨h1, -⟩ | ⟨h1, -⟩ <;> rcases hc2.family with ⟨h2, -⟩ | ⟨h2, -⟩
        · exact absurd (h1.trans h2.symm) hdiffer
        · exact .inl ⟨h1, h2, hm2⟩
        · exact .inr ⟨h2, h1, hm1⟩
        · exact absurd (h1.trans h2.symm) hdiffer
      rw [if_neg hm2] at hcall
      rw [i2SockAddrEqual_returns hcall, if_neg fun h => hapart.elim h.2.1 h.2.2]

theorem i2SockAddrEqual_parts (hc1 : Canonical sa1 sa1_len) (hc2 : Canonical sa2 sa2_len) :
    i2SockAddrEqual sa1 sa1_len sa2 sa2_len chk_what =
      some (if SameParts chk_what sa1 sa2 ∧ ¬Apart sa1 sa2 ∧ ¬Apart sa2 sa1 then 1 else 0) := by
  by_cases hfamily : saFamily sa1.bytes = saFamily sa2.bytes
  · have hapart : ¬Apart sa1 sa2 ∧ ¬Apart sa2 sa1 := by
      constructor
      · rintro ⟨h4, h6, -⟩
        rw [h4, h6] at hfamily
        cases hfamily
      · rintro ⟨h4, h6, -⟩
        rw [h4, h6] at hfamily
        cases hfamily
    rw [i2SockAddrEqual_same_family hc1 hc2 hfamily]
    exact congrArg some (if_congr (and_iff_left hapart).symm rfl rfl)
  · exact i2SockAddrEqual_two_families hc1 hc2 hfamily

/-- Where the addresses are looked at. -/
theorem i2SockAddrEqual_eq (hc1 : Canonical sa1 sa1_len) (hc2 : Canonical sa2 sa2_len)
    (haddr : chk_what &&& I2SADDR_ADDR ≠ 0) :
    i2SockAddrEqual sa1 sa1_len sa2 sa2_len chk_what =
      some (if SameHost chk_what sa1 sa2 then 1 else 0) := by
  rw [i2SockAddrEqual_parts hc1 hc2]
  refine congrArg some (if_congr ?_ rfl rfl)
  constructor
  · rintro ⟨hparts, -⟩
    exact ⟨hparts.1 haddr, hparts.2⟩
  · intro h
    exact ⟨⟨fun _ => h.1, h.2⟩, fun hapart => hapart.host_ne h.1,
      fun hapart => hapart.host_ne h.1.symm⟩

theorem SameHost.symm (h : SameHost chk_what sa1 sa2) : SameHost chk_what sa2 sa1 :=
  ⟨h.1.symm, fun hport => (h.2 hport).symm⟩

/-- The two addresses have the family, the port and the address in common, so they
differ in the flow label and the scope only. -/
structure UpToScope (sa sa' : Sockaddr) : Prop where
  family : saFamily sa'.bytes = saFamily sa.bytes
  port : sinPort sa'.bytes = sinPort sa.bytes
  addr : saFamily sa.bytes = AF_INET → sinAddr sa'.bytes = sinAddr sa.bytes
  addr6 : saFamily sa.bytes = AF_INET6 → sin6Addr sa'.bytes = sin6Addr sa.bytes

theorem UpToScope.host {sa sa' : Sockaddr} {sa_len : ℕ} (h : UpToScope sa sa')
    (hc : Canonical sa sa_len) : sa'.host = sa.host := by
  rcases hc.family with ⟨h4, -⟩ | ⟨h6, -⟩
  · rw [Sockaddr.host_v4 h4, Sockaddr.host_v4 (h.family.trans h4), h.addr h4]
  · exact (host_eq_iff_v6 (h.family.trans h6) h6).mpr (h.addr6 h6)

theorem UpToScope.canonical {sa sa' : Sockaddr} {sa_len : ℕ} (h : UpToScope sa sa')
    (hc : Canonical sa sa_len) (hroom : sa_len ≤ sa'.bytes.length) : Canonical sa' sa_len where
  family := by
    rw [h.family]
    exact hc.family
  room := hroom

/-- `I2SockAddrEqual` ends and tells whether two addresses of the lengths of their
families are the same after mapped addresses are turned into IPv4 addresses, with
their ports if these are looked at. The order of the addresses, the flow label and the
scope do not matter. -/
theorem sock_addr_equal (hc1 : Canonical sa1 sa1_len) (hc2 : Canonical sa2 sa2_len)
    (haddr : chk_what &&& I2SADDR_ADDR ≠ 0) :
    i2SockAddrEqual sa1 sa1_len sa2 sa2_len chk_what =
        some (if SameHost chk_what sa1 sa2 then 1 else 0) ∧
      i2SockAddrEqual sa2 sa2_len sa1 sa1_len chk_what =
        i2SockAddrEqual sa1 sa1_len sa2 sa2_len chk_what ∧
      ∀ sa1', UpToScope sa1 sa1' → sa1_len ≤ sa1'.bytes.length →
        i2SockAddrEqual sa1' sa1_len sa2 sa2_len chk_what =
          i2SockAddrEqual sa1 sa1_len sa2 sa2_len chk_what := by
  refine ⟨i2SockAddrEqual_eq hc1 hc2 haddr, ?_, ?_⟩
  · rw [i2SockAddrEqual_eq hc1 hc2 haddr, i2SockAddrEqual_eq hc2 hc1 haddr]
    exact congrArg some (if_congr ⟨SameHost.symm, SameHost.symm⟩ rfl rfl)
  · intro sa1' hsame hroom
    rw [i2SockAddrEqual_eq hc1 hc2 haddr,
      i2SockAddrEqual_eq (hsame.canonical hc1 hroom) hc2 haddr]
    refine congrArg some (if_congr ?_ rfl rfl)
    rw [SameHost, hsame.host hc1, hsame.port, SameHost]

def loopbackV4 : Sockaddr := ⟨[2, 0, 0, 80, 127, 0, 0, 1] ++ List.replicate 8 0, by decide⟩

def loopbackMapped : Sockaddr where
  bytes := [10, 0, 0, 80] ++ (List.replicate 14 0 ++ [0xff, 0xff, 127, 0, 0, 1, 0, 0, 0, 0])
  room := by decide

theorem sock_addr_equal_mapped :
    i2SockAddrEqual loopbackV4 16 loopbackMapped 28 I2SADDR_ALL = some 1 := by
  have hequal := (@sock_addr_equal I2SADDR_ALL loopbackV4 loopbackMapped 16 28
    ⟨by decide, by decide⟩ ⟨by decide, by decide⟩ (by decide)).1
  rw [hequal, if_pos (by decide)]

end I2util
