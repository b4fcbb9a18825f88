import I2util.Addr.Calls
import I2util.Addr.Equal

/-!
`I2SockAddrIsLoopback`, and the records that `I2AddrBySAddr` makes.
-/

namespace I2util

/-! ### The records that `I2AddrBySAddr` makes -/

def I2AddrRec.ofSAddr (p family saddrlen : ℕ) (socktype protocol : ℤ) : I2AddrRec :=
  { I2AddrRec.unset with
    saddr := some p, saddrlen := saddrlen,
    ai := [⟨0, family, socktype, protocol, saddrlen, some p, none⟩], ai_free := true,
    so_type := socktype, so_protocol := protocol }

theorem i2AddrBySAddr.build_eq_some {h : Heap UInt8} {saddr : List UInt8} {saddrlen : ℕ}
    {socktype protocol : ℤ} {addr : I2Addr}
    (hb : i2AddrBySAddr.build h saddr saddrlen socktype protocol = some (some addr)) :
    saddrlen ≤ saddr.length ∧ ∃ p heap,
      addr = ⟨.ofSAddr p (saFamily saddr) saddrlen socktype protocol, heap⟩ ∧
        heap.mem p = some (saddr.take saddrlen) := by
  rw [i2AddrBySAddr.build] at hb
  match ha : i2AddrAlloc h with
  | none => simp [ha] at hb
  | some new =>
      obtain rfl := i2AddrAlloc_eq_some ha
      simp only [ha] at hb
      by_cases hai : h.permit.2.permit.1
      · rw [if_pos hai] at hb
        match hp : h.permit.2.permit.2.alloc (List.replicate saddrlen 0) with
        | (none, _) => simp [hp] at hb
        | (some p, h') =>
            simp only [hp] at hb
            obtain ⟨cells, hread, hnew⟩ := Option.map_eq_some_iff.mp hb
            obtain ⟨hroom, hcells⟩ := Memory.read_eq_some hread
            obtain ⟨rfl, rfl⟩ := Heap.alloc_eq_some hp
            obtain rfl := Option.some.inj hnew
            refine ⟨by omega, _, _, rfl, ?_⟩
            rw [Heap.set_mem_self (Heap.store_mem_self _ _), hcells, List.drop_zero]
      · rw [if_neg hai] at hb
        cases hb

/-- The address of the new record is the address itself, or the IPv4 address of a
mapped one. -/
theorem i2AddrBySAddr_eq_some {h : Heap UInt8} {saddr : Sockaddr} {saddrlen : ℕ}
    {socktype protocol : ℤ} {addr : I2Addr}
    (hb : i2AddrBySAddr h saddr saddrlen socktype protocol = some (some addr)) :
    i2AddrBySAddr.build h saddr.bytes saddrlen socktype protocol = some (some addr) ∧
        ¬Mapped saddr ∨
      i2AddrBySAddr.build h (v4bytes (saddr.bytes.take sizeofSockaddrIn6)) sizeofSockaddrIn socktype
          protocol = some (some addr) ∧
        Mapped saddr ∧ sizeofSockaddrIn6 ≤ saddr.bytes.length := by
  rw [i2AddrBySAddr] at hb
  by_cases h6 : saFamily saddr.bytes = AF_INET6
  · rw [if_pos h6] at hb
    by_cases hlen : saddrlen < sizeofSockaddrIn6
    · rw [if_pos hlen] at hb
      cases hb
    · rw [if_neg hlen] at hb
      obtain ⟨v6addr, hread, hbuild⟩ := Option.bind_eq_some_iff.mp hb
      obtain ⟨hroom, hv6⟩ := Memory.read_eq_some hread
      have haddr : sin6Addr v6addr.1 = sin6Addr saddr.bytes := by
        rw [hv6, List.drop_zero, sin6Addr, field_take (by decide)]
        rfl
      by_cases hm : in6IsAddrV4mapped (sin6Addr v6addr.1)
      · rw [if_pos hm, hv6] at hbuild
        exact .inr ⟨hbuild, ⟨h6, haddr ▸ hm⟩, by omega⟩
      · rw [if_neg hm] at hbuild
        exact .inl ⟨hbuild, fun h => hm (haddr ▸ h.2)⟩
  · rw [if_neg h6] at hb
    split at hb
    · exact .inl ⟨hb, fun h => h6 h.1⟩
    · cases hb

/-! ### Loopback addresses -/

def Host.Loopback (host : Host) : Prop :=
  host = .v4 inaddrLoopback ∨ host = .v6 (List.replicate 15 0 ++ [1])

instance (host : Host) : Decidable host.Loopback := inferInstanceAs (Decidable (_ ∨ _))

theorem i2SockAddrIsLoopback.call_decreases :
    Loop.Decreases i2SockAddrIsLoopback.call
      fun p => if sizeofSockaddrIn6 ≤ p.2 then 1 else 0 := by
  intro p p' h
  rw [i2SockAddrIsLoopback.call] at h
  match hu : i2SockAddrToSockUnion p.1 p.2 with
  | none | some none => simp [hu] at h
  | some (some sau) =>
      simp only [hu] at h
      by_cases h6 : saFamily sau.1 = AF_INET6
      · have hlen := i2SockAddrToSockUnion_len6 hu (i2SockAddrToSockUnion_family hu ▸ h6)
        by_cases hm : in6IsAddrV4mapped (sin6Addr sau.1)
        · rw [if_pos h6, if_pos hm] at h
          obtain rfl := Sum.inl.inj h
          show (if sizeofSockaddrIn6 ≤ sizeofSockaddrIn then 1 else 0) < ite _ 1 0
          rw [if_pos hlen]
          decide
        · rw [if_pos h6, if_neg hm] at h
          cases h
      · rw [if_neg h6] at h
        split at h <;> cases h

variable {sa : Sockaddr} {sa_len : ℕ}

theorem i2SockAddrIsLoopback_eq (hc : Canonical sa sa_len) (hm : ¬Mapped sa) :
    i2SockAddrIsLoopback sa sa_len = some (if sa.host.Loopback then 1 else 0) := by
  obtain ⟨sau, hu, hs⟩ := hc.holds
  have hreturn : ∀ r, i2SockAddrIsLoopback.call (sa, sa_len) = .inr (some r) →
      i2SockAddrIsLoopback sa sa_len = some r := by
    intro r hcall
    rw [i2SockAddrIsLoopback, Loop.whileLoop_leaves hcall]
    rfl
  apply hreturn
  rw [i2SockAddrIsLoopback.call]
  simp only [hu]
  rcases hc.family with ⟨h4, -⟩ | ⟨h6, -⟩
  · have hn6 : ¬saFamily sau.1 = AF_INET6 := by
      rw [hs.family, h4]
      decide
    have hloop : sinAddr sa.bytes = inaddrLoopback ↔ sa.host.Loopback := by
      rw [Host.Loopback, Sockaddr.host_v4 h4]
      simp
    rw [if_neg hn6, if_pos (hs.family.trans h4), hs.addr]
    exact congrArg (fun r => Sum.inr (some r)) (if_congr hloop rfl rfl)
  · have hnm : ¬in6IsAddrV4mapped (sin6Addr sau.1) := by
      rw [hs.addr6 h6]
      exact fun h => hm ⟨h6, h⟩
    have hloop : in6IsAddrLoopback (sin6Addr sa.bytes) = true ↔ sa.host.Loopback := by
      rw [Host.Loopback, Sockaddr.host_v6 h6 hm, in6IsAddrLoopback]
      simp
    rw [if_pos (hs.family.trans h6), if_neg hnm, hs.addr6 h6]
    exact congrArg (fun r => Sum.inr (some r)) (if_congr hloop rfl rfl)

/-- For a mapped address the function calls itself with an address of the family
`AF_INET6` and the length of an IPv4 address, which is an error. -/
theorem i2SockAddrIsLoopback_mapped (hc : Canonical sa sa_len) (hm : Mapped sa) :
    i2SockAddrIsLoopback sa sa_len = some (-1) := by
  obtain ⟨sau, hu, hs⟩ := hc.holds
  have h6 : saFamily sau.1 = AF_INET6 := hs.family.trans hm.1
  have hagain : i2SockAddrIsLoopback.call (sa, sa_len) =
      .inl (I2SockUnion.sa sau, sizeofSockaddrIn) := by
    rw [i2SockAddrIsLoopback.call]
    simp only [hu]
    rw [if_pos h6, if_pos (hs.mapped.mpr hm).2]
  have herror : i2SockAddrIsLoopback.call (I2SockUnion.sa sau, sizeofSockaddrIn) =
      .inr (some (-1)) := by
    have hfamily : saFamily (I2SockUnion.sa sau).bytes = AF_INET6 := h6
    have hnull : i2SockAddrToSockUnion (I2SockUnion.sa sau) sizeofSockaddrIn = some none := by
      rw [i2SockAddrToSockUnion, if_pos hfamily, if_pos (by decide)]
    rw [i2SockAddrIsLoopback.call]
    simp only [hnull]
  rw [i2SockAddrIsLoopback, Loop.whileLoop_goes_on i2SockAddrIsLoopback.call_decreases hagain,
    Loop.whileLoop_leaves herror]
  rfl

/-- The address in the record is the one it was made of. -/
theorem i2AddrIsLoopback_eq {h : Heap UInt8} {socktype protocol : ℤ} {addr : I2Addr}
    (hc : Canonical sa sa_len) (hm : ¬Mapped sa)
    (hb : i2AddrBySAddr h sa sa_len socktype protocol = some (some addr)) :
    i2AddrIsLoopback addr = i2SockAddrIsLoopback sa sa_len := by
  rcases i2AddrBySAddr_eq_some hb with ⟨hbuild, -⟩ | ⟨-, hmapped, -⟩
  · obtain ⟨hroom, p, heap, rfl, hmem⟩ := i2AddrBySAddr.build_eq_some hbuild
    have hlen : 16 ≤ sa_len := by
      rcases hc.family with ⟨-, rfl⟩ | ⟨-, rfl⟩ <;> decide
    have htake : (sa.bytes.take sa_len).length = sa_len := List.length_take_of_le hroom
    have hroom' : 2 ≤ (sa.bytes.take sa_len).length := by omega
    have hsame : UpToScope sa ⟨sa.bytes.take sa_len, hroom'⟩ := by
      refine ⟨?_, field_take (by omega), fun _ => field_take (by omega), ?_⟩
      · rw [saFamily, field_take (by omega)]
        rfl
      · intro h6
        rcases hc.family with ⟨h4, -⟩ | ⟨-, rfl⟩
        · rw [h6] at h4
          cases h4
        · exact field_take (by decide)
    have hnot : ¬Mapped ⟨sa.bytes.take sa_len, hroom'⟩ := by
      rintro ⟨h6, hmapped⟩
      have h6' : saFamily sa.bytes = AF_INET6 := hsame.family.symm.trans h6
      exact hm ⟨h6', hsame.addr6 h6' ▸ hmapped⟩
    have hblock :
        I2Addr.sockaddr ⟨.ofSAddr p (saFamily sa.bytes) sa_len socktype protocol, heap⟩ p =
          some ⟨sa.bytes.take sa_len, hroom'⟩ := by
      rw [I2Addr.sockaddr, hmem]
      exact dif_pos hroom'
    show (I2Addr.sockaddr _ p).bind _ = _
    rw [hblock]
    show i2SockAddrIsLoopback _ sa_len = _
    rw [i2SockAddrIsLoopback_eq hc hm,
      i2SockAddrIsLoopback_eq (hsame.canonical hc (Nat.le_of_eq htake.symm)) hnot, hsame.host hc]
  · exact absurd hmapped hm

/-- What is asked for: the sign of the result tells whether the address is a loopback
address, and a record made of the address gives the same result. -/
structure LoopbackRight (sa : Sockaddr) (sa_len : ℕ) : Prop where
  result : ∃ r, i2SockAddrIsLoopback sa sa_len = some r ∧
    if sa.host.Loopback then 0 < r else r = 0
  record : ∀ h socktype protocol addr,
    i2AddrBySAddr h sa sa_len socktype protocol = some (some addr) →
      i2AddrIsLoopback addr = i2SockAddrIsLoopback sa sa_len

/-- `I2SockAddrIsLoopback` is right for the addresses that are not mapped, and only for
these. -/
theorem loopback_iff (hc : Canonical sa sa_len) : LoopbackRight sa sa_len ↔ ¬Mapped sa := by
  constructor
  · rintro ⟨⟨r, hr, hsign⟩, -⟩ hm
    rw [i2SockAddrIsLoopback_mapped hc hm] at hr
    obtain rfl := Option.some.inj hr
    split at hsign
    · exact absurd hsign (by decide)
    · exact absurd hsign (by decide)
  · intro hm
    refine ⟨⟨_, i2SockAddrIsLoopback_eq hc hm, ?_⟩, fun h socktype protocol addr hb =>
      i2AddrIsLoopback_eq hc hm hb⟩
    by_cases hl : sa.host.Loopback
    · rw [if_pos hl, if_pos hl]
      decide
    · rw [if_neg hl, if_neg hl]

theorem loopback_127_0_0_1 : LoopbackRight loopbackV4 16 :=
  (@loopback_iff loopbackV4 16 ⟨by decide, by decide⟩).mpr (by decide)

theorem not_loopback_mapped : ¬LoopbackRight loopbackMapped 28 := by
  rintro ⟨⟨r, hr, hsign⟩, -⟩
  rw [i2SockAddrIsLoopback_mapped ⟨by decide, by decide⟩ (by decide)] at hr
  obtain rfl := Option.some.inj hr
  rw [if_pos (by decide)] at hsign
  exact absurd hsign (by decide)

end I2util
