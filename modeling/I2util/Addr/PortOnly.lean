import Mathlib.Data.Set.Basic
import I2util.Addr.Equal

/-!
`I2SockAddrEqual` as a relation, when the addresses are not looked at.

An IPv4 address never matches a native IPv6 address. A mapped address can match both.
-/

namespace I2util

abbrev Endpoint := Sockaddr × ℕ

/-- `I2SockAddrEqual(a, b, chk_what) > 0`. -/
def Matches (chk_what : UInt32) (a b : Endpoint) : Prop :=
  ∃ r, i2SockAddrEqual a.1 a.2 b.1 b.2 chk_what = some r ∧ 0 < r

def SamePort (chk_what : UInt32) (a b : Endpoint) : Prop :=
  chk_what &&& I2SADDR_PORT ≠ 0 → sinPort a.1.bytes = sinPort b.1.bytes

structure ThreeKinds (chk_what : UInt32) (a b c : Endpoint) : Prop where
  v4 : saFamily a.1.bytes = AF_INET
  mapped : Mapped b.1
  native : saFamily c.1.bytes = AF_INET6 ∧ ¬Mapped c.1
  port : SamePort chk_what a b ∧ SamePort chk_what b c

variable {chk_what : UInt32} {a b c : Endpoint}

theorem SamePort.symm (h : SamePort chk_what a b) : SamePort chk_what b a :=
  fun hport => (h hport).symm

theorem SamePort.trans (h₁ : SamePort chk_what a b) (h₂ : SamePort chk_what b c) :
    SamePort chk_what a c :=
  fun hport => (h₁ hport).trans (h₂ hport)

/-- Without the addresses, the kinds are still looked at. -/
theorem matches_iff (hchk : chk_what &&& I2SADDR_ADDR = 0) (ha : Canonical a.1 a.2)
    (hb : Canonical b.1 b.2) :
    Matches chk_what a b ↔ SamePort chk_what a b ∧ ¬Apart a.1 b.1 ∧ ¬Apart b.1 a.1 := by
  have hparts : SameParts chk_what a.1 b.1 ↔ SamePort chk_what a b :=
    and_iff_right fun haddr => absurd hchk haddr
  rw [Matches, i2SockAddrEqual_parts ha hb, ← hparts]
  constructor
  · rintro ⟨r, hr, hpos⟩
    obtain rfl := Option.some.inj hr
    by_contra hno
    rw [if_neg hno] at hpos
    exact absurd hpos (by decide)
  · intro h
    exact ⟨1, congrArg some (if_pos h), by decide⟩

theorem matches_refl (hchk : chk_what &&& I2SADDR_ADDR = 0) (ha : Canonical a.1 a.2) :
    Matches chk_what a a := by
  have hapart : ¬Apart a.1 a.1 := by
    rintro ⟨h4, h6, -⟩
    rw [h4] at h6
    cases h6
  exact (matches_iff hchk ha ha).mpr ⟨fun _ => rfl, hapart, hapart⟩

theorem Matches.symm (hchk : chk_what &&& I2SADDR_ADDR = 0) (ha : Canonical a.1 a.2)
    (hb : Canonical b.1 b.2) (h : Matches chk_what a b) : Matches chk_what b a := by
  obtain ⟨hport, hab, hba⟩ := (matches_iff hchk ha hb).mp h
  exact (matches_iff hchk hb ha).mpr ⟨hport.symm, hba, hab⟩

/-- What is between an IPv4 address and a native one is a mapped address. -/
theorem ThreeKinds.of_matches (hchk : chk_what &&& I2SADDR_ADDR = 0) (ha : Canonical a.1 a.2)
    (hb : Canonical b.1 b.2) (hc : Canonical c.1 c.2) (hab : Matches chk_what a b)
    (hbc : Matches chk_what b c) (hapart : Apart a.1 c.1) : ThreeKinds chk_what a b c := by
  obtain ⟨hport₁, hn₁, -⟩ := (matches_iff hchk ha hb).mp hab
  obtain ⟨hport₂, hn₂, -⟩ := (matches_iff hchk hb hc).mp hbc
  have h6 : saFamily b.1.bytes = AF_INET6 := by
    rcases hb.family with ⟨h4, -⟩ | ⟨h6, -⟩
    · exact absurd ⟨h4, hapart.2⟩ hn₂
    · exact h6
  have hm : Mapped b.1 := by
    by_contra hm
    exact hn₁ ⟨hapart.1, h6, hm⟩
  exact ⟨hapart.1, hm, hapart.2, hport₁, hport₂⟩

theorem ThreeKinds.matches (hchk : chk_what &&& I2SADDR_ADDR = 0) (ha : Canonical a.1 a.2)
    (hb : Canonical b.1 b.2) (hc : Canonical c.1 c.2) (h : ThreeKinds chk_what a b c) :
    Matches chk_what a b ∧ Matches chk_what b c ∧ ¬Matches chk_what a c := by
  have hno4 : ¬saFamily b.1.bytes = AF_INET := by
    rw [h.mapped.1]
    decide
  have hno6 : ¬saFamily a.1.bytes = AF_INET6 := by
    rw [h.v4]
    decide
  refine ⟨(matches_iff hchk ha hb).mpr ⟨h.port.1, ?_, ?_⟩,
    (matches_iff hchk hb hc).mpr ⟨h.port.2, ?_, ?_⟩, fun hac => ?_⟩
  · exact fun hapart => hapart.2.2 h.mapped
  · exact fun hapart => hno4 hapart.1
  · exact fun hapart => hno4 hapart.1
  · exact fun hapart => hapart.2.2 h.mapped
  · exact ((matches_iff hchk ha hc).mp hac).2.1 ⟨h.v4, h.native⟩

/-- On a set of addresses the relation is an equivalence if and only if no three of them
are of the three kinds and have one port. -/
theorem matches_equivalence_iff (hchk : chk_what &&& I2SADDR_ADDR = 0) {S : Set Endpoint}
    (hS : ∀ a ∈ S, Canonical a.1 a.2) :
    Equivalence (fun a b : S => Matches chk_what a b) ↔
      ¬∃ a ∈ S, ∃ b ∈ S, ∃ c ∈ S, ThreeKinds chk_what a b c := by
  constructor
  · rintro hequiv ⟨a, ha, b, hb, c, hc, h⟩
    obtain ⟨hab, hbc, hac⟩ := h.matches hchk (hS a ha) (hS b hb) (hS c hc)
    exact hac (@Equivalence.trans S _ hequiv ⟨a, ha⟩ ⟨b, hb⟩ ⟨c, hc⟩ hab hbc)
  · intro hno
    refine ⟨fun a => matches_refl hchk (hS a a.2),
      fun {a b} hab => hab.symm hchk (hS a a.2) (hS b b.2), fun {a b c} hab hbc => ?_⟩
    have ha := hS a a.2
    have hb := hS b b.2
    have hc := hS c c.2
    have hport := ((matches_iff hchk ha hb).mp hab).1.trans ((matches_iff hchk hb hc).mp hbc).1
    refine (matches_iff hchk ha hc).mpr ⟨hport, fun hapart => ?_, fun hapart => ?_⟩
    · exact hno ⟨a, a.2, b, b.2, c, c.2, .of_matches hchk ha hb hc hab hbc hapart⟩
    · exact hno ⟨c, c.2, b, b.2, a, a.2, .of_matches hchk hc hb ha (hbc.symm hchk hb hc)
        (hab.symm hchk ha hb) hapart⟩

theorem matches_equivalence_mapped :
    Equivalence (fun a b : ({(loopbackV4, 16), (loopbackMapped, 28)} : Set Endpoint) =>
        Matches I2SADDR_PORT a b) ↔
      ¬∃ a ∈ ({(loopbackV4, 16), (loopbackMapped, 28)} : Set Endpoint),
        ∃ b ∈ ({(loopbackV4, 16), (loopbackMapped, 28)} : Set Endpoint),
          ∃ c ∈ ({(loopbackV4, 16), (loopbackMapped, 28)} : Set Endpoint),
            ThreeKinds I2SADDR_PORT a b c := by
  apply matches_equivalence_iff (by decide)
  rintro a (rfl | rfl)
  · exact ⟨by decide, by decide⟩
  · exact ⟨by decide, by decide⟩

def loopbackV6 : Sockaddr where
  bytes := [10, 0, 0, 80] ++ (List.replicate 19 0 ++ [1, 0, 0, 0, 0])
  room := by decide

/-- With the port 80, `127.0.0.1` matches its mapped form, which matches `::1`. -/
theorem not_equivalence_port :
    ¬Equivalence (fun a b : {a : Endpoint // Canonical a.1 a.2} =>
      Matches I2SADDR_PORT a.1 b.1) := by
  intro hequiv
  have hv4 : Canonical loopbackV4 16 := ⟨by decide, by decide⟩
  have hmapped : Canonical loopbackMapped 28 := ⟨by decide, by decide⟩
  have hv6 : Canonical loopbackV6 28 := ⟨by decide, by decide⟩
  have hmatch := @Equivalence.trans _ _ hequiv ⟨(loopbackV4, 16), hv4⟩
    ⟨(loopbackMapped, 28), hmapped⟩ ⟨(loopbackV6, 28), hv6⟩ ⟨1, by rfl, by decide⟩
    ⟨1, by rfl, by decide⟩
  obtain ⟨r, hr, hpos⟩ := hmatch
  rw [show i2SockAddrEqual loopbackV4 16 loopbackV6 28 I2SADDR_PORT = some 0 by rfl] at hr
  obtain rfl := Option.some.inj hr
  exact absurd hpos (by decide)

end I2util
