import I2util.Library.Loop
import I2util.Library.Memory

/-!
`saddr.c`: socket addresses, as blocks of bytes.

The layout is the one of a little-endian machine whose `struct sockaddr` has no
`sa_len`. An access outside a block has no result.
-/

namespace I2util

abbrev AF_UNIX : ℕ := 1
abbrev AF_INET : ℕ := 2
abbrev AF_INET6 : ℕ := 10

abbrev sizeofSockaddrIn : ℕ := 16
abbrev sizeofSockaddrIn6 : ℕ := 28
abbrev sizeofSockUnion : ℕ := 128

/-- The memory that a `struct sockaddr *` points to. There is room for the family. -/
structure Sockaddr where
  bytes : List UInt8
  room : 2 ≤ bytes.length

def field (m : List UInt8) (i k : ℕ) : List UInt8 := (m.drop i).take k

def saFamily (m : List UInt8) : ℕ := (field m 0 2).foldr (fun b n => b.toNat + 256 * n) 0

/-- `sin_port` and `sin6_port`, which are at the same offset. -/
def sinPort (m : List UInt8) : List UInt8 := field m 2 2

def sinAddr (m : List UInt8) : List UInt8 := field m 4 4

def sin6Addr (m : List UInt8) : List UInt8 := field m 8 16

def in6IsAddrV4mapped (addr : List UInt8) : Bool :=
  addr.take 12 = List.replicate 10 0 ++ [0xff, 0xff]

def in6IsAddrLoopback (addr : List UInt8) : Bool := addr = List.replicate 15 0 ++ [1]

def inaddrLoopback : List UInt8 := [127, 0, 0, 1]

abbrev I2SockUnion := List.Vector UInt8 sizeofSockUnion

def I2SockUnion.sa (sau : I2SockUnion) : Sockaddr := ⟨sau.1, by rw [sau.2]; decide⟩

/-- `none` inside for a `NULL` result. -/
def i2SockAddrToSockUnion (sa : Sockaddr) (sa_len : ℕ) : Option (Option I2SockUnion) :=
  let sau_mem : I2SockUnion := List.Vector.replicate sizeofSockUnion 0
  if saFamily sa.bytes = AF_INET6 then
    if sa_len < sizeofSockaddrIn6 then some none
    else (Memory.copy sau_mem 0 sa.bytes 0 sa_len).map some
  else if saFamily sa.bytes = AF_INET then
    if sa_len < sizeofSockaddrIn then some none
    else (Memory.copy sau_mem 0 sa.bytes 0 sa_len).map some
  else some none

def v4bytes (m : List UInt8) : List UInt8 :=
  [2, 0] ++ (sinPort m ++ ((sin6Addr m).drop 12 ++ List.replicate 8 0))

def v4rec (sau : I2SockUnion) : Sockaddr where
  bytes := v4bytes sau.1
  room := by
    rw [v4bytes, List.length_append]
    exact Nat.le_add_right _ _

/-- The length that is left in `sa_len_in_out` and the memory of `sa_mem`; `none` inside
for a `NULL` result. -/
def i2SockUnionToSockAddr (sau : I2SockUnion) (sa_len : ℕ) (sa_mem : List UInt8) :
    Option (Option (ℕ × List UInt8)) :=
  let fill := fun len : ℕ =>
    (Memory.copy (Memory.block sa_mem) 0 sau.1 0 len).map fun m =>
      some (len, m.1)
  if saFamily sau.1 = AF_INET6 then
    if sa_len < sizeofSockaddrIn6 then some none else fill sizeofSockaddrIn6
  else if saFamily sau.1 = AF_INET then
    if sa_len < sizeofSockaddrIn then some none else fill sizeofSockaddrIn
  else some none

abbrev I2SADDR_ADDR : UInt32 := 0x1
abbrev I2SADDR_PORT : UInt32 := I2SADDR_ADDR <<< 1
abbrev I2SADDR_ALL : UInt32 := I2SADDR_ADDR ||| I2SADDR_PORT

structure SockAddrPair where
  sa1 : Sockaddr
  sa1_len : ℕ
  sa2 : Sockaddr
  sa2_len : ℕ

def i2SockAddrEqual.same (chk_what : UInt32) (sau1 sau2 : I2SockUnion) : ℤ :=
  if saFamily sau1.1 = AF_INET6 then
    if chk_what &&& I2SADDR_ADDR ≠ 0 ∧ sin6Addr sau1.1 ≠ sin6Addr sau2.1 then 0
    else if chk_what &&& I2SADDR_PORT ≠ 0 ∧ sinPort sau1.1 ≠ sinPort sau2.1 then 0
    else 1
  else if saFamily sau1.1 = AF_INET then
    if chk_what &&& I2SADDR_ADDR ≠ 0 ∧ sinAddr sau1.1 ≠ sinAddr sau2.1 then 0
    else if chk_what &&& I2SADDR_PORT ≠ 0 ∧ sinPort sau1.1 ≠ sinPort sau2.1 then 0
    else 1
  else -1

/-- One call: it returns, or it calls itself as the last thing it does. -/
def i2SockAddrEqual.call (chk_what : UInt32) (p : SockAddrPair) : SockAddrPair ⊕ Option ℤ :=
  if p.sa1_len ≠ p.sa2_len ∨ saFamily p.sa1.bytes ≠ saFamily p.sa2.bytes then
    match i2SockAddrToSockUnion p.sa1 p.sa1_len with
    | none => .inr none
    | some none => .inr (some (-1))
    | some (some sau1) =>
        if saFamily sau1.1 = AF_INET6 ∧ in6IsAddrV4mapped (sin6Addr sau1.1) then
          .inl { p with sa1 := v4rec sau1, sa1_len := sizeofSockaddrIn }
        else
          match i2SockAddrToSockUnion p.sa2 p.sa2_len with
          | none => .inr none
          | some none => .inr (some (-1))
          | some (some sau2) =>
              if saFamily sau2.1 = AF_INET6 ∧ in6IsAddrV4mapped (sin6Addr sau2.1) then
                .inl { p with sa2 := v4rec sau2, sa2_len := sizeofSockaddrIn }
              else .inr (some 0)
  else
    match i2SockAddrToSockUnion p.sa1 p.sa1_len with
    | none => .inr none
    | some none => .inr (some (-1))
    | some (some sau1) =>
        match i2SockAddrToSockUnion p.sa2 p.sa2_len with
        | none => .inr none
        | some none => .inr (some (-1))
        | some (some sau2) => .inr (some (i2SockAddrEqual.same chk_what sau1 sau2))

/-- The addresses that are still of the family `AF_INET6`. -/
def SockAddrPair.size (p : SockAddrPair) : ℕ :=
  (if saFamily p.sa1.bytes = AF_INET6 then 1 else 0) +
    (if saFamily p.sa2.bytes = AF_INET6 then 1 else 0)

def i2SockAddrEqual (sa1 : Sockaddr) (sa1_len : ℕ) (sa2 : Sockaddr) (sa2_len : ℕ)
    (chk_what : UInt32) : Option ℤ :=
  (Loop.whileLoop (i2SockAddrEqual.call chk_what) SockAddrPair.size
    ⟨sa1, sa1_len, sa2, sa2_len⟩).join

/-- One call. For a mapped address the call is made again with the address itself, cut
to the length of the record that was built for it. -/
def i2SockAddrIsLoopback.call (p : Sockaddr × ℕ) : (Sockaddr × ℕ) ⊕ Option ℤ :=
  match i2SockAddrToSockUnion p.1 p.2 with
  | none => .inr none
  | some none => .inr (some (-1))
  | some (some sau) =>
      if saFamily sau.1 = AF_INET6 then
        if in6IsAddrV4mapped (sin6Addr sau.1) then .inl (I2SockUnion.sa sau, sizeofSockaddrIn)
        else .inr (some (if in6IsAddrLoopback (sin6Addr sau.1) then 1 else 0))
      else if saFamily sau.1 = AF_INET then
        .inr (some (if sinAddr sau.1 = inaddrLoopback then 1 else 0))
      else .inr (some (-1))

def i2SockAddrIsLoopback (sa : Sockaddr) (sa_len : ℕ) : Option ℤ :=
  (Loop.whileLoop i2SockAddrIsLoopback.call (fun p => if sizeofSockaddrIn6 ≤ p.2 then 1 else 0)
    (sa, sa_len)).join

/-! ### What an address means -/

/-- The address itself, with a mapped address turned into its IPv4 address. -/
inductive Host where
  | v4 (addr : List UInt8)
  | v6 (addr : List UInt8)
  deriving DecidableEq

def Mapped (sa : Sockaddr) : Prop :=
  saFamily sa.bytes = AF_INET6 ∧ in6IsAddrV4mapped (sin6Addr sa.bytes)

instance (sa : Sockaddr) : Decidable (Mapped sa) :=
  inferInstanceAs (Decidable (_ ∧ _))

def Sockaddr.host (sa : Sockaddr) : Host :=
  if Mapped sa then .v4 ((sin6Addr sa.bytes).drop 12)
  else if saFamily sa.bytes = AF_INET6 then .v6 (sin6Addr sa.bytes)
  else .v4 (sinAddr sa.bytes)

/-- An IPv4 or IPv6 address with the length of its family. -/
structure Canonical (sa : Sockaddr) (sa_len : ℕ) : Prop where
  family : saFamily sa.bytes = AF_INET ∧ sa_len = sizeofSockaddrIn ∨
    saFamily sa.bytes = AF_INET6 ∧ sa_len = sizeofSockaddrIn6
  room : sa_len ≤ sa.bytes.length

/-- An IPv4 or IPv6 address with at least the length of its family, and no more than the
union holds. -/
structure Ample (sa : Sockaddr) (sa_len : ℕ) : Prop where
  family : saFamily sa.bytes = AF_INET ∧ sizeofSockaddrIn ≤ sa_len ∨
    saFamily sa.bytes = AF_INET6 ∧ sizeofSockaddrIn6 ≤ sa_len
  room : sa_len ≤ sa.bytes.length
  size : sa_len ≤ sizeofSockUnion

theorem Canonical.ample {sa : Sockaddr} {sa_len : ℕ} (h : Canonical sa sa_len) :
    Ample sa sa_len where
  family := by
    rcases h.family with ⟨h4, rfl⟩ | ⟨h6, rfl⟩
    · exact .inl ⟨h4, Nat.le_refl _⟩
    · exact .inr ⟨h6, Nat.le_refl _⟩
  room := h.room
  size := by
    rcases h.family with ⟨-, rfl⟩ | ⟨-, rfl⟩ <;> decide

theorem Ample.sixteen_le {sa : Sockaddr} {sa_len : ℕ} (h : Ample sa sa_len) : 16 ≤ sa_len := by
  rcases h.family with ⟨-, hlen⟩ | ⟨-, hlen⟩
  · exact hlen
  · exact Nat.le_trans (by decide) hlen

theorem Ample.len6 {sa : Sockaddr} {sa_len : ℕ} (h : Ample sa sa_len)
    (h6 : saFamily sa.bytes = AF_INET6) : 28 ≤ sa_len := by
  rcases h.family with ⟨h4, -⟩ | ⟨-, hlen⟩
  · rw [h6] at h4
    cases h4
  · exact hlen

/-! ### Fields of an address and of its copy -/

theorem field_take {m : List UInt8} {i k n : ℕ} (h : i + k ≤ n) :
    field (m.take n) i k = field m i k := by
  rw [field, List.drop_take, List.take_take, Nat.min_eq_left (by omega)]
  rfl

theorem field_length {m : List UInt8} {i k : ℕ} (h : i + k ≤ m.length) :
    (field m i k).length = k := by
  rw [field, List.length_take, List.length_drop]
  omega

variable {sa : Sockaddr} {sa_len : ℕ} {sau : I2SockUnion}

/-- The union holds what the address holds, as far as its length tells. -/
theorem i2SockAddrToSockUnion_field (h : i2SockAddrToSockUnion sa sa_len = some (some sau)) :
    sizeofSockaddrIn ≤ sa_len ∧
      ∀ i k, i + k ≤ sa_len → field sau.1 i k = field sa.bytes i k := by
  have hcopied : (Memory.copy (List.Vector.replicate sizeofSockUnion 0) 0 sa.bytes 0 sa_len).map
      some = some (some sau) → ∀ i k, i + k ≤ sa_len → field sau.1 i k = field sa.bytes i k := by
    intro hcopy i k hik
    obtain ⟨m', hm', hsau⟩ := Option.map_eq_some_iff.mp hcopy
    obtain rfl := Option.some.inj hsau
    obtain ⟨hroom, -, hnew⟩ := Memory.copy_eq_some hm'
    rw [List.take_zero, List.nil_append, List.drop_zero] at hnew
    have htake : m'.1.take sa_len = sa.bytes.take sa_len := by
      rw [hnew, List.take_append_of_le_length (by rw [List.length_take]; omega), List.take_take,
        Nat.min_self]
    rw [← @field_take m'.1 i k sa_len hik, htake, field_take hik]
  by_cases h6 : saFamily sa.bytes = AF_INET6
  · rw [i2SockAddrToSockUnion, if_pos h6] at h
    by_cases hlen : sa_len < sizeofSockaddrIn6
    · rw [if_pos hlen] at h
      cases h
    · rw [if_neg hlen] at h
      have hge : 28 ≤ sa_len := Nat.le_of_not_lt hlen
      exact ⟨show 16 ≤ sa_len by omega, hcopied h⟩
  · by_cases h4 : saFamily sa.bytes = AF_INET
    · rw [i2SockAddrToSockUnion, if_neg h6, if_pos h4] at h
      by_cases hlen : sa_len < sizeofSockaddrIn
      · rw [if_pos hlen] at h
        cases h
      · rw [if_neg hlen] at h
        exact ⟨Nat.le_of_not_lt hlen, hcopied h⟩
    · rw [i2SockAddrToSockUnion, if_neg h6, if_neg h4] at h
      cases h

theorem i2SockAddrToSockUnion_family (h : i2SockAddrToSockUnion sa sa_len = some (some sau)) :
    saFamily sau.1 = saFamily sa.bytes := by
  obtain ⟨hlen, hfield⟩ := i2SockAddrToSockUnion_field h
  rw [saFamily, hfield 0 2 (Nat.le_trans (by decide) hlen)]
  rfl

theorem i2SockAddrToSockUnion_len6 (h : i2SockAddrToSockUnion sa sa_len = some (some sau))
    (h6 : saFamily sa.bytes = AF_INET6) : sizeofSockaddrIn6 ≤ sa_len := by
  rw [i2SockAddrToSockUnion, if_pos h6] at h
  by_cases hlen : sa_len < sizeofSockaddrIn6
  · rw [if_pos hlen] at h
    cases h
  · exact Nat.le_of_not_lt hlen

structure SameAddr (sau : I2SockUnion) (sa : Sockaddr) : Prop where
  family : saFamily sau.1 = saFamily sa.bytes
  port : sinPort sau.1 = sinPort sa.bytes
  addr : sinAddr sau.1 = sinAddr sa.bytes
  addr6 : saFamily sa.bytes = AF_INET6 → sin6Addr sau.1 = sin6Addr sa.bytes

/-- An address of the length of its family, or a longer one, goes into the union. -/
theorem Ample.holds (h : Ample sa sa_len) :
    ∃ sau, i2SockAddrToSockUnion sa sa_len = some (some sau) ∧ SameAddr sau sa := by
  obtain ⟨sau, hcopy, -⟩ := @Memory.copy_of_le UInt8 sizeofSockUnion
    (List.Vector.replicate sizeofSockUnion 0) sa.bytes 0 0 sa_len
    (by rw [Nat.zero_add]; exact h.room) (by rw [Nat.zero_add]; exact h.size)
  have hunion : i2SockAddrToSockUnion sa sa_len = some (some sau) := by
    rcases h.family with ⟨h4, hlen⟩ | ⟨h6, hlen⟩
    · have hnot6 : ¬saFamily sa.bytes = AF_INET6 := by
        rw [h4]
        decide
      rw [i2SockAddrToSockUnion, if_neg hnot6, if_pos h4, if_neg (Nat.not_lt.mpr hlen), hcopy]
      rfl
    · rw [i2SockAddrToSockUnion, if_pos h6, if_neg (Nat.not_lt.mpr hlen), hcopy]
      rfl
  obtain ⟨hlen, hfield⟩ := i2SockAddrToSockUnion_field hunion
  have h16 : 16 ≤ sa_len := hlen
  refine ⟨sau, hunion, ⟨i2SockAddrToSockUnion_family hunion, hfield 2 2 (by omega),
    hfield 4 4 (by omega), fun h6 => ?_⟩⟩
  have h28 := h.len6 h6
  exact hfield 8 16 (by omega)

theorem Canonical.holds (h : Canonical sa sa_len) :
    ∃ sau, i2SockAddrToSockUnion sa sa_len = some (some sau) ∧ SameAddr sau sa :=
  h.ample.holds

/-! ### The record for a mapped address -/

theorem sin6Addr_length {m : List UInt8} (hm : 24 ≤ m.length) : (sin6Addr m).length = 16 :=
  field_length hm

theorem sinPort_length {m : List UInt8} (hm : 24 ≤ m.length) : (sinPort m).length = 2 :=
  field_length (by omega)

theorem v4bytes_length {m : List UInt8} (hm : 24 ≤ m.length) :
    (v4bytes m).length = sizeofSockaddrIn := by
  have hport := sinPort_length hm
  have haddr := sin6Addr_length hm
  simp only [v4bytes, List.length_append, List.length_cons, List.length_nil, List.length_drop,
    List.length_replicate, hport, haddr]

theorem v4bytes_port {m : List UInt8} (hm : 24 ≤ m.length) : sinPort (v4bytes m) = sinPort m := by
  show (sinPort m ++ _).take 2 = _
  rw [List.take_left' (sinPort_length hm)]

theorem v4bytes_addr {m : List UInt8} (hm : 24 ≤ m.length) :
    sinAddr (v4bytes m) = (sin6Addr m).drop 12 := by
  have hport := sinPort_length hm
  have haddr : ((sin6Addr m).drop 12).length = 4 := by
    rw [List.length_drop, sin6Addr_length hm]
  show ((sinPort m ++ ((sin6Addr m).drop 12 ++ _)).drop 2).take 4 = _
  rw [List.drop_left' hport, List.take_left' haddr]

theorem I2SockUnion.length_le (sau : I2SockUnion) : 24 ≤ sau.1.length := by
  rw [sau.2]
  decide

theorem v4rec_length (sau : I2SockUnion) : (v4rec sau).bytes.length = sizeofSockaddrIn :=
  v4bytes_length sau.length_le

@[simp] theorem v4rec_family (sau : I2SockUnion) : saFamily (v4rec sau).bytes = AF_INET := rfl

@[simp] theorem v4rec_port (sau : I2SockUnion) : sinPort (v4rec sau).bytes = sinPort sau.1 :=
  v4bytes_port sau.length_le

@[simp] theorem v4rec_addr (sau : I2SockUnion) :
    sinAddr (v4rec sau).bytes = (sin6Addr sau.1).drop 12 :=
  v4bytes_addr sau.length_le

theorem v4rec_canonical (sau : I2SockUnion) : Canonical (v4rec sau) sizeofSockaddrIn where
  family := .inl ⟨v4rec_family sau, rfl⟩
  room := Nat.le_of_eq (v4rec_length sau).symm

theorem not_mapped_v4 (h : saFamily sa.bytes = AF_INET) : ¬Mapped sa := by
  rintro ⟨h6, -⟩
  rw [h6] at h
  cases h

theorem v4rec_host (sau : I2SockUnion) :
    (v4rec sau).host = .v4 ((sin6Addr sau.1).drop 12) := by
  have hnot : ¬saFamily (v4rec sau).bytes = AF_INET6 := by
    rw [v4rec_family]
    decide
  rw [Sockaddr.host, if_neg (not_mapped_v4 (v4rec_family sau)), if_neg hnot, v4rec_addr]

theorem Sockaddr.host_mapped (h : Mapped sa) : sa.host = .v4 ((sin6Addr sa.bytes).drop 12) :=
  if_pos h

theorem Sockaddr.host_v6 (h6 : saFamily sa.bytes = AF_INET6) (h : ¬Mapped sa) :
    sa.host = .v6 (sin6Addr sa.bytes) := by
  rw [Sockaddr.host, if_neg h, if_pos h6]

theorem Sockaddr.host_v4 (h4 : saFamily sa.bytes = AF_INET) : sa.host = .v4 (sinAddr sa.bytes) := by
  have hnot : ¬saFamily sa.bytes = AF_INET6 := by
    rw [h4]
    decide
  rw [Sockaddr.host, if_neg (not_mapped_v4 h4), if_neg hnot]

end I2util
