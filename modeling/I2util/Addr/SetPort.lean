import I2util.Addr.Calls
import I2util.Addr.Equal

/-!
`I2AddrSetPort`: the port as a number, as a text and in the address.

The address is copied to a union, and then back up to the length of its family. Only
the bytes of the port are different.
-/

namespace I2util

def familyLength (family : ℕ) : ℕ :=
  if family = AF_INET6 then sizeofSockaddrIn6 else sizeofSockaddrIn

def portBytes (m : List UInt8) (p : UInt16) : List UInt8 := Memory.patch m 2 (htons p)

variable {m : List UInt8} {sa : Sockaddr} {sa_len q : ℕ} {p : UInt16} {addr addr' : I2Addr}
  {env : Resolver}

theorem Ample.familyLength_le (h : Ample sa sa_len) :
    familyLength (saFamily sa.bytes) ≤ sa_len ∧ 16 ≤ familyLength (saFamily sa.bytes) := by
  rw [familyLength]
  split
  · rename_i h6
    exact ⟨h.len6 h6, by decide⟩
  · exact ⟨h.sixteen_le, by decide⟩

/-! ### The bytes -/

theorem portBytes_length (hm : 4 ≤ m.length) (p : UInt16) : (portBytes m p).length = m.length :=
  Memory.length_patch hm

theorem portBytes_family (hm : 4 ≤ m.length) (p : UInt16) :
    saFamily (portBytes m p) = saFamily m := by
  have hfield : field (portBytes m p) 0 2 = field m 0 2 := by
    show ((m.take 2) ++ _).take 2 = m.take 2
    rw [List.take_left' (List.length_take_of_le (by omega))]
  rw [saFamily, hfield]
  rfl

theorem portBytes_port (hm : 4 ≤ m.length) (p : UInt16) : sinPort (portBytes m p) = htons p :=
  @Memory.slice_patch _ m (htons p) 2 hm

theorem portBytes_portBytes (hm : 4 ≤ m.length) (p r : UInt16) :
    portBytes (portBytes m p) r = portBytes m r :=
  Memory.patch_patch hm rfl

theorem decimal_length (p : UInt16) : (decimal p.toNat).length ≤ 5 := by
  rw [decimal, List.length_map, Nat.length_toDigits_le_iff (by decide) (by decide)]
  have hp := p.toNat_lt
  omega

/-- The text of a port fits into the array of the record. -/
theorem portTo_text (addr : I2Addr) (p : UInt16) :
    (addr.portTo p).port.str = some (decimal p.toNat) := by
  have hlen := decimal_length p
  have hmax : NI_MAXSERV + 1 = 33 := rfl
  have htext : (strncpy (decimal p.toNat) (NI_MAXSERV + 1)).text = decimal p.toNat :=
    List.take_of_length_le (by omega)
  show CArray.str (strncpy _ _) = _
  rw [CArray.str, htext, if_pos (by omega)]

/-! ### The address -/

theorem i2SockUnionToSockAddr_eq {sau : I2SockUnion} {sa_mem : List UInt8}
    (hfamily : saFamily sau.1 = AF_INET6 ∨ saFamily sau.1 = AF_INET)
    (hlen : familyLength (saFamily sau.1) ≤ sa_len) (hroom : sa_len ≤ sa_mem.length) :
    i2SockUnionToSockAddr sau sa_len sa_mem =
      some (some (familyLength (saFamily sau.1),
        sau.1.take (familyLength (saFamily sau.1)) ++
          sa_mem.drop (familyLength (saFamily sau.1)))) := by
  have hfill : ∀ n ≤ sizeofSockUnion, n ≤ sa_mem.length →
      (Memory.copy (Memory.block sa_mem) 0 sau.1 0 n).map (fun m =>
        some (n, m.1)) = some (some (n, sau.1.take n ++ sa_mem.drop n)) := by
    intro n hn hmem
    obtain ⟨m', hcopy, hcells⟩ := @Memory.copy_of_le _ _ (Memory.block sa_mem) sau.1 0 0 n
      (by rw [sau.2, Nat.zero_add]; exact hn) (by rw [Nat.zero_add]; exact hmem)
    rw [List.take_zero, List.nil_append, List.drop_zero, Nat.zero_add] at hcells
    rw [hcopy, Option.map_some, hcells]
    rfl
  rw [i2SockUnionToSockAddr]
  rcases hfamily with h6 | h4
  · rw [h6] at hlen ⊢
    have hlen6 : sizeofSockaddrIn6 ≤ sa_len := hlen
    rw [if_pos rfl, if_neg (Nat.not_lt.mpr hlen6)]
    exact hfill sizeofSockaddrIn6 (by decide) (hlen6.trans hroom)
  · have hn6 : ¬AF_INET = AF_INET6 := by decide
    rw [h4] at hlen ⊢
    have hlen4 : sizeofSockaddrIn ≤ sa_len := hlen
    rw [if_neg hn6, if_pos rfl, if_neg (Nat.not_lt.mpr hlen4)]
    exact hfill sizeofSockaddrIn (by decide) (hlen4.trans hroom)

def I2Addr.portAt (addr : I2Addr) (q : ℕ) (sa : Sockaddr) (p : UInt16) : I2Addr :=
  { addr with
    saddrlen := familyLength (saFamily sa.bytes)
    heap := addr.heap.set q (portBytes sa.bytes p) }.portTo p

/-- The union with another port, written over the address it was copied from. -/
theorem portBytes_back (ha : Ample sa sa_len) {sau : I2SockUnion}
    (hunion : i2SockAddrToSockUnion sa sa_len = some (some sau)) (p : UInt16) :
    (portBytes sau.1 p).take (familyLength (saFamily sa.bytes)) ++
      sa.bytes.drop (familyLength (saFamily sa.bytes)) = portBytes sa.bytes p := by
  obtain ⟨hlen, h16⟩ := ha.familyLength_le
  have hcells : sau.1.take sa_len = sa.bytes.take sa_len :=
    (i2SockAddrToSockUnion_field hunion).2 0 sa_len (by omega)
  have htake : sau.1.take (familyLength (saFamily sa.bytes)) =
      sa.bytes.take (familyLength (saFamily sa.bytes)) := by
    have hcut := congrArg (List.take (familyLength (saFamily sa.bytes))) hcells
    rwa [List.take_take, List.take_take, Nat.min_eq_left hlen] at hcut
  apply Memory.patch_take _ (hlen.trans ha.room) _ htake
  · show 4 ≤ _
    omega
  · rw [sau.2]
    exact hlen.trans ha.size

theorem i2AddrSetPort_eq (hfd : addr.fd < 0) (hq : addr.saddr = some q)
    (hsa : addr.sockaddr q = some sa) (ha : Ample sa addr.saddrlen) (p : UInt16) :
    i2AddrSetPort addr p = some (true, addr.portAt q sa p) := by
  obtain ⟨sau, hunion, hsame⟩ := ha.holds
  have hfamily : saFamily sau.1 = AF_INET6 ∨ saFamily sau.1 = AF_INET := by
    rw [hsame.family]
    rcases ha.family with ⟨h4, -⟩ | ⟨h6, -⟩
    · exact .inr h4
    · exact .inl h6
  obtain ⟨sau', hwrite, hcells⟩ := @Memory.write_of_le _ _ (htons p) 2 sau
    (show 2 + 2 ≤ 128 by decide)
  change sau'.1 = portBytes sau.1 p at hcells
  have hfamily' : saFamily sau'.1 = saFamily sa.bytes := by
    rw [hcells, portBytes_family (by rw [sau.2]; decide), hsame.family]
  have hback := @i2SockUnionToSockAddr_eq addr.saddrlen sau' sa.bytes
    (by rw [hfamily', ← hsame.family]; exact hfamily)
    (by rw [hfamily']; exact ha.familyLength_le.1) ha.room
  have hnot : ¬-1 < addr.fd := by omega
  rw [i2AddrSetPort, if_neg hnot]
  split
  · rename_i hnone
    rw [hq] at hnone
    cases hnone
  · rename_i q' hq'
    obtain rfl : q = q' := Option.some.inj (hq.symm.trans hq')
    rw [hsa, Option.bind_some, hunion, Option.bind_some]
    dsimp only
    rw [if_pos hfamily, hwrite, Option.bind_some, hback, Option.map_some, hfamily', hcells,
      portBytes_back ha hunion]
    rfl

/-! ### What a call can do -/

theorem I2Addr.sockaddr_mem (hs : addr.sockaddr q = some sa) : addr.heap.mem q = some sa.bytes := by
  obtain ⟨m, hm, hsa⟩ := Option.bind_eq_some_iff.mp hs
  split at hsa
  · obtain rfl := Option.some.inj hsa
    exact hm
  · cases hsa

/-- The memory keeps its size, and the length does not grow. -/
theorem i2SockUnionToSockAddr_length {sau : I2SockUnion} {len : ℕ} {sa_mem : List UInt8}
    (hfill : i2SockUnionToSockAddr sau sa_len sa_mem = some (some (len, m))) :
    m.length = sa_mem.length ∧ len ≤ sa_len := by
  have hcopy : ∀ n : ℕ, n ≤ sa_len →
      (Memory.copy (Memory.block sa_mem) 0 sau.1 0 n).map (fun m =>
        some (n, m.1)) = some (some (len, m)) → m.length = sa_mem.length ∧ len ≤ sa_len := by
    intro n hle hn
    obtain ⟨m', -, hm'⟩ := Option.map_eq_some_iff.mp hn
    obtain ⟨rfl, rfl⟩ := Prod.mk.inj (Option.some.inj hm')
    exact ⟨m'.2, hle⟩
  rw [i2SockUnionToSockAddr] at hfill
  split at hfill
  · split at hfill
    · cases hfill
    · rename_i hlen
      exact hcopy _ (Nat.not_lt.mp hlen) hfill
  · split at hfill
    · split at hfill
      · cases hfill
      · rename_i hlen
        exact hcopy _ (Nat.not_lt.mp hlen) hfill
    · cases hfill

theorem i2SockAddrToSockUnion_null (hroom : sa_len ≤ sa.bytes.length)
    (hsize : sa_len ≤ sizeofSockUnion) (h : ¬Ample sa sa_len) :
    i2SockAddrToSockUnion sa sa_len = some none := by
  rw [i2SockAddrToSockUnion]
  split
  · rename_i h6
    exact if_pos (Nat.not_le.mp fun hlen => h ⟨.inr ⟨h6, hlen⟩, hroom, hsize⟩)
  · split
    · rename_i h4
      exact if_pos (Nat.not_le.mp fun hlen => h ⟨.inl ⟨h4, hlen⟩, hroom, hsize⟩)
    · rfl

/-- The address of the record lies in the memory, and is no longer than the union. -/
def I2Addr.Fits (addr : I2Addr) : Prop :=
  ∀ q, addr.saddr = some q → ∃ sa, addr.sockaddr q = some sa ∧
    addr.saddrlen ≤ sa.bytes.length ∧ addr.saddrlen ≤ sizeofSockUnion

theorem I2Addr.Fits.setPort_ne_none (hfit : addr.Fits) (p : UInt16) :
    i2AddrSetPort addr p ≠ none := by
  intro hnone
  by_cases hgood : ∃ q sa, addr.fd < 0 ∧ addr.saddr = some q ∧ addr.sockaddr q = some sa ∧
      Ample sa addr.saddrlen
  · obtain ⟨q, sa, hfd, hq, hsa, ha⟩ := hgood
    rw [i2AddrSetPort_eq hfd hq hsa ha p] at hnone
    cases hnone
  · rw [i2AddrSetPort] at hnone
    split at hnone
    · cases hnone
    · rename_i hfd
      split at hnone
      · cases hnone
      · rename_i q hq
        obtain ⟨sa, hsa, hroom, hsize⟩ := hfit q hq
        have ha : ¬Ample sa addr.saddrlen := fun ha => hgood ⟨q, sa, by omega, hq, hsa, ha⟩
        rw [hsa, Option.bind_some, i2SockAddrToSockUnion_null hroom hsize ha] at hnone
        cases hnone

def I2Addr.PortStored (addr : I2Addr) (p : UInt16) (addr' : I2Addr) : Prop :=
  addr.saddr = none ∧ addr' = addr.portTo p ∨
    ∃ q sa len m, addr.saddr = some q ∧ addr.sockaddr q = some sa ∧ m.length = sa.bytes.length ∧
      len ≤ addr.saddrlen ∧
      addr' = { addr with saddrlen := len, heap := addr.heap.set q m }.portTo p

/-- A call fails and leaves the record as it is, or it stores the port. -/
theorem i2AddrSetPort_cases {r : Bool} (hrun : i2AddrSetPort addr p = some (r, addr')) :
    r = false ∧ addr' = addr ∨ r = true ∧ addr.fd < 0 ∧ addr.PortStored p addr' := by
  have hkept : some (false, addr) = some (r, addr') → r = false ∧ addr' = addr := by
    intro h
    obtain ⟨rfl, rfl⟩ := Prod.mk.inj (Option.some.inj h)
    exact ⟨rfl, rfl⟩
  rw [i2AddrSetPort] at hrun
  split at hrun
  · exact .inl (hkept hrun)
  · rename_i hfd
    split at hrun
    · rename_i hnone
      obtain ⟨rfl, rfl⟩ := Prod.mk.inj (Option.some.inj hrun)
      exact .inr ⟨rfl, by omega, .inl ⟨hnone, rfl⟩⟩
    · rename_i q hq
      obtain ⟨sa, hsa, hrun⟩ := Option.bind_eq_some_iff.mp hrun
      obtain ⟨o, -, hrun⟩ := Option.bind_eq_some_iff.mp hrun
      cases o with
      | none => exact .inl (hkept hrun)
      | some sau =>
          simp only at hrun
          split at hrun
          · obtain ⟨sau', -, hrun⟩ := Option.bind_eq_some_iff.mp hrun
            obtain ⟨o, hfill, hrun⟩ := Option.map_eq_some_iff.mp hrun
            cases o with
            | none => exact .inl (hkept (congrArg some hrun))
            | some filled =>
                obtain ⟨len, m⟩ := filled
                obtain ⟨rfl, rfl⟩ := Prod.mk.inj hrun
                obtain ⟨hlength, hlen⟩ := i2SockUnionToSockAddr_length hfill
                exact .inr ⟨rfl, by omega, .inr ⟨q, sa, len, m, hq, hsa, hlength, hlen, rfl⟩⟩
          · exact .inl (hkept hrun)

/-! ### The three representations -/

/-- The number, the text and the address have the port `p`, and the rest of the record
and of the address at `q` is as before. -/
structure PortSet (p : UInt16) (q : ℕ) (addr addr' : I2Addr) : Prop where
  number : ∀ env, i2AddrPort env addr' = some (p, addr')
  text : addr'.port_set = true ∧ addr'.port.str = some (decimal p.toNat)
  bytes : ∃ sa sa', addr.sockaddr q = some sa ∧ addr'.sockaddr q = some sa' ∧
    sinPort sa'.bytes = htons p ∧ ∀ i, i < 2 ∨ 4 ≤ i → sa'.bytes[i]? = sa.bytes[i]?
  others : ∀ r, r ≠ q → addr'.heap.mem r = addr.heap.mem r
  rest : ∃ saddrlen heap, addr' = { addr with saddrlen := saddrlen, heap := heap }.portTo p

theorem sockaddr_portAt (hsa : addr.sockaddr q = some sa) (p : UInt16) {sa' : Sockaddr}
    (hbytes : sa'.bytes = portBytes sa.bytes p) :
    (addr.portAt q sa p).sockaddr q = some sa' := by
  obtain ⟨m, hm, -⟩ := Option.bind_eq_some_iff.mp hsa
  have hblock : (addr.portAt q sa p).heap.mem q = some sa'.bytes := by
    rw [hbytes]
    exact Heap.set_mem_self hm _
  rw [I2Addr.sockaddr, hblock]
  exact dif_pos sa'.room

theorem portAt_portAt (hroom : 4 ≤ sa.bytes.length) {sa' : Sockaddr}
    (hbytes : sa'.bytes = portBytes sa.bytes p) (r : UInt16) :
    (addr.portAt q sa p).portAt q sa' r = addr.portAt q sa r := by
  have hheap : (addr.heap.set q (portBytes sa.bytes p)).set q (portBytes sa'.bytes r) =
      addr.heap.set q (portBytes sa.bytes r) := by
    rw [Heap.set_set, hbytes, portBytes_portBytes hroom]
  have hlen : familyLength (saFamily sa'.bytes) = familyLength (saFamily sa.bytes) := by
    rw [hbytes, portBytes_family hroom]
  simp only [I2Addr.portAt, I2Addr.portTo, hlen, hheap]

/-- `I2AddrSetPort` keeps the three representations of the port in step and changes
nothing else. Only the last port counts. -/
theorem setPort_frame (hfd : addr.fd < 0) (hq : addr.saddr = some q)
    (hsa : addr.sockaddr q = some sa) (ha : Ample sa addr.saddrlen) (p r : UInt16) :
    ∃ addr', i2AddrSetPort addr p = some (true, addr') ∧ PortSet p q addr addr' ∧
      i2AddrSetPort addr' r = i2AddrSetPort addr r := by
  have hroom : 4 ≤ sa.bytes.length :=
    (Nat.le_trans (by decide) ha.sixteen_le).trans ha.room
  obtain ⟨hlen, h16⟩ := ha.familyLength_le
  have hlength := portBytes_length hroom p
  have hfamily := portBytes_family hroom p
  generalize hport : (⟨portBytes sa.bytes p, by rw [hlength]; exact sa.room⟩ : Sockaddr) = sa'
  have hbytes : sa'.bytes = portBytes sa.bytes p := by rw [← hport]
  have hsa' := sockaddr_portAt hsa p hbytes
  refine ⟨_, i2AddrSetPort_eq hfd hq hsa ha p, ⟨fun _ => rfl, ⟨rfl, portTo_text _ p⟩,
    ⟨sa, sa', hsa, hsa', ?_, ?_⟩, ?_, _, _, rfl⟩, ?_⟩
  · rw [hbytes, portBytes_port hroom]
  · intro i hi
    rw [hbytes]
    exact Memory.getElem?_patch hroom hi
  · exact fun _ hne => Heap.set_mem_of_ne addr.heap _ hne
  · have hample : Ample sa' (addr.portAt q sa p).saddrlen := by
      refine ⟨?_, ?_, hlen.trans ha.size⟩
      · rw [hbytes, hfamily]
        rcases ha.family with ⟨h4, -⟩ | ⟨h6, -⟩
        · exact .inl ⟨h4, h16⟩
        · refine .inr ⟨h6, ?_⟩
          show _ ≤ familyLength (saFamily sa.bytes)
          rw [h6]
          decide
      · rw [hbytes, hlength]
        exact hlen.trans ha.room
    rw [i2AddrSetPort_eq hfd hq hsa ha r, ← portAt_portAt hroom hbytes r]
    exact @i2AddrSetPort_eq sa' q (addr.portAt q sa p) hfd hq hsa' hample r

theorem setPort_frame_v4 :
    ∃ addr addr', i2AddrBySAddr emptyHeap loopbackV4 16 1 0 = some (some addr) ∧
      i2AddrSetPort addr 443 = some (true, addr') ∧ PortSet 443 2 addr addr' ∧
      i2AddrSetPort addr' 80 = i2AddrSetPort addr 80 := by
  obtain ⟨addr', hset⟩ := @setPort_frame loopbackV4 2
    (((i2AddrBySAddr emptyHeap loopbackV4 16 1 0).get rfl).get rfl) (by decide) rfl rfl
    ⟨.inl ⟨by decide, by decide⟩, by decide, by decide⟩ 443 80
  exact ⟨_, addr', rfl, hset⟩

end I2util
