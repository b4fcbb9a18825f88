import I2util.Addr.Sound

/-!
What a copy of a record has in common with it.
-/

namespace I2util

variable {h h' : Heap UInt8} {env : Resolver}

/-! ### The copied list -/

/-- All but the pointer is copied, and there is an equal block at the new pointer. -/
structure Copied (h : Heap UInt8) (src dst : Addrinfo) : Prop where
  same : dst = { src with ai_addr := dst.ai_addr }
  block : ∃ p q m, src.ai_addr = some p ∧ dst.ai_addr = some q ∧ h.mem p = some m ∧ h.mem q = some m

theorem Copied.mono {src dst : Addrinfo} (hc : Copied h src dst) (he : h.Extends h') :
    Copied h' src dst := by
  obtain ⟨p, q, m, hp, hq, hmp, hmq⟩ := hc.block
  exact ⟨hc.same, p, q, m, hp, hq, he.mem_some hmp, he.mem_some hmq⟩

theorem Addrinfo.Sound.mono {ai : Addrinfo} (hs : ai.Sound h) (he : h.Extends h') :
    ai.Sound h' := by
  obtain ⟨hname, p, m, haddr, hp, hm⟩ := hs
  exact ⟨hname, p, m, haddr, he.mem_some hp, hm⟩

theorem copyAddrRec_eq_some {src dst : Addrinfo} (hs : src.Sound h)
    (hc : copyAddrRec h src = some (some dst, h')) : h.Extends h' ∧ Copied h' src dst := by
  obtain ⟨hname, p, m, haddr, hp, hm⟩ := hs
  rw [copyAddrRec] at hc
  split at hc
  · rw [haddr, hname] at hc
    match ha : h.permit.2.alloc (List.replicate src.ai_addrlen 0) with
    | (none, _) => simp [ha] at hc
    | (some q, heap) =>
        simp only [ha] at hc
        obtain ⟨rfl, rfl⟩ := Heap.alloc_eq_some ha
        obtain ⟨m', hm', hc⟩ := Option.bind_eq_some_iff.mp hc
        have hext : h.Extends (h.permit.2.store (List.replicate src.ai_addrlen 0)).2 :=
          (Heap.permit_extends h).trans (Heap.store_extends _ _)
        obtain rfl : m' = m := Option.some.inj (hm'.symm.trans (hext.mem_some hp))
        obtain ⟨cells, hread, hdst⟩ := Option.map_eq_some_iff.mp hc
        have hcells : cells.1 = m' := by
          rw [(Memory.read_eq_some hread).2, List.drop_zero]
          exact List.take_of_length_le (Nat.le_of_eq hm)
        obtain ⟨hnew, rfl⟩ := Prod.mk.inj hdst
        obtain rfl := Option.some.inj hnew
        have hset := hext.set (Nat.le_succ _ : h.next ≤ h.permit.2.next) cells.1
        refine ⟨hset, ?_, p, _, m', haddr, rfl, hset.mem_some hp, ?_⟩
        · cases src
          obtain rfl : _ = none := hname
          rfl
        · rw [← hcells]
          exact Heap.set_mem_self (Heap.store_mem_self _ _) _
  · cases hc

/-- The list of a copy, and the address that it leaves in the record. -/
structure ListCopied (saddr : Option ℕ) (ais : List Addrinfo) (dup dup' : I2Addr) : Prop where
  heap : dup.heap.Extends dup'.heap
  rest : dup' =
    { dup with
      ai := dup'.ai, ai_free := dup'.ai_free, saddr := dup'.saddr, saddrlen := dup'.saddrlen,
      heap := dup'.heap }
  list : ∃ news, dup'.ai = dup.ai ++ news ∧ List.Forall₂ (Copied dup'.heap) ais news
  addr : (∀ ai ∈ ais, ai.ai_addr ≠ saddr) ∧ dup'.saddr = dup.saddr ∧ dup'.saddrlen = dup.saddrlen ∨
    ∃ src ∈ ais, src.ai_addr = saddr ∧ ∃ dst ∈ dup'.ai, Copied dup'.heap src dst ∧
      dup'.saddr = dst.ai_addr ∧ dup'.saddrlen = dst.ai_addrlen

theorem copyList_eq_some {saddr : Option ℕ} {ais : List Addrinfo} {dup dup' : I2Addr}
    (hs : ∀ ai ∈ ais, ai.Sound dup.heap)
    (hc : i2AddrCopy.list saddr ais dup = some (some dup')) : ListCopied saddr ais dup dup' := by
  induction ais generalizing dup with
  | nil =>
      obtain rfl := Option.some.inj (Option.some.inj hc)
      exact ⟨.refl _, rfl, ⟨[], (List.append_nil _).symm, .nil⟩,
        .inl ⟨fun _ hai => (by cases hai), rfl, rfl⟩⟩
  | cons ai ais ih =>
      rw [i2AddrCopy.list] at hc
      obtain ⟨⟨o, heap⟩, hone, hrest⟩ := Option.bind_eq_some_iff.mp hc
      cases o with
      | none => cases hrest
      | some dst =>
          obtain ⟨hext, hcopied⟩ := copyAddrRec_eq_some (hs ai List.mem_cons_self) hone
          have htail : ∀ next : I2Addr, next.heap = heap → ∀ a ∈ ais, a.Sound next.heap := by
            rintro next rfl a ha
            exact (hs a (List.mem_cons_of_mem ai ha)).mono hext
          simp only at hrest
          split at hrest
          · -- the address of the record is the one of this element
            rename_i hsame
            obtain ⟨hheap, hother, ⟨news, hnews, hall⟩, haddr⟩ := ih (htail _ rfl) hrest
            have hmem : dst ∈ dup'.ai := by
              rw [hnews]
              exact List.mem_append_left news (List.mem_append_right dup.ai List.mem_cons_self)
            have hcopied' := hcopied.mono hheap
            refine ⟨hext.trans hheap, hother, ⟨dst :: news, ?_, .cons hcopied' hall⟩, .inr ?_⟩
            · rw [hnews, List.append_assoc]
              rfl
            · rcases haddr with ⟨-, hsaddr, hlen⟩ | ⟨src, hsrc, hq, hdst⟩
              · exact ⟨ai, List.mem_cons_self, hsame, dst, hmem, hcopied', hsaddr, hlen⟩
              · exact ⟨src, List.mem_cons_of_mem ai hsrc, hq, hdst⟩
          · -- it may be one of a later element
            rename_i hother'
            obtain ⟨hheap, hother, ⟨news, hnews, hall⟩, haddr⟩ := ih (htail _ rfl) hrest
            refine
              ⟨hext.trans hheap, hother, ⟨dst :: news, ?_, .cons (hcopied.mono hheap) hall⟩, ?_⟩
            · rw [hnews, List.append_assoc]
              rfl
            · rcases haddr with ⟨hnone, hsaddr⟩ | ⟨src, hsrc, hq, hdst⟩
              · exact .inl ⟨List.forall_mem_cons.mpr ⟨hother', hnone⟩, hsaddr⟩
              · exact .inr ⟨src, List.mem_cons_of_mem ai hsrc, hq, hdst⟩

/-! ### The copied record -/

/-- What a copy has from its original. -/
structure CopyOf (orig dup : I2Addr) : Prop where
  heap : orig.heap.Extends dup.heap
  list : List.Forall₂ (Copied dup.heap) orig.ai dup.ai
  addr : (∀ ai ∈ orig.ai, ai.ai_addr ≠ orig.saddr) ∧ dup.saddr = none ∨
    ∃ src ∈ orig.ai, src.ai_addr = orig.saddr ∧ ∃ dst ∈ dup.ai, Copied dup.heap src dst ∧
      dup.saddr = dst.ai_addr ∧ dup.saddrlen = dst.ai_addrlen
  node_set : dup.node_set = orig.node_set
  node : orig.node_set → dup.node = orig.node
  port_set : dup.port_set = orig.port_set
  port : orig.port_set → dup.port = orig.port
  port_value : dup.port_value = orig.port_value
  so_type : dup.so_type = 0
  so_protocol : dup.so_protocol = 0
  passive : dup.passive = 0
  fd : dup.fd = orig.fd
  fd_user : 0 ≤ orig.fd → dup.fd_user = true

theorem withNames_unset (hs : addr.Sound) (h : Heap UInt8) :
    ∃ node port, I2Addr.withNames ⟨.unset, h⟩ addr =
        ⟨{ I2AddrRec.unset with
          node_set := addr.node_set, node := node, port_set := addr.port_set, port := port,
          port_value := addr.port_value }, h⟩ ∧
      (addr.node_set → node = addr.node) ∧ (addr.port_set → port = addr.port) := by
  rw [I2Addr.withNames]
  cases hnode : addr.node_set with
  | false =>
      cases hport : addr.port_set with
      | false =>
          rw [hs.port hport]
          exact ⟨_, _, rfl, fun h => (by cases h), fun h => (by cases h)⟩
      | true => exact ⟨_, _, rfl, fun h => (by cases h), fun _ => CArray.strncpy_text _⟩
  | true =>
      cases hport : addr.port_set with
      | false =>
          rw [hs.port hport]
          exact ⟨_, _, rfl, fun _ => CArray.strncpy_text _, fun h => (by cases h)⟩
      | true =>
          exact ⟨_, _, rfl, fun _ => CArray.strncpy_text _, fun _ => CArray.strncpy_text _⟩

theorem i2AddrCopy_eq_some (hs : addr.Sound) (hc : i2AddrCopy addr = some (some addr')) :
    CopyOf addr addr' := by
  rw [i2AddrCopy] at hc
  match ha : i2AddrAlloc addr.heap with
  | none => simp [ha] at hc
  | some new =>
      obtain rfl := i2AddrAlloc_eq_some ha
      simp only [ha] at hc
      obtain ⟨node, port, hnames, hnode, hport⟩ := withNames_unset hs addr.heap.permit.2
      rw [hnames] at hc
      obtain ⟨o, hlist, hdup⟩ := Option.map_eq_some_iff.mp hc
      obtain ⟨dup, rfl, rfl⟩ := Option.map_eq_some_iff.mp hdup
      have hperm := Heap.permit_extends addr.heap
      obtain ⟨hheap, hrest, ⟨news, hnews, hall⟩, haddr⟩ :=
        copyList_eq_some (fun ai hai => (hs.list ai hai).mono hperm) hlist
      rw [hrest]
      obtain rfl : dup.ai = news := hnews
      refine ⟨hperm.trans hheap, hall, haddr.imp_left fun h => ⟨h.1, h.2.1⟩, rfl, hnode, rfl, hport,
        rfl, rfl, rfl, rfl, rfl, fun hfd => ?_⟩
      exact if_pos (by omega)

/-! ### Records that answer the same -/

/-- Two records with the same names, and with equal addresses at two places. -/
structure Alike (x y : I2Addr) : Prop where
  node_set : y.node_set = x.node_set
  node : x.node_set → y.node = x.node
  port_set : y.port_set = x.port_set
  port : x.port_set → y.port = x.port
  port_value : y.port_value = x.port_value
  addr : x.saddr = none ∧ y.saddr = none ∨
    ∃ p q, x.saddr = some p ∧ y.saddr = some q ∧ y.heap.mem q = x.heap.mem p ∧
      y.saddrlen = x.saddrlen

variable {x y : I2Addr}

theorem Alike.withPortName (ha : Alike x y) (name : Option (List UInt8)) :
    Alike (x.withPortName name) (y.withPortName name) := by
  cases name with
  | none => exact ⟨ha.node_set, ha.node, ha.port_set, fun _ => rfl, ha.port_value, ha.addr⟩
  | some text =>
      rw [I2Addr.withPortName, I2Addr.withPortName]
      cases readPort text with
      | none => exact ⟨ha.node_set, ha.node, rfl, fun _ => rfl, rfl, ha.addr⟩
      | some p => exact ⟨ha.node_set, ha.node, rfl, fun _ => rfl, rfl, ha.addr⟩

theorem Alike.portOf (ha : Alike x y) (hlen : y.saddrlen = x.saddrlen) (sa : Sockaddr) :
    Option.Rel Alike (x.portOf env sa) (y.portOf env sa) := by
  rw [I2Addr.portOf, I2Addr.portOf]
  split
  · exact .some ⟨ha.node_set, ha.node, rfl, fun _ => rfl, rfl, ha.addr⟩
  · rw [hlen]
    cases Memory.read sa.bytes 0 x.saddrlen with
    | none => exact .none
    | some saddr => exact .some (ha.withPortName _)

/-- Where the names come from the address, the two records get the same ones. -/
theorem Alike.fromAddr (ha : Alike x y) {c : Bool} {f : I2Addr → Sockaddr → Option I2Addr}
    (hf : y.saddrlen = x.saddrlen → ∀ sa, Option.Rel Alike (f x sa) (f y sa)) :
    Option.Rel Alike
      (x.saddr.elim (some x) fun p => if c then some x else (x.sockaddr p).bind (f x))
      (y.saddr.elim (some y) fun p => if c then some y else (y.sockaddr p).bind (f y)) := by
  rcases ha.addr with ⟨hp, hq⟩ | ⟨p, q, hp, hq, hmem, hlen⟩
  · rw [hp, hq]
    exact .some ha
  · have hsa : y.sockaddr q = x.sockaddr p := by
      rw [I2Addr.sockaddr, hmem, I2Addr.sockaddr]
    rw [hp, hq, Option.elim_some, Option.elim_some, hsa]
    cases c with
    | true => exact .some ha
    | false =>
        cases x.sockaddr p with
        | none => exact .none
        | some sa => exact hf hlen sa

theorem Alike.setPort (ha : Alike x y) : Option.Rel Alike (x.setPort env) (y.setPort env) := by
  rw [I2Addr.setPort_eq, I2Addr.setPort_eq, ha.port_set]
  exact ha.fromAddr fun hlen sa => ha.portOf hlen sa

theorem Alike.nodeOf (ha : Alike x y) (hlen : y.saddrlen = x.saddrlen) (sa : Sockaddr) :
    Option.Rel Alike (x.nodeOf env sa) (y.nodeOf env sa) := by
  have hnode : ∀ node, Alike { x with node := node, node_set := true }
      { y with node := node, node_set := true } :=
    fun _ => ⟨rfl, fun _ => rfl, ha.port_set, ha.port, ha.port_value, ha.addr⟩
  obtain ⟨yrec, yheap⟩ := y
  cases yrec
  dsimp only at hlen
  subst hlen
  rw [I2Addr.nodeOf, I2Addr.nodeOf]
  split
  · exact (hnode _).setPort
  · cases Memory.read sa.bytes 0 x.saddrlen with
    | none => exact .none
    | some saddr =>
        simp only [Option.bind_some]
        split
        · exact .some ⟨ha.node_set, fun _ => rfl, ha.port_set, ha.port, ha.port_value, ha.addr⟩
        · exact (hnode _).setPort

theorem Alike.setNodePort (ha : Alike x y) :
    Option.Rel Alike (x.setNodePort env) (y.setNodePort env) := by
  rw [I2Addr.setNodePort_eq, I2Addr.setNodePort_eq, ha.port_set, ha.node_set]
  exact ha.fromAddr fun hlen sa => ha.nodeOf hlen sa

theorem Alike.bind_eq {β : Type*} {o o' : Option I2Addr} (hrel : Option.Rel Alike o o')
    {f : I2Addr → Option β} (hf : ∀ x y, Alike x y → f y = f x) : o'.bind f = o.bind f := by
  cases hrel with
  | none => rfl
  | some ha => exact hf _ _ ha

theorem Alike.port_eq (ha : Alike x y) :
    (i2AddrPort env y).map Prod.fst = (i2AddrPort env x).map Prod.fst := by
  rw [i2AddrPort, i2AddrPort, ha.port_set, Option.map_map, Option.map_map]
  split
  · exact congrArg some ha.port_value
  · rw [Option.map_eq_bind, Option.map_eq_bind]
    exact bind_eq ha.setPort fun x y hxy => congrArg some hxy.port_value

/-- A name function that uses only what is the same. -/
theorem Alike.name_eq (ha : Alike x y) {set : Bool} {f : I2Addr → Option NameResult}
    (hf : ∀ x y, Alike x y → f y = f x) :
    ((if set then some y else y.setNodePort env).bind fun addr =>
        (f addr).map fun r => (r, addr)).map Prod.fst =
      ((if set then some x else x.setNodePort env).bind fun addr =>
        (f addr).map fun r => (r, addr)).map Prod.fst := by
  rw [Option.map_bind, Option.map_bind]
  have hrel : Option.Rel Alike (if set then some x else x.setNodePort env)
      (if set then some y else y.setNodePort env) := by
    cases set with
    | true => exact .some ha
    | false => exact ha.setNodePort
  apply bind_eq hrel
  intro x y hxy
  show ((f y).map fun r => (r, y)).map Prod.fst = ((f x).map fun r => (r, x)).map Prod.fst
  rw [hf x y hxy, Option.map_map, Option.map_map]
  rfl

theorem Alike.nodeName_eq (ha : Alike x y) (buf : List UInt8) (len : ℕ) :
    (i2AddrNodeName env y buf len).map Prod.fst = (i2AddrNodeName env x buf len).map Prod.fst := by
  rw [i2AddrNodeName, i2AddrNodeName, ha.node_set]
  split
  · apply ha.name_eq
    intro x y hxy
    rw [hxy.node_set]
    split
    · rename_i hset
      rw [hxy.node hset]
    · rfl
  · rfl

theorem Alike.servName_eq (ha : Alike x y) (buf : List UInt8) (len : ℕ) :
    (i2AddrServName env y buf len).map Prod.fst = (i2AddrServName env x buf len).map Prod.fst := by
  rw [i2AddrServName, i2AddrServName, ha.port_set]
  split
  · apply ha.name_eq
    intro x y hxy
    rw [hxy.port_set]
    split
    · rename_i hset
      rw [hxy.port hset]
    · rfl
  · rfl

/-! ### The answers of the copy -/

def sAddrBytes (addr : I2Addr) : Option (Option (List UInt8)) :=
  match i2AddrSAddr addr with
  | (none, _) => some none
  | (some p, saddrlen) =>
      (addr.heap.mem p).bind fun m => (Memory.read m 0 saddrlen).map fun cells => some cells.1

def listed (r : List Addrinfo × I2Addr) : List (Addrinfo × Option (List UInt8)) :=
  r.1.map fun ai => ({ ai with ai_addr := none }, ai.ai_addr.bind r.2.heap.mem)

/-- Each answer of the original is the answer of the copy, the address of the copy is
in its list, and `I2AddrFree` of the copy closes nothing. -/
structure SameAnswers (orig dup : I2Addr) : Prop where
  socktype : i2AddrSocktype dup = i2AddrSocktype orig
  protocol : i2AddrProtocol dup = i2AddrProtocol orig
  port : ∀ env p, (i2AddrPort env orig).map Prod.fst = some p →
    (i2AddrPort env dup).map Prod.fst = some p
  nodeName : ∀ env buf len r, (i2AddrNodeName env orig buf len).map Prod.fst = some r →
    (i2AddrNodeName env dup buf len).map Prod.fst = some r
  servName : ∀ env buf len r, (i2AddrServName env orig buf len).map Prod.fst = some r →
    (i2AddrServName env dup buf len).map Prod.fst = some r
  fd : i2AddrFD dup = i2AddrFD orig
  sockLen : i2AddrSockLen dup = i2AddrSockLen orig
  sAddr : sAddrBytes dup = sAddrBytes orig
  addrInfo : ∀ env def_node def_serv es,
    (i2AddrAddrInfo env orig def_node def_serv).map listed = some es →
      (i2AddrAddrInfo env dup def_node def_serv).map listed = some es
  inList : ∀ p, dup.saddr = some p → ∃ ai ∈ dup.ai, ai.ai_addr = some p
  free : (i2AddrFree dup).1 = none

/-- The original has nothing that a copy would lose: no type and no protocol, no address
outside its list, and no passive flag that a resolution would still need. (A node or port
that does not end in its array is never resolved.) -/
structure Copies (orig : I2Addr) : Prop where
  socktype : orig.so_type = 0
  protocol : orig.so_protocol = 0
  addr : ∀ p, orig.saddr = some p →
    ∃ ai ∈ orig.ai, ai.ai_addr = some p ∧ ai.ai_addrlen = orig.saddrlen
  passive : orig.passive = 0 ∨ orig.ai ≠ [] ∨ orig.host none = none ∨ orig.serv none = none

variable {orig dup : I2Addr}

theorem CopyOf.alike (hc : CopyOf orig dup) (hs : orig.Sound) (hcopies : Copies orig) :
    Alike { orig with heap := dup.heap } dup := by
  refine ⟨hc.node_set, hc.node, hc.port_set, hc.port, hc.port_value, ?_⟩
  rcases hc.addr with ⟨hnone, hdup⟩ | ⟨src, hsrc, haddr, dst, -, hcopied, hdst, hlen⟩
  · refine .inl ⟨?_, hdup⟩
    cases hp : orig.saddr with
    | none => rfl
    | some p =>
        obtain ⟨ai, hai, hsame, -⟩ := hcopies.addr p hp
        exact absurd (hsame.trans hp.symm) (hnone ai hai)
  · obtain ⟨p, q, m, hp, hq, hmp, hmq⟩ := hcopied.block
    have hsaddr : orig.saddr = some p := haddr.symm.trans hp
    obtain ⟨ai, hai, hsame, horig⟩ := hcopies.addr p hsaddr
    refine .inr ⟨p, q, hsaddr, hdst.trans hq, hmq.trans hmp.symm, ?_⟩
    obtain ⟨-, p₁, m₁, haddr₁, hm₁, hlen₁⟩ := (hs.list ai hai).mono hc.heap
    obtain ⟨-, p₂, m₂, haddr₂, hm₂, hlen₂⟩ := (hs.list src hsrc).mono hc.heap
    obtain rfl := Option.some.inj (haddr₁.symm.trans (hsame.trans (hp.symm.trans haddr₂)))
    obtain rfl := Option.some.inj (hm₁.symm.trans hm₂)
    calc dup.saddrlen
        _ = dst.ai_addrlen := hlen
        _ = src.ai_addrlen := by rw [hcopied.same]
        _ = ai.ai_addrlen := hlen₂.symm.trans hlen₁
        _ = orig.saddrlen := horig

theorem Alike.sAddr_eq (ha : Alike x y) : sAddrBytes y = sAddrBytes x := by
  rw [sAddrBytes, sAddrBytes, i2AddrSAddr, i2AddrSAddr]
  rcases ha.addr with ⟨hp, hq⟩ | ⟨p, q, hp, hq, hmem, hlen⟩
  · rw [hp, hq]
  · rw [hp, hq, hlen]
    simp only [hmem]

theorem Alike.sockLen_eq (ha : Alike x y) : i2AddrSockLen y = i2AddrSockLen x := by
  rw [i2AddrSockLen, i2AddrSockLen]
  rcases ha.addr with ⟨hp, hq⟩ | ⟨p, q, hp, hq, -, hlen⟩
  · rw [hp, hq]
    rfl
  · rw [hp, hq]
    exact hlen

/-- A string that is not set is not looked at. -/
theorem default_congr {n : ℕ} {set : Bool} {x y : CArray n} (h : set → x = y)
    (d : Option (Option (List UInt8))) :
    (if set ∧ x.text ≠ unknown then x.str.map some else d) =
      if set ∧ y.text ≠ unknown then y.str.map some else d := by
  cases hset : set with
  | false => rfl
  | true => rw [h hset]

theorem CopyOf.host_eq (hc : CopyOf orig dup) (d : Option (List UInt8)) :
    dup.host d = orig.host d := by
  rw [I2AddrRec.host, I2AddrRec.host, hc.node_set]
  exact default_congr hc.node (some d)

theorem CopyOf.serv_eq (hc : CopyOf orig dup) (d : Option (List UInt8)) :
    dup.serv d = orig.serv d := by
  rw [I2AddrRec.serv, I2AddrRec.serv, hc.port_set]
  exact default_congr hc.port (some d)

/-- The default does not decide whether the string ends. -/
theorem default_none {α : Type} {c : Prop} [Decidable c] {x : Option (Option α)}
    (h : (if c then x else some none) = none) (d : Option α) :
    (if c then x else some d) = none := by
  split_ifs at h ⊢
  exact h

theorem host_none (addr : I2AddrRec) (h : addr.host none = none) (d : Option (List UInt8)) :
    addr.host d = none :=
  default_none h d

theorem serv_none (addr : I2AddrRec) (h : addr.serv none = none) (d : Option (List UInt8)) :
    addr.serv d = none :=
  default_none h d

theorem listed_copied {ais news : List Addrinfo} (hall : List.Forall₂ (Copied dup.heap) ais news)
    (addr : I2Addr) (haddr : addr.heap = dup.heap) : listed (news, dup) = listed (ais, addr) := by
  induction hall with
  | nil => rfl
  | @cons ai new ais news hcopied _ ih =>
      obtain ⟨p, q, m, hp, hq, hmp, hmq⟩ := hcopied.block
      have hhead : ({ new with ai_addr := none }, new.ai_addr.bind dup.heap.mem) =
          (({ ai with ai_addr := none }, ai.ai_addr.bind addr.heap.mem) :
            Addrinfo × Option (List UInt8)) := by
        rw [hp, hq, haddr, Option.bind_some, Option.bind_some, hmp, hmq, hcopied.same]
      exact congrArg₂ List.cons hhead ih

/-- Two records without a list ask for the same. -/
theorem addrInfo_eq (hx : x.ai = []) (hy : y.ai = []) (hheap : y.heap = x.heap)
    (hpassive : y.passive = x.passive) (htype : y.so_type = x.so_type)
    (hproto : y.so_protocol = x.so_protocol) (hhost : ∀ d, y.host d = x.host d)
    (hserv : ∀ d, y.serv d = x.serv d) (def_node def_serv : Option (List UInt8)) :
    (i2AddrAddrInfo env y def_node def_serv).map listed =
      (i2AddrAddrInfo env x def_node def_serv).map listed := by
  have hhints : y.hints = x.hints := by
    rw [I2AddrRec.hints, I2AddrRec.hints, hpassive, htype, hproto]
  simp only [i2AddrAddrInfo, hx, hy, hhost, hserv, hpassive, hhints, hheap, List.isEmpty_nil,
    if_true]
  cases x.host def_node with
  | none => rfl
  | some host =>
      simp only [Option.bind_some]
      split
      · rfl
      · cases x.serv def_serv with
        | none => rfl
        | some serv =>
            simp only [Option.map_some]
            cases env.getaddrinfo host serv x.hints <;> rfl

/-- A node or a port that does not end in its array is never resolved. -/
theorem addrInfo_unread (hai : x.ai = []) (hpassive : ¬x.passive = 0)
    (hno : x.host none = none ∨ x.serv none = none) (def_node def_serv : Option (List UInt8)) :
    i2AddrAddrInfo env x def_node def_serv = none := by
  rw [i2AddrAddrInfo, hai, if_pos List.isEmpty_nil]
  rcases hno with hhost | hserv
  · rw [host_none _ hhost]
    rfl
  · apply Option.bind_eq_none_iff.mpr
    intro host _
    rw [if_neg fun h => hpassive h.2, serv_none _ hserv]
    rfl

theorem CopyOf.ai_nil (hc : CopyOf orig dup) (hai : orig.ai = []) : dup.ai = [] := by
  have hlist := hc.list
  rw [hai] at hlist
  exact List.forall₂_nil_left_iff.mp hlist

/-- A list that is there is not resolved again. -/
theorem CopyOf.addrInfo_list (hc : CopyOf orig dup) (hai : orig.ai ≠ [])
    (def_node def_serv : Option (List UInt8)) :
    (i2AddrAddrInfo env dup def_node def_serv).map listed =
      (i2AddrAddrInfo env { orig with heap := dup.heap } def_node def_serv).map listed := by
  have hdup : dup.ai ≠ [] := by
    intro hnil
    have hlist := hc.list
    rw [hnil] at hlist
    exact hai (List.forall₂_nil_right_iff.mp hlist)
  rw [i2AddrAddrInfo, i2AddrAddrInfo, if_neg (by simpa using hdup), if_neg (by simpa using hai)]
  exact congrArg some (listed_copied hc.list _ rfl)

/-- Where the original has no passive flag, or keeps its list, the copy resolves to the
same entries. -/
theorem CopyOf.addrInfo (hc : CopyOf orig dup) (hcopies : Copies orig)
    {def_node def_serv : Option (List UInt8)} {es : List (Addrinfo × Option (List UInt8))}
    (horig : (i2AddrAddrInfo env { orig with heap := dup.heap } def_node def_serv).map listed =
      some es) :
    (i2AddrAddrInfo env dup def_node def_serv).map listed = some es := by
  by_cases hai : orig.ai = []
  · by_cases hpassive : orig.passive = 0
    · rw [← horig]
      exact addrInfo_eq (x := { orig with heap := dup.heap }) hai (hc.ai_nil hai) rfl
        (hc.passive.trans hpassive.symm) (hc.so_type.trans hcopies.socktype.symm)
        (hc.so_protocol.trans hcopies.protocol.symm) hc.host_eq hc.serv_eq def_node def_serv
    · have hno : orig.host none = none ∨ orig.serv none = none := by
        have hcopied := hcopies.passive
        simpa [hpassive, hai] using hcopied
      rw [addrInfo_unread (x := { orig with heap := dup.heap }) hai hpassive hno] at horig
      cases horig
  · rw [← horig]
    exact hc.addrInfo_list hai def_node def_serv

theorem CopyOf.sameAnswers (hc : CopyOf orig dup) (hs : orig.Sound) (hcopies : Copies orig) :
    SameAnswers { orig with heap := dup.heap } dup := by
  have ha := hc.alike hs hcopies
  refine
    { socktype := hc.so_type.trans hcopies.socktype.symm
      protocol := hc.so_protocol.trans hcopies.protocol.symm
      port := fun _ _ h => ha.port_eq.trans h
      nodeName := fun _ buf len _ h => (ha.nodeName_eq buf len).trans h
      servName := fun _ buf len _ h => (ha.servName_eq buf len).trans h
      fd := ?_
      sockLen := ha.sockLen_eq
      sAddr := ha.sAddr_eq
      addrInfo := fun _ _ _ _ h => hc.addrInfo hcopies h
      inList := fun p hp => ?_
      free := ?_ }
  · rw [i2AddrFD, i2AddrFD, hc.fd]
  · rcases hc.addr with ⟨-, hnone⟩ | ⟨-, -, -, dst, hdst, -, hsaddr, -⟩
    · rw [hnone] at hp
      cases hp
    · exact ⟨dst, hdst, hsaddr.symm.trans hp⟩
  · apply if_neg
    rintro ⟨hfd, huser⟩
    rw [hc.fd] at hfd
    exact huser (hc.fd_user hfd)

/-! ### What a copy loses -/

theorem host_isSome {addr : I2AddrRec} (h : addr.host none ≠ none) :
    ∃ host, addr.host (some []) = some (some host) := by
  rw [I2AddrRec.host] at h ⊢
  split
  · rename_i hset
    rw [if_pos hset] at h
    cases hstr : addr.node.str with
    | none => exact absurd (by rw [hstr]; rfl) h
    | some host => exact ⟨host, rfl⟩
  · exact ⟨[], rfl⟩

/-- The flags that the resolver is asked with come back. -/
theorem addrInfo_oneAddress {host : List UInt8} {serv def_node def_serv : Option (List UInt8)}
    (hai : addr.ai = []) (hhost : addr.host def_node = some (some host))
    (hserv : addr.serv def_serv = some serv) :
    ∃ e, (i2AddrAddrInfo oneAddress addr def_node def_serv).map listed = some [e] ∧
      e.1.ai_flags = addr.hints.ai_flags := by
  rw [i2AddrAddrInfo, hai, if_pos List.isEmpty_nil, hhost, hserv]
  exact ⟨_, rfl, rfl⟩

theorem CopyOf.copies (hc : CopyOf orig dup)
    (hsame : SameAnswers { orig with heap := dup.heap } dup) : Copies orig where
  socktype := hsame.socktype.symm.trans hc.so_type
  protocol := hsame.protocol.symm.trans hc.so_protocol
  addr := by
    intro p hp
    have hbytes := hsame.sAddr
    have hlen := hsame.sockLen
    rw [i2AddrSockLen, i2AddrSockLen] at hlen
    rw [sAddrBytes, sAddrBytes, i2AddrSAddr, i2AddrSAddr] at hbytes
    rcases hc.addr with ⟨-, hdup⟩ | ⟨src, hsrc, haddr, dst, -, hcopied, hdst, hdstlen⟩
    · rw [hdup, hp] at hbytes
      obtain ⟨m, -, hread⟩ := Option.bind_eq_some_iff.mp hbytes.symm
      obtain ⟨cells, -, hcells⟩ := Option.map_eq_some_iff.mp hread
      cases hcells
    · refine ⟨src, hsrc, haddr.trans hp, ?_⟩
      obtain ⟨-, q, -, -, hq, -, -⟩ := hcopied.block
      rw [hdst.trans hq, hp] at hlen
      calc src.ai_addrlen
          _ = dst.ai_addrlen := by rw [hcopied.same]
          _ = dup.saddrlen := hdstlen.symm
          _ = orig.saddrlen := hlen
  passive := by
    by_contra hno
    push Not at hno
    obtain ⟨hpassive, hai, hhost, hserv⟩ := hno
    obtain ⟨host, hhost⟩ := host_isSome hhost
    obtain ⟨serv, hserv⟩ := Option.ne_none_iff_exists'.mp hserv
    obtain ⟨e, horig, hflags⟩ :=
      @addrInfo_oneAddress { orig with heap := dup.heap } _ _ _ _ hai hhost hserv
    obtain ⟨e', hcopy, hflags'⟩ :=
      addrInfo_oneAddress (hc.ai_nil hai) ((hc.host_eq _).trans hhost) ((hc.serv_eq _).trans hserv)
    -- a resolver that answers with the flags tells the two records apart
    rw [hsame.addrInfo _ _ _ _ horig] at hcopy
    obtain rfl := (List.cons.inj (Option.some.inj hcopy)).1
    rw [hflags, I2AddrRec.hints, I2AddrRec.hints, hc.passive] at hflags'
    simp [hpassive] at hflags'

/-- For every record of every run, a copy gives the same answers exactly if there is
nothing that it loses. -/
theorem copy_iff {start : Start} {calls : List Call} {addr₀ : I2Addr}
    (hmake : start.make h = some (some addr₀)) (hrun : runCalls addr₀ calls = some orig)
    (hcopy : i2AddrCopy orig = some (some dup)) :
    SameAnswers { orig with heap := dup.heap } dup ↔ Copies orig := by
  have hs := run_sound hmake hrun
  have hc := i2AddrCopy_eq_some hs hcopy
  exact ⟨hc.copies, hc.sameAnswers hs⟩

theorem copy_socket :
    ∃ addr₀ orig dup, (Start.bySAddr loopbackV4 16 0 0).make emptyHeap = some (some addr₀) ∧
      runCalls addr₀ [.setFD 5 true] = some orig ∧ i2AddrCopy orig = some (some dup) ∧
      SameAnswers { orig with heap := dup.heap } dup := by
  refine ⟨_, _, _, rfl, rfl, rfl, ?_⟩
  apply (@copy_iff emptyHeap _ _ (.bySAddr loopbackV4 16 0 0) [.setFD 5 true] _ rfl rfl rfl).mpr
  exact ⟨rfl, rfl, fun p hp => ⟨_, List.mem_cons_self, hp, rfl⟩, .inl rfl⟩

/-- The type of a copy is not the one that was set. -/
theorem not_copied_socktype :
    ∃ addr₀ orig dup, (Start.byNode node80).make emptyHeap = some (some addr₀) ∧
      runCalls addr₀ [.setSocktype 1] = some orig ∧
      i2AddrCopy orig = some (some dup) ∧ ¬SameAnswers { orig with heap := dup.heap } dup := by
  refine ⟨_, _, _, rfl, rfl, rfl, fun hsame => ?_⟩
  exact absurd hsame.socktype (by decide)

end I2util
