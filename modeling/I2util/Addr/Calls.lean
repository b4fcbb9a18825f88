import I2util.Addr.Record

/-!
Runs: a record is made, and then the functions are called on it in any order.
-/

namespace I2util

inductive Start where
  | byNode (node : List UInt8)
  | byWildcard (env : Resolver) (socktype : ℤ) (servname : Option (List UInt8))
  | bySAddr (saddr : Sockaddr) (saddrlen : ℕ) (socktype protocol : ℤ)
  | bySockFD (fd : ℤ) (close_on_free : Bool) (name : Option (Sockaddr × ℕ)) (so_type : Option ℤ)

def Start.make (h : Heap UInt8) : Start → Option (Option I2Addr)
  | .byNode node => i2AddrByNode h node
  | .byWildcard env socktype servname => some (i2AddrByWildcard env h socktype servname)
  | .bySAddr saddr saddrlen socktype protocol => i2AddrBySAddr h saddr saddrlen socktype protocol
  | .bySockFD fd close_on_free name so_type => i2AddrBySockFD h fd close_on_free name so_type

/-- A call of a setter or an accessor. What the resolver answers may be different each
time. -/
inductive Call where
  | setSAddr (saddr : Option ℕ) (saddr_len : ℕ)
  | setFD (fd : ℤ) (close_on_free : Bool)
  | setPort (p : UInt16)
  | setProtocol (protocol : ℤ)
  | setSocktype (so_type : ℤ)
  | setPassive (passive : ℤ)
  | port (env : Resolver)
  | nodeName (env : Resolver) (buf : List UInt8) (len : ℕ)
  | servName (env : Resolver) (buf : List UInt8) (len : ℕ)
  | addrInfo (env : Resolver) (def_node def_serv : Option (List UInt8))

def Call.run (addr : I2Addr) : Call → Option I2Addr
  | .setSAddr saddr saddr_len => some (i2AddrSetSAddr addr saddr saddr_len).2
  | .setFD fd close_on_free => some (i2AddrSetFD addr fd close_on_free).2
  | .setPort p => (i2AddrSetPort addr p).map Prod.snd
  | .setProtocol protocol => some (i2AddrSetProtocol addr protocol).2
  | .setSocktype so_type => some (i2AddrSetSocktype addr so_type).2
  | .setPassive passive => some (i2AddrSetPassive addr passive).2
  | .port env => (i2AddrPort env addr).map Prod.snd
  | .nodeName env buf len => (i2AddrNodeName env addr buf len).map Prod.snd
  | .servName env buf len => (i2AddrServName env addr buf len).map Prod.snd
  | .addrInfo env def_node def_serv => (i2AddrAddrInfo env addr def_node def_serv).map Prod.snd

def runCalls (addr : I2Addr) (calls : List Call) : Option I2Addr := calls.foldlM Call.run addr

theorem runCalls_cons {addr : I2Addr} {c : Call} {cs : List Call} :
    runCalls addr (c :: cs) = (c.run addr).bind fun addr => runCalls addr cs :=
  rfl

/-- What every way to make a record establishes and every call keeps holds after every
run. -/
theorem runCalls_induct {motive : I2Addr → Prop} {addr addr' : I2Addr} {calls : List Call}
    (hstart : motive addr)
    (hstep : ∀ addr c addr', motive addr → Call.run addr c = some addr' → motive addr')
    (hrun : runCalls addr calls = some addr') : motive addr' := by
  induction calls generalizing addr with
  | nil => exact Option.some.inj hrun ▸ hstart
  | cons c calls ih =>
      rw [runCalls_cons] at hrun
      obtain ⟨addr₁, hc, hrest⟩ := Option.bind_eq_some_iff.mp hrun
      exact ih (hstep addr c addr₁ hstart hc) hrest

theorem i2AddrAlloc_eq_some {h : Heap UInt8} {addr : I2Addr} (ha : i2AddrAlloc h = some addr) :
    addr = ⟨.unset, h.permit.2⟩ := by
  rw [i2AddrAlloc] at ha
  split at ha
  · exact (Option.some.inj ha).symm
  · cases ha

def emptyHeap : Heap UInt8 := ⟨fun _ => none, 0, fun _ => true, fun _ _ => rfl⟩

/-! ### Lists of the resolver in the memory -/

/-- An element of a list says what the resolver said, and has its address. -/
structure Placed (h : Heap UInt8) (e : Resolved) (ai : Addrinfo) : Prop where
  flags : ai.ai_flags = e.ai_flags
  family : ai.ai_family = e.ai_family
  socktype : ai.ai_socktype = e.ai_socktype
  protocol : ai.ai_protocol = e.ai_protocol
  canonname : ai.ai_canonname = e.ai_canonname
  addrlen : ai.ai_addrlen = e.ai_addr.length
  addr : ∃ p, ai.ai_addr = some p ∧ h.mem p = some e.ai_addr

theorem placeList_cons (h : Heap UInt8) (e : Resolved) (es : List Resolved) :
    placeList h (e :: es) =
      (⟨e.ai_flags, e.ai_family, e.ai_socktype, e.ai_protocol, e.ai_addr.length, some h.next,
        e.ai_canonname⟩ :: (placeList (h.store e.ai_addr).2 es).1,
        (placeList (h.store e.ai_addr).2 es).2) :=
  rfl

/-- What is in the memory stays there. -/
theorem placeList_eq {es : List Resolved} {h h' : Heap UInt8} {ais : List Addrinfo}
    (hp : placeList h es = (ais, h')) : List.Forall₂ (Placed h') es ais ∧ h.Extends h' := by
  induction es generalizing h h' ais with
  | nil =>
      obtain ⟨rfl, rfl⟩ := Prod.mk.inj hp
      exact ⟨.nil, .refl h⟩
  | cons e es ih =>
      rw [placeList_cons] at hp
      obtain ⟨rfl, rfl⟩ := Prod.mk.inj hp
      obtain ⟨hall, hext⟩ := @ih (h.store e.ai_addr).2 _ _ rfl
      refine ⟨.cons ⟨rfl, rfl, rfl, rfl, rfl, rfl, h.next, rfl, ?_⟩ hall, ?_⟩
      · exact hext.mem_some (Heap.store_mem_self h e.ai_addr)
      · exact (Heap.store_extends h e.ai_addr).trans hext

/-- Each element is one of the answers. -/
theorem placed_of_mem {es : List Resolved} {h h' : Heap UInt8} {ais : List Addrinfo}
    (hp : placeList h es = (ais, h')) {ai : Addrinfo} (hai : ai ∈ ais) :
    ∃ e ∈ es, Placed h' e ai := by
  have hall := (placeList_eq hp).1
  clear hp
  induction hall with
  | nil => cases hai
  | cons hplaced _ ih =>
      rcases List.mem_cons.mp hai with rfl | hmem
      · exact ⟨_, List.mem_cons_self, hplaced⟩
      · obtain ⟨e, he, hplaced⟩ := ih hmem
        exact ⟨e, List.mem_cons_of_mem _ he, hplaced⟩

/-- A list that is returned is the one in the record, or it has just been resolved. -/
theorem i2AddrAddrInfo_cases {env : Resolver} {addr addr' : I2Addr}
    {def_node def_serv : Option (List UInt8)} {l : List Addrinfo}
    (h : i2AddrAddrInfo env addr def_node def_serv = some (l, addr')) :
    l = addr.ai ∧ addr' = addr ∨
      addr.ai = [] ∧ ∃ host serv, addr.host def_node = some host ∧ addr.serv def_serv = some serv ∧
        ¬(host = none ∧ addr.passive = 0) ∧
        ∃ heap, placeList addr.heap (env.getaddrinfo host serv addr.hints) = (l, heap) ∧
          addr' = { addr with ai := l, ai_free := false, heap := heap } := by
  rw [i2AddrAddrInfo] at h
  split at h
  · rename_i hempty
    have hnil : addr.ai = [] := List.isEmpty_iff.mp hempty
    obtain ⟨host, hhost, hrest⟩ := Option.bind_eq_some_iff.mp h
    split at hrest
    · obtain ⟨rfl, rfl⟩ := Prod.mk.inj (Option.some.inj hrest)
      exact .inl ⟨hnil.symm, rfl⟩
    · rename_i hpassive
      obtain ⟨serv, hserv, hlist⟩ := Option.map_eq_some_iff.mp hrest
      match he : env.getaddrinfo host serv addr.hints with
      | [] =>
          rw [he] at hlist
          obtain ⟨rfl, rfl⟩ := Prod.mk.inj hlist
          exact .inl ⟨hnil.symm, rfl⟩
      | e :: es =>
          rw [he] at hlist
          obtain ⟨rfl, rfl⟩ := Prod.mk.inj hlist
          exact .inr ⟨hnil, host, serv, hhost, hserv, hpassive, _, by rw [he]; rfl, rfl⟩
  · obtain ⟨rfl, rfl⟩ := Prod.mk.inj (Option.some.inj h)
    exact .inl ⟨rfl, rfl⟩

end I2util
