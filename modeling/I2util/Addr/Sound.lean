import I2util.Addr.Cached
import I2util.Addr.Loopback
import I2util.Addr.SetPort

/-!
What every record keeps, however it was made and whatever was called on it.
-/

namespace I2util

/-- The element of a list has its own block, of the length that it tells, and no
canonical name. -/
def Addrinfo.Sound (h : Heap UInt8) (ai : Addrinfo) : Prop :=
  ai.ai_canonname = none ∧
    ∃ p m, ai.ai_addr = some p ∧ h.mem p = some m ∧ m.length = ai.ai_addrlen

/-- The elements of the list are sound, and a port that is not set is 0. -/
structure I2Addr.Sound (addr : I2Addr) : Prop where
  list : ∀ ai ∈ addr.ai, ai.Sound addr.heap
  port : addr.port_set = false → addr.port_value = 0

variable {h : Heap UInt8} {addr addr' : I2Addr} {env : Resolver}

/-! ### Names -/

/-- The node and the port are all that is different. -/
structure I2Addr.NamesOnly (addr addr' : I2Addr) : Prop where
  ai : addr'.ai = addr.ai
  saddr : addr'.saddr = addr.saddr
  saddrlen : addr'.saddrlen = addr.saddrlen
  heap : addr'.heap = addr.heap
  zero : (addr.port_set = false → addr.port_value = 0) →
    addr'.port_set = false → addr'.port_value = 0

theorem I2Addr.NamesOnly.refl (addr : I2Addr) : addr.NamesOnly addr := ⟨rfl, rfl, rfl, rfl, id⟩

theorem I2Addr.NamesOnly.sound (hn : addr.NamesOnly addr') (hs : addr.Sound) : addr'.Sound where
  list := by
    rw [hn.ai, hn.heap]
    exact hs.list
  port := hn.zero hs.port

theorem I2Addr.NamesOnly.trans {addr'' : I2Addr} (h₁ : addr.NamesOnly addr')
    (h₂ : addr'.NamesOnly addr'') : addr.NamesOnly addr'' :=
  ⟨h₂.ai.trans h₁.ai, h₂.saddr.trans h₁.saddr, h₂.saddrlen.trans h₁.saddrlen,
    h₂.heap.trans h₁.heap, fun h => h₂.zero (h₁.zero h)⟩

theorem withPortName_namesOnly (addr : I2Addr) (name : Option (List UInt8)) :
    addr.NamesOnly (addr.withPortName name) := by
  cases name with
  | none => exact ⟨rfl, rfl, rfl, rfl, id⟩
  | some text =>
      rw [I2Addr.withPortName]
      cases readPort text with
      | none => exact ⟨rfl, rfl, rfl, rfl, fun _ _ => rfl⟩
      | some p => exact ⟨rfl, rfl, rfl, rfl, fun _ h => by cases h⟩

theorem portOf_namesOnly {sa : Sockaddr} (hset : addr.portOf env sa = some addr') :
    addr.NamesOnly addr' := by
  rw [I2Addr.portOf] at hset
  split at hset
  · obtain rfl := Option.some.inj hset
    exact ⟨rfl, rfl, rfl, rfl, fun _ _ => rfl⟩
  · obtain ⟨saddr, -, rfl⟩ := Option.map_eq_some_iff.mp hset
    exact withPortName_namesOnly addr _

theorem I2Addr.setPort_eq (addr : I2Addr) :
    addr.setPort env = addr.saddr.elim (some addr) fun p =>
      if addr.port_set then some addr else (addr.sockaddr p).bind (addr.portOf env) := by
  rw [I2Addr.setPort]
  cases addr.saddr <;> rfl

theorem I2Addr.setNodePort_eq (addr : I2Addr) :
    addr.setNodePort env = addr.saddr.elim (some addr) fun p =>
      if addr.node_set && addr.port_set then some addr
      else (addr.sockaddr p).bind (addr.nodeOf env) := by
  rw [I2Addr.setNodePort]
  cases addr.saddr <;> rfl

theorem fromAddr_induct {motive : I2Addr → Prop} {c : Bool} {f : Sockaddr → Option I2Addr}
    (hself : motive addr) (hf : ∀ sa, f sa = some addr' → motive addr')
    (hset : (addr.saddr.elim (some addr) fun p =>
      if c then some addr else (addr.sockaddr p).bind f) = some addr') : motive addr' := by
  cases hp : addr.saddr with
  | none =>
      rw [hp] at hset
      exact Option.some.inj hset ▸ hself
  | some p =>
      rw [hp, Option.elim_some] at hset
      split at hset
      · exact Option.some.inj hset ▸ hself
      · obtain ⟨sa, -, hsa⟩ := Option.bind_eq_some_iff.mp hset
        exact hf sa hsa

theorem setPort_namesOnly (hset : addr.setPort env = some addr') : addr.NamesOnly addr' := by
  rw [I2Addr.setPort_eq] at hset
  exact fromAddr_induct (.refl addr) (fun _ => portOf_namesOnly) hset

theorem nodeOf_namesOnly {sa : Sockaddr} (hset : addr.nodeOf env sa = some addr') :
    addr.NamesOnly addr' := by
  have hnode : ∀ node, addr.NamesOnly { addr with node := node, node_set := true } :=
    fun _ => ⟨rfl, rfl, rfl, rfl, id⟩
  rw [I2Addr.nodeOf] at hset
  split at hset
  · exact (hnode _).trans (setPort_namesOnly hset)
  · obtain ⟨saddr, -, hname⟩ := Option.bind_eq_some_iff.mp hset
    split at hname
    · obtain rfl := Option.some.inj hname
      exact ⟨rfl, rfl, rfl, rfl, id⟩
    · exact (hnode _).trans (setPort_namesOnly hname)

theorem setNodePort_namesOnly (hset : addr.setNodePort env = some addr') :
    addr.NamesOnly addr' := by
  rw [I2Addr.setNodePort_eq] at hset
  exact fromAddr_induct (.refl addr) (fun _ => nodeOf_namesOnly) hset

/-! ### The calls -/

theorem Addrinfo.Sound.set {ai : Addrinfo} (hs : ai.Sound h) {q : ℕ} {old new : List UInt8}
    (hq : h.mem q = some old) (hlen : new.length = old.length) : ai.Sound (h.set q new) := by
  obtain ⟨hname, p, m, haddr, hp, hm⟩ := hs
  by_cases hpq : p = q
  · subst hpq
    obtain rfl := Option.some.inj (hp.symm.trans hq)
    exact ⟨hname, p, new, haddr, Heap.set_mem_self hq new, hlen.trans hm⟩
  · exact ⟨hname, p, m, haddr, (Heap.set_mem_of_ne h new hpq).trans hp, hm⟩

theorem I2Addr.Sound.clearAI (hs : addr.Sound) : addr.clearAI.Sound where
  list := fun _ hai => by cases hai
  port := hs.port

theorem I2Addr.Sound.setPort (hs : addr.Sound) {p : UInt16} {r : Bool}
    (hrun : i2AddrSetPort addr p = some (r, addr')) : addr'.Sound := by
  rcases i2AddrSetPort_cases hrun with ⟨-, rfl⟩ | ⟨-, -, hstored⟩
  · exact hs
  · rcases hstored with ⟨-, rfl⟩ | ⟨q, sa, len, m, -, hsa, hlength, -, rfl⟩
    · exact ⟨hs.list, fun h => by cases h⟩
    · refine ⟨fun ai hai => ?_, fun h => by cases h⟩
      exact (hs.list ai hai).set (I2Addr.sockaddr_mem hsa) hlength

theorem I2Addr.Sound.reset (hs : addr.Sound) {store : I2Addr → I2Addr}
    (hclear : (store addr.clearAI).Sound) : (addr.reset store).2.Sound := by
  rw [I2Addr.reset]
  split
  · exact hs
  · split
    · exact hs
    · exact hclear

theorem I2Addr.Sound.setValue (hs : addr.Sound) {store : I2Addr → I2Addr} (old new : ℤ)
    (hstore : (store addr).Sound) (hclear : (store addr.clearAI).Sound) :
    (addr.setValue old new store).2.Sound := by
  rw [I2Addr.setValue]
  split
  · exact hs
  · split
    · exact hstore
    · exact hs.reset hclear

theorem I2Addr.Sound.setPassive (hs : addr.Sound) (v : ℤ) : (i2AddrSetPassive addr v).2.Sound := by
  rw [i2AddrSetPassive]
  split
  · exact hs
  · apply hs.reset
    exact ⟨hs.clearAI.list, hs.port⟩

/-- The lists of the resolver are asked for without canonical names. -/
theorem placed_sound {host serv : Option (List UInt8)} {hints : Hints} {heap : Heap UInt8}
    {l : List Addrinfo} (hflags : hints.ai_flags &&& AI_CANONNAME = 0)
    (hplace : placeList h (env.getaddrinfo host serv hints) = (l, heap)) :
    ∀ ai ∈ l, ai.Sound heap := by
  intro ai hai
  obtain ⟨e, he, hplaced⟩ := placed_of_mem hplace hai
  obtain ⟨p, haddr, hblock⟩ := hplaced.addr
  exact ⟨hplaced.canonname.trans (env.canonname host serv hints hflags e he), p, e.ai_addr, haddr,
    hblock, hplaced.addrlen.symm⟩

theorem hints_canonname (addr : I2AddrRec) : addr.hints.ai_flags &&& AI_CANONNAME = 0 := by
  show (if addr.passive ≠ 0 then AI_PASSIVE else 0) &&& AI_CANONNAME = 0
  split <;> decide

theorem I2Addr.Sound.addrInfo (hs : addr.Sound) {def_node def_serv : Option (List UInt8)}
    {l : List Addrinfo} (hinfo : i2AddrAddrInfo env addr def_node def_serv = some (l, addr')) :
    addr'.Sound := by
  rcases i2AddrAddrInfo_cases hinfo with ⟨-, rfl⟩ | ⟨-, host, serv, -, -, -, heap, hplace, rfl⟩
  · exact hs
  · exact ⟨placed_sound (hints_canonname addr.toI2AddrRec) hplace, hs.port⟩

/-- A name function leaves the record as it is, or asks for the names first. -/
theorem names_sound {o : Option (NameResult × I2Addr)} {set : Bool}
    {f : I2Addr → Option NameResult} (hs : addr.Sound)
    (ho : ((if set then some addr else addr.setNodePort env).bind fun addr =>
      (f addr).map fun r => (r, addr)) = o)
    (hrun : o.map Prod.snd = some addr') : addr'.Sound := by
  subst ho
  obtain ⟨⟨r, addr₁⟩, hbind, rfl⟩ := Option.map_eq_some_iff.mp hrun
  obtain ⟨addr₂, hnames, hname⟩ := Option.bind_eq_some_iff.mp hbind
  obtain ⟨r', -, hr'⟩ := Option.map_eq_some_iff.mp hname
  obtain ⟨-, rfl⟩ := Prod.mk.inj hr'
  split at hnames
  · exact Option.some.inj hnames ▸ hs
  · exact (setNodePort_namesOnly hnames).sound hs

theorem I2Addr.Sound.call (hs : addr.Sound) {c : Call} (hrun : c.run addr = some addr') :
    addr'.Sound := by
  cases c with
  | setSAddr saddr saddr_len =>
      obtain rfl := Option.some.inj hrun
      rw [i2AddrSetSAddr]
      split
      · exact hs
      · split
        · exact hs
        · exact ⟨hs.list, fun _ => rfl⟩
  | setFD fd close_on_free =>
      obtain rfl := Option.some.inj hrun
      rw [i2AddrSetFD]
      split
      · exact hs
      · exact ⟨hs.list, hs.port⟩
  | setPort p =>
      obtain ⟨⟨r, addr₁⟩, hset, rfl⟩ := Option.map_eq_some_iff.mp hrun
      exact hs.setPort hset
  | setProtocol v =>
      obtain rfl := Option.some.inj hrun
      apply hs.setValue
      · exact ⟨hs.list, hs.port⟩
      · exact ⟨hs.clearAI.list, hs.port⟩
  | setSocktype v =>
      obtain rfl := Option.some.inj hrun
      apply hs.setValue
      · exact ⟨hs.list, hs.port⟩
      · exact ⟨hs.clearAI.list, hs.port⟩
  | setPassive v => exact Option.some.inj hrun ▸ hs.setPassive v
  | port env =>
      obtain ⟨⟨p, addr₁⟩, hport, rfl⟩ := Option.map_eq_some_iff.mp hrun
      obtain ⟨addr₂, hset, heq⟩ := Option.map_eq_some_iff.mp hport
      obtain ⟨-, rfl⟩ := Prod.mk.inj heq
      split at hset
      · exact Option.some.inj hset ▸ hs
      · exact (setPort_namesOnly hset).sound hs
  | nodeName env buf len =>
      by_cases hlen : 0 < len
      · exact names_sound hs (if_pos hlen).symm hrun
      · rw [Call.run, i2AddrNodeName, if_neg hlen] at hrun
        cases hrun
  | servName env buf len =>
      by_cases hlen : 0 < len
      · exact names_sound hs (if_pos hlen).symm hrun
      · rw [Call.run, i2AddrServName, if_neg hlen] at hrun
        cases hrun
  | addrInfo env def_node def_serv =>
      obtain ⟨⟨l, addr₁⟩, hinfo, rfl⟩ := Option.map_eq_some_iff.mp hrun
      exact hs.addrInfo hinfo

/-! ### New records -/

theorem I2Addr.Sound.bySAddr {saddr : Sockaddr} {saddrlen : ℕ} {socktype protocol : ℤ}
    (hb : i2AddrBySAddr h saddr saddrlen socktype protocol = some (some addr)) : addr.Sound := by
  have hbuild : ∀ bytes len,
      i2AddrBySAddr.build h bytes len socktype protocol = some (some addr) → addr.Sound := by
    intro bytes len hbuild
    obtain ⟨hroom, p, heap, rfl, hmem⟩ := i2AddrBySAddr.build_eq_some hbuild
    refine ⟨fun ai hai => ?_, fun _ => rfl⟩
    obtain rfl := List.mem_singleton.mp hai
    exact ⟨rfl, p, _, rfl, hmem, List.length_take_of_le hroom⟩
  rcases i2AddrBySAddr_eq_some hb with ⟨hb, -⟩ | ⟨hb, -⟩
  · exact hbuild _ _ hb
  · exact hbuild _ _ hb

theorem I2Addr.Sound.make {start : Start} (hmake : start.make h = some (some addr)) :
    addr.Sound := by
  cases start with
  | byNode node =>
      obtain ⟨nptr, rfl⟩ := i2AddrByNode_eq_some hmake
      obtain ⟨text, set, hnode⟩ := withNode_fields ⟨.unset, h.permit.2⟩ nptr
      rw [hnode, I2Addr.withPort]
      split
      · exact ⟨fun _ hai => (by cases hai), fun _ => rfl⟩
      · cases readPort (portText node) with
        | none => exact ⟨fun _ hai => (by cases hai), fun _ => rfl⟩
        | some p => exact ⟨fun _ hai => (by cases hai), fun h => by cases h⟩
  | byWildcard env socktype servname =>
      obtain ⟨ai, heap, hplace, rfl⟩ := i2AddrByWildcard_eq_some (Option.some.inj hmake)
      have hlist := placed_sound (show AI_PASSIVE &&& AI_CANONNAME = 0 by decide) hplace
      exact ⟨hlist, fun _ => rfl⟩
  | bySAddr saddr saddrlen socktype protocol => exact .bySAddr hmake
  | bySockFD fd close_on_free name so_type =>
      cases name with
      | none => cases Option.some.inj hmake
      | some name =>
          cases so_type with
          | none => cases Option.some.inj hmake
          | some so_type =>
              obtain ⟨o, hb, ho⟩ := Option.map_eq_some_iff.mp hmake
              obtain ⟨new, rfl, rfl⟩ := Option.map_eq_some_iff.mp ho
              have hnew : new.Sound := by
                split at hb
                · exact .bySAddr hb
                · exact .bySAddr hb
              exact ⟨hnew.list, hnew.port⟩

/-- Every record of every run is sound. -/
theorem run_sound {start : Start} {calls : List Call} {addr₀ : I2Addr}
    (hmake : start.make h = some (some addr₀)) (hrun : runCalls addr₀ calls = some addr) :
    addr.Sound :=
  runCalls_induct (I2Addr.Sound.make hmake) (fun _ _ _ hs hc => hs.call hc) hrun

end I2util
