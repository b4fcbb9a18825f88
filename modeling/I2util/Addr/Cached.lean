import I2util.Addr.Calls

/-!
Which values a list of `I2AddrAddrInfo` was resolved with.

The list is kept in the record. A setter that does not drop it leaves a list of older
values behind, unless the list has the new value already.
-/

namespace I2util

/-- The values that were set last. There may be no port. -/
structure Wanted where
  port : Option UInt16
  socktype : ℤ
  protocol : ℤ
  passive : ℤ

def Call.wanted (w : Wanted) : Call → Wanted
  | .setPort p => { w with port := some p }
  | .setSocktype so_type => { w with socktype := so_type }
  | .setProtocol protocol => { w with protocol := protocol }
  | .setPassive passive => { w with passive := passive }
  | _ => w

/-- The text behind the node, from which `I2AddrByNode` takes the port. -/
def portText (node : List UInt8) : List UInt8 :=
  match i2AddrByNode.split node with
  | some (_, some pptr) => pptr
  | _ => []

def Start.wanted : Start → Wanted
  | .byNode node => ⟨readPort (portText node), 0, 0, 0⟩
  | _ => ⟨none, 0, 0, 1⟩

def passiveFlags (passive : ℤ) : ℕ := if passive ≠ 0 then AI_PASSIVE else 0

structure Carries (w : Wanted) (h : Heap UInt8) (ai : Addrinfo) : Prop where
  port : ∀ p, w.port = some p → (ai.ai_addr.bind h.mem).map sinPort = some (htons p)
  socktype : w.socktype ≠ 0 → ai.ai_socktype = w.socktype
  protocol : w.protocol ≠ 0 → ai.ai_protocol = w.protocol
  flags : ai.ai_flags = passiveFlags w.passive

/-- `getaddrinfo` answers with the port, the socket type, the protocol and the flags that
it was asked for. -/
structure Resolver.Honest (env : Resolver) : Prop where
  port : ∀ host serv hints, ∀ e ∈ env.getaddrinfo host (some serv) hints, ∀ p,
    numeral serv = some p → sinPort e.ai_addr = htons p
  socktype : ∀ host serv hints, ∀ e ∈ env.getaddrinfo host serv hints,
    hints.ai_socktype ≠ 0 → e.ai_socktype = hints.ai_socktype
  protocol : ∀ host serv hints, ∀ e ∈ env.getaddrinfo host serv hints,
    hints.ai_protocol ≠ 0 → e.ai_protocol = hints.ai_protocol
  flags : ∀ host serv hints, ∀ e ∈ env.getaddrinfo host serv hints, e.ai_flags = hints.ai_flags

/-- The records of a run: they are made by `I2AddrByNode` or `I2AddrByWildcard`. -/
def Start.Resolving : Start → Prop
  | .byNode _ => True
  | .byWildcard env _ _ => env.Honest
  | _ => False

/-- The calls of a run: none of them attaches an address or a descriptor. -/
def Call.Resolving : Call → Prop
  | .setPort _ | .setSocktype _ | .setProtocol _ | .setPassive _ => True
  | .addrInfo env _ _ => env.Honest
  | _ => False

/-- Every list that `I2AddrAddrInfo` returns after the calls has the values that were
set last. -/
def Current (h : Heap UInt8) (start : Start) (calls : List Call) : Prop :=
  ∀ addr₀ addr, start.make h = some (some addr₀) → runCalls addr₀ calls = some addr →
    ∀ env def_node def_serv l addr', env.Honest →
      i2AddrAddrInfo env addr def_node def_serv = some (l, addr') →
        ∀ ai ∈ l, Carries (calls.foldl Call.wanted start.wanted) addr'.heap ai

/-! ### When no setter leaves an old list behind -/

/-- The text of the port is read to its end. -/
def Start.Fits : Start → Prop
  | .byNode node => ∀ p, readPort (portText node) = some p → numeral (portText node) = some p
  | _ => True

/-- A setter that keeps the list finds its value in the list. `I2AddrSetPort` always
keeps the list, the other two do when the value was 0. -/
def Call.Fits (addr : I2Addr) : Call → Prop
  | .setPort p => ∀ ai ∈ addr.ai, (ai.ai_addr.bind addr.heap.mem).map sinPort = some (htons p)
  | .setSocktype so_type => addr.so_type = 0 → so_type ≠ 0 →
      ∀ ai ∈ addr.ai, ai.ai_socktype = so_type
  | .setProtocol protocol => addr.so_protocol = 0 → protocol ≠ 0 →
      ∀ ai ∈ addr.ai, ai.ai_protocol = protocol
  | _ => True

def CallsFit : I2Addr → List Call → Prop
  | _, [] => True
  | addr, c :: calls => c.Fits addr ∧ ∀ addr', c.run addr = some addr' → CallsFit addr' calls

/-- A record without address and descriptor that has the values, and a list of them if
it has a list. -/
structure Resolves (w : Wanted) (addr : I2Addr) : Prop where
  saddr : addr.saddr = none
  fd : addr.fd = -1
  port : w.port = if addr.port_set then some addr.port_value else none
  text : addr.port_set → ∀ s, addr.port.str = some s → numeral s = some addr.port_value
  socktype : addr.so_type = w.socktype
  protocol : addr.so_protocol = w.protocol
  passive : addr.passive = w.passive
  list : ∀ ai ∈ addr.ai, Carries w addr.heap ai

variable {w : Wanted} {addr addr' : I2Addr} {h : Heap UInt8}

theorem str_strncpy {s t : List UInt8} {n : ℕ} (h : (strncpy s n).str = some t) : t = s := by
  rw [CArray.str] at h
  split at h
  · rename_i hlt
    obtain rfl := Option.some.inj h
    change (s.take n).length < n at hlt
    rw [List.length_take] at hlt
    exact List.take_of_length_le (by omega)
  · cases h

/-! ### The calls -/

theorem Resolves.setPort (hr : Resolves w addr) {p : UInt16} (hfit : (Call.setPort p).Fits addr)
    (hrun : (Call.setPort p).run addr = some addr') :
    Resolves ((Call.setPort p).wanted w) addr' := by
  have hset : i2AddrSetPort addr p = some (true, addr.portTo p) := by
    rw [i2AddrSetPort, hr.fd, if_neg (by decide), hr.saddr]
  rw [Call.run, hset] at hrun
  obtain rfl := Option.some.inj hrun
  refine ⟨hr.saddr, hr.fd, rfl, fun _ s hs => ?_, hr.socktype, hr.protocol, hr.passive,
    fun ai hai => ?_⟩
  · rw [str_strncpy hs]
    exact numeral_decimal p
  · have hold := hr.list ai hai
    refine ⟨fun q hq => ?_, hold.socktype, hold.protocol, hold.flags⟩
    obtain rfl := Option.some.inj hq
    exact hfit ai hai

theorem Resolves.clearAI (hr : Resolves w addr) : Resolves w addr.clearAI :=
  ⟨rfl, hr.fd, hr.port, hr.text, hr.socktype, hr.protocol, hr.passive, fun _ hai => by cases hai⟩

theorem Resolves.reset {w' : Wanted} (hr : Resolves w addr) {store : I2Addr → I2Addr}
    (hclear : Resolves w' (store addr.clearAI)) : Resolves w' (addr.reset store).2 := by
  rw [I2Addr.reset, hr.fd, if_neg (by decide), hr.saddr, if_neg (by decide)]
  exact hclear

/-- A setter that stores a value of the list. The list stays where the value was 0. -/
theorem Resolves.setValue {w' : Wanted} {old new : ℤ} (hr : Resolves w addr)
    {store : I2Addr → I2Addr} (hsame : old = new → w' = w)
    (hstore : ∀ x, Resolves w x → (∀ ai ∈ x.ai, Carries w' x.heap ai) → Resolves w' (store x))
    (hfit : old = 0 → new ≠ 0 → ∀ ai ∈ addr.ai, Carries w' addr.heap ai) :
    Resolves w' (addr.setValue old new store).2 := by
  rw [I2Addr.setValue]
  by_cases hold : old = new
  · rw [if_pos hold, hsame hold]
    exact hr
  · rw [if_neg hold]
    by_cases h0 : old = 0
    · rw [if_pos h0]
      exact hstore addr hr (hfit h0 fun hnew => hold (h0.trans hnew.symm))
    · rw [if_neg h0]
      exact hr.reset (hstore addr.clearAI hr.clearAI fun _ hai => by cases hai)

theorem Resolves.setSocktype (hr : Resolves w addr) {v : ℤ}
    (hfit : (Call.setSocktype v).Fits addr) :
    Resolves ((Call.setSocktype v).wanted w) (i2AddrSetSocktype addr v).2 := by
  refine hr.setValue (fun hsame => ?_) (fun x hx hlist => ?_) fun hzero hne ai hai => ?_
  · rw [Call.wanted, ← hsame, hr.socktype]
  · exact { hx with socktype := rfl, list := hlist }
  · exact { hr.list ai hai with socktype := fun _ => hfit hzero hne ai hai }

theorem Resolves.setProtocol (hr : Resolves w addr) {v : ℤ}
    (hfit : (Call.setProtocol v).Fits addr) :
    Resolves ((Call.setProtocol v).wanted w) (i2AddrSetProtocol addr v).2 := by
  refine hr.setValue (fun hsame => ?_) (fun x hx hlist => ?_) fun hzero hne ai hai => ?_
  · rw [Call.wanted, ← hsame, hr.protocol]
  · exact { hx with protocol := rfl, list := hlist }
  · exact { hr.list ai hai with protocol := fun _ => hfit hzero hne ai hai }

theorem Resolves.setPassive (hr : Resolves w addr) (v : ℤ) :
    Resolves ((Call.setPassive v).wanted w) (i2AddrSetPassive addr v).2 := by
  rw [i2AddrSetPassive]
  by_cases hsame : addr.passive = v
  · rw [if_pos hsame]
    obtain rfl : w.passive = v := hr.passive.symm.trans hsame
    exact hr
  · rw [if_neg hsame]
    apply hr.reset
    exact { hr.clearAI with passive := rfl, list := fun _ hai => by cases hai }

/-- An honest resolver is asked for the values of the record. -/
theorem Resolves.addrInfo (hr : Resolves w addr) {env : Resolver} (henv : env.Honest)
    {def_node def_serv : Option (List UInt8)} {l : List Addrinfo}
    (hinfo : i2AddrAddrInfo env addr def_node def_serv = some (l, addr')) :
    Resolves w addr' ∧ ∀ ai ∈ l, Carries w addr'.heap ai := by
  rcases i2AddrAddrInfo_cases hinfo with ⟨rfl, rfl⟩ |
    ⟨-, host, serv, hhost, hserv, -, heap, hplace, rfl⟩
  · exact ⟨hr, hr.list⟩
  · have hlist : ∀ ai ∈ l, Carries w heap ai := by
      intro ai hai
      obtain ⟨e, he, hplaced⟩ := placed_of_mem hplace hai
      obtain ⟨p, haddr, hblock⟩ := hplaced.addr
      refine ⟨fun q hq => ?_, fun hne => ?_, fun hne => ?_, ?_⟩
      · have hset : addr.port_set = true ∧ addr.port_value = q := by
          rw [hr.port] at hq
          split at hq
          · exact ⟨‹_›, Option.some.inj hq⟩
          · cases hq
        -- the text of a port that is set is its number
        have hunknown : addr.port.text ≠ unknown := by
          intro htext
          have hstr : addr.port.str = some unknown := by
            rw [CArray.str, htext]
            rfl
          have hnum := hr.text hset.1 unknown hstr
          rw [show numeral unknown = none by decide] at hnum
          cases hnum
        rw [I2AddrRec.serv, if_pos ⟨hset.1, hunknown⟩] at hserv
        obtain ⟨s, hs, rfl⟩ := Option.map_eq_some_iff.mp hserv
        have hnum := hr.text hset.1 s hs
        rw [hset.2] at hnum
        rw [haddr, Option.bind_some, hblock, Option.map_some, henv.port _ _ _ e he q hnum]
      · have htype : addr.hints.ai_socktype = w.socktype := by
          rw [I2AddrRec.hints, hr.socktype]
          exact if_pos hne
        rw [hplaced.socktype, henv.socktype _ _ _ e he (by rwa [htype]), htype]
      · have hproto : addr.hints.ai_protocol = w.protocol := hr.protocol
        rw [hplaced.protocol, henv.protocol _ _ _ e he (by rwa [hproto]), hproto]
      · rw [hplaced.flags, henv.flags _ _ _ e he, I2AddrRec.hints, hr.passive]
        rfl
    exact ⟨⟨hr.saddr, hr.fd, hr.port, hr.text, hr.socktype, hr.protocol, hr.passive, hlist⟩, hlist⟩

theorem Resolves.call (hr : Resolves w addr) {c : Call} (hc : c.Resolving) (hfit : c.Fits addr)
    (hrun : c.run addr = some addr') : Resolves (c.wanted w) addr' := by
  cases c with
  | setPort p => exact hr.setPort hfit hrun
  | setSocktype v => exact Option.some.inj hrun ▸ hr.setSocktype hfit
  | setProtocol v => exact Option.some.inj hrun ▸ hr.setProtocol hfit
  | setPassive v => exact Option.some.inj hrun ▸ hr.setPassive v
  | addrInfo env def_node def_serv =>
      obtain ⟨⟨l, addr₁⟩, hinfo, rfl⟩ := Option.map_eq_some_iff.mp hrun
      exact (hr.addrInfo hc hinfo).1
  | setSAddr | setFD | port | nodeName | servName => exact hc.elim

theorem Resolves.run {calls : List Call} (hr : Resolves w addr)
    (hcalls : ∀ c ∈ calls, c.Resolving) (hfit : CallsFit addr calls)
    (hrun : runCalls addr calls = some addr') : Resolves (calls.foldl Call.wanted w) addr' := by
  induction calls generalizing w addr with
  | nil => exact Option.some.inj hrun ▸ hr
  | cons c calls ih =>
      rw [runCalls_cons] at hrun
      obtain ⟨addr₁, hc, hrest⟩ := Option.bind_eq_some_iff.mp hrun
      have hone := hr.call (hcalls c List.mem_cons_self) hfit.1 hc
      exact ih hone (fun d hd => hcalls d (List.mem_cons_of_mem c hd)) (hfit.2 addr₁ hc) hrest

/-! ### New records -/

theorem i2AddrByNode_eq_some {node : List UInt8} (hn : i2AddrByNode h node = some (some addr)) :
    ∃ nptr, addr = ((⟨.unset, h.permit.2⟩ : I2Addr).withNode nptr).withPort (portText node) := by
  rw [i2AddrByNode] at hn
  match ha : i2AddrAlloc h with
  | none => simp [ha] at hn
  | some new =>
      obtain rfl := i2AddrAlloc_eq_some ha
      simp only [ha] at hn
      obtain ⟨⟨nptr, pptr⟩, hsplit, hnew⟩ := Option.map_eq_some_iff.mp hn
      have htext : portText node = pptr.getD [] := by
        rw [portText, hsplit]
        cases pptr <;> rfl
      exact ⟨nptr, by rw [htext]; exact (Option.some.inj hnew).symm⟩

theorem withNode_fields (addr : I2Addr) (nptr : List UInt8) :
    ∃ node node_set, addr.withNode nptr =
      { addr with node := node, node_set := node_set } := by
  rw [I2Addr.withNode]
  split
  · exact ⟨addr.node, addr.node_set, rfl⟩
  · exact ⟨_, _, rfl⟩

theorem Resolves.byNode {node : List UInt8} (hfit : (Start.byNode node).Fits)
    (hmake : i2AddrByNode h node = some (some addr)) :
    Resolves (Start.byNode node).wanted addr := by
  obtain ⟨nptr, rfl⟩ := i2AddrByNode_eq_some hmake
  obtain ⟨text, set, hnode⟩ := withNode_fields ⟨.unset, h.permit.2⟩ nptr
  rw [hnode, I2Addr.withPort]
  by_cases hnil : portText node = []
  · rw [if_pos hnil]
    refine ⟨rfl, rfl, ?_, fun hset => (by cases hset), rfl, rfl, rfl, fun _ hai => by cases hai⟩
    show readPort (portText node) = none
    rw [hnil]
    rfl
  · rw [if_neg hnil]
    match hread : readPort (portText node) with
    | none =>
        exact ⟨rfl, rfl, hread, fun hset => (by cases hset), rfl, rfl, rfl,
          fun _ hai => by cases hai⟩
    | some p =>
        refine ⟨rfl, rfl, hread, fun _ s hs => ?_, rfl, rfl, rfl, fun _ hai => by cases hai⟩
        rw [str_strncpy hs]
        exact hfit p hread

theorem i2AddrByWildcard_eq_some {env : Resolver} {socktype : ℤ}
    {servname : Option (List UInt8)} (hw : i2AddrByWildcard env h socktype servname = some addr) :
    ∃ ai heap,
      placeList h (env.getaddrinfo none servname ⟨AI_PASSIVE, AF_UNSPEC, socktype, 0⟩) =
        (ai, heap) ∧
      addr = ⟨{ I2AddrRec.unset with ai := ai, passive := 1 }, heap.permit.2⟩ := by
  rw [i2AddrByWildcard] at hw
  match he : env.getaddrinfo none servname ⟨AI_PASSIVE, AF_UNSPEC, socktype, 0⟩ with
  | [] =>
      rw [he] at hw
      cases hw
  | e :: es =>
      rw [he] at hw
      change (i2AddrAlloc (placeList h (e :: es)).2).map (fun addr =>
        { addr with ai := (placeList h (e :: es)).1, passive := 1 }) = some addr at hw
      obtain ⟨new, ha, rfl⟩ := Option.map_eq_some_iff.mp hw
      obtain rfl := i2AddrAlloc_eq_some ha
      exact ⟨_, _, rfl, rfl⟩

theorem Resolves.byWildcard {env : Resolver} {socktype : ℤ} {servname : Option (List UInt8)}
    (henv : env.Honest) (hmake : i2AddrByWildcard env h socktype servname = some addr) :
    Resolves (Start.byWildcard env socktype servname).wanted addr := by
  obtain ⟨ai, heap, hplace, rfl⟩ := i2AddrByWildcard_eq_some hmake
  refine ⟨rfl, rfl, rfl, fun hset => (by cases hset), rfl, rfl, rfl, fun a ha => ?_⟩
  obtain ⟨e, he, hplaced⟩ := placed_of_mem hplace ha
  refine ⟨fun q hq => (by cases hq), fun hne => absurd rfl hne, fun hne => absurd rfl hne, ?_⟩
  rw [hplaced.flags, henv.flags _ _ _ e he]
  rfl

/-- Where no setter leaves a list without its value behind, every list that
`I2AddrAddrInfo` returns has the values that were set last. -/
theorem lists_current (h : Heap UInt8) {start : Start} {calls : List Call}
    (hstart : start.Resolving) (hcalls : ∀ c ∈ calls, c.Resolving) (hfit : start.Fits)
    (hfits : ∀ addr, start.make h = some (some addr) → CallsFit addr calls) :
    Current h start calls := by
  intro addr₀ addr hmake hrun env def_node def_serv l addr' henv hinfo
  have hnew : Resolves start.wanted addr₀ := by
    cases start with
    | byNode node => exact Resolves.byNode hfit hmake
    | byWildcard env socktype servname =>
        exact Resolves.byWildcard hstart (Option.some.inj hmake)
    | bySAddr | bySockFD => exact hstart.elim
  exact ((hnew.run hcalls (hfits addr₀ hmake) hrun).addrInfo henv hinfo).2

def oneAddress : Resolver where
  getaddrinfo := fun _ serv hints =>
    [⟨hints.ai_flags, AF_INET, hints.ai_socktype, hints.ai_protocol,
      [2, 0] ++ (htons ((serv.bind numeral).getD 0) ++ ([192, 0, 2, 1] ++ List.replicate 8 0)),
      none⟩]
  nodeName := fun _ _ => none
  portName := fun _ => none
  canonname := by
    intro host serv hints _ e he
    rw [List.mem_singleton.mp he]

theorem oneAddress_honest : oneAddress.Honest := by
  refine ⟨fun host serv hints e he p hp => ?_, fun host serv hints e he _ => ?_,
    fun host serv hints e he _ => ?_, fun host serv hints e he => ?_⟩
  all_goals rw [List.mem_singleton.mp he]
  rw [show (some serv).bind numeral = some p from hp]
  rfl

def node80 : List UInt8 := [104, 58, 56, 48]

theorem lists_current_port :
    Current emptyHeap (.byNode node80)
      [.setPort 81, .setSocktype 2, .addrInfo oneAddress none none, .setPassive 1] := by
  apply lists_current
  · trivial
  · intro c hc
    simp only [List.mem_cons, List.not_mem_nil, or_false] at hc
    rcases hc with rfl | rfl | rfl | rfl
    · trivial
    · trivial
    · exact oneAddress_honest
    · trivial
  · intro p hp
    rw [show portText node80 = [56, 48] by decide] at hp ⊢
    rw [show readPort [56, 48] = some 80 by decide] at hp
    obtain rfl := Option.some.inj hp
    decide
  · intro addr hmake
    obtain rfl := Option.some.inj (Option.some.inj hmake)
    refine ⟨fun ai hai => (by cases hai), fun addr₁ hrun₁ => ?_⟩
    obtain rfl := Option.some.inj hrun₁
    refine ⟨fun _ _ ai hai => (by cases hai), fun addr₂ hrun₂ => ⟨trivial, fun addr₃ hrun₃ => ?_⟩⟩
    exact ⟨trivial, fun _ _ => trivial⟩

/-- The port is set after the list was resolved. -/
theorem not_current_setPort :
    ¬Current emptyHeap (.byNode node80) [.addrInfo oneAddress none none, .setPort 81] := by
  intro h
  have hlast := h _ _ rfl rfl oneAddress none none _ _ oneAddress_honest rfl _ List.mem_cons_self
  have hport := hlast.port 81 rfl
  exact absurd hport (by decide)

end I2util
