import I2util.Addr.Copy
import I2util.Addr.Names
import I2util.Addr.Setters
import I2util.Library.Owners

/-!
Programs with many address records: which socket address in the memory belongs to which
record, and who closes a descriptor.
-/

namespace I2util

open Heap (Exchange)

def I2AddrRec.blocks (r : I2AddrRec) : List ℕ := r.ai.filterMap Addrinfo.ai_addr

def I2AddrRec.Closes (r : I2AddrRec) (fd : ℤ) : Prop := r.fd = fd ∧ 0 ≤ fd ∧ r.fd_user = false

/-! ### What a call that fails leaves behind -/

def freeaddrinfo (h : Heap UInt8) (ai : List Addrinfo) : Heap UInt8 :=
  ai.foldl (fun h ai => ai.ai_addr.elim h h.free) h

def i2AddrByWildcard.failed (env : Resolver) (h : Heap UInt8) (socktype : ℤ)
    (servname : Option (List UInt8)) : Heap UInt8 :=
  match env.getaddrinfo none servname ⟨AI_PASSIVE, AF_UNSPEC, socktype, 0⟩ with
  | [] => h
  | es =>
      let (ai, h) := placeList h es
      freeaddrinfo h.permit.2 ai

/-- There is no memory for the record, for the element of its list or for the address. -/
def i2AddrBySAddr.build.failed (h : Heap UInt8) (saddrlen : ℕ) : Heap UInt8 :=
  if h.permit.1 then
    if h.permit.2.permit.1 then (h.permit.2.permit.2.alloc (List.replicate saddrlen 0)).2
    else h.permit.2.permit.2
  else h.permit.2

def i2AddrBySAddr.failed (h : Heap UInt8) (saddr : Sockaddr) (saddrlen : ℕ) : Heap UInt8 :=
  if saFamily saddr.bytes = AF_INET6 then
    if saddrlen < sizeofSockaddrIn6 then h
    else
      (Memory.read saddr.bytes 0 sizeofSockaddrIn6).elim h fun v6addr =>
        i2AddrBySAddr.build.failed h
          (if in6IsAddrV4mapped (sin6Addr v6addr.1) then sizeofSockaddrIn else saddrlen)
  else if saFamily saddr.bytes = AF_INET ∨ saFamily saddr.bytes = AF_UNIX then
    i2AddrBySAddr.build.failed h saddrlen
  else h

def byAnySockFD.failed (h : Heap UInt8) (saddr : Sockaddr) (saddrlen : ℕ) (so_type : Option ℤ) :
    Heap UInt8 :=
  match so_type with
  | none => h
  | some _ =>
      if saddrlen = 0 then i2AddrBySAddr.failed h (byAnySockFD.fake saddr) 2
      else i2AddrBySAddr.failed h saddr saddrlen

def Start.failed (h : Heap UInt8) : Start → Heap UInt8
  | .byNode _ => h.permit.2
  | .byWildcard env socktype servname => i2AddrByWildcard.failed env h socktype servname
  | .bySAddr saddr saddrlen _ _ => i2AddrBySAddr.failed h saddr saddrlen
  | .bySockFD _ _ name so_type =>
      name.elim h fun (saddr, saddrlen) => byAnySockFD.failed h saddr saddrlen so_type

/-- The record as far as it was copied when `CopyAddrRec` failed. -/
def i2AddrCopy.undone (saddr : Option ℕ) : List Addrinfo → I2Addr → I2Addr
  | [], dup => dup
  | ai :: ais, dup =>
      match copyAddrRec dup.heap ai with
      | none => dup
      | some (none, h) => { dup with ai_free := true, heap := h }
      | some (some dst, h) =>
          let dup := { dup with ai_free := true, ai := dup.ai ++ [dst], heap := h }
          i2AddrCopy.undone saddr ais
            (if ai.ai_addr = saddr then
              { dup with saddr := dst.ai_addr, saddrlen := dst.ai_addrlen } else dup)

def i2AddrCopy.failed (orig : I2Addr) : Heap UInt8 :=
  match i2AddrAlloc orig.heap with
  | none => orig.heap.permit.2
  | some dup => (i2AddrFree (i2AddrCopy.undone orig.saddr orig.ai (dup.withNames orig))).2

/-! ### The blocks of a record -/

/-- The addresses in the list are in the memory, each is there once, and the address of
the record is one of them. -/
structure I2Addr.Owns (addr : I2Addr) : Prop where
  holds : addr.heap.Holds addr.blocks
  saddr : ∀ p, addr.saddr = some p → p ∈ addr.blocks

/-- What a call does with the memory and with the descriptor. -/
structure I2Addr.Keeps (addr addr' : I2Addr) : Prop where
  exchange : Exchange addr.heap addr.blocks addr'.heap addr'.blocks
  saddr : ∀ p, addr'.saddr = some p → p ∈ addr'.blocks
  fd : addr'.fd = addr.fd
  fd_user : addr'.fd_user = addr.fd_user

variable {h : Heap UInt8} {addr addr' : I2Addr} {env : Resolver} {ps : List ℕ}

theorem I2Addr.Keeps.owns (hk : addr.Keeps addr') : addr'.Owns := ⟨hk.exchange.holds, hk.saddr⟩

theorem I2Addr.Keeps.trans {addr'' : I2Addr} (h₁ : addr.Keeps addr') (h₂ : addr'.Keeps addr'') :
    addr.Keeps addr'' :=
  ⟨h₁.exchange.trans h₂.exchange, h₂.saddr, h₂.fd.trans h₁.fd, h₂.fd_user.trans h₁.fd_user⟩

theorem I2Addr.Owns.refl (ho : addr.Owns) : addr.Keeps addr := ⟨.refl ho.holds, ho.saddr, rfl, rfl⟩

theorem freeaddrinfo_eq (h : Heap UInt8) (ai : List Addrinfo) :
    freeaddrinfo h ai = (ai.filterMap Addrinfo.ai_addr).foldl Heap.free h := by
  induction ai generalizing h with
  | nil => rfl
  | cons a ai ih =>
      show freeaddrinfo (a.ai_addr.elim h h.free) ai = _
      rw [ih]
      cases haddr : a.ai_addr with
      | none => rw [List.filterMap_cons_none haddr]; rfl
      | some p => rw [List.filterMap_cons_some haddr]; rfl

/-- The list goes with its addresses. -/
theorem clearAI_keeps (addr : I2Addr) : addr.Keeps addr.clearAI where
  exchange := by
    show Exchange _ _ (freeaddrinfo addr.heap addr.ai) []
    rw [freeaddrinfo_eq]
    exact .free_all _
  saddr := fun _ hp => by cases hp
  fd := rfl
  fd_user := rfl

/-- The list of the resolver adds its addresses. -/
theorem exchange_placeList (es : List Resolved) (hh : h.Holds ps) :
    Exchange h ps (placeList h es).2
      (ps ++ (placeList h es).1.filterMap Addrinfo.ai_addr) := by
  induction es generalizing h ps with
  | nil =>
      rw [placeList, List.filterMap_nil, List.append_nil]
      exact .refl hh
  | cons e es ih =>
      rw [placeList_cons]
      have hone := Exchange.store hh e.ai_addr
      have hrest := hone.trans (ih hone.holds)
      rwa [List.append_assoc] at hrest

/-! ### Names -/

def I2Addr.SameFD (addr addr' : I2Addr) : Prop := addr'.fd = addr.fd ∧ addr'.fd_user = addr.fd_user

theorem withPortName_sameFD (addr : I2Addr) (name : Option (List UInt8)) :
    addr.SameFD (addr.withPortName name) := by
  cases name with
  | none => exact ⟨rfl, rfl⟩
  | some text =>
      rw [I2Addr.withPortName]
      cases readPort text <;> exact ⟨rfl, rfl⟩

theorem portOf_sameFD {sa : Sockaddr} (hset : addr.portOf env sa = some addr') :
    addr.SameFD addr' := by
  rw [I2Addr.portOf] at hset
  split at hset
  · obtain rfl := Option.some.inj hset
    exact ⟨rfl, rfl⟩
  · obtain ⟨saddr, -, rfl⟩ := Option.map_eq_some_iff.mp hset
    exact withPortName_sameFD addr _

theorem setPort_sameFD (hset : addr.setPort env = some addr') : addr.SameFD addr' := by
  rw [I2Addr.setPort_eq] at hset
  exact fromAddr_induct ⟨rfl, rfl⟩ (fun _ => portOf_sameFD) hset

theorem nodeOf_sameFD {sa : Sockaddr} (hset : addr.nodeOf env sa = some addr') :
    addr.SameFD addr' := by
  rw [I2Addr.nodeOf] at hset
  split at hset
  · have hport := setPort_sameFD hset
    exact hport
  · obtain ⟨saddr, -, hname⟩ := Option.bind_eq_some_iff.mp hset
    split at hname
    · obtain rfl := Option.some.inj hname
      exact ⟨rfl, rfl⟩
    · have hport := setPort_sameFD hname
      exact hport

theorem setNodePort_sameFD (hset : addr.setNodePort env = some addr') : addr.SameFD addr' := by
  rw [I2Addr.setNodePort_eq] at hset
  exact fromAddr_induct ⟨rfl, rfl⟩ (fun _ => nodeOf_sameFD) hset

theorem I2Addr.NamesOnly.keeps (hn : addr.NamesOnly addr') (hfd : addr.SameFD addr')
    (ho : addr.Owns) : addr.Keeps addr' where
  exchange := by
    have hblocks : addr'.blocks = addr.blocks := by rw [I2AddrRec.blocks, hn.ai]; rfl
    rw [hblocks, hn.heap]
    exact .refl ho.holds
  saddr := fun p hp => by
    rw [I2AddrRec.blocks, hn.ai]
    exact ho.saddr p (hn.saddr ▸ hp)
  fd := hfd.1
  fd_user := hfd.2

/-- The names are asked for, or not. -/
theorem looked_keeps {c : Bool} (ho : addr.Owns)
    (hlook : (if c then some addr else addr.setNodePort env) = some addr') :
    addr.Keeps addr' := by
  split at hlook
  · exact Option.some.inj hlook ▸ ho.refl
  · exact (setNodePort_namesOnly hlook).keeps (setNodePort_sameFD hlook) ho

theorem names_keeps {o : Option (NameResult × I2Addr)} {c : Bool}
    {f : I2Addr → Option NameResult} (ho : addr.Owns)
    (ho' : ((if c then some addr else addr.setNodePort env).bind fun addr =>
      (f addr).map fun r => (r, addr)) = o)
    (hrun : o.map Prod.snd = some addr') : addr.Keeps addr' := by
  subst ho'
  obtain ⟨⟨r, addr₁⟩, hbind, rfl⟩ := Option.map_eq_some_iff.mp hrun
  obtain ⟨addr₂, hnames, hname⟩ := Option.bind_eq_some_iff.mp hbind
  obtain ⟨r', -, hr'⟩ := Option.map_eq_some_iff.mp hname
  obtain ⟨-, rfl⟩ := Prod.mk.inj hr'
  exact looked_keeps ho hnames

theorem nodeServName_keeps {buf : List UInt8} {len : ℕ} (ho : addr.Owns)
    (hrun : (i2AddrNodeServName env addr buf len).map Prod.snd = some addr') :
    addr.Keeps addr' := by
  obtain ⟨⟨r, addr₁⟩, hname, rfl⟩ := Option.map_eq_some_iff.mp hrun
  rw [i2AddrNodeServName] at hname
  split at hname
  · obtain ⟨addr₂, hlook, hfill⟩ := Option.bind_eq_some_iff.mp hname
    obtain ⟨r', -, hr'⟩ := Option.map_eq_some_iff.mp hfill
    obtain ⟨-, rfl⟩ := Prod.mk.inj hr'
    split at hlook
    · exact (setNodePort_namesOnly hlook).keeps (setNodePort_sameFD hlook) ho
    · exact Option.some.inj hlook ▸ ho.refl
  · cases hname

/-! ### The calls -/

/-- A value that is stored without a look at the list. -/
theorem setPort_keeps {p : UInt16} {r : Bool} (ho : addr.Owns)
    (hrun : i2AddrSetPort addr p = some (r, addr')) : addr.Keeps addr' := by
  rcases i2AddrSetPort_cases hrun with ⟨-, rfl⟩ | ⟨-, -, hstored⟩
  · exact ho.refl
  · rcases hstored with ⟨-, rfl⟩ | ⟨q, sa, len, m, hq, -, -, -, rfl⟩
    · exact ⟨.refl ho.holds, ho.saddr, rfl, rfl⟩
    · exact ⟨.set ho.holds (ho.saddr q hq) m, ho.saddr, rfl, rfl⟩

/-- A setter stores its value, and drops the list before or does not. -/
theorem reset_keeps {store : I2Addr → I2Addr} (ho : addr.Owns)
    (hstore : ∀ addr₁ : I2Addr, addr₁.Owns → addr₁.Keeps (store addr₁)) :
    addr.Keeps (addr.reset store).2 := by
  rw [I2Addr.reset]
  split
  · exact ho.refl
  · split
    · exact ho.refl
    · have hclear := clearAI_keeps addr
      exact hclear.trans (hstore _ hclear.owns)

theorem setValue_keeps {old new : ℤ} {store : I2Addr → I2Addr} (ho : addr.Owns)
    (hstore : ∀ addr₁ : I2Addr, addr₁.Owns → addr₁.Keeps (store addr₁)) :
    addr.Keeps (addr.setValue old new store).2 := by
  rw [I2Addr.setValue]
  split
  · exact ho.refl
  · split
    · exact hstore addr ho
    · exact reset_keeps ho hstore

/-- A record without a list has no address. -/
theorem addrInfo_keeps {def_node def_serv : Option (List UInt8)} {l : List Addrinfo}
    (ho : addr.Owns) (hinfo : i2AddrAddrInfo env addr def_node def_serv = some (l, addr')) :
    addr.Keeps addr' := by
  rcases i2AddrAddrInfo_cases hinfo with
    ⟨-, rfl⟩ | ⟨hnil, host, serv, -, -, -, heap, hplace, rfl⟩
  · exact ho.refl
  · have hblocks : addr.blocks = [] := by rw [I2AddrRec.blocks, hnil]; rfl
    refine ⟨?_, fun p hp => ?_, rfl, rfl⟩
    · have hlist := exchange_placeList (env.getaddrinfo host serv addr.hints)
        (Heap.Holds.nil addr.heap)
      rw [hplace] at hlist
      rw [hblocks]
      exact hlist
    · have hmem := ho.saddr p hp
      rw [hblocks] at hmem
      cases hmem

/-- The address that `I2AddrSetSAddr` gets is one of the list, or it is `NULL`. The
other calls have no pointers. -/
def Call.Listed (r : I2AddrRec) : Call → Prop
  | .setSAddr saddr _ => ∀ p, saddr = some p → p ∈ r.blocks
  | _ => True

def Call.hands : Call → Option ℤ
  | .setFD fd true => some fd
  | _ => none

/-- What a call leaves: the record owns the blocks in its list, and it closes no
descriptor but the allowed ones. -/
structure Handled (h : Heap UInt8) (ps : List ℕ) (closes : ℤ → Prop) (addr : I2Addr) :
    Prop where
  exchange : Exchange h ps addr.heap addr.blocks
  saddr : ∀ p, addr.saddr = some p → p ∈ addr.blocks
  closes : ∀ fd, addr.Closes fd → closes fd

theorem I2Addr.Keeps.handled (hk : addr.Keeps addr') (given : Option ℤ) :
    Handled addr.heap addr.blocks (fun fd => addr.Closes fd ∨ given = some fd) addr' where
  exchange := hk.exchange
  saddr := hk.saddr
  closes := fun fd hcl => by
    rw [I2AddrRec.Closes, hk.fd, hk.fd_user] at hcl
    exact .inl hcl

theorem call_handled {c : Call} (ho : addr.Owns) (hc : c.Listed addr.toI2AddrRec)
    (hrun : c.run addr = some addr') :
    Handled addr.heap addr.blocks (fun fd => addr.Closes fd ∨ c.hands = some fd) addr' := by
  cases c with
  | setSAddr saddr saddr_len =>
      obtain rfl := Option.some.inj hrun
      rw [i2AddrSetSAddr]
      split
      · exact ho.refl.handled _
      · split
        · exact ho.refl.handled _
        · exact ⟨.refl ho.holds, hc, fun _ => .inl⟩
  | setFD fd close_on_free =>
      obtain rfl := Option.some.inj hrun
      rw [i2AddrSetFD]
      split
      · exact ho.refl.handled _
      · refine ⟨.refl ho.holds, ho.saddr, fun fd' hcl => .inr ?_⟩
        obtain ⟨rfl, -, huser⟩ := hcl
        cases close_on_free with
        | false => cases huser
        | true => rfl
  | setPort p =>
      obtain ⟨⟨r, addr₁⟩, hset, rfl⟩ := Option.map_eq_some_iff.mp hrun
      exact (setPort_keeps ho hset).handled _
  | setProtocol v =>
      obtain rfl := Option.some.inj hrun
      refine I2Addr.Keeps.handled (setValue_keeps ho fun _ h₁ => ?_) _
      exact ⟨.refl h₁.holds, h₁.saddr, rfl, rfl⟩
  | setSocktype v =>
      obtain rfl := Option.some.inj hrun
      refine I2Addr.Keeps.handled (setValue_keeps ho fun _ h₁ => ?_) _
      exact ⟨.refl h₁.holds, h₁.saddr, rfl, rfl⟩
  | setPassive v =>
      obtain rfl := Option.some.inj hrun
      rw [i2AddrSetPassive]
      split
      · exact ho.refl.handled _
      · refine I2Addr.Keeps.handled (reset_keeps ho fun _ h₁ => ?_) _
        exact ⟨.refl h₁.holds, h₁.saddr, rfl, rfl⟩
  | port env =>
      obtain ⟨⟨p, addr₁⟩, hport, rfl⟩ := Option.map_eq_some_iff.mp hrun
      obtain ⟨addr₂, hset, heq⟩ := Option.map_eq_some_iff.mp hport
      obtain ⟨-, rfl⟩ := Prod.mk.inj heq
      split at hset
      · exact (Option.some.inj hset ▸ ho.refl : addr.Keeps addr₂).handled _
      · exact ((setPort_namesOnly hset).keeps (setPort_sameFD hset) ho).handled _
  | nodeName env buf len =>
      by_cases hlen : 0 < len
      · exact (names_keeps ho (if_pos hlen).symm hrun).handled _
      · rw [Call.run, i2AddrNodeName, if_neg hlen] at hrun
        cases hrun
  | servName env buf len =>
      by_cases hlen : 0 < len
      · exact (names_keeps ho (if_pos hlen).symm hrun).handled _
      · rw [Call.run, i2AddrServName, if_neg hlen] at hrun
        cases hrun
  | addrInfo env def_node def_serv =>
      obtain ⟨⟨l, addr₁⟩, hinfo, rfl⟩ := Option.map_eq_some_iff.mp hrun
      exact (addrInfo_keeps ho hinfo).handled _

/-! ### New records -/

def Start.hands : Start → Option ℤ
  | .bySockFD fd true _ _ => some fd
  | _ => none

theorem build_handled {saddr : List UInt8} {saddrlen : ℕ} {socktype protocol : ℤ}
    {closes : ℤ → Prop}
    (hb : i2AddrBySAddr.build h saddr saddrlen socktype protocol = some (some addr)) :
    Handled h [] closes addr := by
  rw [i2AddrBySAddr.build] at hb
  cases ha : i2AddrAlloc h with
  | none => simp [ha] at hb
  | some new =>
      obtain rfl := i2AddrAlloc_eq_some ha
      simp only [ha] at hb
      by_cases hai : h.permit.2.permit.1
      · rw [if_pos hai] at hb
        rcases hp : h.permit.2.permit.2.alloc (List.replicate saddrlen 0) with ⟨_ | p, h'⟩
        · simp [hp] at hb
        · simp only [hp] at hb
          obtain ⟨cells, -, hnew⟩ := Option.map_eq_some_iff.mp hb
          obtain rfl := Option.some.inj hnew
          have hsame : Exchange h [] h.permit.2.permit.2 [] := .of_mem_eq (.nil h) rfl
          have hone := hsame.trans (Exchange.alloc hsame.holds hp)
          refine ⟨hone.trans (.set hone.holds (List.mem_singleton_self p) cells.1), ?_, ?_⟩
          · rintro q hq
            exact List.mem_singleton.mpr (Option.some.inj hq).symm
          · rintro fd ⟨rfl, hfd, -⟩
            exact absurd hfd (show ¬(0 : ℤ) ≤ -1 by decide)
      · rw [if_neg hai] at hb
        cases hb

theorem bySAddr_handled {saddr : Sockaddr} {saddrlen : ℕ} {socktype protocol : ℤ}
    {closes : ℤ → Prop}
    (hb : i2AddrBySAddr h saddr saddrlen socktype protocol = some (some addr)) :
    Handled h [] closes addr := by
  rcases i2AddrBySAddr_eq_some hb with ⟨hbuild, -⟩ | ⟨hbuild, -⟩
  · exact build_handled hbuild
  · exact build_handled hbuild

theorem make_handled {start : Start} (hmake : start.make h = some (some addr)) :
    Handled h [] (fun fd => start.hands = some fd) addr := by
  have hunset : ∀ fd, ¬I2AddrRec.unset.Closes fd := by
    rintro fd ⟨rfl, hfd, -⟩
    exact absurd hfd (by decide)
  cases start with
  | byNode node =>
      obtain ⟨nptr, rfl⟩ := i2AddrByNode_eq_some hmake
      obtain ⟨text, set, hnode⟩ := withNode_fields ⟨.unset, h.permit.2⟩ nptr
      have hfields : ∀ port port_set port_value,
          Handled h [] (fun fd => (Start.byNode node).hands = some fd)
            ⟨{ I2AddrRec.unset with
              node := text, node_set := set, port := port, port_set := port_set,
              port_value := port_value }, h.permit.2⟩ :=
        fun _ _ _ => ⟨.permit (.nil h), fun _ hp => (by cases hp),
          fun fd hcl => absurd hcl (hunset fd)⟩
      rw [hnode, I2Addr.withPort]
      split
      · exact hfields _ _ _
      · cases readPort (portText node) with
        | none => exact hfields _ _ _
        | some p => exact hfields _ _ _
  | byWildcard env socktype servname =>
      obtain ⟨ai, heap, hplace, rfl⟩ := i2AddrByWildcard_eq_some (Option.some.inj hmake)
      have hlist := exchange_placeList
        (env.getaddrinfo none servname ⟨AI_PASSIVE, AF_UNSPEC, socktype, 0⟩) (Heap.Holds.nil h)
      rw [hplace, List.nil_append] at hlist
      exact ⟨hlist.trans (.permit hlist.holds), fun _ hp => (by cases hp),
        fun fd hcl => absurd hcl (hunset fd)⟩
  | bySAddr saddr saddrlen socktype protocol => exact bySAddr_handled hmake
  | bySockFD fd close_on_free name so_type =>
      cases name with
      | none => cases Option.some.inj hmake
      | some name =>
          cases so_type with
          | none => cases Option.some.inj hmake
          | some so_type =>
              obtain ⟨o, hb, ho⟩ := Option.map_eq_some_iff.mp hmake
              obtain ⟨new, rfl, rfl⟩ := Option.map_eq_some_iff.mp ho
              have hnew : Handled h [] (fun _ => False) new := by
                split at hb
                · exact bySAddr_handled hb
                · exact bySAddr_handled hb
              refine ⟨hnew.exchange, hnew.saddr, fun fd' hcl => ?_⟩
              obtain ⟨rfl, -, huser⟩ := hcl
              cases close_on_free with
              | false => cases huser
              | true => rfl

/-! ### Constructors that fail -/

theorem build_failed {saddr : List UInt8} {saddrlen : ℕ} {socktype protocol : ℤ}
    (hb : i2AddrBySAddr.build h saddr saddrlen socktype protocol = some none) :
    Exchange h [] (i2AddrBySAddr.build.failed h saddrlen) [] := by
  rw [i2AddrBySAddr.build, i2AddrAlloc] at hb
  rw [i2AddrBySAddr.build.failed]
  by_cases hrec : h.permit.1
  · rw [if_pos hrec] at hb ⊢
    by_cases hai : h.permit.2.permit.1
    · simp only [if_pos hai] at hb
      rw [if_pos hai]
      rcases hp : h.permit.2.permit.2.alloc (List.replicate saddrlen 0) with ⟨_ | p, h'⟩
      · have hsame : Exchange h [] h.permit.2.permit.2 [] := .of_mem_eq (.nil h) rfl
        exact hsame.trans (Exchange.alloc_none hsame.holds hp)
      · simp [hp] at hb
    · rw [if_neg hai]
      exact .of_mem_eq (.nil h) rfl
  · rw [if_neg hrec]
    exact .permit (.nil h)

theorem bySAddr_failed {saddr : Sockaddr} {saddrlen : ℕ} {socktype protocol : ℤ}
    (hb : i2AddrBySAddr h saddr saddrlen socktype protocol = some none) :
    Exchange h [] (i2AddrBySAddr.failed h saddr saddrlen) [] := by
  rw [i2AddrBySAddr] at hb
  rw [i2AddrBySAddr.failed]
  split at hb
  · rename_i h6
    rw [if_pos h6]
    split at hb
    · rename_i hlen
      rw [if_pos hlen]
      exact .refl (.nil h)
    · rename_i hlen
      rw [if_neg hlen]
      obtain ⟨v6addr, hread, hbuild⟩ := Option.bind_eq_some_iff.mp hb
      rw [hread, Option.elim_some]
      split at hbuild
      · rename_i hm
        rw [if_pos hm]
        exact build_failed hbuild
      · rename_i hm
        rw [if_neg hm]
        exact build_failed hbuild
  · rename_i h6
    rw [if_neg h6]
    split at hb
    · rename_i hfamily
      rw [if_pos hfamily]
      exact build_failed hb
    · rename_i hfamily
      rw [if_neg hfamily]
      exact .refl (.nil h)

theorem make_failed {start : Start} (hmake : start.make h = some none) :
    Exchange h [] (start.failed h) [] := by
  cases start with
  | byNode node => exact .permit (.nil h)
  | byWildcard env socktype servname =>
      show Exchange h [] (i2AddrByWildcard.failed env h socktype servname) []
      rw [i2AddrByWildcard.failed]
      cases hes : env.getaddrinfo none servname ⟨AI_PASSIVE, AF_UNSPEC, socktype, 0⟩ with
      | nil => exact .refl (.nil h)
      | cons e es =>
          have hlist := exchange_placeList (e :: es) (Heap.Holds.nil h)
          have hrec := hlist.trans (.permit hlist.holds)
          show Exchange h [] (freeaddrinfo _ (placeList h (e :: es)).1) []
          rw [freeaddrinfo_eq]
          exact hrec.trans (.free_all _)
  | bySAddr saddr saddrlen socktype protocol => exact bySAddr_failed hmake
  | bySockFD fd close_on_free name so_type =>
      cases name with
      | none => exact .refl (.nil h)
      | some name =>
          obtain ⟨saddr, saddrlen⟩ := name
          show Exchange h [] (byAnySockFD.failed h saddr saddrlen so_type) []
          cases so_type with
          | none => exact .refl (.nil h)
          | some so_type =>
              obtain ⟨o, hb, ho⟩ := Option.map_eq_some_iff.mp hmake
              obtain rfl := Option.map_eq_none_iff.mp ho
              rw [byAnySockFD.failed]
              split at hb
              · rename_i hzero
                rw [if_pos hzero]
                exact bySAddr_failed hb
              · rename_i hzero
                rw [if_neg hzero]
                exact bySAddr_failed hb

/-! ### Copies -/

/-- The canonical name is not one of the blocks. -/
theorem exchange_canonname (name : Option (List UInt8)) (hh : h.Holds ps) :
    Exchange h ps (copyAddrRec.canonname h name).2 ps := by
  unfold copyAddrRec.canonname
  split
  · exact .refl hh
  · split
    · exact .refl hh
    · exact .permit hh

/-- An element that is copied has a new address, if the original has one. -/
theorem exchange_copyAddrRec {src : Addrinfo} {o : Option Addrinfo} {h' : Heap UInt8}
    (hh : h.Holds ps) (hc : copyAddrRec h src = some (o, h')) :
    Exchange h ps h' (ps ++ o.toList.filterMap Addrinfo.ai_addr) := by
  have hperm := Exchange.permit hh
  rw [copyAddrRec] at hc
  split at hc
  · split at hc
    · rcases ha : h.permit.2.alloc (List.replicate src.ai_addrlen 0) with ⟨_ | p, h₁⟩
      · simp only [ha] at hc
        obtain ⟨rfl, rfl⟩ := Prod.mk.inj (Option.some.inj hc)
        rw [Option.toList_none, List.filterMap_nil, List.append_nil]
        exact hperm.trans (Exchange.alloc_none hperm.holds ha)
      · simp only [ha] at hc
        obtain ⟨m, -, hc⟩ := Option.bind_eq_some_iff.mp hc
        obtain ⟨cells, -, hdst⟩ := Option.map_eq_some_iff.mp hc
        obtain ⟨rfl, rfl⟩ := Prod.mk.inj hdst
        have hone := hperm.trans (Exchange.alloc hperm.holds ha)
        have hset := hone.trans (.set hone.holds (List.mem_append_right ps
          (List.mem_singleton_self p)) cells.1)
        exact hset.trans (exchange_canonname src.ai_canonname hset.holds)
    · obtain ⟨rfl, rfl⟩ := Prod.mk.inj (Option.some.inj hc)
      rename_i hnone
      have hlist : ∀ (dst : Addrinfo) (h' : Heap UInt8), dst.ai_addr = none →
          Exchange h ps h' ps →
          Exchange h ps h' (ps ++ (some dst).toList.filterMap Addrinfo.ai_addr) := by
        intro dst h' hdst he
        rw [Option.toList_some, List.filterMap_cons_none hdst, List.filterMap_nil,
          List.append_nil]
        exact he
      exact hlist _ _ hnone (hperm.trans (exchange_canonname src.ai_canonname hperm.holds))
  · obtain ⟨rfl, rfl⟩ := Prod.mk.inj (Option.some.inj hc)
    rw [Option.toList_none, List.filterMap_nil, List.append_nil]
    exact hperm

/-- The copy with one more element, whose address may be the one of the record. -/
theorem copyElement_keeps (saddr : Option ℕ) {ai dst : Addrinfo} {dup : I2Addr}
    {h' : Heap UInt8} (ho : dup.Owns) (hone : copyAddrRec dup.heap ai = some (some dst, h')) :
    dup.Keeps (let dup := { dup with ai_free := true, ai := dup.ai ++ [dst], heap := h' }
      if ai.ai_addr = saddr then
        { dup with saddr := dst.ai_addr, saddrlen := dst.ai_addrlen } else dup) := by
  have hadd := exchange_copyAddrRec ho.holds hone
  rw [I2AddrRec.blocks, ← List.filterMap_append] at hadd
  have hmem : ∀ p, dst.ai_addr = some p → p ∈ (dup.ai ++ [dst]).filterMap Addrinfo.ai_addr :=
    fun p hp => List.mem_filterMap.mpr ⟨dst, List.mem_append_right _ List.mem_cons_self, hp⟩
  have hold : ∀ p, dup.saddr = some p → p ∈ (dup.ai ++ [dst]).filterMap Addrinfo.ai_addr := by
    intro p hp
    rw [List.filterMap_append]
    exact List.mem_append_left _ (ho.saddr p hp)
  show dup.Keeps (if ai.ai_addr = saddr then _ else _)
  split
  · exact ⟨hadd, hmem, rfl, rfl⟩
  · exact ⟨hadd, hold, rfl, rfl⟩

theorem copyList_keeps {saddr : Option ℕ} {ais : List Addrinfo} {dup dup' : I2Addr}
    (ho : dup.Owns) (hc : i2AddrCopy.list saddr ais dup = some (some dup')) :
    dup.Keeps dup' := by
  induction ais generalizing dup with
  | nil =>
      obtain rfl := Option.some.inj (Option.some.inj hc)
      exact ho.refl
  | cons ai ais ih =>
      rw [i2AddrCopy.list] at hc
      obtain ⟨⟨o, heap⟩, hone, hrest⟩ := Option.bind_eq_some_iff.mp hc
      cases o with
      | none => cases hrest
      | some dst =>
          have helement := copyElement_keeps saddr ho hone
          exact helement.trans (ih helement.owns hrest)

theorem copyUndone_keeps (saddr : Option ℕ) (ais : List Addrinfo) {dup : I2Addr}
    (ho : dup.Owns) : dup.Keeps (i2AddrCopy.undone saddr ais dup) := by
  induction ais generalizing dup with
  | nil => exact ho.refl
  | cons ai ais ih =>
      rw [i2AddrCopy.undone]
      match hone : copyAddrRec dup.heap ai with
      | none => exact ho.refl
      | some (none, h') =>
          have hfailed := exchange_copyAddrRec ho.holds hone
          rw [Option.toList_none, List.filterMap_nil, List.append_nil] at hfailed
          exact ⟨hfailed, ho.saddr, rfl, rfl⟩
      | some (some dst, h') =>
          have helement := copyElement_keeps saddr ho hone
          exact helement.trans (ih helement.owns)

theorem withNames_keeps (ho : addr.Owns) (orig : I2Addr) : addr.Keeps (addr.withNames orig) := by
  rw [I2Addr.withNames]
  cases orig.node_set <;> cases orig.port_set <;> exact ⟨.refl ho.holds, ho.saddr, rfl, rfl⟩

theorem unset_owns (h : Heap UInt8) : (⟨.unset, h⟩ : I2Addr).Owns :=
  ⟨.nil h, fun _ hp => by cases hp⟩

/-- The copy has the descriptor of the original, and leaves it open. -/
theorem copy_handled (hc : i2AddrCopy addr = some (some addr')) :
    Handled addr.heap [] (fun _ => False) addr' := by
  rw [i2AddrCopy] at hc
  cases ha : i2AddrAlloc addr.heap with
  | none => simp [ha] at hc
  | some new =>
      obtain rfl := i2AddrAlloc_eq_some ha
      simp only [ha] at hc
      obtain ⟨o, hlist, hdup⟩ := Option.map_eq_some_iff.mp hc
      obtain ⟨dup, rfl, rfl⟩ := Option.map_eq_some_iff.mp hdup
      have hnames := withNames_keeps (unset_owns addr.heap.permit.2) addr
      have hall := hnames.trans (copyList_keeps hnames.owns hlist)
      refine ⟨(Exchange.permit (.nil addr.heap)).trans hall.exchange, hall.saddr, ?_⟩
      rintro fd ⟨rfl, hfd, huser⟩
      have huser' : (if -1 < addr.fd then true else dup.fd_user) = false := huser
      rw [if_pos (show -1 < addr.fd from hfd)] at huser'
      cases huser'

theorem copy_failed (addr : I2Addr) : Exchange addr.heap [] (i2AddrCopy.failed addr) [] := by
  rw [i2AddrCopy.failed]
  cases ha : i2AddrAlloc addr.heap with
  | none => exact .permit (.nil addr.heap)
  | some new =>
      obtain rfl := i2AddrAlloc_eq_some ha
      have hnames := withNames_keeps (unset_owns addr.heap.permit.2) addr
      have hall := hnames.trans (copyUndone_keeps addr.saddr addr.ai hnames.owns)
      exact ((Exchange.permit (.nil addr.heap)).trans hall.exchange).trans
        (clearAI_keeps _).exchange

/-! ### Programs -/

abbrev Client := Heap.Program UInt8 I2AddrRec ℕ

namespace Client

open Heap.Program

variable {s s' : Client} {i j : ℕ} {r r' : I2AddrRec}

/-- The program does not hand a descriptor over that another record closes already. -/
def Gives (s : Client) (i : ℕ) (given : Option ℤ) : Prop :=
  ∀ fd, given = some fd → ∀ j r, s.var j = some r → j ≠ i → ¬r.Closes fd

/-- What the program does with the variable `i`. A new record goes to a variable that
is not in use. -/
inductive Step (s : Client) (i : ℕ) : Client → Prop
  | make (start : Start) (addr : I2Addr) (hvar : s.var i = none)
      (hgives : s.Gives i start.hands) (hmake : start.make s.heap = some (some addr)) :
      Step s i (s.put i addr.heap (some addr.toI2AddrRec))
  | makeFailed (start : Start) (hvar : s.var i = none)
      (hmake : start.make s.heap = some none) : Step s i (s.put i (start.failed s.heap) none)
  | call (c : Call) (r : I2AddrRec) (addr : I2Addr) (hr : s.var i = some r)
      (hlisted : c.Listed r) (hgives : s.Gives i c.hands)
      (hrun : c.run ⟨r, s.heap⟩ = some addr) :
      Step s i (s.put i addr.heap (some addr.toI2AddrRec))
  | nodeServName (env : Resolver) (buf : List UInt8) (len : ℕ) (r : I2AddrRec) (addr : I2Addr)
      (hr : s.var i = some r)
      (hrun : (i2AddrNodeServName env ⟨r, s.heap⟩ buf len).map Prod.snd = some addr) :
      Step s i (s.put i addr.heap (some addr.toI2AddrRec))
  | copy (j : ℕ) (r : I2AddrRec) (addr : I2Addr) (hr : s.var j = some r)
      (hvar : s.var i = none) (hcopy : i2AddrCopy ⟨r, s.heap⟩ = some (some addr)) :
      Step s i (s.put i addr.heap (some addr.toI2AddrRec))
  | copyFailed (j : ℕ) (r : I2AddrRec) (hr : s.var j = some r) (hvar : s.var i = none)
      (hcopy : i2AddrCopy ⟨r, s.heap⟩ = some none) :
      Step s i (s.put i (i2AddrCopy.failed ⟨r, s.heap⟩) none)
  | free (r : I2AddrRec) (hr : s.var i = some r) :
      Step s i (s.put i (i2AddrFree ⟨r, s.heap⟩).2 none)

inductive Reached (h₀ : Heap UInt8) : Client → Prop
  | start : Reached h₀ ⟨h₀, fun _ => none⟩
  | step (i : ℕ) (s s' : Client) (hr : Reached h₀ s) (hs : Step s i s') : Reached h₀ s'

/-- The address of each record is in its list, and no two records close the same
descriptor. -/
structure Apart (s : Client) : Prop where
  saddr : ∀ i r, s.var i = some r → ∀ p, r.saddr = some p → p ∈ r.blocks
  closes : ∀ i j r r' fd, s.var i = some r → s.var j = some r' →
    r.Closes fd → r'.Closes fd → i = j

/-- What a step does to the variable and to the memory. -/
structure Changes (s : Client) (i : ℕ) (h' : Heap UInt8) (o : Option I2AddrRec) : Prop where
  exchange : Exchange s.heap (blocksOf I2AddrRec.blocks (s.var i)) h' (blocksOf I2AddrRec.blocks o)
  saddr : ∀ r, o = some r → ∀ p, r.saddr = some p → p ∈ r.blocks
  closes : ∀ r fd, o = some r → r.Closes fd →
    ∀ j r', s.var j = some r' → j ≠ i → ¬r'.Closes fd

theorem Changes.none {h' : Heap UInt8}
    (he : Exchange s.heap (blocksOf I2AddrRec.blocks (s.var i)) h' []) : s.Changes i h' none :=
  ⟨he, fun _ ho => (by cases ho), fun _ _ ho => by cases ho⟩

theorem Changes.of_handled {addr : I2Addr} {closes : ℤ → Prop}
    (hh : Handled s.heap (blocksOf I2AddrRec.blocks (s.var i)) closes addr)
    (hcloses : ∀ fd, closes fd → ∀ j r', s.var j = some r' → j ≠ i → ¬r'.Closes fd) :
    s.Changes i addr.heap (some addr.toI2AddrRec) where
  exchange := hh.exchange
  saddr := fun r ho => Option.some.inj ho ▸ hh.saddr
  closes := fun r fd ho hcl => by
    obtain rfl := Option.some.inj ho
    exact hcloses fd (hh.closes fd hcl)

theorem Apart.owns {h₀ : Heap UInt8} (ha : s.Apart) (ho : s.Owned I2AddrRec.blocks h₀)
    (hr : s.var i = some r) : (⟨r, s.heap⟩ : I2Addr).Owns :=
  ⟨ho.holds hr, ha.saddr i r hr⟩

theorem Step.changes {h₀ : Heap UInt8} (hs : Step s i s') (ha : s.Apart)
    (ho : s.Owned I2AddrRec.blocks h₀) : ∃ h' o, s' = s.put i h' o ∧ s.Changes i h' o := by
  have hempty : s.var i = none → blocksOf I2AddrRec.blocks (s.var i) = [] := by
    intro hvar
    rw [hvar]
    rfl
  have hothers : ∀ r fd, s.var i = some r → r.Closes fd →
      ∀ j r', s.var j = some r' → j ≠ i → ¬r'.Closes fd :=
    fun r fd hr hcl j r' hr' hji hcl' => hji (ha.closes j i r' r fd hr' hr hcl' hcl)
  cases hs with
  | make start addr hvar hgives hmake =>
      refine ⟨_, _, rfl, .of_handled ?_ hgives⟩
      rw [hempty hvar]
      exact make_handled hmake
  | makeFailed start hvar hmake =>
      refine ⟨_, _, rfl, .none ?_⟩
      rw [hempty hvar]
      exact make_failed hmake
  | call c r addr hr hlisted hgives hrun =>
      have hcall := call_handled (ha.owns ho hr) hlisted hrun
      refine ⟨_, _, rfl, .of_handled (by rw [hr]; exact hcall) fun fd hcl => ?_⟩
      rcases hcl with hcl | hgiven
      · exact hothers r fd hr hcl
      · exact hgives fd hgiven
  | nodeServName env buf len r addr hr hrun =>
      have hname := (nodeServName_keeps (ha.owns ho hr) hrun).handled Option.none
      refine ⟨_, _, rfl, .of_handled (by rw [hr]; exact hname) fun fd hcl => ?_⟩
      rcases hcl with hcl | hgiven
      · exact hothers r fd hr hcl
      · cases hgiven
  | copy j r addr hr hvar hcopy =>
      have hdup := copy_handled hcopy
      rw [← hempty hvar] at hdup
      exact ⟨_, _, rfl, .of_handled hdup fun _ hno => hno.elim⟩
  | copyFailed j r hr hvar hcopy =>
      refine ⟨_, _, rfl, .none ?_⟩
      rw [hempty hvar]
      exact copy_failed ⟨r, s.heap⟩
  | free r hr =>
      refine ⟨_, _, rfl, .none ?_⟩
      rw [hr]
      exact (clearAI_keeps ⟨r, s.heap⟩).exchange

theorem Changes.apart {h' : Heap UInt8} {o : Option I2AddrRec} (hc : s.Changes i h' o)
    (ha : s.Apart) : Apart (s.put i h' o) := by
  refine ⟨fun j r hr => ?_, fun j k r r' fd hr hr' hcl hcl' => ?_⟩
  · rcases put_var_cases hr with ⟨-, ho⟩ | ⟨-, hold⟩
    · exact hc.saddr r ho
    · exact ha.saddr j r hold
  · rcases put_var_cases hr with ⟨rfl, ho⟩ | ⟨hj, hold⟩
    · rcases put_var_cases hr' with ⟨rfl, -⟩ | ⟨hk, hold'⟩
      · rfl
      · exact absurd hcl' (hc.closes r fd ho hcl k r' hold' hk)
    · rcases put_var_cases hr' with ⟨rfl, ho'⟩ | ⟨hk, hold'⟩
      · exact absurd hcl (hc.closes r' fd ho' hcl' j r hold hj)
      · exact ha.closes j k r r' fd hold hold' hcl hcl'

theorem Reached.owned {h₀ : Heap UInt8} (hr : Reached h₀ s) :
    s.Apart ∧ s.Owned I2AddrRec.blocks h₀ := by
  induction hr with
  | start => exact ⟨⟨fun _ _ hr => (by cases hr), fun _ _ _ _ _ hr => by cases hr⟩, .start _ h₀⟩
  | step i s s' _ hs ih =>
      obtain ⟨ha, ho⟩ := ih
      obtain ⟨h', o, rfl, hc⟩ := hs.changes ha ho
      exact ⟨hc.apart ha, ho.put hc.exchange⟩

/-- Each address belongs to one record, and is in its list once. What is not an address
of a record was in the memory before, and is as it was. -/
structure Tidy (h₀ : Heap UInt8) (s : Client) : Prop
    extends Heap.Program.Tidy I2AddrRec.blocks h₀ s where
  saddr : ∀ i r, s.var i = some r → ∀ p, r.saddr = some p → p ∈ r.blocks
  closes : ∀ i j r r' fd, s.var i = some r → s.var j = some r' →
    r.Closes fd → r'.Closes fd → i = j

theorem Reached.tidy {h₀ : Heap UInt8} (hr : Reached h₀ s) : s.Tidy h₀ :=
  ⟨hr.owned.2.tidy, hr.owned.1.saddr, hr.owned.1.closes⟩

/-- A step is no concern of the other records. -/
theorem Reached.step_frame {h₀ : Heap UInt8} (hr : Reached h₀ s) (hs : Step s i s')
    (hj : j ≠ i) (haddr : s.var j = some r) :
    s'.var j = some r ∧ ∀ p ∈ r.blocks, s'.heap.mem p = s.heap.mem p := by
  obtain ⟨ha, ho⟩ := hr.owned
  obtain ⟨h', o, rfl, hc⟩ := hs.changes ha ho
  exact ⟨(put_var_of_ne s hj h' o).trans haddr, ho.frame hc.exchange hj.symm haddr⟩

end Client

/-- In every run of a program, each address belongs to one record, no two records close
one descriptor, and what the program does with a record is no concern of the others. -/
theorem records_tidy {h₀ : Heap UInt8} {s : Client} (hr : Client.Reached h₀ s) :
    s.Tidy h₀ ∧ ((∀ i, s.var i = none) → s.heap.mem = h₀.mem) ∧
      ∀ i s', Client.Step s i s' → ∀ j r, j ≠ i → s.var j = some r →
        s'.var j = some r ∧ ∀ p ∈ r.blocks, s'.heap.mem p = s.heap.mem p :=
  ⟨hr.tidy, hr.tidy.toTidy.mem_eq, fun _ _ hs _ _ hj haddr => hr.step_frame hs hj haddr⟩

/-- A record with a descriptor, and its copy. -/
theorem records_tidy_copy :
    ∃ s : Client, (s.var 0).isSome ∧ (s.var 1).isSome ∧ s.Tidy emptyHeap := by
  have hmade : Client.Reached emptyHeap _ := .step 0 _ _ .start
    (.make (.bySAddr loopbackV4 16 1 0) _ rfl (fun _ h => by cases h) rfl)
  have hopened : Client.Reached emptyHeap _ := .step 0 _ _ hmade
    (.call (.setFD 5 true) _ _ (Heap.Program.put_var_self _ _ _ _) trivial (fun fd _ j r hr hj => by
      rw [Heap.Program.put_var_of_ne _ hj] at hr
      cases hr) rfl)
  have hcopied : Client.Reached emptyHeap _ := .step 1 _ _ hopened
    (.copy 0 _ _ (Heap.Program.put_var_self _ _ _ _) rfl rfl)
  exact ⟨_, rfl, rfl, (records_tidy hcopied).1⟩

end I2util
