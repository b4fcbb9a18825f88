import I2util.Addr.SockAddr
import I2util.Addr.Text
import I2util.Conf.Strings
import I2util.Library.Heap

/-!
`addr.c`: address records.

A record comes with the memory that it points to. The list of `struct addrinfo` is a
list of their fields, and a socket address is a block of the memory. A function has
no result, which is the outer `none` of what it returns, when it reads or writes
outside a block or reads a string that does not end in its array; the inner `none` is
a `NULL` result. The records that the functions get are not `NULL`.
-/

namespace I2util

abbrev NI_MAXHOST : ℕ := 1025
abbrev NI_MAXSERV : ℕ := 32
abbrev AI_PASSIVE : ℕ := 1
abbrev AI_CANONNAME : ℕ := 2
abbrev AF_UNSPEC : ℕ := 0
abbrev SOCK_STREAM : ℤ := 1

/-! ### The resolver -/

structure Hints where
  ai_flags : ℕ
  ai_family : ℕ
  ai_socktype : ℤ
  ai_protocol : ℤ

/-- An element of the list that `getaddrinfo` returns, with its address. -/
structure Resolved where
  ai_flags : ℕ
  ai_family : ℕ
  ai_socktype : ℤ
  ai_protocol : ℤ
  ai_addr : List UInt8
  ai_canonname : Option (List UInt8)
  deriving DecidableEq

/-- The functions of the C library that ask for names and addresses. The list that
`getaddrinfo` returns is empty where it fails, and has canonical names only if they are
asked for. `getnameinfo` gets the address, and is asked for the node, by name or as a
number, or for the port as a number. -/
structure Resolver where
  getaddrinfo : Option (List UInt8) → Option (List UInt8) → Hints → List Resolved
  nodeName : List UInt8 → Bool → Option (List UInt8)
  portName : List UInt8 → Option (List UInt8)
  canonname : ∀ host serv hints, hints.ai_flags &&& AI_CANONNAME = 0 →
    ∀ e ∈ getaddrinfo host serv hints, e.ai_canonname = none

/-- A name that does not fit into the array is an error. -/
def nameinfo (name : Option (List UInt8)) (n : ℕ) : Option (List UInt8) :=
  name.filter fun s => s.length < n

/-! ### The record -/

/-- `struct addrinfo`, without the pointer to the next one. -/
structure Addrinfo where
  ai_flags : ℕ
  ai_family : ℕ
  ai_socktype : ℤ
  ai_protocol : ℤ
  ai_addrlen : ℕ
  ai_addr : Option ℕ
  ai_canonname : Option (List UInt8)

structure I2AddrRec where
  node_set : Bool
  node : CArray (NI_MAXHOST + 1)
  port_set : Bool
  port_value : UInt16
  port : CArray (NI_MAXSERV + 1)
  ai_free : Bool
  ai : List Addrinfo
  saddr : Option ℕ
  saddrlen : ℕ
  so_type : ℤ
  so_protocol : ℤ
  passive : ℤ
  fd_user : Bool
  fd : ℤ

structure I2Addr extends I2AddrRec where
  heap : Heap UInt8

def unknown : List UInt8 := ascii "unknown"

namespace I2Addr

/-- `_I2AddrClearAI`. The addresses in the list are freed with it. -/
def clearAI (addr : I2Addr) : I2Addr :=
  { addr with
    heap := addr.ai.foldl (fun h ai => ai.ai_addr.elim h h.free) addr.heap
    ai := []
    saddr := none
    saddrlen := 0
    ai_free := false }

/-- `*addr->saddr`, where the pointer is `p`. -/
def sockaddr (addr : I2Addr) (p : ℕ) : Option Sockaddr :=
  (addr.heap.mem p).bind fun m => if h : 2 ≤ m.length then some ⟨m, h⟩ else none

end I2Addr

/-- The descriptor that is closed, and the memory that is left. -/
def i2AddrFree (addr : I2Addr) : Option ℤ × Heap UInt8 :=
  (if 0 ≤ addr.fd ∧ ¬addr.fd_user then some addr.fd else none, addr.clearAI.heap)

def I2AddrRec.unset : I2AddrRec where
  node_set := false
  node := strncpy unknown _
  port_set := false
  port_value := 0
  port := strncpy unknown _
  ai_free := false
  ai := []
  saddr := none
  saddrlen := 0
  so_type := 0
  so_protocol := 0
  passive := 0
  fd_user := false
  fd := -1

def i2AddrAlloc (h : Heap UInt8) : Option I2Addr :=
  if h.permit.1 then some ⟨.unset, h.permit.2⟩ else none

/-! ### The constructors -/

def i2AddrByNode.split (node : List UInt8) : Option (List UInt8 × Option (List UInt8)) :=
  let buff := strncpy node (NI_MAXHOST + 1)
  let ends := buff.text.length < NI_MAXHOST + 1
  (strchr ends buff.text 91).bind fun
    -- `[node]:port`
    | some (_, s1) =>
        (strchr ends s1 91).bind fun
          | some _ => some (node, none)
          | none =>
              (strchr ends s1 93).bind fun
                | none => some (node, none)
                | some (host, s2) =>
                    (strchr ends s2 93).map fun
                      | some _ => (node, none)
                      | none =>
                          match s2 with
                          | 58 :: port => (host, some port)
                          | _ => (node, none)
    -- `node:port`
    | none =>
        (strchr ends buff.text 58).bind fun
          | none => some (node, none)
          | some (host, s1) =>
              (strchr ends s1 58).map fun
                | some _ => (node, none)
                | none => (host, some s1)

def I2Addr.withNode (addr : I2Addr) (nptr : List UInt8) : I2Addr :=
  if nptr = [] then addr else { addr with node := strncpy nptr _, node_set := true }

def I2Addr.withPort (addr : I2Addr) (pptr : List UInt8) : I2Addr :=
  if pptr = [] then addr
  else
    match readPort pptr with
    | none => { addr with port_set := false, port_value := 0 }
    | some p => { addr with port_set := true, port_value := p, port := strncpy pptr _ }

def i2AddrByNode (h : Heap UInt8) (node : List UInt8) : Option (Option I2Addr) :=
  match i2AddrAlloc h with
  | none => some none
  | some addr =>
      (i2AddrByNode.split node).map fun (nptr, pptr) =>
        some ((addr.withNode nptr).withPort (pptr.getD []))

def placeList (h : Heap UInt8) : List Resolved → List Addrinfo × Heap UInt8
  | [] => ([], h)
  | e :: es =>
      let (p, h) := h.store e.ai_addr
      let (ais, h) := placeList h es
      (⟨e.ai_flags, e.ai_family, e.ai_socktype, e.ai_protocol, e.ai_addr.length, some p,
        e.ai_canonname⟩ :: ais, h)

def i2AddrByWildcard (env : Resolver) (h : Heap UInt8) (socktype : ℤ)
    (servname : Option (List UInt8)) : Option I2Addr :=
  let hints : Hints := ⟨AI_PASSIVE, AF_UNSPEC, socktype, 0⟩
  match env.getaddrinfo none servname hints with
  | [] => none
  | es =>
      let (ai, h) := placeList h es
      (i2AddrAlloc h).map fun addr => { addr with ai := ai, passive := 1 }

/-- `I2AddrBySAddr` with an address that is not mapped. -/
def i2AddrBySAddr.build (h : Heap UInt8) (saddr : List UInt8) (saddrlen : ℕ)
    (socktype protocol : ℤ) : Option (Option I2Addr) :=
  match i2AddrAlloc h with
  | none => some none
  | some addr =>
      if addr.heap.permit.1 then
        match addr.heap.permit.2.alloc (List.replicate saddrlen 0) with
        | (none, _) => some none
        | (some p, h) =>
            (Memory.read saddr 0 saddrlen).map fun cells =>
              let ai : Addrinfo :=
                ⟨0, saFamily saddr, socktype, protocol, saddrlen, some p, none⟩
              some { addr with
                saddr := some p, saddrlen := saddrlen, ai := [ai], ai_free := true,
                so_type := socktype, so_protocol := protocol, heap := h.set p cells.1 }
      else some none

def i2AddrBySAddr (h : Heap UInt8) (saddr : Sockaddr) (saddrlen : ℕ) (socktype protocol : ℤ) :
    Option (Option I2Addr) :=
  if saFamily saddr.bytes = AF_INET6 then
    if saddrlen < sizeofSockaddrIn6 then some none
    else
      (Memory.read saddr.bytes 0 sizeofSockaddrIn6).bind fun v6addr =>
        if in6IsAddrV4mapped (sin6Addr v6addr.1) then
          i2AddrBySAddr.build h (v4bytes v6addr.1) sizeofSockaddrIn socktype protocol
        else i2AddrBySAddr.build h saddr.bytes saddrlen socktype protocol
  else if saFamily saddr.bytes = AF_INET ∨ saFamily saddr.bytes = AF_UNIX then
    i2AddrBySAddr.build h saddr.bytes saddrlen socktype protocol
  else some none

/-- A socket without an address gets one of the family `AF_UNIX`. -/
def byAnySockFD.fake (saddr : Sockaddr) : Sockaddr where
  bytes := 1 :: 0 :: saddr.bytes.drop 2
  room := by
    rw [List.length_cons, List.length_cons]
    omega

/-- `ByAnySockFD`. `so_type` is what `getsockopt` returns. -/
def byAnySockFD (h : Heap UInt8) (fd : ℤ) (close_on_free : Bool) (saddr : Sockaddr) (saddrlen : ℕ)
    (so_type : Option ℤ) : Option (Option I2Addr) :=
  match so_type with
  | none => some none
  | some so_type =>
      (if saddrlen = 0 then i2AddrBySAddr h (byAnySockFD.fake saddr) 2 so_type 0
        else i2AddrBySAddr h saddr saddrlen so_type 0).map fun addr =>
        addr.map fun addr => { addr with fd_user := !close_on_free, fd := fd }

/-- `I2AddrBySockFD` and `I2AddrByLocalSockFD`. `name` is what `getpeername` and
`getsockname` return: the buffer with the address, and its length. -/
def i2AddrBySockFD (h : Heap UInt8) (fd : ℤ) (close_on_free : Bool) (name : Option (Sockaddr × ℕ))
    (so_type : Option ℤ) : Option (Option I2Addr) :=
  match name with
  | none => some none
  | some (saddr, saddrlen) => byAnySockFD h fd close_on_free saddr saddrlen so_type

/-! ### The port and the node of an address -/

def I2Addr.withPortName (addr : I2Addr) : Option (List UInt8) → I2Addr
  | none => { addr with port := strncpy unknown _ }
  | some text =>
      match readPort text with
      | none => { addr with port := strncpy text _, port_set := false, port_value := 0 }
      | some p => { addr with port := strncpy text _, port_set := true, port_value := p }

/-- `_I2AddrSetPort`, for the address `sa`. -/
def I2Addr.portOf (env : Resolver) (addr : I2Addr) (sa : Sockaddr) : Option I2Addr :=
  if saFamily sa.bytes = AF_UNIX then
    some { addr with port := strncpy (ascii "unnamed") _, port_set := true, port_value := 0 }
  else
    (Memory.read sa.bytes 0 addr.saddrlen).map fun saddr =>
      addr.withPortName (nameinfo (env.portName saddr.1) (NI_MAXSERV + 1))

/-- `_I2AddrSetPort`. -/
def I2Addr.setPort (env : Resolver) (addr : I2Addr) : Option I2Addr :=
  match addr.saddr with
  | none => some addr
  | some p =>
      if addr.port_set then some addr else (addr.sockaddr p).bind fun sa => addr.portOf env sa

/-- `_I2AddrSetNodePort`, for the address `sa`. -/
def I2Addr.nodeOf (env : Resolver) (addr : I2Addr) (sa : Sockaddr) : Option I2Addr :=
  if saFamily sa.bytes = AF_UNIX then
    { addr with node := strncpy (ascii "unixsock") _, node_set := true }.setPort env
  else
    (Memory.read sa.bytes 0 addr.saddrlen).bind fun saddr =>
      match (nameinfo (env.nodeName saddr.1 false) (NI_MAXHOST + 1)).or
          (nameinfo (env.nodeName saddr.1 true) (NI_MAXHOST + 1)) with
      | none => some { addr with node := strncpy unknown _ }
      | some text => { addr with node := strncpy text _, node_set := true }.setPort env

/-- `_I2AddrSetNodePort`. -/
def I2Addr.setNodePort (env : Resolver) (addr : I2Addr) : Option I2Addr :=
  match addr.saddr with
  | none => some addr
  | some p =>
      if addr.node_set && addr.port_set then some addr
      else (addr.sockaddr p).bind fun sa => addr.nodeOf env sa

/-! ### The setters -/

def i2AddrSetSAddr (addr : I2Addr) (saddr : Option ℕ) (saddr_len : ℕ) : Bool × I2Addr :=
  if -1 < addr.fd then (false, addr)
  else if addr.ai.isEmpty then (false, addr)
  else
    (true, { addr with
      saddr := saddr, saddrlen := saddr_len, node_set := false, port_set := false,
      port_value := 0 })

def i2AddrSetFD (addr : I2Addr) (fd : ℤ) (close_on_free : Bool) : Bool × I2Addr :=
  if -1 < fd ∧ fd ≠ addr.fd ∧ -1 < addr.fd then (false, addr)
  else (true, { addr with fd := fd, fd_user := !close_on_free })

def htons (p : UInt16) : List UInt8 := [(p >>> 8).toUInt8, p.toUInt8]

/-- The end of `I2AddrSetPort`. -/
def I2Addr.portTo (addr : I2Addr) (p : UInt16) : I2Addr :=
  { addr with port := strncpy (decimal p.toNat) _, port_set := true, port_value := p }

/-- The port is also written to the address of the record, if it has one. -/
def i2AddrSetPort (addr : I2Addr) (p : UInt16) : Option (Bool × I2Addr) :=
  if -1 < addr.fd then some (false, addr)
  else
    match addr.saddr with
    | none => some (true, addr.portTo p)
    | some q =>
        (addr.sockaddr q).bind fun sa =>
          (i2SockAddrToSockUnion sa addr.saddrlen).bind fun
            | none => some (false, addr)
            | some sau =>
                if saFamily sau.1 = AF_INET6 ∨ saFamily sau.1 = AF_INET then
                  (Memory.write sau 2 (htons p)).bind fun sau =>
                    (i2SockUnionToSockAddr sau addr.saddrlen sa.bytes).map fun
                      | none => (false, addr)
                      | some (len, m) =>
                          (true, { addr with saddrlen := len, heap := addr.heap.set q m }.portTo p)
                else some (false, addr)

def i2AddrPort (env : Resolver) (addr : I2Addr) : Option (UInt16 × I2Addr) :=
  (if addr.port_set then some addr else addr.setPort env).map fun addr => (addr.port_value, addr)

/-- The end of the next setters: the list goes with the old value. -/
def I2Addr.reset (addr : I2Addr) (store : I2Addr → I2Addr) : Bool × I2Addr :=
  if -1 < addr.fd then (false, addr)
  else if addr.saddr.isSome then (false, addr)
  else (true, store addr.clearAI)

/-- A setter of a value that is 0 as long as it is not set. -/
def I2Addr.setValue (addr : I2Addr) (old new : ℤ) (store : I2Addr → I2Addr) : Bool × I2Addr :=
  if old = new then (true, addr)
  else if old = 0 then (true, store addr)
  else addr.reset store

def i2AddrSetProtocol (addr : I2Addr) (protocol : ℤ) : Bool × I2Addr :=
  addr.setValue addr.so_protocol protocol fun addr => { addr with so_protocol := protocol }

def i2AddrProtocol (addr : I2Addr) : ℤ := addr.so_protocol

def i2AddrSetSocktype (addr : I2Addr) (so_type : ℤ) : Bool × I2Addr :=
  addr.setValue addr.so_type so_type fun addr => { addr with so_type := so_type }

def i2AddrSocktype (addr : I2Addr) : ℤ := addr.so_type

def i2AddrSetPassive (addr : I2Addr) (passive : ℤ) : Bool × I2Addr :=
  if addr.passive = passive then (true, addr)
  else addr.reset fun addr => { addr with passive := passive }

/-! ### The accessors -/

def i2AddrFD (addr : I2Addr) : ℤ := if addr.fd < 0 then -1 else addr.fd

def i2AddrSAddr (addr : I2Addr) : Option ℕ × ℕ :=
  match addr.saddr with
  | some p => (some p, addr.saddrlen)
  | none => (none, 0)

def i2AddrSockLen (addr : I2Addr) : ℕ := if addr.saddr.isSome then addr.saddrlen else 0

/-- What a name function leaves behind: whether it returns the buffer, the buffer, and
`*len`. -/
structure NameResult where
  ret : Bool
  buf : List UInt8
  len : ℕ

def NameResult.bail (buf : List UInt8) : Option NameResult :=
  (Memory.write (Memory.block buf) 0 [0]).map fun buf => ⟨false, buf.1, 0⟩

/-- The loop that ends the name at its first `%`, which is also the end of the loop. -/
def i2AddrNodeName.cut (buf : List UInt8) (len : ℕ) : Option NameResult :=
  if 0 ∈ buf then
    let i := (buf.takeWhile (· ≠ 37)).length
    some (if 37 ∈ cstr buf then ⟨true, buf.set i 0, i⟩ else ⟨true, buf, len⟩)
  else none

def i2AddrNodeName (env : Resolver) (addr : I2Addr) (buf : List UInt8) (len : ℕ) :
    Option (NameResult × I2Addr) :=
  if 0 < len then
    (if addr.node_set then some addr else addr.setNodePort env).bind fun addr =>
      (if addr.node_set then
        let len := min len (NI_MAXHOST + 1)
        (strncpyTo buf addr.node.text len).bind fun buf => i2AddrNodeName.cut buf len
      else NameResult.bail buf).map fun r => (r, addr)
  else none

def i2AddrServName (env : Resolver) (addr : I2Addr) (buf : List UInt8) (len : ℕ) :
    Option (NameResult × I2Addr) :=
  if 0 < len then
    (if addr.port_set then some addr else addr.setNodePort env).bind fun addr =>
      (if addr.port_set then
        let len := min len (NI_MAXSERV + 1)
        (strncpyTo buf addr.port.text len).map fun buf => ⟨true, buf, len⟩
      else NameResult.bail buf).map fun r => (r, addr)
  else none

def I2AddrRec.hints (addr : I2AddrRec) : Hints where
  ai_flags := if addr.passive ≠ 0 then AI_PASSIVE else 0
  ai_family := AF_UNSPEC
  ai_socktype := if addr.so_type ≠ 0 then addr.so_type else SOCK_STREAM
  ai_protocol := addr.so_protocol

/-- `host` of `I2AddrAddrInfo`: the node, or the default. -/
def I2AddrRec.host (addr : I2AddrRec) (def_node : Option (List UInt8)) :
    Option (Option (List UInt8)) :=
  if addr.node_set ∧ addr.node.text ≠ unknown then addr.node.str.map some else some def_node

def I2AddrRec.serv (addr : I2AddrRec) (def_serv : Option (List UInt8)) :
    Option (Option (List UInt8)) :=
  if addr.port_set ∧ addr.port.text ≠ unknown then addr.port.str.map some else some def_serv

def i2AddrAddrInfo (env : Resolver) (addr : I2Addr) (def_node def_serv : Option (List UInt8)) :
    Option (List Addrinfo × I2Addr) :=
  if addr.ai.isEmpty then
    (addr.host def_node).bind fun host =>
      if host = none ∧ addr.passive = 0 then some ([], addr)
      else
        (addr.serv def_serv).map fun port =>
          match env.getaddrinfo host port addr.hints with
          | [] => ([], addr)
          | es =>
              let (ai, h) := placeList addr.heap es
              (ai, { addr with ai := ai, ai_free := false, heap := h })
  else some (addr.ai, addr)

def i2AddrIsLoopback (addr : I2Addr) : Option ℤ :=
  match i2AddrSAddr addr with
  | (none, _) => some 0
  | (some p, saddrlen) => (addr.sockaddr p).bind fun sa => i2SockAddrIsLoopback sa saddrlen

/-! ### The copy -/

def copyAddrRec.canonname (h : Heap UInt8) (name : Option (List UInt8)) :
    Option (List UInt8) × Heap UInt8 :=
  match name with
  | none => (none, h)
  | some name =>
      if NI_MAXHOST < name.length then (none, h)
      else (if h.permit.1 then some name else none, h.permit.2)

def copyAddrRec (h : Heap UInt8) (src : Addrinfo) : Option (Option Addrinfo × Heap UInt8) :=
  if h.permit.1 then
    match src.ai_addr with
    | some q =>
        match h.permit.2.alloc (List.replicate src.ai_addrlen 0) with
        | (none, h) => some (none, h)
        | (some p, h) =>
            (h.mem q).bind fun m =>
              (Memory.read m 0 src.ai_addrlen).map fun cells =>
                let (name, h) := copyAddrRec.canonname (h.set p cells.1) src.ai_canonname
                (some { src with ai_addr := some p, ai_canonname := name }, h)
    | none =>
        let (name, h) := copyAddrRec.canonname h.permit.2 src.ai_canonname
        some (some { src with ai_addrlen := 0, ai_canonname := name }, h)
  else some (none, h.permit.2)

/-- The loop over the list of the original, whose address is `saddr`. -/
def i2AddrCopy.list (saddr : Option ℕ) : List Addrinfo → I2Addr → Option (Option I2Addr)
  | [], dup => some (some dup)
  | ai :: ais, dup =>
      (copyAddrRec dup.heap ai).bind fun
        | (none, _) => some none
        | (some dst, h) =>
            let dup := { dup with ai_free := true, ai := dup.ai ++ [dst], heap := h }
            i2AddrCopy.list saddr ais
              (if ai.ai_addr = saddr then
                { dup with saddr := dst.ai_addr, saddrlen := dst.ai_addrlen } else dup)

def I2Addr.withNames (dup orig : I2Addr) : I2Addr :=
  let dup := if orig.node_set then
    { dup with node := strncpy orig.node.text _, node_set := true } else dup
  if orig.port_set then
    { dup with
      port := strncpy orig.port.text _, port_value := orig.port_value, port_set := true } else dup

/-- The copy `to` of the record `from`. What was copied before a failure is freed. -/
def i2AddrCopy (orig : I2Addr) : Option (Option I2Addr) :=
  match i2AddrAlloc orig.heap with
  | none => some none
  | some dup =>
      (i2AddrCopy.list orig.saddr orig.ai (dup.withNames orig)).map fun dup =>
        dup.map fun dup =>
          { dup with fd := orig.fd, fd_user := if -1 < orig.fd then true else dup.fd_user }

end I2util
