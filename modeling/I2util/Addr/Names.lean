import I2util.Addr.Sound

/-!
The functions that write the names of a record to a buffer of the caller.

The buffer is given by its `len` bytes, so a function that goes past them has no result.
-/

namespace I2util

def i2AddrNodeServName.fill (buf node port : List UInt8) (len : ℕ) : Option (List UInt8) :=
  (strncpyTo buf (ascii "[") len).bind fun buf =>
    (strncat buf node len).bind fun buf =>
      (strncat buf (ascii "]:") len).bind fun buf => strncat buf port len

def i2AddrNodeServName (env : Resolver) (addr : I2Addr) (buf : List UInt8) (len : ℕ) :
    Option (NameResult × I2Addr) :=
  if 0 < len then
    (if !addr.node_set || !addr.port_set then addr.setNodePort env else some addr).bind fun addr =>
      (if !addr.node_set || !addr.port_set then NameResult.bail buf
      else
        addr.node.str.bind fun node =>
          addr.port.str.bind fun port =>
            let newlen := (ascii "[]:").length + node.length + port.length
            let len := min len newlen
            (i2AddrNodeServName.fill buf node port len).map fun buf => ⟨true, buf, len⟩).map
          fun r => (r, addr)
  else none

theorem CArray.str_eq_some {n : ℕ} {a : CArray n} {text : List UInt8} (h : a.str = some text) :
    a.text.length < n ∧ a.text = text := by
  rw [str] at h
  split at h
  · rename_i hlt
    exact ⟨hlt, Option.some.inj h⟩
  · cases h

/-! ### The node and the port -/

def nodeServ (node port : List UInt8) : List UInt8 := ascii "[" ++ node ++ ascii "]:" ++ port

theorem nodeServ_length (node port : List UInt8) :
    (nodeServ node port).length = 3 + node.length + port.length := by
  have hopen : (ascii "[").length = 1 := rfl
  have hclose : (ascii "]:").length = 2 := rfl
  simp only [nodeServ, List.length_append, hopen, hclose]
  omega

section Fill

variable {buf node port : List UInt8} {len : ℕ}

theorem open_no_nul (hnode : 0 ∉ node) :
    0 ∉ ascii "[" ++ node ∧ 0 ∉ ascii "[" ++ node ++ ascii "]:" := by
  have hopen : 0 ∉ ascii "[" ++ node := fun h =>
    (List.mem_append.mp h).elim (fun h => absurd h (by decide)) hnode
  exact ⟨hopen, fun h => (List.mem_append.mp h).elim hopen fun h => absurd h (by decide)⟩

/-- A text that fits with its NUL is written whole. -/
theorem fill_fits (hnode : 0 ∉ node) (hfits : (nodeServ node port).length < buf.length) :
    ∃ tail, i2AddrNodeServName.fill buf node port (nodeServ node port).length =
      some (nodeServ node port ++ 0 :: tail) := by
  have hone : (ascii "[").length = 1 := rfl
  have htwo : (ascii "]:").length = 2 := rfl
  have hbrace : 0 ∉ ascii "[" := by decide
  obtain ⟨hopened, hclosed⟩ := open_no_nul hnode
  have htotal := nodeServ_length node port
  obtain ⟨tail, hopen, htail⟩ :=
    @strncpyTo_short buf (ascii "[") (nodeServ node port).length (by omega) (by omega)
  rw [i2AddrNodeServName.fill, hopen, Option.bind_some,
    strncat_fits hbrace (by omega) (by omega), Option.bind_some,
    strncat_fits hopened (by omega) (by rw [List.length_drop]; omega), Option.bind_some,
    strncat_fits hclosed (by omega) (by simp only [List.length_drop]; omega)]
  exact ⟨_, rfl⟩

/-- Every bound is the whole buffer, so a text that does not fit is written past its end. -/
theorem fill_short (hnode : 0 ∉ node) (hpos : 0 < buf.length)
    (hshort : buf.length ≤ (nodeServ node port).length) :
    i2AddrNodeServName.fill buf node port buf.length = none := by
  have hone : (ascii "[").length = 1 := rfl
  have htwo : (ascii "]:").length = 2 := rfl
  have hbrace : 0 ∉ ascii "[" := by decide
  obtain ⟨hopened, hclosed⟩ := open_no_nul hnode
  rw [nodeServ_length] at hshort
  by_cases hlen : 1 < buf.length
  · obtain ⟨tail, hopen, htail⟩ := @strncpyTo_short buf (ascii "[") buf.length le_rfl hlen
    rw [i2AddrNodeServName.fill, hopen, Option.bind_some]
    by_cases hroom : node.length ≤ tail.length
    · rw [strncat_fits hbrace (by omega) hroom, Option.bind_some]
      by_cases hroom' : (ascii "]:").length ≤ (tail.drop node.length).length
      · have hdrop := List.length_drop (i := node.length) (l := tail)
        rw [strncat_fits hopened (by omega) hroom', Option.bind_some]
        apply strncat_none hclosed
        rw [List.length_drop]
        omega
      · rw [strncat_none hopened (by omega)]
        rfl
    · rw [strncat_none hbrace (by omega)]
      rfl
  · -- the one byte is no NUL
    obtain ⟨c, rfl⟩ := List.length_eq_one_iff.mp (show buf.length = 1 by omega)
    rfl

end Fill

/-- The arrays hold strings: what is in front of the first NUL has none. -/
structure I2AddrRec.Strings (addr : I2AddrRec) : Prop where
  node : 0 ∉ addr.node.text
  port : 0 ∉ addr.port.text

/-- The buffer holds the longest prefix of the text that fits. -/
structure NameResult.Holds (r : NameResult) (text : List UInt8) (len : ℕ) : Prop where
  nul : 0 ∈ r.buf
  str : cstr r.buf = text.take (len - 1)

section NodeServ

variable {env : Resolver} {addr : I2Addr} {buf : List UInt8} {len : ℕ}

theorem i2AddrNodeServName_eq (hnode : addr.node_set = true) (hport : addr.port_set = true)
    (hlen : 0 < len) :
    i2AddrNodeServName env addr buf len =
      (addr.node.str.bind fun node =>
        addr.port.str.bind fun port =>
          let len := min len (nodeServ node port).length
          (i2AddrNodeServName.fill buf node port len).map fun buf => ⟨true, buf, len⟩).map
        fun r => (r, addr) := by
  rw [i2AddrNodeServName, if_pos hlen]
  simp only [hnode, hport, Bool.not_true, Bool.or_self, Bool.false_eq_true, if_false,
    Option.bind_some, nodeServ_length]
  rfl

def I2AddrRec.NodeServFits (addr : I2AddrRec) (len : ℕ) : Prop :=
  addr.node.text.length < NI_MAXHOST + 1 ∧ addr.port.text.length < NI_MAXSERV + 1 ∧
    3 + addr.node.text.length + addr.port.text.length < len

theorem i2AddrNodeServName_fits (env : Resolver) (hs : addr.Strings) (hnode : addr.node_set = true)
    (hport : addr.port_set = true) (hbuf : buf.length = len) (hfits : addr.NodeServFits len) :
    ∃ tail, i2AddrNodeServName env addr buf len =
      some (⟨true, nodeServ addr.node.text addr.port.text ++ 0 :: tail,
        (nodeServ addr.node.text addr.port.text).length⟩, addr) := by
  obtain ⟨hnodeEnd, hportEnd, hroom⟩ := hfits
  rw [← nodeServ_length] at hroom
  obtain ⟨tail, hfill⟩ := fill_fits hs.node (by rwa [hbuf])
  refine ⟨tail, ?_⟩
  rw [i2AddrNodeServName_eq hnode hport (by omega), CArray.str, if_pos hnodeEnd, CArray.str,
    if_pos hportEnd]
  simp only [Option.bind_some, Nat.min_eq_right (Nat.le_of_lt hroom), hfill]
  rfl

theorem nodeServ_no_nul (hs : addr.Strings) : 0 ∉ nodeServ addr.node.text addr.port.text :=
  fun h => (List.mem_append.mp h).elim (open_no_nul hs.node).2 hs.port

theorem nodeServName_iff (hs : addr.Strings) (hnode : addr.node_set = true)
    (hport : addr.port_set = true) (hbuf : buf.length = len) (hlen : 1 ≤ len) :
    (∃ r, i2AddrNodeServName env addr buf len = some (r, addr) ∧ r.ret = true ∧
      r.Holds (nodeServ addr.node.text addr.port.text) len) ↔ addr.NodeServFits len := by
  constructor
  · rintro ⟨r, hr, -⟩
    rw [i2AddrNodeServName_eq hnode hport hlen] at hr
    obtain ⟨_, hname, -⟩ := Option.map_eq_some_iff.mp hr
    obtain ⟨node, hnodeStr, hname⟩ := Option.bind_eq_some_iff.mp hname
    obtain ⟨port, hportStr, hname⟩ := Option.bind_eq_some_iff.mp hname
    obtain ⟨hnodeEnd, rfl⟩ := CArray.str_eq_some hnodeStr
    obtain ⟨hportEnd, rfl⟩ := CArray.str_eq_some hportStr
    refine ⟨hnodeEnd, hportEnd, ?_⟩
    rw [← nodeServ_length]
    by_contra hroom
    have hshort : buf.length ≤ (nodeServ addr.node.text addr.port.text).length := by omega
    simp only [Nat.min_eq_left (hbuf ▸ hshort)] at hname
    rw [← hbuf, fill_short hs.node (by omega) hshort] at hname
    cases hname
  · intro hfits
    obtain ⟨tail, hr⟩ := i2AddrNodeServName_fits env hs hnode hport hbuf hfits
    refine ⟨_, hr, rfl, by simp, ?_⟩
    rw [cstr_append_nul (nodeServ_no_nul hs), List.take_of_length_le]
    rw [nodeServ_length]
    exact Nat.le_sub_one_of_lt hfits.2.2

end NodeServ

/-! ### The node or the port -/

/-- The names that the C library writes are strings. -/
structure Resolver.Strings (env : Resolver) : Prop where
  node : ∀ sa numeric s, env.nodeName sa numeric = some s → 0 ∉ s
  port : ∀ sa s, env.portName sa = some s → 0 ∉ s

section Lookup

variable {env : Resolver} {addr addr' : I2Addr}

theorem strncpy_no_nul {s : List UInt8} (hs : 0 ∉ s) (n : ℕ) : 0 ∉ (strncpy s n).text :=
  fun h => hs (List.mem_of_mem_take h)

theorem nameinfo_no_nul {name : Option (List UInt8)} (hname : ∀ s, name = some s → 0 ∉ s) {n : ℕ}
    {s : List UInt8} (h : nameinfo name n = some s) : 0 ∉ s :=
  hname s (Option.filter_eq_some_iff.mp h).1

theorem unknown_no_nul (n : ℕ) : 0 ∉ (strncpy unknown n).text := strncpy_no_nul (by decide) n

theorem withPortName_strings (hs : addr.Strings) {name : Option (List UInt8)}
    (hname : ∀ s, name = some s → 0 ∉ s) : (addr.withPortName name).Strings := by
  cases name with
  | none => exact ⟨hs.node, unknown_no_nul _⟩
  | some text =>
      have htext := strncpy_no_nul (hname text rfl) (NI_MAXSERV + 1)
      rw [I2Addr.withPortName]
      cases readPort text with
      | none => exact ⟨hs.node, htext⟩
      | some p => exact ⟨hs.node, htext⟩

theorem portOf_strings (henv : env.Strings) (hs : addr.Strings) {sa : Sockaddr}
    (h : addr.portOf env sa = some addr') : addr'.Strings := by
  rw [I2Addr.portOf] at h
  split at h
  · obtain rfl := Option.some.inj h
    exact ⟨hs.node, strncpy_no_nul (by decide) _⟩
  · obtain ⟨saddr, -, rfl⟩ := Option.map_eq_some_iff.mp h
    exact withPortName_strings hs fun s => nameinfo_no_nul (henv.port _)

theorem setPort_strings (henv : env.Strings) (hs : addr.Strings)
    (h : addr.setPort env = some addr') : addr'.Strings := by
  rw [I2Addr.setPort_eq] at h
  exact fromAddr_induct (motive := fun addr => addr.Strings) hs (fun _ => portOf_strings henv hs) h

theorem nodeOf_strings (henv : env.Strings) (hs : addr.Strings) {sa : Sockaddr}
    (h : addr.nodeOf env sa = some addr') : addr'.Strings := by
  have hset : ∀ s, 0 ∉ s →
      { addr with node := strncpy s _, node_set := true }.setPort env = some addr' →
        addr'.Strings := fun s hstr => setPort_strings henv ⟨strncpy_no_nul hstr _, hs.port⟩
  rw [I2Addr.nodeOf] at h
  split at h
  · exact hset _ (by decide) h
  · obtain ⟨saddr, -, hname⟩ := Option.bind_eq_some_iff.mp h
    split at hname
    · obtain rfl := Option.some.inj hname
      exact ⟨unknown_no_nul _, hs.port⟩
    · rename_i text htext
      refine hset text ?_ hname
      rcases Option.or_eq_some_iff.mp htext with htext | ⟨-, htext⟩
      · exact nameinfo_no_nul (henv.node _ _) htext
      · exact nameinfo_no_nul (henv.node _ _) htext

theorem setNodePort_strings (henv : env.Strings) (hs : addr.Strings)
    (h : addr.setNodePort env = some addr') : addr'.Strings := by
  rw [I2Addr.setNodePort_eq] at h
  exact fromAddr_induct (motive := fun addr => addr.Strings) hs (fun _ => nodeOf_strings henv hs) h

end Lookup

section Names

variable {env : Resolver} {addr addr' : I2Addr} {buf text : List UInt8} {len n : ℕ}

/-- A string that is not shorter does not end in a buffer without a NUL. -/
theorem strncpyTo_no_nul (htext : 0 ∉ text) (hroom : min len n ≤ text.length) :
    ∃ buf', strncpyTo (List.replicate len 1) text (min len n) = some buf' ∧ 0 ∉ buf' := by
  refine ⟨_, strncpyTo_eq text (by rw [List.length_replicate]; omega), ?_⟩
  rw [Nat.sub_eq_zero_of_le hroom, List.drop_replicate]
  intro hzero
  rcases List.mem_append.mp hzero with h | h
  · exact htext (List.mem_of_mem_take h)
  · exact absurd (List.eq_of_mem_replicate h) (by decide)

/-- The name ends at its first `%`. -/
theorem cut_holds (htext : 0 ∉ text) (hroom : text.length < len) (tail : List UInt8) (k : ℕ) :
    ∃ r, i2AddrNodeName.cut (text ++ 0 :: tail) k = some r ∧ r.ret = true ∧
      r.Holds (text.takeWhile (· ≠ 37)) len := by
  rw [i2AddrNodeName.cut, if_pos (by simp), cstr_append_nul htext]
  by_cases hcut : 37 ∈ text
  · obtain ⟨a, b, rfl, ha⟩ := List.eq_append_cons_of_mem hcut
    have ha0 : 0 ∉ a := fun h => htext (List.mem_append_left _ h)
    rw [List.length_append] at hroom
    have hset : (a ++ 37 :: b ++ 0 :: tail).set
        ((a ++ 37 :: b ++ 0 :: tail).takeWhile (· ≠ 37)).length 0 =
          a ++ 0 :: (b ++ 0 :: tail) := by
      rw [List.append_assoc, List.cons_append, Scan.takeWhile_ne_append ha,
        List.set_append_right _ _ le_rfl, Nat.sub_self, List.set_cons_zero]
    simp only [if_pos hcut, hset]
    refine ⟨_, rfl, rfl, by simp, ?_⟩
    rw [cstr_append_nul ha0, Scan.takeWhile_ne_append ha, List.take_of_length_le (by omega)]
  · simp only [if_neg hcut]
    refine ⟨_, rfl, rfl, by simp, ?_⟩
    rw [cstr_append_nul htext, Scan.takeWhile_ne_of_not_mem hcut,
      List.take_of_length_le (by omega)]

theorem bail_holds (hbuf : buf.length = len) (hlen : 1 ≤ len) :
    ∃ r, NameResult.bail buf = some r ∧ r.ret = false ∧ r.Holds [] len := by
  cases buf with
  | nil => exact absurd hbuf (by simp only [List.length_nil]; omega)
  | cons c buf =>
      have hwrite : NameResult.bail (c :: buf) = some ⟨false, 0 :: buf, 0⟩ := by
        rw [NameResult.bail, Memory.write, dif_pos (by simp)]
        rfl
      exact ⟨_, hwrite, rfl, by simp, by simp [cstr]⟩

def I2Addr.looked (env : Resolver) (addr : I2Addr) (set : Bool) : Option I2Addr :=
  if set then some addr else addr.setNodePort env

theorem looked_strings (henv : env.Strings) (hs : addr.Strings) {set : Bool}
    (h : addr.looked env set = some addr') : addr'.Strings := by
  rw [I2Addr.looked] at h
  split at h
  · exact Option.some.inj h ▸ hs
  · exact setNodePort_strings henv hs h

theorem i2AddrNodeName_eq (hlook : addr.looked env addr.node_set = some addr') (hlen : 1 ≤ len) :
    i2AddrNodeName env addr buf len =
      (if addr'.node_set then
        let len := min len (NI_MAXHOST + 1)
        (strncpyTo buf addr'.node.text len).bind fun buf => i2AddrNodeName.cut buf len
      else NameResult.bail buf).map fun r => (r, addr') := by
  rw [i2AddrNodeName, if_pos (show 0 < len from hlen)]
  change (addr.looked env addr.node_set).bind _ = _
  rw [hlook]
  rfl

theorem i2AddrServName_eq (hlook : addr.looked env addr.port_set = some addr') (hlen : 1 ≤ len) :
    i2AddrServName env addr buf len =
      (if addr'.port_set then
        let len := min len (NI_MAXSERV + 1)
        (strncpyTo buf addr'.port.text len).map fun buf => ⟨true, buf, len⟩
      else NameResult.bail buf).map fun r => (r, addr') := by
  rw [i2AddrServName, if_pos (show 0 < len from hlen)]
  change (addr.looked env addr.port_set).bind _ = _
  rw [hlook]
  rfl

/-- What `I2AddrNodeName` is for, whatever is in the buffer. -/
def NodeNamed (env : Resolver) (addr addr' : I2Addr) (len : ℕ) : Prop :=
  ∀ buf, buf.length = len → ∃ r, i2AddrNodeName env addr buf len = some (r, addr') ∧
    r.ret = addr'.node_set ∧
      r.Holds (if addr'.node_set then addr'.node.text.takeWhile (· ≠ 37) else []) len

def ServNamed (env : Resolver) (addr addr' : I2Addr) (len : ℕ) : Prop :=
  ∀ buf, buf.length = len → ∃ r, i2AddrServName env addr buf len = some (r, addr') ∧
    r.ret = addr'.port_set ∧ r.Holds (if addr'.port_set then addr'.port.text else []) len

theorem nodeNamed_iff (hs : addr'.Strings)
    (hlook : addr.looked env addr.node_set = some addr') (hlen : 1 ≤ len) :
    NodeNamed env addr addr' len ↔
      (addr'.node_set = true → addr'.node.text.length < min len (NI_MAXHOST + 1)) := by
  constructor
  · intro hnamed hset
    by_contra hroom
    obtain ⟨buf', hcopy, hnul⟩ := strncpyTo_no_nul hs.node (Nat.not_lt.mp hroom)
    obtain ⟨r, hr, -⟩ := hnamed (List.replicate len 1) List.length_replicate
    simp only [i2AddrNodeName_eq hlook hlen, hset, if_true, hcopy, Option.bind_some,
      i2AddrNodeName.cut, if_neg hnul, Option.map_none, reduceCtorEq] at hr
  · intro hroom buf hbuf
    rw [i2AddrNodeName_eq hlook hlen]
    cases hset : addr'.node_set with
    | true =>
        have hshort := hroom hset
        obtain ⟨tail, hcopy, -⟩ := @strncpyTo_short buf addr'.node.text _ (by omega) hshort
        obtain ⟨r, hcut, hret, hholds⟩ :=
          cut_holds hs.node (show _ < len by omega) tail (min len (NI_MAXHOST + 1))
        refine ⟨r, ?_, hret, hholds⟩
        simp only [if_true, hcopy, Option.bind_some, hcut, Option.map_some]
    | false =>
        obtain ⟨r, hbail, hret, hholds⟩ := bail_holds hbuf hlen
        exact ⟨r, by rw [if_neg Bool.false_ne_true, hbail]; rfl, hret, hholds⟩

theorem servNamed_iff (hs : addr'.Strings)
    (hlook : addr.looked env addr.port_set = some addr') (hlen : 1 ≤ len) :
    ServNamed env addr addr' len ↔
      (addr'.port_set = true → addr'.port.text.length < min len (NI_MAXSERV + 1)) := by
  constructor
  · intro hnamed hset
    by_contra hroom
    obtain ⟨buf', hcopy, hnul⟩ := strncpyTo_no_nul hs.port (Nat.not_lt.mp hroom)
    obtain ⟨r, hr, -, hholds⟩ := hnamed (List.replicate len 1) List.length_replicate
    simp only [i2AddrServName_eq hlook hlen, hset, if_true, hcopy, Option.map_some] at hr
    obtain ⟨rfl, -⟩ := Prod.mk.inj (Option.some.inj hr)
    exact hnul hholds.nul
  · intro hroom buf hbuf
    rw [i2AddrServName_eq hlook hlen]
    cases hset : addr'.port_set with
    | true =>
        have hshort := hroom hset
        obtain ⟨tail, hcopy, -⟩ := @strncpyTo_short buf addr'.port.text _ (by omega) hshort
        refine ⟨⟨true, addr'.port.text ++ 0 :: tail, min len (NI_MAXSERV + 1)⟩, ?_, rfl,
          by simp, ?_⟩
        · simp only [if_true, hcopy, Option.map_some]
        · rw [cstr_append_nul hs.port, if_pos rfl, List.take_of_length_le (by omega)]
    | false =>
        obtain ⟨r, hbail, hret, hholds⟩ := bail_holds hbuf hlen
        exact ⟨r, by rw [if_neg Bool.false_ne_true, hbail]; rfl, hret, hholds⟩

end Names

/-- Both name functions write their name if and only if it is shorter than the buffer and
ends in its array. -/
theorem names_iff {env : Resolver} {addr : I2Addr} (henv : env.Strings) (hs : addr.Strings)
    {len : ℕ} (hlen : 1 ≤ len) :
    (∀ addr', addr.looked env addr.node_set = some addr' →
      (NodeNamed env addr addr' len ↔
        (addr'.node_set = true → addr'.node.text.length < min len (NI_MAXHOST + 1)))) ∧
    (∀ addr', addr.looked env addr.port_set = some addr' →
      (ServNamed env addr addr' len ↔
        (addr'.port_set = true → addr'.port.text.length < min len (NI_MAXSERV + 1)))) :=
  ⟨fun _ hlook => nodeNamed_iff (looked_strings henv hs hlook) hlook hlen,
    fun _ hlook => servNamed_iff (looked_strings henv hs hlook) hlook hlen⟩

def namedRecord (node port : List UInt8) (port_value : UInt16) : I2Addr where
  toI2AddrRec := { I2AddrRec.unset with
    node := strncpy node _, node_set := true
    port := strncpy port _, port_set := true, port_value := port_value }
  heap := emptyHeap

theorem namedRecord_strings {node port : List UInt8} (hnode : 0 ∉ node) (hport : 0 ∉ port)
    (port_value : UInt16) : (namedRecord node port port_value).Strings :=
  ⟨strncpy_no_nul hnode _, strncpy_no_nul hport _⟩

theorem nodeServName_iff_host :
    (∃ r, i2AddrNodeServName oneAddress (namedRecord (ascii "host") (ascii "80") 80)
        (List.replicate 10 1) 10 = some (r, namedRecord (ascii "host") (ascii "80") 80) ∧
      r.ret = true ∧ r.Holds (nodeServ (ascii "host") (ascii "80")) 10) ↔
    (namedRecord (ascii "host") (ascii "80") 80).NodeServFits 10 :=
  nodeServName_iff (namedRecord_strings (by decide) (by decide) 80) rfl rfl
    List.length_replicate (by decide)

/-- `[host]:80` has nine characters, and nine bytes are too few. -/
theorem i2AddrNodeServName_past_end :
    i2AddrNodeServName oneAddress (namedRecord (ascii "host") (ascii "80") 80)
      (List.replicate 9 1) 9 = none := by
  decide

theorem oneAddress_strings : oneAddress.Strings := ⟨nofun, nofun⟩

theorem names_iff_host :
    (∀ addr', (namedRecord (ascii "host") (ascii "80") 80).looked oneAddress true = some addr' →
      (NodeNamed oneAddress (namedRecord (ascii "host") (ascii "80") 80) addr' 5 ↔
        (addr'.node_set = true → addr'.node.text.length < min 5 (NI_MAXHOST + 1)))) ∧
    (∀ addr', (namedRecord (ascii "host") (ascii "80") 80).looked oneAddress true = some addr' →
      (ServNamed oneAddress (namedRecord (ascii "host") (ascii "80") 80) addr' 5 ↔
        (addr'.port_set = true → addr'.port.text.length < min 5 (NI_MAXSERV + 1)))) :=
  names_iff oneAddress_strings (namedRecord_strings (by decide) (by decide) 80) (by decide)

/-- A name as long as the buffer has no NUL: the scan for `%` runs past the end, and the
port is returned without one. -/
theorem names_not_ended :
    i2AddrNodeName oneAddress (namedRecord (ascii "host") (ascii "8080") 8080)
        (List.replicate 4 1) 4 = none ∧
      ((i2AddrServName oneAddress (namedRecord (ascii "host") (ascii "8080") 8080)
        (List.replicate 4 1) 4).map fun r => (r.1.ret, r.1.buf)) = some (true, ascii "8080") :=
  ⟨by decide, by decide⟩

end I2util
