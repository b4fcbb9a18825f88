import I2util.Addr.SetPort

/-!
Runs of the setters.

Each setter has guards of its own. A call that fails leaves the record as it is, and a
record with a descriptor is frozen but for the values that were not set.
-/

namespace I2util

inductive Setter where
  | setSAddr (saddr : Option ℕ) (saddr_len : ℕ)
  | setFD (fd : ℤ) (close_on_free : Bool)
  | setPort (p : UInt16)
  | setProtocol (protocol : ℤ)
  | setSocktype (so_type : ℤ)
  | setPassive (passive : ℤ)

namespace Setter

def run (addr : I2Addr) : Setter → Option (Bool × I2Addr)
  | .setSAddr saddr saddr_len => some (i2AddrSetSAddr addr saddr saddr_len)
  | .setFD fd close_on_free => some (i2AddrSetFD addr fd close_on_free)
  | .setPort p => i2AddrSetPort addr p
  | .setProtocol protocol => some (i2AddrSetProtocol addr protocol)
  | .setSocktype so_type => some (i2AddrSetSocktype addr so_type)
  | .setPassive passive => some (i2AddrSetPassive addr passive)

def call : Setter → Call
  | .setSAddr saddr saddr_len => .setSAddr saddr saddr_len
  | .setFD fd close_on_free => .setFD fd close_on_free
  | .setPort p => .setPort p
  | .setProtocol protocol => .setProtocol protocol
  | .setSocktype so_type => .setSocktype so_type
  | .setPassive passive => .setPassive passive

theorem call_run (s : Setter) (addr : I2Addr) : s.call.run addr = (s.run addr).map Prod.snd := by
  cases s <;> rfl

/-- An address that is attached lies in the memory, and is no longer than the union. -/
def Fits (addr : I2Addr) : Setter → Prop
  | .setSAddr (some p) saddr_len =>
      ∃ sa, addr.sockaddr p = some sa ∧ saddr_len ≤ sa.bytes.length ∧ saddr_len ≤ sizeofSockUnion
  | _ => True

def KeepsFD : Setter → Prop
  | .setFD fd _ => 0 ≤ fd
  | _ => True

end Setter

def runSetters (addr : I2Addr) (ss : List Setter) : Option I2Addr :=
  runCalls addr (ss.map Setter.call)

def SettersFit : I2Addr → List Setter → Prop
  | _, [] => True
  | addr, s :: ss => s.Fits addr ∧ ∀ r addr', s.run addr = some (r, addr') → SettersFit addr' ss

/-- What a record with a descriptor keeps. The socket type and the protocol can change
if they are 0. -/
structure Frozen (addr addr' : I2Addr) : Prop where
  fd : addr'.fd = addr.fd
  ai : addr'.ai = addr.ai
  saddr : addr'.saddr = addr.saddr
  saddrlen : addr'.saddrlen = addr.saddrlen
  heap : addr'.heap = addr.heap
  node : addr'.node_set = addr.node_set ∧ addr'.node = addr.node
  port : addr'.port_set = addr.port_set ∧ addr'.port_value = addr.port_value ∧
    addr'.port = addr.port
  passive : addr'.passive = addr.passive
  so_type : addr'.so_type = addr.so_type ∨ addr.so_type = 0
  so_protocol : addr'.so_protocol = addr.so_protocol ∨ addr.so_protocol = 0

variable {addr addr' addr'' : I2Addr} {r : Bool} {s : Setter} {ss : List Setter}

theorem Frozen.refl (addr : I2Addr) : Frozen addr addr :=
  ⟨rfl, rfl, rfl, rfl, rfl, ⟨rfl, rfl⟩, ⟨rfl, rfl, rfl⟩, rfl, .inl rfl, .inl rfl⟩

/-- A value that was set stays. -/
theorem once_trans {a b c : ℤ} (h₁ : b = a ∨ a = 0) (h₂ : c = b ∨ b = 0) : c = a ∨ a = 0 := by
  omega

theorem Frozen.trans (h₁ : Frozen addr addr') (h₂ : Frozen addr' addr'') : Frozen addr addr'' where
  fd := h₂.fd.trans h₁.fd
  ai := h₂.ai.trans h₁.ai
  saddr := h₂.saddr.trans h₁.saddr
  saddrlen := h₂.saddrlen.trans h₁.saddrlen
  heap := h₂.heap.trans h₁.heap
  node := ⟨h₂.node.1.trans h₁.node.1, h₂.node.2.trans h₁.node.2⟩
  port := ⟨h₂.port.1.trans h₁.port.1, h₂.port.2.1.trans h₁.port.2.1,
    h₂.port.2.2.trans h₁.port.2.2⟩
  passive := h₂.passive.trans h₁.passive
  so_type := once_trans h₁.so_type h₂.so_type
  so_protocol := once_trans h₁.so_protocol h₂.so_protocol

/-! ### One call -/

/-- The setters that drop the list leave a record with an address or a descriptor. -/
theorem reset_cases {store : I2Addr → I2Addr} (hrun : addr.reset store = (r, addr')) :
    r = false ∧ addr' = addr ∨
      r = true ∧ addr.fd < 0 ∧ addr.saddr = none ∧ addr' = store addr.clearAI := by
  rw [I2Addr.reset] at hrun
  split at hrun
  · obtain ⟨rfl, rfl⟩ := Prod.mk.inj hrun
    exact .inl ⟨rfl, rfl⟩
  · rename_i hfd
    split at hrun
    · obtain ⟨rfl, rfl⟩ := Prod.mk.inj hrun
      exact .inl ⟨rfl, rfl⟩
    · rename_i hsaddr
      obtain ⟨rfl, rfl⟩ := Prod.mk.inj hrun
      exact .inr ⟨rfl, by omega, by simpa using hsaddr, rfl⟩

theorem setValue_cases {old new : ℤ} {store : I2Addr → I2Addr}
    (hrun : addr.setValue old new store = (r, addr')) :
    addr' = addr ∨ r = true ∧ old = 0 ∧ addr' = store addr ∨
      r = true ∧ addr.fd < 0 ∧ addr.saddr = none ∧ addr' = store addr.clearAI := by
  rw [I2Addr.setValue] at hrun
  split at hrun
  · obtain ⟨rfl, rfl⟩ := Prod.mk.inj hrun
    exact .inl rfl
  · split at hrun
    · rename_i hzero
      obtain ⟨rfl, rfl⟩ := Prod.mk.inj hrun
      exact .inr (.inl ⟨rfl, hzero, rfl⟩)
    · rcases reset_cases hrun with ⟨-, rfl⟩ | hreset
      · exact .inl rfl
      · exact .inr (.inr hreset)

/-- A call that stores its value. Most of them want no descriptor. -/
inductive Stored (addr : I2Addr) : Setter → I2Addr → Prop
  | address (saddr : Option ℕ) (saddr_len : ℕ) (hfd : addr.fd < 0) :
      Stored addr (.setSAddr saddr saddr_len)
        { addr with
          saddr := saddr, saddrlen := saddr_len, node_set := false, port_set := false,
          port_value := 0 }
  | descriptor (fd : ℤ) (close_on_free : Bool) (hfd : addr.fd < 0 ∨ fd < 0 ∨ fd = addr.fd) :
      Stored addr (.setFD fd close_on_free) { addr with fd := fd, fd_user := !close_on_free }
  | port (p : UInt16) (addr' : I2Addr) (hfd : addr.fd < 0) (h : addr.PortStored p addr') :
      Stored addr (.setPort p) addr'
  | protocol (v : ℤ) (hunset : addr.so_protocol = 0) :
      Stored addr (.setProtocol v) { addr with so_protocol := v }
  | socktype (v : ℤ) (hunset : addr.so_type = 0) :
      Stored addr (.setSocktype v) { addr with so_type := v }
  | cleared (s : Setter) (addr' : I2Addr) (hfd : addr.fd < 0) (hsaddr : addr'.saddr = none) :
      Stored addr s addr'

/-- A call leaves the record as it is, or it stores its value. -/
theorem Setter.run_cases (hrun : s.run addr = some (r, addr')) :
    addr' = addr ∨ r = true ∧ Stored addr s addr' := by
  cases s with
  | setSAddr saddr saddr_len =>
      have hset := Option.some.inj hrun
      rw [i2AddrSetSAddr] at hset
      split at hset
      · exact .inl (Prod.mk.inj hset).2.symm
      · rename_i hfd
        split at hset
        · exact .inl (Prod.mk.inj hset).2.symm
        · obtain ⟨rfl, rfl⟩ := Prod.mk.inj hset
          exact .inr ⟨rfl, .address saddr saddr_len (by omega)⟩
  | setFD fd close_on_free =>
      have hset := Option.some.inj hrun
      rw [i2AddrSetFD] at hset
      split at hset
      · exact .inl (Prod.mk.inj hset).2.symm
      · obtain ⟨rfl, rfl⟩ := Prod.mk.inj hset
        exact .inr ⟨rfl, .descriptor fd close_on_free (by omega)⟩
  | setPort p =>
      rcases i2AddrSetPort_cases hrun with ⟨-, rfl⟩ | ⟨rfl, hfd, hstored⟩
      · exact .inl rfl
      · exact .inr ⟨rfl, .port p addr' hfd hstored⟩
  | setProtocol v =>
      rcases setValue_cases (Option.some.inj hrun) with rfl | ⟨rfl, hzero, rfl⟩ | ⟨rfl, hfd, -, rfl⟩
      · exact .inl rfl
      · exact .inr ⟨rfl, .protocol v hzero⟩
      · exact .inr ⟨rfl, .cleared _ _ hfd rfl⟩
  | setSocktype v =>
      rcases setValue_cases (Option.some.inj hrun) with rfl | ⟨rfl, hzero, rfl⟩ | ⟨rfl, hfd, -, rfl⟩
      · exact .inl rfl
      · exact .inr ⟨rfl, .socktype v hzero⟩
      · exact .inr ⟨rfl, .cleared _ _ hfd rfl⟩
  | setPassive v =>
      have hset := Option.some.inj hrun
      rw [i2AddrSetPassive] at hset
      split at hset
      · exact .inl (Prod.mk.inj hset).2.symm
      · rcases reset_cases hset with ⟨-, rfl⟩ | ⟨rfl, hfd, -, rfl⟩
        · exact .inl rfl
        · exact .inr ⟨rfl, .cleared _ _ hfd rfl⟩

theorem Setter.run_false (hrun : s.run addr = some (false, addr')) : addr' = addr := by
  rcases Setter.run_cases hrun with rfl | ⟨hr, -⟩
  · rfl
  · cases hr

/-- A call on a record with a descriptor. -/
theorem Setter.run_frozen (hfd : 0 ≤ addr.fd) (hs : s.KeepsFD)
    (hrun : s.run addr = some (r, addr')) : Frozen addr addr' := by
  rcases Setter.run_cases hrun with rfl | ⟨-, hstored⟩
  · exact .refl addr'
  · cases hstored with
    | address _ _ hneg | port _ _ hneg _ | cleared _ _ hneg _ => omega
    | descriptor fd close_on_free hcases =>
        have hsame : fd = addr.fd := by
          rcases hcases with hneg | hneg | hsame
          · omega
          · exact absurd hs (by show ¬0 ≤ fd; omega)
          · exact hsame
        subst hsame
        exact ⟨rfl, rfl, rfl, rfl, rfl, ⟨rfl, rfl⟩, ⟨rfl, rfl, rfl⟩, rfl, .inl rfl, .inl rfl⟩
    | protocol v hunset =>
        exact ⟨rfl, rfl, rfl, rfl, rfl, ⟨rfl, rfl⟩, ⟨rfl, rfl, rfl⟩, rfl, .inl rfl, .inr hunset⟩
    | socktype v hunset =>
        exact ⟨rfl, rfl, rfl, rfl, rfl, ⟨rfl, rfl⟩, ⟨rfl, rfl, rfl⟩, rfl, .inr hunset, .inl rfl⟩

theorem sockaddr_setBlock {q : ℕ} {sa : Sockaddr} {m : List UInt8}
    (hsa : addr.sockaddr q = some sa) (hlen : m.length = sa.bytes.length) (len : ℕ) :
    ∃ sa', ({ addr with saddrlen := len, heap := addr.heap.set q m } : I2Addr).sockaddr q =
      some sa' ∧ sa'.bytes = m := by
  have hblock := Heap.set_mem_self (I2Addr.sockaddr_mem hsa) m
  have hroom : 2 ≤ m.length := by
    rw [hlen]
    exact sa.room
  refine ⟨⟨m, hroom⟩, ?_, rfl⟩
  show ((addr.heap.set q m).mem q).bind _ = _
  rw [hblock]
  exact dif_pos hroom

theorem Stored.fits (h : Stored addr s addr') (hfit : addr.Fits) (hs : s.Fits addr) :
    addr'.Fits := by
  cases h with
  | address saddr saddr_len _ =>
      intro q hq
      obtain rfl : saddr = some q := hq
      exact hs
  | descriptor | protocol | socktype => exact hfit
  | cleared _ _ _ hsaddr =>
      intro q hq
      rw [hsaddr] at hq
      cases hq
  | port p _ _ hstored =>
      rcases hstored with ⟨-, rfl⟩ | ⟨q, sa, len, m, hq, hsa, hlength, hlen, rfl⟩
      · exact hfit
      · intro q' hq'
        obtain rfl : q = q' := Option.some.inj (hq.symm.trans hq')
        obtain ⟨sa₀, hsa₀, hroom, hsize⟩ := hfit q hq
        obtain rfl : sa₀ = sa := Option.some.inj (hsa₀.symm.trans hsa)
        obtain ⟨sa', hsa', hbytes⟩ := sockaddr_setBlock hsa hlength len
        refine ⟨sa', hsa', ?_, hlen.trans hsize⟩
        rw [hbytes, hlength]
        exact hlen.trans hroom

/-- A call that finds its address in the memory returns. -/
theorem Setter.run_fits (hfit : addr.Fits) (hs : s.Fits addr) :
    ∃ r addr', s.run addr = some (r, addr') ∧ addr'.Fits := by
  have hsome : s.run addr ≠ none := by
    cases s with
    | setPort p => exact hfit.setPort_ne_none p
    | setSAddr | setFD | setProtocol | setSocktype | setPassive => exact Option.some_ne_none _
  obtain ⟨⟨r, addr'⟩, hrun⟩ := Option.ne_none_iff_exists'.mp hsome
  refine ⟨r, addr', hrun, ?_⟩
  rcases Setter.run_cases hrun with rfl | ⟨-, hstored⟩
  · exact hfit
  · exact hstored.fits hfit hs

/-! ### Runs -/

theorem runSetters_cons (addr : I2Addr) (s : Setter) (ss : List Setter) :
    runSetters addr (s :: ss) = (s.run addr).bind fun r => runSetters r.2 ss := by
  rw [runSetters, List.map_cons, runCalls_cons, Setter.call_run, Option.bind_map]
  rfl

theorem runSetters_append (addr : I2Addr) (ss ss' : List Setter) :
    runSetters addr (ss ++ ss') = (runSetters addr ss).bind fun addr => runSetters addr ss' := by
  rw [runSetters, List.map_append, runCalls, List.foldlM_append]
  rfl

theorem I2Addr.Fits.run (hfit : addr.Fits) (hfits : SettersFit addr ss) :
    ∃ addr', runSetters addr ss = some addr' := by
  induction ss generalizing addr with
  | nil => exact ⟨addr, rfl⟩
  | cons s ss ih =>
      obtain ⟨r, addr₁, hs, hfit₁⟩ := Setter.run_fits hfit hfits.1
      obtain ⟨addr', hrun⟩ := ih hfit₁ (hfits.2 r addr₁ hs)
      refine ⟨addr', ?_⟩
      rw [runSetters_cons, hs]
      exact hrun

theorem Frozen.run (hfd : 0 ≤ addr.fd) (hkeeps : ∀ s ∈ ss, s.KeepsFD)
    (hrun : runSetters addr ss = some addr') : Frozen addr addr' := by
  induction ss generalizing addr with
  | nil =>
      obtain rfl := Option.some.inj hrun
      exact .refl addr
  | cons s ss ih =>
      rw [runSetters_cons] at hrun
      obtain ⟨⟨r, addr₁⟩, hs, hrest⟩ := Option.bind_eq_some_iff.mp hrun
      have hstep := Setter.run_frozen hfd (hkeeps s List.mem_cons_self) hs
      have hfd₁ : 0 ≤ addr₁.fd := by
        rw [hstep.fd]
        exact hfd
      exact hstep.trans (ih hfd₁ (fun s' hs' => hkeeps s' (List.mem_cons_of_mem s hs')) hrest)

/-- A value that changed on the way does not change once more. -/
theorem once_changed {a b c : ℤ} (h₁ : b = a ∨ a = 0) (h₂ : c = b ∨ b = 0) (hne : b ≠ a) :
    c = b := by
  omega

/-- Every run of setters returns. After it a call that fails changes nothing, and a
record that had a descriptor at the start is as it was, but for a socket type and a
protocol that were 0; each of them has changed once at most. -/
theorem setters_guarded (hfit : addr.Fits) {before after : List Setter}
    (hfits : SettersFit addr (before ++ after)) :
    ∃ mid addr', runSetters addr before = some mid ∧ runSetters mid after = some addr' ∧
      (∀ (s : Setter) addr'', s.run addr' = some (false, addr'') → addr'' = addr') ∧
      (0 ≤ addr.fd → (∀ s ∈ before ++ after, s.KeepsFD) →
        Frozen addr addr' ∧ (mid.so_type ≠ addr.so_type → addr'.so_type = mid.so_type) ∧
          (mid.so_protocol ≠ addr.so_protocol → addr'.so_protocol = mid.so_protocol)) := by
  obtain ⟨addr', hrun⟩ := hfit.run hfits
  rw [runSetters_append] at hrun
  obtain ⟨mid, hbefore, hafter⟩ := Option.bind_eq_some_iff.mp hrun
  refine ⟨mid, addr', hbefore, hafter, fun _ _ => Setter.run_false, fun hfd hkeeps => ?_⟩
  have h₁ := Frozen.run hfd (fun s hs => hkeeps s (List.mem_append_left _ hs)) hbefore
  have hfd' : 0 ≤ mid.fd := by
    rw [h₁.fd]
    exact hfd
  have h₂ := Frozen.run hfd' (fun s hs => hkeeps s (List.mem_append_right _ hs)) hafter
  exact ⟨h₁.trans h₂, once_changed h₁.so_type h₂.so_type,
    once_changed h₁.so_protocol h₂.so_protocol⟩

def openV4 : I2Addr :=
  (i2AddrSetFD (((i2AddrBySAddr emptyHeap loopbackV4 16 1 0).get rfl).get rfl) 5 true).2

theorem setters_guarded_v4 :
    ∃ mid addr', runSetters openV4 [.setPort 443, .setProtocol 6] = some mid ∧
      runSetters mid [.setProtocol 17, .setSAddr (some 2) 16] = some addr' ∧
      Frozen openV4 addr' ∧ mid.so_protocol = 6 ∧ addr'.so_protocol = 6 := by
  have hfit : openV4.Fits := by
    intro q hq
    obtain rfl := Option.some.inj hq
    exact ⟨loopbackV4, rfl, by decide, by decide⟩
  have hfits : SettersFit openV4 ([.setPort 443, .setProtocol 6] ++
      [.setProtocol 17, .setSAddr (some 2) 16]) := by
    refine ⟨trivial, fun _ _ h₁ => ⟨trivial, fun _ _ h₂ => ⟨trivial, fun _ _ h₃ => ⟨?_, ?_⟩⟩⟩⟩
    · obtain ⟨-, rfl⟩ := Prod.mk.inj (Option.some.inj h₁)
      obtain ⟨-, rfl⟩ := Prod.mk.inj (Option.some.inj h₂)
      obtain ⟨-, rfl⟩ := Prod.mk.inj (Option.some.inj h₃)
      exact ⟨loopbackV4, rfl, by decide, by decide⟩
    · exact fun _ _ _ => trivial
  obtain ⟨mid, addr', hmid, haddr', -, hfrozen⟩ := setters_guarded hfit hfits
  have hkeeps : ∀ s ∈ ([.setPort 443, .setProtocol 6] ++
      [.setProtocol 17, .setSAddr (some 2) 16] : List Setter), s.KeepsFD := by
    intro s hs
    simp only [List.cons_append, List.nil_append, List.mem_cons, List.not_mem_nil, or_false] at hs
    rcases hs with rfl | rfl | rfl | rfl <;> trivial
  obtain ⟨hsame, -, honce⟩ := hfrozen (by decide) hkeeps
  have hsix : mid.so_protocol = 6 := by
    obtain rfl := Option.some.inj hmid
    rfl
  have hlast := honce (by rw [hsix]; decide)
  exact ⟨mid, addr', hmid, haddr', hsame, hsix, hlast.trans hsix⟩

end I2util
