import I2util.Addr.Names
import I2util.Addr.PortText

/-!
`I2AddrByNode` against the syntax of its argument: `node:port`, and `[node]:port` with what
is in front of the bracket.
-/

namespace I2util

/-- The argument `s` has the node `host` and the port text `port`. -/
inductive NodePort : List UInt8 → List UInt8 → List UInt8 → Prop
  | bracketed (pre host port) : 91 ∉ pre → 91 ∉ host → 93 ∉ host → 91 ∉ port → 93 ∉ port →
      NodePort (pre ++ 91 :: (host ++ 93 :: 58 :: port)) host port
  | plain (host port) : 91 ∉ host → 58 ∉ host → 91 ∉ port → 58 ∉ port →
      NodePort (host ++ 58 :: port) host port

section Strchr

variable {ends : Bool} {s t : List UInt8} {c : UInt8}

theorem strchr_append (h : c ∉ s) (t : List UInt8) :
    strchr ends (s ++ c :: t) c = some (some (s, t)) := by
  rw [strchr, if_pos (by simp), Scan.takeWhile_ne_append h, Scan.dropWhile_ne_append h]
  rfl

theorem strchr_of_not_mem (h : c ∉ s) : strchr true s c = some none := by
  rw [strchr, if_neg h]
  rfl

/-- A string that does not end in the array must not be read to its end. -/
theorem strchr_false_of_not_mem (h : c ∉ s) : strchr false s c = none := by
  rw [strchr, if_neg h]
  rfl

end Strchr

/-! ### The split -/

namespace i2AddrByNode

variable {s host port : List UInt8}

theorem buff_text (hs : s.length ≤ NI_MAXHOST) : (strncpy s (NI_MAXHOST + 1)).text = s :=
  List.take_of_length_le (Nat.le_succ_of_le hs)

theorem split_bracket {pre s1 : List UInt8} (hs : (pre ++ 91 :: s1).length ≤ NI_MAXHOST)
    (hpre : 91 ∉ pre) :
    split (pre ++ 91 :: s1) =
      (strchr true s1 91).bind fun
        | some _ => some (pre ++ 91 :: s1, none)
        | none =>
            (strchr true s1 93).bind fun
              | none => some (pre ++ 91 :: s1, none)
              | some (host, s2) =>
                  (strchr true s2 93).map fun
                    | some _ => (pre ++ 91 :: s1, none)
                    | none =>
                        match s2 with
                        | 58 :: port => (host, some port)
                        | _ => (pre ++ 91 :: s1, none) := by
  rewrite [split, buff_text hs, decide_eq_true (Nat.lt_succ_of_le hs), strchr_append hpre]
  rfl

theorem split_plain (hs : s.length ≤ NI_MAXHOST) (h91 : 91 ∉ s) :
    split s =
      (strchr true s 58).bind fun
        | none => some (s, none)
        | some (host, s1) =>
            (strchr true s1 58).map fun
              | some _ => (s, none)
              | none => (host, some s1) := by
  rewrite [split, buff_text hs, decide_eq_true (Nat.lt_succ_of_le hs), strchr_of_not_mem h91]
  rfl

theorem split_of_nodePort (h : NodePort s host port) (hs : s.length ≤ NI_MAXHOST) :
    split s = some (host, some port) := by
  cases h with
  | bracketed pre host port hpre hhost hclose hport hport' =>
      have hrest : 91 ∉ host ++ 93 :: 58 :: port := by
        simp [hhost, hport]
      have hend : 93 ∉ 58 :: port := by simp [hport']
      rw [split_bracket hs hpre, strchr_of_not_mem hrest]
      simp only [Option.bind_some, strchr_append hclose, strchr_of_not_mem hend, Option.map_some]
  | plain host port hhost hcolon hport hport' =>
      have hrest : 91 ∉ host ++ 58 :: port := by simp [hhost, hport]
      rw [split_plain hs hrest, strchr_append hcolon]
      simp only [Option.bind_some, strchr_of_not_mem hport', Option.map_some]

/-- The argument is taken whole where it has no port. -/
theorem split_cases (hs : s.length ≤ NI_MAXHOST) :
    split s = some (s, none) ∨
      ∃ host port, NodePort s host port ∧ split s = some (host, some port) := by
  by_cases h91 : 91 ∈ s
  · obtain ⟨pre, s1, rfl, hpre⟩ := List.eq_append_cons_of_mem h91
    rw [split_bracket hs hpre]
    by_cases hagain : 91 ∈ s1
    · obtain ⟨a, b, rfl, ha⟩ := List.eq_append_cons_of_mem hagain
      rw [strchr_append ha]
      exact .inl rfl
    · rw [strchr_of_not_mem hagain, Option.bind_some]
      by_cases hclose : 93 ∈ s1
      · obtain ⟨host, s2, rfl, hhost⟩ := List.eq_append_cons_of_mem hclose
        simp only [strchr_append hhost, Option.bind_some]
        by_cases hclose' : 93 ∈ s2
        · obtain ⟨a, b, rfl, ha⟩ := List.eq_append_cons_of_mem hclose'
          rw [strchr_append ha]
          exact .inl rfl
        · simp only [strchr_of_not_mem hclose', Option.map_some]
          split
          · rename_i port
            rw [List.mem_cons, not_or] at hclose'
            simp only [List.mem_append, List.mem_cons, not_or] at hagain
            exact .inr ⟨host, port,
              .bracketed pre host port hpre hagain.1 hhost hagain.2.2.2 hclose'.2, rfl⟩
          · exact .inl rfl
      · simp only [strchr_of_not_mem hclose, Option.bind_some, true_or]
  · rw [split_plain hs h91]
    by_cases hcolon : 58 ∈ s
    · obtain ⟨host, s1, rfl, hhost⟩ := List.eq_append_cons_of_mem hcolon
      simp only [strchr_append hhost, Option.bind_some]
      by_cases hagain : 58 ∈ s1
      · obtain ⟨a, b, rfl, ha⟩ := List.eq_append_cons_of_mem hagain
        rw [strchr_append ha]
        exact .inl rfl
      · simp only [List.mem_append, List.mem_cons, not_or] at h91
        rw [strchr_of_not_mem hagain]
        exact .inr ⟨host, s1, .plain host s1 h91.1 hhost h91.2.2 hagain, rfl⟩
    · rw [strchr_of_not_mem hcolon]
      exact .inl rfl

/-- A string that does not end in the copy is taken whole if its second bracket is in it. -/
theorem split_long (hs : NI_MAXHOST < s.length) :
    split s = if 2 ≤ (s.take (NI_MAXHOST + 1)).count 91 then some (s, none) else none := by
  have htext : (strncpy s (NI_MAXHOST + 1)).text = s.take (NI_MAXHOST + 1) := rfl
  have hends : ¬(s.take (NI_MAXHOST + 1)).length < NI_MAXHOST + 1 := by
    rw [List.length_take]
    omega
  rw [split]
  simp only [htext, hends, decide_false]
  by_cases h91 : 91 ∈ s.take (NI_MAXHOST + 1)
  · obtain ⟨pre, s1, heq, hpre⟩ := List.eq_append_cons_of_mem h91
    have hcount : (pre ++ 91 :: s1).count 91 = s1.count 91 + 1 := by
      rw [List.count_append, List.count_eq_zero_of_not_mem hpre, List.count_cons_self,
        Nat.zero_add]
    simp only [heq, hcount, strchr_append hpre, Option.bind_some]
    by_cases hagain : 91 ∈ s1
    · have hpos := List.count_pos_iff.mpr hagain
      obtain ⟨a, b, rfl, ha⟩ := List.eq_append_cons_of_mem hagain
      rw [strchr_append ha, if_pos (by omega)]
      rfl
    · rw [strchr_false_of_not_mem hagain, List.count_eq_zero_of_not_mem hagain]
      rfl
  · rw [strchr_false_of_not_mem h91, List.count_eq_zero_of_not_mem h91]
    rfl

end i2AddrByNode

/-! ### The record -/

section Parse

variable {h : Heap UInt8} {s host port nptr : List UInt8} {pptr : Option (List UInt8)}

def byNodeRecord (h : Heap UInt8) (nptr : List UInt8) (pptr : Option (List UInt8)) : I2Addr :=
  ((I2Addr.mk .unset h.permit.2).withNode nptr).withPort (pptr.getD [])

theorem i2AddrByNode_eq (hsplit : i2AddrByNode.split s = some (nptr, pptr)) (h : Heap UInt8) :
    i2AddrByNode h s = some (if h.permit.1 then some (byNodeRecord h nptr pptr) else none) := by
  rw [i2AddrByNode, i2AddrAlloc]
  cases h.permit.1 with
  | true =>
      simp only [if_true, hsplit, Option.map_some]
      rfl
  | false => rfl

/-- What a call of `I2AddrByNode` gives, whether or not there is memory for the record. -/
def ByNode (s : List UInt8) (P : I2Addr → Prop) : Prop :=
  ∀ h, ∃ r, i2AddrByNode h s = some r ∧ (h.permit.1 = true → r ≠ none) ∧
    ∀ addr, r = some addr → P addr

theorem byNode_of_split (hsplit : i2AddrByNode.split s = some (nptr, pptr)) {P : I2Addr → Prop} :
    ByNode s P ↔ ∀ h : Heap UInt8, h.permit.1 = true → P (byNodeRecord h nptr pptr) := by
  constructor
  · intro hby h hpermit
    obtain ⟨r, hr, -, hP⟩ := hby h
    rw [i2AddrByNode_eq hsplit, if_pos hpermit] at hr
    exact hP _ (Option.some.inj hr).symm
  · intro hP h
    refine ⟨_, i2AddrByNode_eq hsplit h, ?_, ?_⟩
    · intro hpermit
      simp [hpermit]
    · intro addr haddr
      split at haddr
      · rename_i hpermit
        exact Option.some.inj haddr ▸ hP h hpermit
      · cases haddr

theorem not_byNode_of_split (hsplit : i2AddrByNode.split s = none) (P : I2Addr → Prop) :
    ¬ByNode s P := by
  intro hby
  obtain ⟨r, hr, -⟩ := hby emptyHeap
  rw [i2AddrByNode, show i2AddrAlloc emptyHeap = some ⟨.unset, emptyHeap.permit.2⟩ from rfl] at hr
  simp only [hsplit, Option.map_none, reduceCtorEq] at hr

theorem byNodeRecord_node (h : Heap UInt8) (nptr : List UInt8) (pptr : Option (List UInt8)) :
    (byNodeRecord h nptr pptr).node_set = decide (nptr ≠ []) ∧
      (byNodeRecord h nptr pptr).node =
        if nptr = [] then strncpy unknown _ else strncpy nptr _ := by
  have hport : ∀ (addr : I2Addr) (pptr : List UInt8),
      (addr.withPort pptr).node_set = addr.node_set ∧ (addr.withPort pptr).node = addr.node :=
    fun addr pptr => by
      rw [I2Addr.withPort]
      split
      · exact ⟨rfl, rfl⟩
      · split <;> exact ⟨rfl, rfl⟩
  rw [byNodeRecord, (hport _ _).1, (hport _ _).2, I2Addr.withNode]
  by_cases hn : nptr = []
  · rw [if_pos hn, if_pos hn, decide_eq_false (not_not.mpr hn)]
    exact ⟨rfl, rfl⟩
  · rw [if_neg hn, if_neg hn, decide_eq_true hn]
    exact ⟨rfl, rfl⟩

theorem byNodeRecord_port (h : Heap UInt8) (nptr : List UInt8) (pptr : Option (List UInt8)) :
    (byNodeRecord h nptr pptr).port_set = (pptr.bind readPort).isSome ∧
      (byNodeRecord h nptr pptr).port_value = (pptr.bind readPort).getD 0 ∧
        (byNodeRecord h nptr pptr).port =
          if (pptr.bind readPort).isSome then strncpy (pptr.getD []) _ else strncpy unknown _ := by
  have hnode : ∀ addr : I2Addr, (addr.withNode nptr).port_set = addr.port_set ∧
      (addr.withNode nptr).port_value = addr.port_value ∧
        (addr.withNode nptr).port = addr.port := fun addr => by
    rw [I2Addr.withNode]
    split <;> exact ⟨rfl, rfl, rfl⟩
  obtain ⟨hset, hvalue, hport⟩ := hnode ⟨.unset, h.permit.2⟩
  cases pptr with
  | none => exact ⟨hset, hvalue, hport⟩
  | some p =>
      rw [byNodeRecord, Option.getD_some, Option.bind_some, I2Addr.withPort]
      by_cases hp : p = []
      · subst hp
        exact ⟨hset, hvalue, hport⟩
      · rw [if_neg hp]
        cases readPort p with
        | none => exact ⟨rfl, rfl, hport⟩
        | some q => exact ⟨rfl, rfl, rfl⟩

end Parse

/-- The arrays of the record hold strings that end in them. -/
def I2AddrRec.Ended (addr : I2AddrRec) : Prop :=
  addr.node.text.length < NI_MAXHOST + 1 ∧ addr.port.text.length < NI_MAXSERV + 1

theorem byNodeRecord_ended {h : Heap UInt8} {nptr : List UInt8} {pptr : Option (List UInt8)}
    (hn : nptr.length ≤ NI_MAXHOST) :
    (byNodeRecord h nptr pptr).Ended ↔
      ∀ port, pptr = some port → (readPort port).isSome = true → port.length ≤ NI_MAXSERV := by
  have hnode : (byNodeRecord h nptr pptr).node.text.length < NI_MAXHOST + 1 := by
    rw [(byNodeRecord_node h nptr pptr).2]
    split
    · exact show (unknown.take (NI_MAXHOST + 1)).length < _ by decide
    · show (nptr.take (NI_MAXHOST + 1)).length < NI_MAXHOST + 1
      rw [List.length_take]
      omega
  obtain ⟨-, -, hport⟩ := byNodeRecord_port h nptr pptr
  constructor
  · rintro ⟨-, hend⟩ port rfl haccepted
    rw [hport, Option.bind_some, if_pos haccepted] at hend
    change (port.take (NI_MAXSERV + 1)).length < NI_MAXSERV + 1 at hend
    rw [List.length_take] at hend
    omega
  · intro hshort
    refine ⟨hnode, ?_⟩
    rw [hport]
    split
    · rename_i haccepted
      cases pptr with
      | none => cases haccepted
      | some port =>
          have hlen := hshort port rfl haccepted
          show (port.take (NI_MAXSERV + 1)).length < NI_MAXSERV + 1
          rw [List.length_take]
          omega
    · exact show (unknown.take (NI_MAXSERV + 1)).length < _ by decide

section Syntax

variable {s host port host' port' : List UInt8}

theorem NodePort.length_lt (h : NodePort s host port) : host.length + port.length < s.length := by
  cases h with
  | bracketed pre =>
      simp only [List.length_append, List.length_cons]
      omega
  | plain =>
      simp only [List.length_append, List.length_cons]
      omega

theorem NodePort.count_le (h : NodePort s host port) : s.count 91 ≤ 1 := by
  cases h with
  | bracketed pre host port hpre hhost hclose hport hport' =>
      simp [List.count_eq_zero_of_not_mem, hpre, hhost, hport]
  | plain host port hhost hcolon hport hport' =>
      simp [List.count_eq_zero_of_not_mem, hhost, hport]

theorem NodePort.unique (hs : s.length ≤ NI_MAXHOST) (h : NodePort s host port)
    (h' : NodePort s host' port') : host = host' ∧ port = port' := by
  have heq := (i2AddrByNode.split_of_nodePort h hs).symm.trans
    (i2AddrByNode.split_of_nodePort h' hs)
  exact ⟨congrArg Prod.fst (Option.some.inj heq),
    Option.some.inj (congrArg Prod.snd (Option.some.inj heq))⟩

end Syntax

/-- The scans and both arrays stay in bounds for the strings that fit, unless an accepted
port does not. -/
theorem byNodeEnded_iff (s : List UInt8) :
    ByNode s (fun addr => addr.Ended) ↔ s.length ≤ NI_MAXHOST ∧
      ∀ host port, NodePort s host port → (readPort port).isSome = true →
        port.length ≤ NI_MAXSERV := by
  by_cases hs : s.length ≤ NI_MAXHOST
  · rcases i2AddrByNode.split_cases hs with hwhole | ⟨host, port, hport, hsplit⟩
    · rw [byNode_of_split hwhole]
      have hended : ∀ h : Heap UInt8, (byNodeRecord h s none).Ended := fun h =>
        (byNodeRecord_ended hs).mpr nofun
      refine ⟨fun _ => ⟨hs, fun host port hport => ?_⟩, fun _ h _ => hended h⟩
      have hsplit := i2AddrByNode.split_of_nodePort hport hs
      rw [hwhole] at hsplit
      cases hsplit
    · have hhost : host.length ≤ NI_MAXHOST := by
        have hlen := hport.length_lt
        omega
      rw [byNode_of_split hsplit]
      constructor
      · intro hended
        refine ⟨hs, fun host' port' hport' haccepted => ?_⟩
        obtain ⟨-, rfl⟩ := hport.unique hs hport'
        exact (byNodeRecord_ended hhost).mp (hended emptyHeap rfl) port rfl haccepted
      · rintro ⟨-, hshort⟩ h -
        exact (byNodeRecord_ended hhost).mpr fun port' hsame =>
          hshort host port' (Option.some.inj hsame ▸ hport)
  · refine ⟨fun hby => ?_, fun hcond => absurd hcond.1 hs⟩
    exfalso
    -- either a scan runs past the copy, or the node fills its array
    have hlong := i2AddrByNode.split_long (Nat.lt_of_not_le hs)
    split at hlong
    · have hnode := ((byNode_of_split hlong).mp hby emptyHeap rfl).1
      have hne : s ≠ [] := fun hnil => hs (by rw [hnil]; exact Nat.zero_le _)
      rw [(byNodeRecord_node emptyHeap s none).2, if_neg hne] at hnode
      change (s.take (NI_MAXHOST + 1)).length < NI_MAXHOST + 1 at hnode
      rw [List.length_take] at hnode
      omega
    · exact not_byNode_of_split hlong _ hby

/-- A port of 33 digits fills its array, and a string of 1026 characters the local copy. -/
theorem byNode_not_ended :
    ¬ByNode (ascii "h:" ++ List.replicate 33 48) (fun addr => addr.Ended) ∧
      ¬ByNode (List.replicate 1026 97) (fun addr => addr.Ended) := by
  constructor
  · intro hby
    obtain ⟨r, hr, -, hended⟩ := hby emptyHeap
    obtain rfl := Option.some.inj hr
    exact absurd (hended _ rfl).2 (by decide)
  · refine not_byNode_of_split ?_ _
    rw [i2AddrByNode.split_long (by rw [List.length_replicate]; decide), List.take_replicate,
      List.count_replicate]
    rfl

/-! ### The number of the port -/

/-- The port of the record is the whole port text, read as a numeral. -/
def I2AddrRec.PortOf (addr : I2AddrRec) (s : List UInt8) : Prop :=
  (addr.port_set = true → ∃ host port, NodePort s host port ∧ numeral port = some addr.port_value) ∧
    ∀ host port, NodePort s host port → numeral port = none → addr.port_set = false

def Scanned (s : List UInt8) : Prop :=
  s.length ≤ NI_MAXHOST ∨ 2 ≤ (s.take (NI_MAXHOST + 1)).count 91

theorem byNodeRecord_portOf_none (hno : ∀ host port, ¬NodePort s host port) (h : Heap UInt8)
    (nptr : List UInt8) : (byNodeRecord h nptr none).PortOf s := by
  have hset := (byNodeRecord_port h nptr none).1
  exact ⟨fun hport => Bool.noConfusion (hset.symm.trans hport),
    fun host port hport => absurd hport (hno host port)⟩

/-- A number at the beginning of the port text is taken for the port. -/
theorem byNodeRecord_portOf_iff (hs : s.length ≤ NI_MAXHOST) (hport : NodePort s host port)
    (h : Heap UInt8) :
    (byNodeRecord h host (some port)).PortOf s ↔
      ∀ v, LeadingNumber port v → 0 ≤ asInt v → asInt v ≤ 0xffff →
        (numeral port).isSome = true := by
  obtain ⟨hset, hvalue, -⟩ := byNodeRecord_port h host (some port)
  rw [Option.bind_some] at hset hvalue
  constructor
  · intro hof v hv hlow hhigh
    by_contra hnum
    have hunset := hof.2 host port hport (Option.not_isSome_iff_eq_none.mp hnum)
    have haccepted := readPort_eq_some_iff.mpr ⟨v, hv, hlow, hhigh, rfl⟩
    rw [hset, haccepted] at hunset
    cases hunset
  · intro hnum
    cases hread : readPort port with
    | none =>
        rw [hread] at hset
        exact ⟨fun hport => Bool.noConfusion (hset.symm.trans hport), fun _ _ _ _ => hset⟩
    | some p =>
        obtain ⟨v, hv, hlow, hhigh, -⟩ := readPort_eq_some_iff.mp hread
        obtain ⟨q, hq⟩ := Option.isSome_iff_exists.mp (hnum v hv hlow hhigh)
        obtain rfl : p = q := Option.some.inj (hread.symm.trans (readPort_numeral hq))
        rw [hread] at hvalue
        refine ⟨fun _ => ⟨host, port, hport, hq.trans (congrArg some hvalue.symm)⟩, ?_⟩
        intro host' port' hport' hnone
        obtain ⟨-, rfl⟩ := hport.unique hs hport'
        rw [hq] at hnone
        cases hnone

theorem byNodePort_iff (s : List UInt8) :
    ByNode s (fun addr => addr.PortOf s) ↔ Scanned s ∧
      ∀ host port v, NodePort s host port → LeadingNumber port v →
        0 ≤ asInt v → asInt v ≤ 0xffff → (numeral port).isSome = true := by
  by_cases hs : s.length ≤ NI_MAXHOST
  · rcases i2AddrByNode.split_cases hs with hsplit | ⟨host, port, hport, hsplit⟩
    · have hno : ∀ host port, ¬NodePort s host port := fun host port hport => by
        rw [i2AddrByNode.split_of_nodePort hport hs] at hsplit
        cases hsplit
      rw [byNode_of_split hsplit]
      exact ⟨fun _ => ⟨.inl hs, fun host port v hport => absurd hport (hno host port)⟩,
        fun _ h _ => byNodeRecord_portOf_none hno h s⟩
    · rw [byNode_of_split hsplit]
      constructor
      · intro hread
        refine ⟨.inl hs, fun host' port' v hport' => ?_⟩
        obtain ⟨-, rfl⟩ := hport.unique hs hport'
        exact (byNodeRecord_portOf_iff hs hport emptyHeap).mp (hread emptyHeap rfl) v
      · rintro ⟨-, hnum⟩ h -
        exact (byNodeRecord_portOf_iff hs hport h).mpr fun v => hnum host port v hport
  · have hlong := i2AddrByNode.split_long (Nat.lt_of_not_le hs)
    split at hlong
    · rename_i hbrackets
      have hno : ∀ host port, ¬NodePort s host port := fun host port hport => by
        have hone := ((List.take_sublist (NI_MAXHOST + 1) s).count_le 91).trans hport.count_le
        omega
      rw [byNode_of_split hlong]
      exact ⟨fun _ => ⟨.inr hbrackets, fun host port v hport => absurd hport (hno host port)⟩,
        fun _ h _ => byNodeRecord_portOf_none hno h s⟩
    · rename_i hbrackets
      exact ⟨fun hby => absurd hby (not_byNode_of_split hlong _),
        fun hcond => absurd hcond.1 (not_or.mpr ⟨hs, hbrackets⟩)⟩

/-- Trailing characters, a sign and a number beyond 32 bits are read as ports. -/
theorem byNode_not_numeral :
    ¬ByNode (ascii "h:80x") (fun addr => addr.PortOf (ascii "h:80x")) ∧
      ¬ByNode (ascii "h:+80") (fun addr => addr.PortOf (ascii "h:+80")) ∧
        ¬ByNode (ascii "h:4294967376") (fun addr => addr.PortOf (ascii "h:4294967376")) := by
  have hread : ∀ port : List UInt8, NodePort (ascii "h:" ++ port) (ascii "h") port →
      numeral port = none → ((i2AddrByNode emptyHeap (ascii "h:" ++ port)).bind id).elim false
        (fun addr => addr.port_set) = true →
      ¬ByNode (ascii "h:" ++ port) (fun addr => addr.PortOf (ascii "h:" ++ port)) :=
    fun port hport hnum hset hby => by
      obtain ⟨r, hr, hsome, hP⟩ := hby emptyHeap
      obtain ⟨addr, rfl⟩ := Option.ne_none_iff_exists'.mp (hsome rfl)
      rw [hr] at hset
      exact Bool.noConfusion (((hP addr rfl).2 _ _ hport hnum).symm.trans hset)
  refine ⟨hread (ascii "80x") ?_ (by decide) (by decide),
    hread (ascii "+80") ?_ (by decide) (by decide),
    hread (ascii "4294967376") ?_ (by decide) (by decide)⟩
  all_goals exact .plain (ascii "h") _ (by decide) (by decide) (by decide) (by decide)

/-! ### Names that are read back -/

structure I2AddrRec.HasNode (addr : I2AddrRec) (host : List UInt8) : Prop where
  set : addr.node_set = true
  text : addr.node.text = host

structure I2AddrRec.HasPort (addr : I2AddrRec) (p : UInt16) : Prop where
  set : addr.port_set = true
  value : addr.port_value = p

section ReadBack

variable {s host port : List UInt8}

theorem byNodeRecord_hasNode (h : Heap UInt8) (pptr : Option (List UInt8)) (hhost : host ≠ [])
    (hlen : host.length ≤ NI_MAXHOST) : (byNodeRecord h host pptr).HasNode host := by
  obtain ⟨hset, hnode⟩ := byNodeRecord_node h host pptr
  constructor
  · rw [hset]
    exact decide_eq_true hhost
  · rw [hnode, if_neg hhost]
    exact i2AddrByNode.buff_text hlen

/-- A node and a numeral behind it. -/
theorem byNode_of_nodePort {p : UInt16} (hport : NodePort s host (decimal p.toNat))
    (hs : s.length ≤ NI_MAXHOST) (hhost : host ≠ []) :
    ByNode s fun addr => addr.HasNode host ∧ addr.HasPort p := by
  have hlen : host.length ≤ NI_MAXHOST := by
    have hlt := hport.length_lt
    omega
  rw [byNode_of_split (i2AddrByNode.split_of_nodePort hport hs)]
  intro h _
  obtain ⟨hset, hvalue, -⟩ := byNodeRecord_port h host (some (decimal p.toNat))
  rw [Option.bind_some, readPort_numeral (numeral_decimal p)] at hset hvalue
  exact ⟨byNodeRecord_hasNode h _ hhost hlen, hset, hvalue⟩

/-- A string that is taken whole. -/
theorem byNode_of_whole (hno : ∀ host port, ¬NodePort s host port) (hs : s.length ≤ NI_MAXHOST)
    (hne : s ≠ []) : ByNode s fun addr => addr.HasNode s ∧ addr.port_set = false := by
  rcases i2AddrByNode.split_cases hs with hsplit | ⟨host, port, hport, -⟩
  · rw [byNode_of_split hsplit]
    exact fun h _ => ⟨byNodeRecord_hasNode h none hne hs, (byNodeRecord_port h s none).1⟩
  · exact absurd hport (hno host port)

theorem not_mem_decimal {c : UInt8} (hc : isdigit c = false) (n : ℕ) : c ∉ decimal n := fun h =>
  Bool.noConfusion (hc.symm.trans (List.all_eq_true.mp (decimal_digits n) c h))

/-- Without a bracket a port needs exactly one colon. -/
theorem NodePort.count_colon (hport : NodePort s host port) (h91 : 91 ∉ s) : s.count 58 = 1 := by
  cases hport with
  | bracketed pre => exact absurd (by simp) h91
  | plain host port hhost hcolon hport hport' =>
      simp [List.count_eq_zero_of_not_mem, hcolon, hport']

theorem nodePort_nodeServ (p : UInt16) (h91 : 91 ∉ host) (h93 : 93 ∉ host) :
    NodePort (nodeServ host (decimal p.toNat)) host (decimal p.toNat) := by
  have heq : nodeServ host (decimal p.toNat) =
      [] ++ 91 :: (host ++ 93 :: 58 :: decimal p.toNat) := by
    show [91] ++ host ++ [93, 58] ++ decimal p.toNat = _
    simp
  rw [heq]
  exact .bracketed [] host _ List.not_mem_nil h91 h93 (not_mem_decimal (by decide) _)
    (not_mem_decimal (by decide) _)

end ReadBack

/-- Both syntaxes, and the way back from the name that is printed. -/
theorem byNode_reads_names :
    (∀ (host : List UInt8) (p : UInt16), host ≠ [] → 91 ∉ host → 93 ∉ host → 58 ∉ host →
      (host ++ 58 :: decimal p.toNat).length ≤ NI_MAXHOST →
      ByNode (host ++ 58 :: decimal p.toNat) fun addr => addr.HasNode host ∧ addr.HasPort p) ∧
    (∀ host : List UInt8, host ≠ [] → 91 ∉ host → 93 ∉ host → 58 ∉ host →
      host.length ≤ NI_MAXHOST →
      ByNode host fun addr => addr.HasNode host ∧ addr.port_set = false) ∧
    (∀ (host : List UInt8) (p : UInt16), host ≠ [] → 91 ∉ host → 93 ∉ host →
      (nodeServ host (decimal p.toNat)).length ≤ NI_MAXHOST →
      ByNode (nodeServ host (decimal p.toNat)) fun addr =>
        addr.HasNode host ∧ addr.HasPort p) ∧
    (∀ s : List UInt8, 91 ∉ s → 93 ∉ s → 2 ≤ s.count 58 → s.length ≤ NI_MAXHOST →
      ByNode s fun addr => addr.HasNode s ∧ addr.port_set = false) ∧
    (∀ (env : Resolver) (addr : I2Addr) (buf : List UInt8), addr.Strings →
      addr.node_set = true → addr.port_set = true → addr.node.text ≠ [] →
      91 ∉ addr.node.text → 93 ∉ addr.node.text →
      addr.port.text = decimal addr.port_value.toNat →
      (nodeServ addr.node.text addr.port.text).length ≤ NI_MAXHOST →
      (nodeServ addr.node.text addr.port.text).length < buf.length →
      ∃ r, i2AddrNodeServName env addr buf buf.length = some (r, addr) ∧ r.ret = true ∧
        ByNode (cstr r.buf) fun addr' =>
          addr'.HasNode addr.node.text ∧ addr'.HasPort addr.port_value) := by
  refine ⟨fun host p hne h91 h93 h58 hlen => ?_, fun host hne h91 h93 h58 hlen => ?_,
    fun host p hne h91 h93 hlen => ?_, fun s h91 h93 h58 hlen => ?_,
    fun env addr buf hs hnode hport hne h91 h93 hnum hlen hroom => ?_⟩
  · exact byNode_of_nodePort (.plain host _ h91 h58 (not_mem_decimal (by decide) _)
      (not_mem_decimal (by decide) _)) hlen hne
  · refine byNode_of_whole (fun host' port hport => ?_) hlen hne
    have hcount := hport.count_colon h91
    rw [List.count_eq_zero_of_not_mem h58] at hcount
    cases hcount
  · exact byNode_of_nodePort (nodePort_nodeServ p h91 h93) hlen hne
  · refine byNode_of_whole (fun host' port hport => ?_) hlen ?_
    · have hcount := hport.count_colon h91
      omega
    · rintro rfl
      exact absurd h58 (by decide)
  · have htotal := nodeServ_length addr.node.text addr.port.text
    have hdigits : addr.port.text.length < NI_MAXSERV + 1 := by
      have hvalue := addr.port_value.toNat_lt
      have hfive : (Nat.toDigits 10 addr.port_value.toNat).length ≤ 5 :=
        (Nat.length_toDigits_le_iff (by decide) (by decide)).mpr (by omega)
      rw [hnum, decimal, List.length_map]
      exact hfive.trans_lt (by decide)
    have hfits : addr.NodeServFits buf.length := ⟨by omega, hdigits, by omega⟩
    obtain ⟨tail, hr⟩ := i2AddrNodeServName_fits env hs hnode hport rfl hfits
    refine ⟨_, hr, rfl, ?_⟩
    rw [cstr_append_nul (nodeServ_no_nul hs)]
    rw [hnum] at hlen ⊢
    exact byNode_of_nodePort (nodePort_nodeServ addr.port_value h91 h93) hlen hne

theorem byNode_reads_names_host :
    ByNode (ascii "host:80") (fun addr => addr.HasNode (ascii "host") ∧ addr.HasPort 80) ∧
      ∃ r, i2AddrNodeServName oneAddress (namedRecord (ascii "::1") (ascii "80") 80)
          (List.replicate 9 1) 9 = some (r, namedRecord (ascii "::1") (ascii "80") 80) ∧
        r.ret = true ∧ ByNode (cstr r.buf) fun addr =>
          addr.HasNode (ascii "::1") ∧ addr.HasPort 80 := by
  obtain ⟨hplain, -, -, -, hprinted⟩ := byNode_reads_names
  refine ⟨hplain (ascii "host") 80 (by decide) (by decide) (by decide) (by decide) (by decide), ?_⟩
  exact hprinted oneAddress (namedRecord (ascii "::1") (ascii "80") 80) (List.replicate 9 1)
    (namedRecord_strings (by decide) (by decide) 80) rfl rfl (by decide) (by decide) (by decide)
    (by decide) (by decide) (by decide)

end I2util
