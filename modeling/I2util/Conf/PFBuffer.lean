import I2util.Conf.LineBuffer
import I2util.Conf.PFLines

/-!
`I2ParsePFFile` with its buffer: the pass-phrase is decoded behind the line, into the same
block.

The functions here do what those without a buffer do. The block holds the identity with
its NUL, what is left of the line, and then the decoded bytes.
-/

namespace I2util

namespace Buffered

def i2HexDecode.loop : ℕ → Lbuf → ℕ → ℕ → Bool × Lbuf
  | 0, lbuf, _, _ => (true, lbuf)
  | n + 1, lbuf, buff, bytes =>
      match decodeByte (strAt lbuf buff) with
      | none => (false, lbuf)
      | some (byte, rest) =>
          i2HexDecode.loop n (lbuf.put bytes byte)
            (buff + ((strAt lbuf buff).length - rest.length)) (bytes + 1)

/-- The index is an `unsigned int`. It never reaches a greater number of bytes, so the loop
does not end unless a character is refused. -/
def i2HexDecode (lbuf : Lbuf) (buff bytes nbytes : ℕ) : Option (Bool × Lbuf) :=
  let r := i2HexDecode.loop nbytes lbuf buff bytes
  if r.1 = true ∧ 4294967296 ≤ nbytes then none else some r

/-- The white space behind the digits is overwritten. -/
def eatTrailing : ℕ → Lbuf → ℕ → ℕ × Lbuf
  | 0, lbuf, ts => (ts, lbuf)
  | n + 1, lbuf, ts =>
      if isspace (lbuf.cells.getD ts 0) = true then eatTrailing n (lbuf.put ts 0) (ts + 1)
      else (ts, lbuf)

/-- `*id_ret` and `*pf_ret`, as distances from `*lbuf`, and `*pf_len`. -/
structure PFRet where
  id_ret : ℕ
  pf_ret : ℕ
  pf_len : ℕ
  deriving DecidableEq

/-- What the body of the loop does with the line in the buffer. -/
inductive LineVerdict
  | reject (err : Option ErrMsg)
  | skip
  | hit (ret : PFRet)

/-- The body of the loop of `I2ParsePFFile`; `none` if it does not end. -/
def pfLine (a : Growing.Realloc UInt8) (id_query : Option (List UInt8)) (lbuf : Lbuf) :
    Option (LineVerdict × Lbuf) :=
  let line := strAt lbuf 0
  let id_len := strcspn line
  if startsSpace (line.drop id_len) = false then some (.reject none, lbuf)
  else if pfSkips id_query line = true then some (.skip, lbuf)
  else
    -- the identity is terminated, and the digits begin behind the white space
    let lbuf := lbuf.put id_len 0
    let hex := id_len + 1 + ((strAt lbuf (id_len + 1)).takeWhile isspace).length
    let hex_len := strcspn (strAt lbuf hex)
    let (ts, lbuf) := eatTrailing lbuf.cells.length lbuf (hex + hex_len)
    if hex_len = 0 ∨ hex_len % 2 ≠ 0 ∨ lbuf.cells.getD ts 0 ≠ 0 then some (.reject none, lbuf)
    else
      -- the bytes go behind the NUL of the whole line
      let used := ts + 1
      let needed := hex_len / 2
      match lbuf.grow a I2LINEBUFINC (used + needed) with
      | (false, lbuf) => some (.reject (some (.realloc lbuf.max)), lbuf)
      | (true, lbuf) =>
          match i2HexDecode lbuf hex used needed with
          | none => none
          | some (false, lbuf) => some (.reject (some (.msg .invalidKeyNotHex)), lbuf)
          | some (true, lbuf) => some (.hit ⟨0, used, needed⟩, lbuf)

structure ReadState where
  rc : ℤ
  fp : List UInt8
  out : List UInt8
  lbuf : Lbuf

structure PFRead where
  rc : ℤ
  ret : Option PFRet
  rest : List UInt8
  out : List UInt8
  err : Option ErrMsg
  lbuf : Lbuf

def i2ParsePFFile.body (a : Growing.Realloc UInt8) (id_query : Option (List UInt8))
    (st : ReadState) : ReadState ⊕ Option PFRead :=
  let r := parsefileline a st.lbuf st.fp st.rc
  let out := st.out ++ r.out
  if 0 < r.rc then
    match pfLine a id_query r.lbuf with
    | none => .inr none
    | some (.reject err, lbuf) => .inr (some ⟨-r.rc, none, r.rest, out, err, lbuf⟩)
    | some (.skip, lbuf) => .inl ⟨r.rc, r.rest, out ++ strAt lbuf 0 ++ [nl], lbuf⟩
    | some (.hit ret, lbuf) => .inr (some ⟨r.rc, some ret, r.rest, out, none, lbuf⟩)
  else .inr (some ⟨r.rc, none, r.rest, out, r.err, r.lbuf⟩)

def i2ParsePFFile (a : Growing.Realloc UInt8) (filep : Option (List UInt8)) (rc : ℤ)
    (id_query : Option (List UInt8)) (lbuf : Lbuf) : Option PFRead :=
  match filep with
  | none => some ⟨0, none, [], [], none, lbuf⟩
  | some filep =>
      (Loop.whileLoop (i2ParsePFFile.body a id_query) (fun st => st.fp.length)
        ⟨rc, filep, [], lbuf⟩).join

/-- The string at `*id_ret` and the bytes at `*pf_ret`. -/
def PFRead.found (r : PFRead) : Option (List UInt8 × List UInt8) :=
  r.ret.map fun ret =>
    (strAt r.lbuf ret.id_ret, (r.lbuf.cells.drop ret.pf_ret).take ret.pf_len)

/-- The results stand in the buffer: the identity at its start, with a NUL, and behind it
the bytes. -/
structure PFRet.Holds (ret : PFRet) (lbuf : Lbuf) (id pf : List UInt8) : Prop where
  sound : lbuf.Sound
  id_ret : ret.id_ret = 0
  no_nul : (0 : UInt8) ∉ id
  identity : id ++ [0] <+: lbuf.cells
  disjoint : id.length + 1 ≤ ret.pf_ret
  pf_len : ret.pf_len = pf.length
  bytes : (lbuf.cells.drop ret.pf_ret).take ret.pf_len = pf
  fits : ret.pf_ret + ret.pf_len ≤ lbuf.max

variable {a : Growing.Realloc UInt8} {lbuf : Lbuf}

theorem eatTrailing_eq {x trail y : List UInt8} (h : lbuf.Starts (x ++ (trail ++ y)))
    (htrail : ∀ c ∈ trail, isspace c = true) (hy : y ≠ [] ∧ Scan.Stops isspace y) {n : ℕ}
    (hn : trail.length < n) :
    ∃ lbuf', eatTrailing n lbuf x.length = (x.length + trail.length, lbuf') ∧
      lbuf'.Starts (x ++ (List.replicate trail.length 0 ++ y)) := by
  induction trail generalizing n x lbuf with
  | nil =>
      cases n with
      | zero => exact absurd hn (Nat.not_lt_zero _)
      | succ n =>
          obtain ⟨c, y, rfl⟩ := List.exists_cons_of_ne_nil hy.1
          have hc : isspace c = false := by simpa using hy.2
          refine ⟨lbuf, ?_, h⟩
          rw [List.nil_append] at h
          rw [eatTrailing, h.getD, if_neg (by simp [hc])]
          rfl
  | cons c trail ih =>
      cases n with
      | zero => exact absurd hn (Nat.not_lt_zero _)
      | succ n =>
          have hc := htrail c List.mem_cons_self
          rw [List.cons_append] at h
          have hput := h.set (0 : UInt8)
          rw [List.append_cons] at hput
          obtain ⟨lbuf', heat, hstarts⟩ := ih hput
            (fun d hd => htrail d (List.mem_cons_of_mem c hd)) (Nat.lt_of_succ_lt_succ hn)
          rw [List.length_append, List.length_singleton] at heat
          refine ⟨lbuf', ?_, ?_⟩
          · rw [eatTrailing, h.getD, if_pos hc, heat, List.length_cons, Nat.add_assoc,
              Nat.add_comm 1]
          · simpa [List.replicate_succ] using hstarts

theorem decodeByte_rest {c d byte : UInt8} {s rest : List UInt8}
    (h : decodeByte (c :: d :: s) = some (byte, rest)) : rest = s := by
  simp only [decodeByte, Option.bind_eq_some_iff, Option.map_eq_some_iff, Prod.mk.injEq] at h
  obtain ⟨-, -, -, -, -, hrest⟩ := h
  exact hrest.symm

/-- The bytes are written behind the text, while the digits in it are read. -/
theorem i2HexDecode.loop_eq {n : ℕ} {x digits y : List UInt8}
    (h : lbuf.Starts (x ++ (digits ++ 0 :: y))) (hdigits : (0 : UInt8) ∉ digits)
    (hlen : digits.length = 2 * n) (hroom : (x ++ (digits ++ 0 :: y)).length + n ≤ lbuf.max) :
    ∃ lbuf', i2HexDecode.loop n lbuf x.length (x ++ (digits ++ 0 :: y)).length =
        ((I2util.i2HexDecode digits n).isSome, lbuf') ∧ lbuf'.Sound ∧
      ∀ pf, I2util.i2HexDecode digits n = some pf →
        lbuf'.Starts (x ++ (digits ++ 0 :: y) ++ pf) := by
  induction n generalizing lbuf x digits y with
  | zero =>
      refine ⟨lbuf, rfl, h.sound, ?_⟩
      rintro pf hpf
      cases hpf
      rwa [List.append_nil]
  | succ n ih =>
      obtain ⟨c, d, digits, rfl⟩ : ∃ c d ds, digits = c :: d :: ds := by
        match digits, hlen with
        | c :: d :: ds, _ => exact ⟨c, d, ds, rfl⟩
        | [c], hlen => simp at hlen; omega
      have hstr := strAt_of_starts h hdigits
      rw [i2HexDecode.loop, hstr, I2util.i2HexDecode]
      cases hbyte : decodeByte (c :: d :: digits) with
      | none =>
          refine ⟨lbuf, rfl, h.sound, ?_⟩
          rintro pf hpf
          cases hpf
      | some p =>
          obtain ⟨byte, rest⟩ := p
          obtain rfl := decodeByte_rest hbyte
          -- the byte is behind the text, and two digits are read
          have hpush := h.push (by omega) byte
          have hsplit : x ++ (c :: d :: rest ++ 0 :: y) ++ [byte] =
              (x ++ [c, d]) ++ (rest ++ 0 :: (y ++ [byte])) := by simp
          have hlength := congrArg List.length hsplit
          rw [List.length_append, List.length_singleton] at hlength
          rw [hsplit] at hpush
          simp only [List.mem_cons, not_or] at hdigits
          simp only [List.length_cons] at hlen
          obtain ⟨lbuf', hloop, hsound, hstarts⟩ := ih hpush hdigits.2.2 (by omega)
            (by rw [Growing.Block.put_max, ← hlength]; omega)
          have hbuff : x.length + ((c :: d :: rest).length - rest.length) =
              (x ++ [c, d]).length := by
            simp only [List.length_append, List.length_cons, List.length_nil]
            omega
          refine ⟨lbuf', ?_, hsound, ?_⟩
          · simp only [Option.bind_some, Option.isSome_map, hbuff, hlength]
            exact hloop
          · intro pf hpf
            obtain ⟨bytes, hbytes, rfl⟩ := Option.map_eq_some_iff.mp hpf
            have hend := hstarts bytes hbytes
            rw [← hsplit, List.append_assoc] at hend
            exact hend

end Buffered

/-! ### The body of the loop -/

namespace PFParts

open Buffered (eatTrailing)

variable {a : Growing.Realloc UInt8} {lbuf : Lbuf} (p : PFParts)

/-- `hex`, `ts` and the text in front of the terminating NUL, once the line is taken apart. -/
def hex : ℕ := p.id.length + 1 + p.sep.length

def ts : ℕ := p.hex + p.digits.length + p.trail.length

def behind : List UInt8 := p.sep ++ (p.digits ++ (p.trail ++ p.rest))

variable {p}

theorem no_nul (hline : (0 : UInt8) ∉ p.line) :
    (0 : UInt8) ∉ p.id ∧ (0 : UInt8) ∉ p.behind := by
  simp only [line, List.mem_append, List.mem_cons, not_or] at hline
  simp only [behind, List.mem_append, not_or]
  exact ⟨hline.1, hline.2.2⟩

theorem starts_put (h : lbuf.Starts (p.line ++ [0])) :
    (lbuf.put p.id.length 0).Starts (p.id ++ 0 :: (p.behind ++ [0])) := by
  rw [line, List.append_assoc] at h
  exact h.set 0

theorem strAt_behind (h : lbuf.Starts (p.id ++ 0 :: (p.behind ++ [0])))
    (hline : (0 : UInt8) ∉ p.line) :
    strAt lbuf (p.id.length + 1) = p.behind ∧
      strAt lbuf p.hex = p.digits ++ (p.trail ++ p.rest) := by
  have hbehind := (p.no_nul hline).2
  constructor
  · have hstr : lbuf.Starts ((p.id ++ [0]) ++ (p.behind ++ 0 :: [])) := by
      rwa [List.append_assoc]
    have hat := strAt_of_starts hstr hbehind
    rwa [List.length_append, List.length_singleton] at hat
  · have hstr : lbuf.Starts
        ((p.id ++ 0 :: p.sep) ++ ((p.digits ++ (p.trail ++ p.rest)) ++ 0 :: [])) := by
      rw [behind, List.append_assoc] at h
      rwa [List.append_assoc]
    have hno : (0 : UInt8) ∉ p.digits ++ (p.trail ++ p.rest) := fun hmem =>
      hbehind (List.mem_append_right _ hmem)
    have hat := strAt_of_starts hstr hno
    rwa [List.length_append, List.length_cons, Nat.add_comm p.sep.length, ← Nat.add_assoc] at hat

theorem eatTrailing_starts (h : lbuf.Starts (p.id ++ 0 :: (p.behind ++ [0]))) :
    ∃ lbuf', eatTrailing lbuf.cells.length lbuf (p.hex + p.digits.length) = (p.ts, lbuf') ∧
      lbuf'.Starts ((p.id ++ 0 :: p.sep) ++ p.digits ++
        (List.replicate p.trail.length 0 ++ (p.rest ++ [0]))) := by
  have hsplit : p.id ++ 0 :: (p.behind ++ [0]) =
      ((p.id ++ 0 :: p.sep) ++ p.digits) ++ (p.trail ++ (p.rest ++ [0])) := by
    simp [behind]
  have hfits := h.isPrefix.length_le
  rw [hsplit] at h hfits
  simp only [List.length_append, List.length_singleton] at hfits
  have hstops : Scan.Stops isspace (p.rest ++ [0]) := by
    have hrest := p.rest_stops
    cases hcons : p.rest with
    | nil => simp
    | cons c rest =>
        rw [hcons] at hrest
        simpa using hrest
  obtain ⟨lbuf', heat, hstarts⟩ := Buffered.eatTrailing_eq h p.trail_isspace ⟨by simp, hstops⟩
    (show p.trail.length < lbuf.cells.length by omega)
  have hhex : ((p.id ++ 0 :: p.sep) ++ p.digits).length = p.hex + p.digits.length := by
    simp only [hex, List.length_append, List.length_cons]
    omega
  rw [hhex] at heat
  exact ⟨lbuf', heat, hstarts⟩

theorem ts_eq : p.ts = ((p.id ++ 0 :: p.sep) ++ p.digits ++
    List.replicate p.trail.length (0 : UInt8)).length := by
  simp only [ts, hex, List.length_append, List.length_cons, List.length_replicate]
  omega

/-- The cell at `ts` ends the text if nothing stands behind the white space. -/
theorem getD_ts (h : lbuf.Starts ((p.id ++ 0 :: p.sep) ++ p.digits ++
    (List.replicate p.trail.length 0 ++ (p.rest ++ [0])))) (hline : (0 : UInt8) ∉ p.line) :
    lbuf.cells.getD p.ts 0 ≠ 0 ↔ p.rest ≠ [] := by
  have hbehind := (p.no_nul hline).2
  rw [← List.append_assoc] at h
  rw [p.ts_eq]
  cases hrest : p.rest with
  | nil =>
      rw [hrest] at h
      rw [h.getD]
      simp
  | cons c rest =>
      rw [hrest, List.cons_append] at h
      rw [h.getD]
      have hc : c ≠ 0 := by
        rintro rfl
        exact hbehind (by simp [behind, hrest])
      simp [hc]

theorem decode_holds (ha : a.Succeeds) (hline : (0 : UInt8) ∉ p.line)
    (h : lbuf.Starts ((p.id ++ 0 :: p.sep) ++ p.digits ++
      (List.replicate p.trail.length 0 ++ [0])))
    (heven : p.digits.length % 2 = 0) :
    ∃ lbuf', lbuf.grow a I2LINEBUFINC (p.ts + 1 + p.digits.length / 2) = (true, lbuf') ∧
      ∃ lbuf'', Buffered.i2HexDecode.loop (p.digits.length / 2) lbuf' p.hex (p.ts + 1) =
          ((i2HexDecode p.digits (p.digits.length / 2)).isSome, lbuf'') ∧
        lbuf''.Sound ∧
        ∀ pf, i2HexDecode p.digits (p.digits.length / 2) = some pf →
          Buffered.PFRet.Holds ⟨0, p.ts + 1, pf.length⟩ lbuf'' p.id pf := by
  have hno := p.no_nul hline
  have hdigits : (0 : UInt8) ∉ p.digits := fun hmem =>
    hno.2 (List.mem_append_right _ (List.mem_append_left _ hmem))
  have hsplit : (p.id ++ 0 :: p.sep) ++ p.digits ++ (List.replicate p.trail.length 0 ++ [0]) =
      (p.id ++ 0 :: p.sep) ++ (p.digits ++ 0 :: List.replicate p.trail.length (0 : UInt8)) := by
    rw [← List.replicate_succ', List.replicate_succ, List.append_assoc]
  have hend : ((p.id ++ 0 :: p.sep) ++
      (p.digits ++ 0 :: List.replicate p.trail.length (0 : UInt8))).length = p.ts + 1 := by
    simp only [ts, hex, List.length_append, List.length_cons, List.length_replicate]
    omega
  have hhex : (p.id ++ 0 :: p.sep).length = p.hex := by
    simp only [hex, List.length_append, List.length_cons]
    omega
  rw [hsplit] at h
  obtain ⟨lbuf', hgrow, hkept, hroom⟩ := h.grow ha (Nat.succ_pos 119)
    (p.ts + 1 + p.digits.length / 2)
  obtain ⟨lbuf'', hloop, hsound, hdecoded⟩ := Buffered.i2HexDecode.loop_eq hkept hdigits
    (show p.digits.length = 2 * (p.digits.length / 2) by omega) (by rw [hend]; exact hroom)
  rw [hend, hhex] at hloop
  refine ⟨lbuf', hgrow, lbuf'', hloop, hsound, fun pf hpf => ?_⟩
  have hfinal := hdecoded pf hpf
  obtain ⟨rest, hrest⟩ := hfinal.drop
  rw [hend] at hrest
  have hfits := hfinal.fits
  rw [List.length_append, hend] at hfits
  refine ⟨hsound, rfl, hno.1, ?_, ?_, rfl, ?_, hfits⟩
  · refine .trans ?_ hfinal.isPrefix
    simp
  · simp only [ts, hex]
    omega
  · show (lbuf''.cells.drop (p.ts + 1)).take pf.length = pf
    rw [hrest, List.take_left]

end PFParts

namespace Buffered

variable {a : Growing.Realloc UInt8} {lbuf : Lbuf}

/-- What becomes of a line in a buffer, by what becomes of it without one. -/
inductive PFAgrees (line : List UInt8) (lbuf : Lbuf) :
    Verdict (List UInt8 × List UInt8) → Option (LineVerdict × Lbuf) → Prop
  | reject {err : Option I2util.ErrMsg} {lbuf' : Lbuf} (hsound : lbuf'.Sound) :
      PFAgrees line lbuf (.reject err) (some (.reject (err.map .msg), lbuf'))
  | skip : PFAgrees line lbuf .skip (some (.skip, lbuf))
  | hit {id pf : List UInt8} {lbuf' : Lbuf} (hlen : pf.length < 4294967296)
      (hholds : PFRet.Holds ⟨0, line.length + 1, pf.length⟩ lbuf' id pf) :
      PFAgrees line lbuf (.hit (id, pf)) (some (.hit ⟨0, line.length + 1, pf.length⟩, lbuf'))
  | endless {id pf : List UInt8} (hlen : 4294967296 ≤ pf.length) :
      PFAgrees line lbuf (.hit (id, pf)) none

theorem pfLine_agrees (ha : a.Succeeds) {line : List UInt8} (h : lbuf.Starts (line ++ [0]))
    (hline : (0 : UInt8) ∉ line) (id_query : Option (List UInt8)) :
    PFAgrees line lbuf (I2util.pfLine id_query line) (pfLine a id_query lbuf) := by
  have hstr : strAt lbuf 0 = line := strAt_of_starts (x := []) h hline
  rw [pfLine, I2util.pfLine, hstr]
  by_cases hsep : startsSpace (line.drop (strcspn line)) = false
  · simp only [if_pos hsep]
    exact .reject h.sound
  · by_cases hskip : pfSkips id_query line = true
    · simp only [if_neg hsep, if_pos hskip]
      exact .skip
    · simp only [if_neg hsep, if_neg hskip]
      obtain ⟨p, rfl⟩ := exists_pfParts (by simpa using hsep)
      -- the line with its identity terminated and its end overwritten
      have hput := p.starts_put h
      obtain ⟨hbehind, hhex⟩ := p.strAt_behind hput hline
      obtain ⟨lbuf₂, heat, hstarts⟩ := p.eatTrailing_starts hput
      have hoffset : p.id.length + 1 + (p.behind.takeWhile isspace).length = p.hex := by
        rw [PFParts.behind, p.spaces]
        rfl
      simp only [p.strcspn_line, hbehind, hoffset, hhex, p.strcspn_digits, heat, p.hexStart_line]
      have hid : p.line.take p.id.length = p.id := List.take_left
      rw [p.rest_eq, List.take_left, hid]
      by_cases hshape : p.digits.length = 0 ∨ p.digits.length % 2 ≠ 0 ∨ p.rest ≠ []
      · rw [if_pos hshape, if_pos (by rwa [p.getD_ts hstarts hline])]
        exact @PFAgrees.reject _ _ none _ hstarts.sound
      · rw [if_neg hshape, if_neg (by rwa [p.getD_ts hstarts hline])]
        simp only [not_or, not_not] at hshape
        obtain ⟨-, heven, hnone⟩ := hshape
        -- nothing is left of the line, so `ts` is at its NUL
        have hts : p.ts = p.line.length := by
          simp only [PFParts.ts, PFParts.hex, PFParts.line, hnone, List.length_append,
            List.length_cons, List.length_nil]
          omega
        rw [hnone, List.nil_append] at hstarts
        obtain ⟨lbuf₃, hgrow, lbuf₄, hloop, hsound, hholds⟩ :=
          p.decode_holds ha hline hstarts heven
        simp only [hgrow, i2HexDecode, hloop]
        cases hdec : I2util.i2HexDecode p.digits (p.digits.length / 2) with
        | none =>
            simp only [Option.isSome_none, Bool.false_eq_true, false_and, if_false]
            exact .reject hsound
        | some pf =>
            have hlen := i2HexDecode_length hdec
            have hhit := hholds pf hdec
            rw [hts] at hhit ⊢
            rw [← hlen]
            simp only [Option.isSome_some, true_and]
            by_cases hlong : 4294967296 ≤ pf.length
            · rw [if_pos hlong]
              exact .endless hlong
            · rw [if_neg hlong]
              exact .hit (Nat.not_le.mp hlong) hhit

/-! ### A whole call -/

/-- The call does what the one without a buffer does, and leaves its results in the
buffer. -/
structure PFRead.Agrees (b : PFRead) (r : FileRead (List UInt8 × List UInt8)) : Prop where
  rc : b.rc = r.rc
  rest : b.rest = r.rest
  out : b.out = r.out
  err : b.err = r.err.map .msg
  sound : b.lbuf.Sound
  nothing : r.found = none → b.ret = none
  hit : ∀ id pf, r.found = some (id, pf) → pf.length < 4294967296 ∧
    ∃ ret, b.ret = some ret ∧ ret.Holds b.lbuf id pf

/-- A call does not end where more bytes than the index can count are decoded. -/
inductive CallAgrees (r : FileRead (List UInt8 × List UInt8)) : Option PFRead → Prop
  | ends {b : PFRead} (h : b.Agrees r) : CallAgrees r (some b)
  | endless {id pf : List UInt8} (hfound : r.found = some (id, pf))
      (hlen : 4294967296 ≤ pf.length) : CallAgrees r none

def ReadState.plain (st : ReadState) : I2util.ReadState := ⟨st.rc, st.fp, st.out⟩

structure ReadState.Good (st : ReadState) : Prop where
  sound : st.lbuf.Sound
  no_nul : (0 : UInt8) ∉ st.fp
  rc : 0 ≤ st.rc

theorem i2ParsePFFile.body_line {id_query : Option (List UInt8)} {st : ReadState} {b : LineRead}
    (hread : parsefileline a st.lbuf st.fp st.rc = b) (hrc : 0 < b.rc) :
    i2ParsePFFile.body a id_query st =
      match pfLine a id_query b.lbuf with
      | none => .inr none
      | some (.reject err, lbuf) => .inr (some ⟨-b.rc, none, b.rest, st.out ++ b.out, err, lbuf⟩)
      | some (.skip, lbuf) => .inl ⟨b.rc, b.rest, st.out ++ b.out ++ strAt lbuf 0 ++ [nl], lbuf⟩
      | some (.hit ret, lbuf) =>
          .inr (some ⟨b.rc, some ret, b.rest, st.out ++ b.out, none, lbuf⟩) := by
  subst hread
  exact if_pos hrc

theorem i2ParsePFFile.body_none {id_query : Option (List UInt8)} {st : ReadState} {b : LineRead}
    (hread : parsefileline a st.lbuf st.fp st.rc = b) (hrc : b.rc ≤ 0) :
    i2ParsePFFile.body a id_query st =
      .inr (some ⟨b.rc, none, b.rest, st.out ++ b.out, b.err, b.lbuf⟩) := by
  subst hread
  exact if_neg (Int.not_lt.mpr hrc)

theorem i2ParsePFFile.body_agrees (ha : a.Succeeds) (id_query : Option (List UInt8))
    {st : ReadState} (hst : st.Good) :
    Sum.LiftRel (fun plain st' => plain = st'.plain ∧ st'.Good) CallAgrees
      (readRecords.body (I2util.pfLine id_query) st.plain) (i2ParsePFFile.body a id_query st) := by
  have hagrees := parsefileline_agrees ha hst.sound hst.rc st.fp
  have hnul := parsefileline_no_nul hst.no_nul st.rc
  generalize hr : I2util.parsefileline st.fp st.rc = r at hagrees hnul
  generalize hb : parsefileline a st.lbuf st.fp st.rc = b at hagrees
  obtain ⟨hbrc, hrest, hout, herr, hsound, hstarts⟩ := hagrees
  by_cases hrc : 0 < r.rc
  · have hverdict := pfLine_agrees ha (hstarts hrc) hnul.1 id_query
    have hcopy : strAt b.lbuf 0 = r.line := strAt_of_starts (x := []) (hstarts hrc) hnul.1
    rw [@readRecords.body_line _ _ st.plain _ _ hr hrc (cstr_of_not_mem hnul.1),
      i2ParsePFFile.body_line hb (hbrc ▸ hrc), hbrc, hrest, hout]
    generalize I2util.pfLine id_query r.line = v at hverdict ⊢
    generalize pfLine a id_query b.lbuf = o at hverdict ⊢
    cases hverdict with
    | reject hsound =>
        refine .inr (.ends ⟨rfl, rfl, rfl, rfl, hsound, fun _ => rfl, fun _ _ h => ?_⟩)
        cases h
    | skip =>
        refine .inl ⟨?_, hsound, hnul.2, Int.le_of_lt hrc⟩
        rw [hcopy]
        rfl
    | hit hlen hholds =>
        refine .inr (.ends ⟨rfl, rfl, rfl, rfl, hholds.sound, fun h => ?_, fun _ _ h => ?_⟩)
        · cases h
        · cases h
          exact ⟨hlen, _, rfl, hholds⟩
    | endless hlen => exact .inr (.endless rfl hlen)
  · have hle : r.rc ≤ 0 := Int.not_lt.mp hrc
    rw [@readRecords.body_none _ _ st.plain _ hr hle,
      i2ParsePFFile.body_none hb (hbrc ▸ hle), hbrc, hrest, hout, herr]
    refine .inr (.ends ⟨rfl, rfl, rfl, rfl, hsound, fun _ => rfl, fun _ _ h => ?_⟩)
    cases h

/-- The call on a buffer follows the one without. -/
theorem i2ParsePFFile_agrees (ha : a.Succeeds) (hlbuf : lbuf.Sound) {fp : List UInt8}
    (hfp : (0 : UInt8) ∉ fp) {rc : ℤ} (hrc : 0 ≤ rc) {id_query : Option (List UInt8)}
    {r : FileRead (List UInt8 × List UInt8)}
    (hr : I2util.i2ParsePFFile (some fp) rc id_query = some r) :
    CallAgrees r (i2ParsePFFile a (some fp) rc id_query lbuf) := by
  have hbody : ∀ plain (st : ReadState), plain = st.plain ∧ st.Good →
      Sum.LiftRel (fun plain st' => plain = st'.plain ∧ st'.Good) CallAgrees
        (readRecords.body (I2util.pfLine id_query) plain) (i2ParsePFFile.body a id_query st) := by
    rintro _ st ⟨rfl, hst⟩
    exact i2ParsePFFile.body_agrees ha id_query hst
  have hrun := @Loop.whileLoop_rel _ _ _ (fun st => st.fp.length) _ _ _
    (fun st => st.fp.length) _ _ hbody ⟨rc, fp, []⟩ ⟨rc, fp, [], lbuf⟩ rfl
    ⟨rfl, hlbuf, hfp, hrc⟩
  rw [i2ParsePFFile]
  change Option.Rel CallAgrees (I2util.i2ParsePFFile (some fp) rc id_query) _ at hrun
  rw [hr] at hrun
  generalize Loop.whileLoop (i2ParsePFFile.body a id_query) _ _ = o at hrun ⊢
  cases hrun with
  | some h => exact h

theorem PFRet.Holds.found {r : PFRead} {ret : PFRet} {id pf : List UInt8}
    (h : ret.Holds r.lbuf id pf) (hret : r.ret = some ret) : r.found = some (id, pf) := by
  obtain ⟨rest, hcells⟩ := h.identity
  have hid : strAt r.lbuf 0 = id := by
    rw [strAt, List.drop_zero, ← hcells, List.append_assoc, cstr_append h.no_nul]
    simp [cstr]
  rw [PFRead.found, hret, Option.map_some, h.id_ret, hid, h.bytes]

/-- The digits of the line that is returned. -/
theorem pfLine_len {id_query : Option (List UInt8)} {line id pf : List UInt8}
    (h : I2util.pfLine id_query line = .hit (id, pf)) :
    pf.length = strcspn (hexStart line) / 2 := by
  have hentry : pfEntry line = some (id, pf) := by rw [pfEntry, pfLine_hit h]
  obtain ⟨-, -, -, -, -, hdec⟩ := pfEntry_iff.mp hentry
  exact i2HexDecode_length hdec

theorem i2ParsePFFile_buffer (ha : a.Succeeds) (hlbuf : lbuf.Sound) {fp : List UInt8}
    (hfp : (0 : UInt8) ∉ fp) {rc : ℤ} (hrc : 0 ≤ rc) {id_query : Option (List UInt8)}
    {r : PFRead} (hr : i2ParsePFFile a (some fp) rc id_query lbuf = some r) (hpos : 0 < r.rc) :
    ∃ ret line id pf, r.ret = some ret ∧ some line ∈ fileLines fp ∧
      I2util.pfLine id_query line = .hit (id, pf) ∧ ret.Holds r.lbuf id pf ∧
      ret.pf_len = strcspn (hexStart line) / 2 ∧
      ∀ (a' : Growing.Realloc UInt8) (lbuf' : Lbuf), a'.Succeeds → lbuf'.Sound →
        ∃ r', i2ParsePFFile a' (some fp) rc id_query lbuf' = some r' ∧ r'.rc = r.rc ∧
          r'.found = r.found ∧ r'.rest = r.rest ∧ r'.out = r.out := by
  obtain ⟨consumed, e, hshape⟩ := callShape_exists (I2util.pfLine id_query) (fileLines fp)
  obtain ⟨r₀, hr₀, hreturns⟩ := hshape.call hrc
  have hcall := i2ParsePFFile_agrees ha hlbuf hfp hrc hr₀
  rw [hr] at hcall
  cases hcall with
  | ends hagrees =>
      rw [hagrees.rc] at hpos
      cases e with
      | eof =>
          have hzero : r₀.rc = 0 := hreturns.1
          omega
      | refused fetched =>
          have hle : r₀.rc ≤ 0 := hreturns.1
          omega
      | hit record behind =>
          obtain ⟨id, pf⟩ := record
          have hfound : r₀.found = some (id, pf) := hreturns.2.1
          obtain ⟨line, hmem, hjudge⟩ := hshape.hit_line rfl
          obtain ⟨hshort, ret, hret, hholds⟩ := hagrees.hit id pf hfound
          refine ⟨ret, line, id, pf, hret, hmem, hjudge, hholds, ?_, fun a' lbuf' ha' hlbuf' => ?_⟩
          · rw [hholds.pf_len, pfLine_len hjudge]
          · have hother := i2ParsePFFile_agrees ha' hlbuf' hfp hrc hr₀
            generalize i2ParsePFFile a' (some fp) rc id_query lbuf' = o at hother ⊢
            cases hother with
            | endless hfound' hlong =>
                cases hfound.symm.trans hfound'
                omega
            | @ends r' hagrees' =>
                obtain ⟨-, ret', hret', hholds'⟩ := hagrees'.hit id pf hfound
                refine ⟨r', rfl, hagrees'.rc.trans hagrees.rc.symm, ?_,
                  hagrees'.rest.trans hagrees.rest.symm, hagrees'.out.trans hagrees.out.symm⟩
                rw [hholds'.found hret', hholds.found hret]

theorem i2ParsePFFile_buffer_jdoe :
    ∃ r ret id pf, i2ParsePFFile (.padding 0) (some (ascii "jdoe 0f\n")) 0 none ⟨[], 0, false⟩ =
      some r ∧ r.ret = some ret ∧ ret.Holds r.lbuf id pf := by
  have hfp : (0 : UInt8) ∉ ascii "jdoe 0f\n" := by decide
  have hplain : I2util.i2ParsePFFile (some (ascii "jdoe 0f\n")) 0 none =
      some ⟨1, some (ascii "jdoe", [15]), [], [], none⟩ := by decide
  have hnull : Growing.Block.Sound (⟨[], 0, false⟩ : Lbuf) := ⟨Nat.le_refl 0, rfl⟩
  have ha : (Growing.Realloc.padding (0 : UInt8)).Succeeds := fun _ _ => rfl
  have hcall := i2ParsePFFile_agrees ha hnull hfp (Int.le_refl 0) hplain
  cases hr : i2ParsePFFile (.padding 0) (some (ascii "jdoe 0f\n")) 0 none ⟨[], 0, false⟩ with
  | none =>
      rw [hr] at hcall
      cases hcall with
      | endless hfound hlong =>
          cases hfound
          exact absurd hlong (by decide)
  | some r =>
      rw [hr] at hcall
      cases hcall with
      | ends hagrees =>
          have hpos : 0 < r.rc := by
            rw [hagrees.rc]
            decide
          obtain ⟨ret, line, id, pf, hret, -, -, hholds, -⟩ :=
            i2ParsePFFile_buffer ha hnull hfp (Int.le_refl 0) hr hpos
          exact ⟨r, ret, id, pf, rfl, hret, hholds⟩

end Buffered

end I2util
