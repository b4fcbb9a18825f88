import I2util.Conf.PFBuffer

/-!
`I2ParseKeyFile` and `I2WritePFLine` with the line buffer.

The key is decoded outside of the buffer, so `I2ParseKeyFile` writes to it only what
`parsefileline` does. `I2WritePFLine` has its hex digits there.
-/

namespace I2util

/-- The string of a line in the buffer. -/
theorem strAt_zero_of_starts {lbuf : Lbuf} {line : List UInt8} (h : lbuf.Starts (line ++ [0])) :
    strAt lbuf 0 = cstr line := by
  obtain ⟨rest, hrest⟩ := h.isPrefix
  rw [strAt, List.drop_zero, ← hrest, List.append_assoc]
  exact cstr_append_end line rest

namespace Buffered

structure KeyRead where
  rc : ℤ
  found : Option (List UInt8 × List UInt8)
  rest : List UInt8
  out : List UInt8
  err : Option ErrMsg
  lbuf : Lbuf

def i2ParseKeyFile.body (a : Growing.Realloc UInt8) (id_query : Option (List UInt8))
    (st : ReadState) : ReadState ⊕ KeyRead :=
  let r := parsefileline a st.lbuf st.fp st.rc
  let out := st.out ++ r.out
  if 0 < r.rc then
    match keyLine id_query (strAt r.lbuf 0) with
    | .reject err => .inr ⟨-r.rc, none, r.rest, out, err.map .msg, r.lbuf⟩
    | .skip => .inl ⟨r.rc, r.rest, out ++ strAt r.lbuf 0 ++ [nl], r.lbuf⟩
    | .hit record => .inr ⟨r.rc, some record, r.rest, out, none, r.lbuf⟩
  else .inr ⟨r.rc, none, r.rest, out, r.err, r.lbuf⟩

def i2ParseKeyFile (a : Growing.Realloc UInt8) (lbuf : Lbuf) (fp : Option (List UInt8)) (rc : ℤ)
    (id_query : Option (List UInt8)) : Option KeyRead :=
  match fp with
  | none => some ⟨0, none, [], [], none, lbuf⟩
  | some fp =>
      Loop.whileLoop (i2ParseKeyFile.body a id_query) (fun st => st.fp.length) ⟨rc, fp, [], lbuf⟩

/-- The digits from `buff` on, and a NUL. -/
def i2HexEncode (lbuf : Lbuf) (buff : ℕ) : List UInt8 → Lbuf
  | [] => lbuf.put buff 0
  | b :: bytes =>
      i2HexEncode ((lbuf.put buff (hexDigit (b >>> 4))).put (buff + 1) (hexDigit (b &&& 0x0f)))
        (buff + 2) bytes

structure PFWrite where
  ret : ℤ
  printed : List UInt8
  err : Option ErrMsg
  lbuf : Lbuf

/-- `none` for `id` is the null pointer. -/
def i2WritePFLine (a : Growing.Realloc UInt8) (lbuf : Lbuf) (id : Option (List UInt8))
    (bytes : List UInt8) : PFWrite :=
  match id with
  | none | some [] => ⟨-1, [], some (.msg .invalidIdentityName), lbuf⟩
  | some id =>
      match lbuf.grow a I2LINEBUFINC (bytes.length * 2 + 1) with
      | (false, lbuf) => ⟨-1, [], some (.realloc lbuf.max), lbuf⟩
      | (true, lbuf) =>
          let lbuf := i2HexEncode lbuf 0 bytes
          let (ret, printed) := fprintf (id ++ tab :: strAt lbuf 0 ++ [nl])
          ⟨if 0 < ret then 0 else ret, printed, none, lbuf⟩

/-! ### The reader -/

structure KeyRead.Agrees (b : KeyRead) (r : FileRead (List UInt8 × List UInt8)) : Prop where
  rc : b.rc = r.rc
  found : b.found = r.found
  rest : b.rest = r.rest
  out : b.out = r.out
  err : b.err = r.err.map .msg
  sound : b.lbuf.Sound

variable {a : Growing.Realloc UInt8} {lbuf : Lbuf}

theorem i2ParseKeyFile.body_agrees (ha : a.Succeeds) (id_query : Option (List UInt8))
    {st : ReadState} (hsound : st.lbuf.Sound) (hrc : 0 ≤ st.rc) :
    Sum.LiftRel (fun plain st' => plain = st'.plain ∧ st'.lbuf.Sound ∧ 0 ≤ st'.rc)
      (fun r b => b.Agrees r)
      (readRecords.body (keyLine id_query) st.plain) (i2ParseKeyFile.body a id_query st) := by
  have hagrees := parsefileline_agrees ha hsound hrc st.fp
  rw [readRecords.body, i2ParseKeyFile.body, ReadState.plain]
  generalize I2util.parsefileline st.fp st.rc = r at hagrees
  generalize parsefileline a st.lbuf st.fp st.rc = b at hagrees
  obtain ⟨hbrc, hrest, hout, herr, hkept, hstarts⟩ := hagrees
  by_cases hpos : 0 < r.rc
  · simp only [hbrc, if_pos hpos, strAt_zero_of_starts (hstarts hpos), hrest, hout]
    cases keyLine id_query (cstr r.line) with
    | reject err => exact .inr ⟨rfl, rfl, rfl, rfl, rfl, hkept⟩
    | skip => exact .inl ⟨rfl, hkept, Int.le_of_lt hpos⟩
    | hit record => exact .inr ⟨rfl, rfl, rfl, rfl, rfl, hkept⟩
  · simp only [hbrc, if_neg hpos, hrest, hout]
    exact .inr ⟨rfl, rfl, rfl, rfl, herr, hkept⟩

/-- The call on a buffer follows the one without. -/
theorem i2ParseKeyFile_agrees (ha : a.Succeeds) (hlbuf : lbuf.Sound) (fp : Option (List UInt8))
    {rc : ℤ} (hrc : 0 ≤ rc) (id_query : Option (List UInt8)) :
    Option.Rel (fun r b => KeyRead.Agrees b r) (I2util.i2ParseKeyFile fp rc id_query)
      (i2ParseKeyFile a lbuf fp rc id_query) := by
  cases fp with
  | none => exact .some ⟨rfl, rfl, rfl, rfl, rfl, hlbuf⟩
  | some fp =>
      have hbody : ∀ plain (st : ReadState), plain = st.plain ∧ st.lbuf.Sound ∧ 0 ≤ st.rc →
          Sum.LiftRel (fun plain st' => plain = st'.plain ∧ st'.lbuf.Sound ∧ 0 ≤ st'.rc)
            (fun r b => KeyRead.Agrees b r)
            (readRecords.body (keyLine id_query) plain) (i2ParseKeyFile.body a id_query st) := by
        rintro _ st ⟨rfl, hsound, hst⟩
        exact i2ParseKeyFile.body_agrees ha id_query hsound hst
      exact @Loop.whileLoop_rel _ _ _ (fun st => st.fp.length) _ _ _ (fun st => st.fp.length) _ _
        hbody ⟨rc, fp, []⟩ ⟨rc, fp, [], lbuf⟩ rfl ⟨rfl, hlbuf, hrc⟩

/-! ### The writer -/

theorem i2HexEncode_starts {x bytes : List UInt8} (h : lbuf.Starts x)
    (hroom : x.length + 2 * bytes.length < lbuf.max) :
    (i2HexEncode lbuf x.length bytes).Starts (x ++ I2util.i2HexEncode bytes ++ [0]) := by
  induction bytes generalizing lbuf x with
  | nil =>
      rw [i2HexEncode, i2HexEncode_nil, List.append_nil]
      exact h.push (by omega) 0
  | cons b bytes ih =>
      rw [List.length_cons] at hroom
      have hhigh := h.push (by omega) (hexDigit (b >>> 4))
      have hlow := hhigh.push (by
        rw [List.length_append, Growing.Block.put_max, List.length_singleton]
        omega) (hexDigit (b &&& 0x0f))
      have hrest := ih hlow (by
        simp only [List.length_append, Growing.Block.put_max, List.length_singleton]
        omega)
      simp only [List.length_append, List.length_singleton, List.append_assoc] at hrest
      rw [i2HexEncode, i2HexEncode_cons]
      simpa using hrest

/-- The call on a buffer prints what the one without does, and leaves the digits in the
buffer. -/
theorem i2WritePFLine_agrees (ha : a.Succeeds) (hlbuf : lbuf.Sound) {id : List UInt8}
    (hid : id ≠ []) (bytes : List UInt8) :
    let b := i2WritePFLine a lbuf (some id) bytes
    (b.ret, b.printed) = I2util.i2WritePFLine id bytes ∧ b.err = none ∧
      b.lbuf.Starts (I2util.i2HexEncode bytes ++ [0]) := by
  obtain ⟨c, id, rfl⟩ := List.exists_cons_of_ne_nil hid
  obtain ⟨lbuf', hgrow, hkept, hroom⟩ :=
    hlbuf.starts_nil.grow ha (Nat.succ_pos 119) (bytes.length * 2 + 1)
  have hdigits : (i2HexEncode lbuf' 0 bytes).Starts (I2util.i2HexEncode bytes ++ [0]) :=
    i2HexEncode_starts hkept (by
      rw [List.length_nil]
      omega)
  have hno : (0 : UInt8) ∉ I2util.i2HexEncode bytes := fun hmem =>
    (not_isspace_hexDigit (isHexDigit_of_mem_encode hmem)).2.1 rfl
  have hstr := strAt_zero_of_starts hdigits
  rw [cstr_of_not_mem hno] at hstr
  simp only [i2WritePFLine, hgrow, hstr, I2util.i2WritePFLine, if_neg hid]
  exact ⟨trivial, trivial, hdigits⟩

end Buffered

end I2util
