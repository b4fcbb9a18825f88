import I2util.Conf.ConfLine
import I2util.Conf.LineBuffer

/-!
`I2GetConfLine` and `I2ReadConfVar` with the line buffer.

`I2ReadConfVar` has `strtok` cut the key and the value out of the line, so that the line is
lost. The functions here do what those without a buffer do.
-/

namespace I2util

namespace Buffered

def i2GetConfLine.scan (a : Growing.Realloc UInt8) (rc : ℤ) (lbuf : Lbuf) (i : ℕ) :
    ConfMode → List UInt8 → LineRead
  | .escape, [] => ⟨-rc, lbuf, [], [], some (.msg .invalidUseOfBackslash)⟩
  | _, [] =>
      if i = 0 then ⟨0, lbuf, [], [], none⟩
      else ⟨rc + 1, lbuf.put i 0, [], [], none⟩
  | .comment, c :: s =>
      if c = nl then i2GetConfLine.scan a (rc + 1) lbuf i .text s
      else i2GetConfLine.scan a rc lbuf i .comment s
  | .escape, c :: s =>
      if c = nl then i2GetConfLine.scan a (rc + 1) lbuf i .text s
      else ⟨-rc, lbuf, s, [], some (.msg .invalidUseOfBackslash)⟩
  | .text, c :: s =>
      if c = nl then
        if i ≠ 0 then ⟨rc + 1, lbuf.put i 0, s, [], none⟩
        else i2GetConfLine.scan a (rc + 1) lbuf i .text s
      else if i = 0 ∧ c = hash then
        i2GetConfLine.scan a rc lbuf i .comment s
      else if i = 0 ∧ isspace c = true then
        i2GetConfLine.scan a rc lbuf i .text s
      else if c = backslash then
        i2GetConfLine.scan a rc lbuf i .escape s
      else
        -- room for the character and for the NUL
        match lbuf.grow a I2LINEBUFINC (i + 2) with
        | (false, lbuf) => ⟨-rc, lbuf, s, [], some (.realloc lbuf.max)⟩
        | (true, lbuf) => i2GetConfLine.scan a rc (lbuf.put i c) (i + 1) .text s

def i2GetConfLine (a : Growing.Realloc UInt8) (lbuf : Lbuf) (fp : List UInt8) (rc : ℤ) :
    LineRead :=
  i2GetConfLine.scan a rc lbuf 0 .text fp

/-- `strtok` from a place of the buffer: the place of the token, the place where the next
call goes on, and the buffer. -/
def strtok (lbuf : Lbuf) (s : ℕ) : Option ℕ × ℕ × Lbuf :=
  let tok := s + ((strAt lbuf s).takeWhile isspace).length
  let stop := tok + strcspn (strAt lbuf tok)
  if strAt lbuf tok = [] then (none, tok, lbuf)
  else if strAt lbuf stop = [] then (some tok, stop, lbuf)
  else (some tok, stop + 1, lbuf.put stop 0)

structure ConfRead where
  rc : ℤ
  key : Option (List UInt8)
  val : Option (List UInt8)
  rest : List UInt8
  err : Option ErrMsg
  lbuf : Lbuf

/-- The check for trailing data. -/
def trailingRc (rc : ℤ) (lbuf : Lbuf) (s : ℕ) : ℤ × Lbuf :=
  match strtok lbuf s with
  | (none, _, lbuf) => (rc, lbuf)
  | (some tok, _, lbuf) => (if (strAt lbuf tok).head? ≠ some hash then -rc else rc, lbuf)

def i2ReadConfVar.value (r : LineRead) (max : ℕ) (key : List UInt8) (lbuf : Lbuf) (s : ℕ) :
    ConfRead :=
  match strtok lbuf s with
  | (none, s, lbuf) =>
      let (rc, lbuf) := trailingRc r.rc lbuf s
      ⟨rc, some key, some [], r.rest, r.err, lbuf⟩
  | (some tok, s, lbuf) =>
      let val := strAt lbuf tok
      if val.head? = some hash then ⟨r.rc, some key, some [], r.rest, r.err, lbuf⟩
      else if max < val.length + 1 then ⟨-r.rc, some key, none, r.rest, r.err, lbuf⟩
      else
        let (rc, lbuf) := trailingRc r.rc lbuf s
        ⟨rc, some key, some val, r.rest, r.err, lbuf⟩

def i2ReadConfVar (a : Growing.Realloc UInt8) (lbuf : Lbuf) (fp : List UInt8) (rc : ℤ)
    (max : ℕ) : ConfRead :=
  let r := i2GetConfLine a lbuf fp rc
  if 0 < r.rc then
    match strtok r.lbuf 0 with
    | (none, _, lbuf) => ⟨-r.rc, none, none, r.rest, r.err, lbuf⟩
    | (some tok, s, lbuf) =>
        let key := strAt lbuf tok
        if max < key.length + 1 then ⟨-r.rc, none, none, r.rest, r.err, lbuf⟩
        else i2ReadConfVar.value r max key lbuf s
  else ⟨r.rc, none, none, r.rest, r.err, r.lbuf⟩

/-! ### The line -/

variable {a : Growing.Realloc UInt8} {lbuf : Lbuf}

theorem i2GetConfLine.scan_agrees (ha : a.Succeeds) {line : List UInt8}
    (hstarts : lbuf.Starts line) (hroom : line ≠ [] → line.length < lbuf.max) {rc : ℤ}
    (hrc : 0 ≤ rc) (mode : ConfMode) (s : List UInt8) :
    (i2GetConfLine.scan a rc lbuf line.length mode s).Agrees
      (I2util.i2GetConfLine.scan rc line mode s) := by
  induction s generalizing lbuf line rc mode with
  | nil =>
      cases mode with
      | escape =>
          refine ⟨rfl, rfl, rfl, rfl, hstarts.sound, fun h => ?_⟩
          simp only [I2util.i2GetConfLine.scan] at h
          omega
      | text | comment =>
          simp only [i2GetConfLine.scan, I2util.i2GetConfLine.scan, List.length_eq_zero_iff]
          split_ifs with hline
          · exact ⟨rfl, rfl, rfl, rfl, hstarts.sound, fun h => absurd h (Int.lt_irrefl 0)⟩
          · have hend := hstarts.push (hroom hline) 0
            exact ⟨rfl, rfl, rfl, rfl, hend.sound, fun _ => hend⟩
  | cons c s ih =>
      have hnext : 0 ≤ rc + 1 := by omega
      cases mode with
      | comment =>
          simp only [i2GetConfLine.scan, I2util.i2GetConfLine.scan]
          split_ifs
          · exact ih hstarts hroom hnext .text
          · exact ih hstarts hroom hrc .comment
      | escape =>
          simp only [i2GetConfLine.scan, I2util.i2GetConfLine.scan]
          split_ifs
          · exact ih hstarts hroom hnext .text
          · refine ⟨rfl, rfl, rfl, rfl, hstarts.sound, fun h => ?_⟩
            simp only at h
            omega
      | text =>
          simp only [i2GetConfLine.scan, I2util.i2GetConfLine.scan, List.length_eq_zero_iff,
            ne_eq]
          split_ifs with hnl hline hhash hspace hback
          · exact ih hstarts hroom hnext .text
          · have hend := hstarts.push (hroom hline) 0
            exact ⟨rfl, rfl, rfl, rfl, hend.sound, fun _ => hend⟩
          · exact ih hstarts hroom hrc .comment
          · exact ih hstarts hroom hrc .text
          · exact ih hstarts hroom hrc .escape
          · obtain ⟨lbuf', hgrow, hchar, hmore⟩ := grow_push ha hstarts c
            have hrest := ih hchar (fun _ => hmore) hrc .text
            rw [List.length_append, List.length_singleton] at hrest
            simpa only [hgrow] using hrest

theorem i2GetConfLine_agrees (ha : a.Succeeds) (hb : lbuf.Sound) {rc : ℤ} (hrc : 0 ≤ rc)
    (fp : List UInt8) : (i2GetConfLine a lbuf fp rc).Agrees (I2util.i2GetConfLine fp rc) :=
  i2GetConfLine.scan_agrees ha hb.starts_nil (fun h => absurd rfl h) hrc .text fp

/-! ### The words of the line -/

/-- The token and what is left behind it stand in the buffer, each with its NUL. -/
inductive TokAgrees : Option (List UInt8 × List UInt8) → Option ℕ × ℕ × Lbuf → Prop
  | none {x : List UInt8} {lbuf : Lbuf} (hend : lbuf.Starts (x ++ [0])) :
      TokAgrees none (none, x.length, lbuf)
  | some {x tok rest : List UInt8} {lbuf : Lbuf} {start : ℕ} (htok : strAt lbuf start = tok)
      (hno : (0 : UInt8) ∉ rest) (hrest : lbuf.Starts (x ++ (rest ++ [0]))) :
      TokAgrees (some (tok, rest)) (some start, x.length, lbuf)

theorem strtok_agrees {x s : List UInt8} (h : lbuf.Starts (x ++ (s ++ [0])))
    (hs : (0 : UInt8) ∉ s) : TokAgrees (I2util.strtok s) (strtok lbuf x.length) := by
  obtain ⟨ws, t, hws, ht, rfl⟩ :
      ∃ ws t, s.takeWhile isspace = ws ∧ s.dropWhile isspace = t ∧ s = ws ++ t :=
    ⟨_, _, rfl, rfl, List.takeWhile_append_dropWhile.symm⟩
  simp only [List.mem_append, not_or] at hs
  -- the token begins behind the white space
  have hbegin : lbuf.Starts (x ++ ws ++ (t ++ [0])) := by simpa only [List.append_assoc] using h
  have htok := strAt_of_starts hbegin hs.2
  have hstr := strAt_of_starts h (by simp [hs])
  rw [List.length_append] at htok
  rw [strtok, hstr, hws, htok, I2util.strtok, ht]
  cases t with
  | nil =>
      rw [if_pos rfl, ← List.length_append]
      exact .none hbegin
  | cons c t =>
      rw [if_neg (List.cons_ne_nil c t)]
      obtain ⟨word, behind, hword, hbehind, hsplit⟩ : ∃ word behind,
          (c :: t).takeWhile (fun c => !isspace c) = word ∧
          (c :: t).dropWhile (fun c => !isspace c) = behind ∧ c :: t = word ++ behind :=
        ⟨_, _, rfl, rfl, List.takeWhile_append_dropWhile.symm⟩
      rw [hsplit] at hs hbegin
      simp only [List.mem_append, not_or] at hs
      have hafter : lbuf.Starts (x ++ ws ++ word ++ (behind ++ [0])) := by
        simpa only [List.append_assoc] using hbegin
      have hstop := strAt_of_starts hafter hs.2.2
      have hlen : (x ++ ws ++ word).length = x.length + ws.length + strcspn (c :: t) := by
        rw [strcspn, hword, List.length_append, List.length_append]
      simp only [← hlen, hword, hbehind, hstop]
      cases behind with
      | nil =>
          rw [if_pos rfl]
          refine .some ?_ List.not_mem_nil hafter
          rw [htok, hsplit, List.append_nil]
      | cons d rest =>
          -- the delimiter is overwritten
          have hput := hafter.set (0 : UInt8)
          have hnext : (x ++ ws ++ word).length + 1 = (x ++ ws ++ word ++ [0]).length := by
            rw [@List.length_append _ _ [0], List.length_singleton]
          rw [if_neg (List.cons_ne_nil d rest), hnext]
          refine .some ?_ (fun hmem => hs.2.2 (List.mem_cons_of_mem d hmem)) ?_
          · have hcut : (lbuf.put (x ++ ws ++ word).length 0).Starts
                (x ++ ws ++ (word ++ 0 :: (rest ++ [0]))) := by
              rw [← List.append_assoc]
              exact hput
            rw [← List.length_append]
            exact strAt_of_starts hcut hs.2.1
          · rwa [List.append_cons] at hput

/-- The call does what the one without a buffer does. -/
structure ConfRead.Agrees (b : ConfRead) (r : I2util.ConfRead) : Prop where
  rc : b.rc = r.rc
  key : b.key = r.key
  val : b.val = r.val
  rest : b.rest = r.rest
  err : b.err = r.err.map .msg
  sound : b.lbuf.Sound

theorem trailingRc_agrees {x s : List UInt8} (h : lbuf.Starts (x ++ (s ++ [0])))
    (hs : (0 : UInt8) ∉ s) (rc : ℤ) :
    (trailingRc rc lbuf x.length).1 = I2util.trailingRc rc s ∧
      (trailingRc rc lbuf x.length).2.Sound := by
  have htok := strtok_agrees h hs
  rw [trailingRc, I2util.trailingRc]
  generalize I2util.strtok s = o at htok
  generalize strtok lbuf x.length = o' at htok
  cases htok with
  | none hend => exact ⟨rfl, hend.sound⟩
  | some htok hno hrest => exact ⟨by simp only [htok], hrest.sound⟩

theorem i2ReadConfVar.value_agrees {b : LineRead} {r : I2util.LineRead} (hr : b.Agrees r)
    {x s : List UInt8} (h : lbuf.Starts (x ++ (s ++ [0]))) (hs : (0 : UInt8) ∉ s) (max : ℕ)
    (key : List UInt8) :
    (i2ReadConfVar.value b max key lbuf x.length).Agrees
      (I2util.i2ReadConfVar.value r max key s) := by
  have htok := strtok_agrees h hs
  rw [i2ReadConfVar.value, I2util.i2ReadConfVar.value]
  generalize I2util.strtok s = o at htok
  generalize strtok lbuf x.length = o' at htok
  cases htok with
  | none hend =>
      obtain ⟨hrc, hsound⟩ := trailingRc_agrees (s := []) hend List.not_mem_nil b.rc
      exact ⟨by rw [← hr.rc]; exact hrc, rfl, rfl, hr.rest, hr.err, hsound⟩
  | some htok hno hrest =>
      obtain ⟨hrc, hsound⟩ := trailingRc_agrees hrest hno b.rc
      simp only [htok]
      split_ifs
      · exact ⟨hr.rc, rfl, rfl, hr.rest, hr.err, hrest.sound⟩
      · exact ⟨by rw [hr.rc], rfl, rfl, hr.rest, hr.err, hrest.sound⟩
      · exact ⟨by rw [← hr.rc]; exact hrc, rfl, rfl, hr.rest, hr.err, hsound⟩

/-- The call on a buffer follows the one without. -/
theorem i2ReadConfVar_agrees (ha : a.Succeeds) (hb : lbuf.Sound) {rc : ℤ} (hrc : 0 ≤ rc)
    (fp : List UInt8) (max : ℕ) :
    (i2ReadConfVar a lbuf fp rc max).Agrees (I2util.i2ReadConfVar fp rc max) := by
  have hr := i2GetConfLine_agrees ha hb hrc fp
  rw [i2ReadConfVar, I2util.i2ReadConfVar]
  generalize i2GetConfLine a lbuf fp rc = b at hr
  generalize I2util.i2GetConfLine fp rc = r at hr
  by_cases hpos : 0 < r.rc
  · -- `strtok` sees the line up to its first NUL
    obtain ⟨rest, hline⟩ := exists_eq_cstr_append (s := r.line ++ [0]) (by simp)
    have hstarts : b.lbuf.Starts ([] ++ (cstr r.line ++ [0])) := by
      refine (hr.line hpos).take ?_
      rw [List.nil_append, ← cstr_append_end r.line []]
      exact ⟨rest, by rw [List.append_assoc]; exact hline.symm⟩
    have htok := strtok_agrees hstarts (cstr_no_nul r.line)
    simp only [hr.rc, if_pos hpos]
    generalize I2util.strtok (cstr r.line) = o at htok
    change TokAgrees o (strtok b.lbuf 0) at htok
    generalize strtok b.lbuf 0 = o' at htok
    cases htok with
    | none hend => exact ⟨rfl, rfl, rfl, hr.rest, hr.err, hend.sound⟩
    | some htok hno hrest =>
        simp only [htok]
        split_ifs
        · exact ⟨rfl, rfl, rfl, hr.rest, hr.err, hrest.sound⟩
        · exact i2ReadConfVar.value_agrees hr hrest hno max _
  · simp only [hr.rc, if_neg hpos]
    exact ⟨rfl, rfl, rfl, hr.rest, hr.err, hr.sound⟩

end Buffered

end I2util
