import I2util.Conf.FileLine

/-!
`I2GetConfLine` and `I2ReadConfVar`: the readers of configuration files.

`I2GetConfLine` drops leading white space, blank lines and comment lines, joins
continued lines and returns the next line. `I2ReadConfVar` takes a key and a value
out of it with `strtok`.
-/

namespace I2util

/-- The three places where `I2GetConfLine` reads a character: the outer loop, the
loop that swallows a comment, and the test after a backslash. -/
inductive ConfMode
  | text
  | comment
  | escape
  deriving DecidableEq

def i2GetConfLine.scan (rc : ℤ) (line : List UInt8) : ConfMode → List UInt8 → LineRead
  | .escape, [] => ⟨-rc, line, [], [], some .invalidUseOfBackslash⟩
  | _, [] =>
      if line = [] then ⟨0, line, [], [], none⟩
      else ⟨rc + 1, line, [], [], none⟩
  | .comment, c :: s =>
      if c = nl then i2GetConfLine.scan (rc + 1) line .text s
      else i2GetConfLine.scan rc line .comment s
  | .escape, c :: s =>
      if c = nl then i2GetConfLine.scan (rc + 1) line .text s
      else ⟨-rc, line, s, [], some .invalidUseOfBackslash⟩
  | .text, c :: s =>
      if c = nl then
        if line ≠ [] then ⟨rc + 1, line, s, [], none⟩
        else i2GetConfLine.scan (rc + 1) line .text s
      else if line = [] ∧ c = hash then
        i2GetConfLine.scan rc line .comment s
      else if line = [] ∧ isspace c = true then
        i2GetConfLine.scan rc line .text s
      else if c = backslash then
        i2GetConfLine.scan rc line .escape s
      else
        i2GetConfLine.scan rc (line ++ [c]) .text s

def i2GetConfLine (fp : List UInt8) (rc : ℤ) : LineRead :=
  i2GetConfLine.scan rc [] .text fp

/-- What one call of `I2ReadConfVar` leaves behind. A buffer that has not been
written to is `none`. -/
structure ConfRead where
  rc : ℤ
  key : Option (List UInt8)
  val : Option (List UInt8)
  rest : List UInt8
  err : Option ErrMsg
  deriving DecidableEq

/-- The check for trailing data: a comment is the only valid token. -/
def trailingRc (rc : ℤ) (line : List UInt8) : ℤ :=
  match strtok line with
  | none => rc
  | some (tok, _) => if tok.head? ≠ some hash then -rc else rc

/-- The value after the key: none, a comment, or a word that must fit. -/
def i2ReadConfVar.value (r : LineRead) (max : ℕ) (key line : List UInt8) : ConfRead :=
  match strtok line with
  | none => ⟨trailingRc r.rc [], some key, some [], r.rest, r.err⟩
  | some (val, line) =>
      if val.head? = some hash then ⟨r.rc, some key, some [], r.rest, r.err⟩
      else if max < val.length + 1 then ⟨-r.rc, some key, none, r.rest, r.err⟩
      else ⟨trailingRc r.rc line, some key, some val, r.rest, r.err⟩

/-- `max` is the size of the buffers `key` and `val`. -/
def i2ReadConfVar (fp : List UInt8) (rc : ℤ) (max : ℕ) : ConfRead :=
  let r := i2GetConfLine fp rc
  if 0 < r.rc then
    match strtok (cstr r.line) with
    | none => ⟨-r.rc, none, none, r.rest, r.err⟩
    | some (key, line) =>
        if max < key.length + 1 then ⟨-r.rc, none, none, r.rest, r.err⟩
        else i2ReadConfVar.value r max key line
  else ⟨r.rc, none, none, r.rest, r.err⟩

/-! ### One line at a time -/

@[simp] theorem i2GetConfLine_nil (rc : ℤ) : i2GetConfLine [] rc = ⟨0, [], [], [], none⟩ := rfl

theorem i2GetConfLine_blank {ws : List UInt8} (hws : BlankText ws) (s : List UInt8) (rc : ℤ) :
    i2GetConfLine (ws ++ s) rc = i2GetConfLine s rc := by
  induction ws with
  | nil => rfl
  | cons c ws ih =>
      obtain ⟨hspace, hc⟩ := hws c List.mem_cons_self
      have hhash : c ≠ hash := by
        rintro rfl
        simp at hspace
      have hrest : BlankText ws := fun d hd => hws d (List.mem_cons_of_mem c hd)
      rw [← ih hrest]
      simp [i2GetConfLine, i2GetConfLine.scan, hc, hhash, hspace]

@[simp] theorem i2GetConfLine_newline (s : List UInt8) (rc : ℤ) :
    i2GetConfLine (nl :: s) rc = i2GetConfLine s (rc + 1) := by
  simp [i2GetConfLine, i2GetConfLine.scan]

theorem i2GetConfLine_comment {text : List UInt8} (htext : nl ∉ text) (s : List UInt8)
    (rc : ℤ) : i2GetConfLine (hash :: (text ++ nl :: s)) rc = i2GetConfLine s (rc + 1) := by
  have hscan : i2GetConfLine.scan rc [] .comment (text ++ nl :: s) =
      i2GetConfLine s (rc + 1) := by
    induction text with
    | nil => simp [i2GetConfLine.scan, i2GetConfLine]
    | cons c text ih =>
        simp only [List.mem_cons, not_or] at htext
        have hc : c ≠ nl := Ne.symm htext.1
        simp [i2GetConfLine.scan, hc, ih htext.2]
  simpa [i2GetConfLine, i2GetConfLine.scan] using hscan

theorem i2GetConfLine_last_comment {text : List UInt8} (htext : nl ∉ text) (rc : ℤ) :
    i2GetConfLine (hash :: text) rc = ⟨0, [], [], [], none⟩ := by
  have hscan : i2GetConfLine.scan rc [] .comment text = ⟨0, [], [], [], none⟩ := by
    induction text with
    | nil => simp [i2GetConfLine.scan]
    | cons c text ih =>
        simp only [List.mem_cons, not_or] at htext
        have hc : c ≠ nl := Ne.symm htext.1
        simp [i2GetConfLine.scan, hc, ih htext.2]
  simpa [i2GetConfLine, i2GetConfLine.scan] using hscan

/-! ### Any stream -/

theorem i2GetConfLine.scan_rest {rc : ℤ} {line : List UInt8} {mode : ConfMode}
    {s : List UInt8} : (i2GetConfLine.scan rc line mode s).rest.length ≤ s.length := by
  induction s generalizing rc line mode with
  | nil =>
      cases mode with
      | escape => simp [i2GetConfLine.scan]
      | text | comment =>
          simp only [i2GetConfLine.scan]
          split <;> simp
  | cons c s ih =>
      cases mode <;> simp only [i2GetConfLine.scan] <;> split_ifs <;>
        first | exact ih.trans (Nat.le_succ _) | simp

theorem i2GetConfLine_rest_lt {fp : List UInt8} {rc : ℤ} (hrc : 0 < (i2GetConfLine fp rc).rc) :
    (i2GetConfLine fp rc).rest.length < fp.length := by
  cases fp with
  | nil => simp at hrc
  | cons c s =>
      have hle := fun rc line mode => @i2GetConfLine.scan_rest rc line mode s
      rw [i2GetConfLine, i2GetConfLine.scan]
      split_ifs <;> first | exact Nat.lt_succ_of_le (hle _ _ _) | simp

theorem i2ReadConfVar_rest (fp : List UInt8) (rc : ℤ) (max : ℕ) :
    (i2ReadConfVar fp rc max).rest = (i2GetConfLine fp rc).rest := by
  simp only [i2ReadConfVar, i2ReadConfVar.value]
  repeat' split
  all_goals rfl

theorem i2ReadConfVar_rc_le {fp : List UInt8} {rc : ℤ} {max : ℕ}
    (h : (i2GetConfLine fp rc).rc ≤ 0) :
    (i2ReadConfVar fp rc max).rc = (i2GetConfLine fp rc).rc := by
  rw [i2ReadConfVar, if_neg (Int.not_lt.mpr h)]

theorem i2ReadConfVar_err (fp : List UInt8) (rc : ℤ) (max : ℕ) :
    (i2ReadConfVar fp rc max).err = (i2GetConfLine fp rc).err := by
  simp only [i2ReadConfVar, i2ReadConfVar.value]
  repeat' split
  all_goals rfl

theorem trailingRc_eq_or (rc : ℤ) (line : List UInt8) :
    trailingRc rc line = rc ∨ trailingRc rc line = -rc := by
  rw [trailingRc]
  repeat' split
  all_goals simp

/-- A row number is returned as it is or negated. -/
theorem i2ReadConfVar_rc_of_pos {fp : List UInt8} {rc : ℤ} (max : ℕ)
    (h : 0 < (i2GetConfLine fp rc).rc) :
    (i2ReadConfVar fp rc max).rc = (i2GetConfLine fp rc).rc ∨
      (i2ReadConfVar fp rc max).rc = -(i2GetConfLine fp rc).rc := by
  simp only [i2ReadConfVar, i2ReadConfVar.value, if_pos h]
  repeat' split
  all_goals first | exact .inl rfl | exact .inr rfl | exact trailingRc_eq_or _ _

end I2util
