import I2util.Conf.RowCounter

/-!
The values the readers return: the row number of what was found, 0 at the end of
the stream, and the negated row counter when a line is rejected.

The counter is still 0 while the first row is read by a caller that starts at 0.
A rejection there cannot be told from the end of the stream. And the counter is an `int`:
a call that counts beyond `INT_MAX` returns nothing that could be relied on.
-/

namespace I2util

def Rejected (err : Option ErrMsg) : Prop :=
  err = some .invalidUseOfBackslash ∨ ∃ row, err = some (.leadingSpacesNotAllowed row)

/-- A stream that holds no further line of a configuration file. -/
inductive ConfIdle : List UInt8 → Prop
  | nil : ConfIdle []
  | space {c : UInt8} {s : List UInt8} (hc : isspace c = true) : ConfIdle s → ConfIdle (c :: s)
  | comment {text s : List UInt8} (h : nl ∉ text) :
      ConfIdle s → ConfIdle (hash :: (text ++ nl :: s))
  | lastComment {text : List UInt8} (h : nl ∉ text) : ConfIdle (hash :: text)
  | continued {s : List UInt8} : ConfIdle s → ConfIdle (backslash :: nl :: s)

/-- A stream that holds no further data line of a key or pass-phrase file, apart
from lines that may be skipped. -/
inductive FileIdle (skips : List UInt8 → Prop) : List UInt8 → Prop
  | nil : FileIdle skips []
  | space {c : UInt8} {s : List UInt8} (hc : isspace c = true) :
      FileIdle skips s → FileIdle skips (c :: s)
  | comment {text s : List UInt8} (h : nl ∉ text) :
      FileIdle skips s → FileIdle skips (hash :: (text ++ nl :: s))
  | lastComment {text : List UInt8} (h : nl ∉ text) : FileIdle skips (hash :: text)
  | line {c : UInt8} {t eol s : List UInt8} (hspace : isspace c = false) (hhash : c ≠ hash)
      (hnl : nl ∉ t) (heol : LineEnd eol s) (hskip : skips (c :: t)) :
      FileIdle skips s → FileIdle skips (c :: (t ++ (eol ++ s)))

/-- A returned value tells its callers what happened: a rejected line gives a
negative number, and 0 means that there is nothing left to read. -/
structure Sentinel (rc : ℤ) (err : Option ErrMsg) (idle : Prop) : Prop where
  rejected : Rejected err → rc < 0
  eof : rc = 0 → idle

/-- `I2GetConfLine` and `I2ReadConfVar` on a stream. -/
def ConfSentinel (fp : List UInt8) (rc : ℤ) : Prop :=
  (∃ r, IntRow.i2GetConfLine fp rc = some r ∧ Sentinel r.rc r.err (ConfIdle fp)) ∧
    ∀ max, ∃ r, IntRow.i2ReadConfVar fp rc max = some r ∧ Sentinel r.rc r.err (ConfIdle fp)

/-- `parsefileline` on a stream. -/
def LineSentinel (fp : List UInt8) (rc : ℤ) : Prop :=
  ∃ r, IntRow.parsefileline fp rc = some r ∧
    Sentinel r.rc r.err (FileIdle (fun _ => False) fp)

/-- `I2ParseKeyFile` on a stream. -/
def KeySentinel (fp : List UInt8) (rc : ℤ) (query : Option (List UInt8)) : Prop :=
  ∃ r, IntRow.i2ParseKeyFile fp rc query = some r ∧
    Sentinel r.rc r.err (FileIdle (fun raw => keyLine query (cstr raw) = .skip) fp)

/-- `I2ParsePFFile` on a stream. -/
def PFSentinel (fp : List UInt8) (rc : ℤ) (query : Option (List UInt8)) : Prop :=
  ∃ r, IntRow.i2ParsePFFile fp rc query = some r ∧
    Sentinel r.rc r.err (FileIdle (fun raw => pfLine query (cstr raw) = .skip) fp)

/-- The first row holds a backslash that does not end it. -/
def StrayBackslash (fp : List UInt8) : Prop :=
  ∃ pre post, fp = pre ++ backslash :: post ∧ nl ∉ pre ∧ post.head? ≠ some nl

/-- The first row holds such a backslash and is no comment. -/
def BadConfRow (fp : List UInt8) : Prop :=
  StrayBackslash fp ∧ ((fp.takeWhile (· ≠ nl)).dropWhile isspace).head? ≠ some hash

/-- The first row is a data line with leading white space. -/
def BadFileRow (fp : List UInt8) : Prop :=
  ∃ ws c post, fp = ws ++ c :: post ∧ ws ≠ [] ∧ BlankText ws ∧ isspace c = false ∧ c ≠ hash

/-! ### `I2GetConfLine` -/

/-- The only message of `I2GetConfLine`, and the bounds on what it returns. -/
theorem i2GetConfLine.scan_rc {rc : ℤ} {line : List UInt8} {mode : ConfMode} {s : List UInt8}
    (hrc : 0 ≤ rc) :
    let r := i2GetConfLine.scan rc line mode s
    r.err = none ∧ 0 ≤ r.rc ∨ r.err = some .invalidUseOfBackslash ∧ r.rc ≤ -rc := by
  induction s generalizing rc line mode with
  | nil =>
      cases mode with
      | escape => simp [i2GetConfLine.scan]
      | text | comment =>
          simp only [i2GetConfLine.scan]
          split
          · simp
          · simp
            omega
  | cons c s ih =>
      have hnext := @ih (rc + 1) line .text (by omega)
      cases mode with
      | text =>
          simp only [i2GetConfLine.scan]
          split_ifs
          · simp
            omega
          · rcases hnext with h | h
            · exact .inl h
            · exact .inr ⟨h.1, by omega⟩
          all_goals exact ih hrc
      | comment =>
          simp only [i2GetConfLine.scan]
          split_ifs
          · rcases hnext with h | h
            · exact .inl h
            · exact .inr ⟨h.1, by omega⟩
          · exact ih hrc
      | escape =>
          simp only [i2GetConfLine.scan]
          split_ifs
          · rcases hnext with h | h
            · exact .inl h
            · exact .inr ⟨h.1, by omega⟩
          · simp

theorem i2GetConfLine_rc (fp : List UInt8) {rc : ℤ} (hrc : 0 ≤ rc) :
    (i2GetConfLine fp rc).err = none ∧ 0 ≤ (i2GetConfLine fp rc).rc ∨
      (i2GetConfLine fp rc).err = some .invalidUseOfBackslash ∧ (i2GetConfLine fp rc).rc ≤ -rc :=
  i2GetConfLine.scan_rc hrc

/-- A line that has its first character is not taken for the end of the stream: its row is
counted. -/
theorem i2GetConfLine.scan_line_row {rc : ℤ} {line : List UInt8} {mode : ConfMode}
    {s : List UInt8} (hline : line ≠ [])
    (herr : (i2GetConfLine.scan rc line mode s).err = none) :
    rc < (i2GetConfLine.scan rc line mode s).rc := by
  induction s generalizing rc line mode with
  | nil =>
      cases mode with
      | escape => cases herr
      | text | comment =>
          simp only [i2GetConfLine.scan, hline, if_false]
          omega
  | cons c s ih =>
      have hnext := fun h => (Int.lt_succ rc).trans (@ih (rc + 1) line .text hline h)
      have hmore := @ih rc (line ++ [c]) .text (by simp)
      cases mode with
      | text =>
          simp only [i2GetConfLine.scan, hline, ne_eq, not_false_iff, if_true, false_and,
            if_false] at herr ⊢
          split_ifs at herr ⊢
          · simp only
            omega
          · exact ih hline herr
          · exact hmore herr
      | comment =>
          simp only [i2GetConfLine.scan] at herr ⊢
          split_ifs at herr ⊢
          · exact hnext herr
          · exact ih hline herr
      | escape =>
          simp only [i2GetConfLine.scan] at herr ⊢
          split_ifs at herr ⊢
          exact hnext herr

/-- Without a message, 0 means that the stream was idle. In the other two modes
the characters that led there stand in front. -/
theorem i2GetConfLine.scan_idle {rc : ℤ} {mode : ConfMode} {s : List UInt8} (hrc : 0 ≤ rc)
    (herr : (i2GetConfLine.scan rc [] mode s).err = none)
    (hzero : (i2GetConfLine.scan rc [] mode s).rc = 0) :
    match mode with
    | .text => ConfIdle s
    | .comment => ∀ text, nl ∉ text → ConfIdle (hash :: (text ++ s))
    | .escape => ConfIdle (backslash :: s) := by
  induction s generalizing rc mode with
  | nil =>
      cases mode with
      | text => exact .nil
      | comment =>
          intro text htext
          rw [List.append_nil]
          exact .lastComment htext
      | escape => cases herr
  | cons c s ih =>
      have hnext := @ih (rc + 1) .text (by omega)
      cases mode with
      | text =>
          simp only [i2GetConfLine.scan, ne_eq, not_true, if_false, true_and] at herr hzero
          split_ifs at herr hzero with hnl hhash hspace hback
          · subst hnl
            exact .space isspace_nl (hnext herr hzero)
          · subst hhash
            exact @ih rc .comment hrc herr hzero [] List.not_mem_nil
          · exact .space hspace (@ih rc .text hrc herr hzero)
          · -- the backslash has to be the last character of its row
            subst hback
            exact @ih rc .escape hrc herr hzero
          · exact absurd hzero (hrc.trans_lt (scan_line_row (by simp) herr)).ne'
      | comment =>
          intro text htext
          simp only [i2GetConfLine.scan] at herr hzero
          split_ifs at herr hzero with hnl
          · subst hnl
            exact .comment htext (hnext herr hzero)
          · have hmem : nl ∉ text ++ [c] := by simp [htext, Ne.symm hnl]
            simpa using @ih rc .comment hrc herr hzero (text ++ [c]) hmem
      | escape =>
          simp only [i2GetConfLine.scan] at herr hzero
          split_ifs at herr hzero with hnl
          subst hnl
          exact .continued (hnext herr hzero)

/-! ### Rejections that return 0 -/

theorem not_strayBackslash_nil : ¬StrayBackslash [] := by
  rintro ⟨pre, post, h, -⟩
  simp at h

theorem strayBackslash_cons {c : UInt8} {s : List UInt8} :
    StrayBackslash (c :: s) ↔
      c = backslash ∧ s.head? ≠ some nl ∨ c ≠ nl ∧ StrayBackslash s := by
  constructor
  · rintro ⟨pre, post, h, hpre, hpost⟩
    cases pre with
    | nil =>
        obtain ⟨rfl, rfl⟩ := List.cons.inj h
        exact .inl ⟨rfl, hpost⟩
    | cons d pre =>
        obtain ⟨rfl, rfl⟩ := List.cons.inj h
        simp only [List.mem_cons, not_or] at hpre
        exact .inr ⟨Ne.symm hpre.1, pre, post, rfl, hpre.2, hpost⟩
  · rintro (⟨rfl, hs⟩ | ⟨hc, pre, post, rfl, hpre, hpost⟩)
    · exact ⟨[], s, rfl, List.not_mem_nil, hs⟩
    · exact ⟨c :: pre, post, rfl, by simp [hpre, Ne.symm hc], hpost⟩

theorem not_strayBackslash_of_head {s : List UInt8} (h : s.head? = some nl) :
    ¬StrayBackslash s := by
  cases s with
  | nil => cases h
  | cons c s =>
      obtain rfl : c = nl := by simpa using h
      rw [strayBackslash_cons]
      rintro (⟨hc, -⟩ | ⟨hc, -⟩)
      · exact absurd hc backslash_ne_nl.symm
      · exact hc rfl

/-- A call whose rejection of a line reads as the end of the stream. -/
def LineRead.Silent (r : LineRead) : Prop := r.err ≠ none ∧ r.rc = 0

theorem i2GetConfLine.not_silent_of_pos {rc : ℤ} {line : List UInt8} {mode : ConfMode}
    {s : List UInt8} (hrc : 0 < rc) : ¬(i2GetConfLine.scan rc line mode s).Silent := by
  rintro ⟨herr, hzero⟩
  rcases @scan_rc rc line mode s hrc.le with h | h
  · exact herr h.1
  · omega

theorem i2GetConfLine.silent_escape {line s : List UInt8} :
    (i2GetConfLine.scan 0 line .escape s).Silent ↔ s.head? ≠ some nl := by
  cases s with
  | nil => simp [i2GetConfLine.scan, LineRead.Silent]
  | cons c s =>
      rw [i2GetConfLine.scan]
      split_ifs with hnl
      · subst hnl
        simpa using i2GetConfLine.not_silent_of_pos (by omega)
      · simpa [LineRead.Silent] using hnl

theorem i2GetConfLine.not_silent_comment {line s : List UInt8} :
    ¬(i2GetConfLine.scan 0 line .comment s).Silent := by
  induction s with
  | nil =>
      rw [i2GetConfLine.scan]
      · split <;> simp [LineRead.Silent]
      · intro h
        cases h
  | cons c s ih =>
      rw [i2GetConfLine.scan]
      split_ifs
      · exact i2GetConfLine.not_silent_of_pos (by omega)
      · exact ih

theorem i2GetConfLine.silent_line {line s : List UInt8} (hline : line ≠ []) :
    (i2GetConfLine.scan 0 line .text s).Silent ↔ StrayBackslash s := by
  induction s generalizing line with
  | nil => simp [i2GetConfLine.scan, hline, LineRead.Silent, not_strayBackslash_nil]
  | cons c s ih =>
      rw [i2GetConfLine.scan, strayBackslash_cons]
      simp only [hline, ne_eq, not_false_iff, if_true, false_and, if_false]
      split_ifs with hnl hback
      · subst hnl
        simp [LineRead.Silent, backslash_ne_nl.symm]
      · subst hback
        rw [i2GetConfLine.silent_escape]
        by_cases hs : s.head? = some nl
        · simp [hs, not_strayBackslash_of_head hs]
        · simp [hs]
      · rw [ih (by simp)]
        simp [hnl, hback]

theorem i2GetConfLine_silent {fp : List UInt8} :
    (i2GetConfLine fp 0).Silent ↔ BadConfRow fp := by
  rw [i2GetConfLine, BadConfRow]
  induction fp with
  | nil => simp [i2GetConfLine.scan, LineRead.Silent, not_strayBackslash_nil]
  | cons c s ih =>
      rw [i2GetConfLine.scan, strayBackslash_cons]
      simp only [ne_eq, not_true, if_false, true_and]
      split_ifs with hnl hhash hspace hback
      · subst hnl
        simp only [i2GetConfLine.not_silent_of_pos (show (0 : ℤ) < 0 + 1 by omega), false_iff]
        simp [backslash_ne_nl.symm]
      · subst hhash
        simp [i2GetConfLine.not_silent_comment]
      · have hback : c ≠ backslash := by
          rintro rfl
          simp at hspace
        rw [ih]
        simp [hnl, hback, hspace]
      · subst hback
        rw [i2GetConfLine.silent_escape]
        by_cases hs : s.head? = some nl
        · simp [hs, not_strayBackslash_of_head hs]
        · simp [hs, hash_ne_backslash.symm]
      · rw [i2GetConfLine.silent_line (by simp)]
        simp [hnl, hback, hspace, hhash]

theorem Rejected.ne_none {err : Option ErrMsg} (h : Rejected err) : err ≠ none := by
  rintro rfl
  rcases h with h | ⟨row, h⟩ <;> cases h

theorem i2GetConfLine_sentinel {fp : List UInt8} {rc : ℤ} (hrc : 0 ≤ rc)
    (hsilent : ¬(i2GetConfLine fp rc).Silent) :
    Sentinel (i2GetConfLine fp rc).rc (i2GetConfLine fp rc).err (ConfIdle fp) := by
  have hbound := i2GetConfLine_rc fp hrc
  refine ⟨fun hrej => ?_, fun hzero => ?_⟩
  · have hne : (i2GetConfLine fp rc).rc ≠ 0 := fun h0 => hsilent ⟨hrej.ne_none, h0⟩
    rcases hbound with h | h
    · exact absurd h.1 hrej.ne_none
    · omega
  · have herr : (i2GetConfLine fp rc).err = none := by
      by_contra herr
      exact hsilent ⟨herr, hzero⟩
    exact i2GetConfLine.scan_idle hrc herr hzero

theorem i2ReadConfVar_sentinel {fp : List UInt8} {rc : ℤ} (hrc : 0 ≤ rc) (max : ℕ)
    (hsilent : ¬(i2GetConfLine fp rc).Silent) :
    Sentinel (i2ReadConfVar fp rc max).rc (i2ReadConfVar fp rc max).err (ConfIdle fp) := by
  have hline := i2GetConfLine_sentinel hrc hsilent
  rw [i2ReadConfVar_err]
  rcases lt_or_ge 0 (i2GetConfLine fp rc).rc with hpos | hle
  · refine ⟨fun hrej => absurd (hline.rejected hrej) (by omega), fun hzero => ?_⟩
    rcases i2ReadConfVar_rc_of_pos max hpos with h | h <;> omega
  · rw [i2ReadConfVar_rc_le hle]
    exact hline

theorem confSentinel_iff_not_silent {fp : List UInt8} {rc : ℤ} (hrc : 0 ≤ rc) :
    ConfSentinel fp rc ↔
      rc + i2GetConfLine.rows [] .text fp ≤ INT_MAX ∧ ¬(i2GetConfLine fp rc).Silent := by
  constructor
  · rintro ⟨hline, -⟩
    obtain ⟨hfits, r, hr, hsent⟩ := exists_counted.mp hline
    obtain rfl := Option.some.inj hr
    refine ⟨hfits, fun ⟨herr, hzero⟩ => ?_⟩
    rcases i2GetConfLine_rc fp hrc with h | h
    · exact herr h.1
    · exact (hsent.rejected (.inl h.1)).ne hzero
  · rintro ⟨hfits, hsilent⟩
    exact ⟨exists_counted.mpr ⟨hfits, _, rfl, i2GetConfLine_sentinel hrc hsilent⟩, fun max =>
      exists_counted.mpr ⟨hfits, _, rfl, i2ReadConfVar_sentinel hrc max hsilent⟩⟩

/-! ### `parsefileline` -/

theorem exists_lineEnd (s : List UInt8) :
    ∃ raw eol rest, s = raw ++ (eol ++ rest) ∧ nl ∉ raw ∧ LineEnd eol rest := by
  induction s with
  | nil => exact ⟨[], [], [], rfl, List.not_mem_nil, .eof⟩
  | cons c s ih =>
      by_cases hc : c = nl
      · subst hc
        exact ⟨[], [nl], s, rfl, List.not_mem_nil, .newline s⟩
      · obtain ⟨raw, eol, rest, rfl, hraw, heol⟩ := ih
        exact ⟨c :: raw, eol, rest, rfl, by simp [hraw, Ne.symm hc], heol⟩

/-- The only message of `parsefileline`, and the bounds on what it returns. -/
theorem parsefileline.scan_rc {rc : ℤ} {ns : ℕ} {comment : Bool} {s : List UInt8}
    (hrc : 0 ≤ rc) :
    let r := parsefileline.scan rc [] ns comment s
    r.err = none ∧ 0 ≤ r.rc ∨
      (∃ row, r.err = some (.leadingSpacesNotAllowed row)) ∧ r.rc ≤ -rc := by
  induction s generalizing rc ns comment with
  | nil => exact .inl ⟨rfl, Int.le_refl 0⟩
  | cons c s ih =>
      have hnext : ∀ ns, _ := fun ns => @ih (rc + 1) ns false (by omega)
      have hmono : ∀ {r : LineRead}, r.err = none ∧ 0 ≤ r.rc ∨
          (∃ row, r.err = some (.leadingSpacesNotAllowed row)) ∧ r.rc ≤ -(rc + 1) →
          r.err = none ∧ 0 ≤ r.rc ∨
            (∃ row, r.err = some (.leadingSpacesNotAllowed row)) ∧ r.rc ≤ -rc :=
        fun h => h.imp_right fun h => ⟨h.1, by omega⟩
      simp only [parsefileline.scan, ne_eq, not_true, if_false, true_and]
      split_ifs with hcomment hnl hnl hhash hspace hns
      · exact hmono (hnext ns)
      · exact ih hrc
      · exact hmono (hnext 0)
      · exact ih hrc
      · exact ih hrc
      · obtain ⟨raw, eol, rest, rfl, hraw, heol⟩ := exists_lineEnd s
        subst hns
        rw [List.nil_append, scan_content (List.cons_ne_nil c []) hraw heol]
        exact .inl ⟨rfl, by simp only; omega⟩
      · exact .inr ⟨⟨rc, rfl⟩, Int.le_refl _⟩

theorem parsefileline_rc (fp : List UInt8) {rc : ℤ} (hrc : 0 ≤ rc) :
    (parsefileline fp rc).err = none ∧ 0 ≤ (parsefileline fp rc).rc ∨
      (∃ row, (parsefileline fp rc).err = some (.leadingSpacesNotAllowed row)) ∧
        (parsefileline fp rc).rc ≤ -rc :=
  parsefileline.scan_rc hrc

/-- Without a message, the stream was idle up to the line that was read. Inside a
comment the characters that led there stand in front. -/
theorem parsefileline.scan_idle {skips : List UInt8 → Prop} {rc : ℤ} {ns : ℕ} {comment : Bool}
    {s : List UInt8} (hrc : 0 ≤ rc) (herr : (parsefileline.scan rc [] ns comment s).err = none)
    (hgo : (parsefileline.scan rc [] ns comment s).rc = 0 ∨
      skips (parsefileline.scan rc [] ns comment s).line ∧
        FileIdle skips (parsefileline.scan rc [] ns comment s).rest) :
    match comment with
    | false => FileIdle skips s
    | true => ∀ text, nl ∉ text → FileIdle skips (hash :: (text ++ s)) := by
  induction s generalizing rc ns comment with
  | nil =>
      cases comment with
      | false => exact .nil
      | true =>
          intro text htext
          rw [List.append_nil]
          exact .lastComment htext
  | cons c s ih =>
      have hnext : ∀ ns, _ := fun ns => @ih (rc + 1) ns false (by omega)
      cases comment with
      | false =>
          simp only [parsefileline.scan, ne_eq, not_true, if_false, true_and,
            Bool.false_eq_true] at herr hgo
          split_ifs at herr hgo with hnl hhash hspace hns
          · subst hnl
            exact .space isspace_nl (hnext 0 herr hgo)
          · subst hhash
            exact @ih rc ns true hrc herr hgo [] List.not_mem_nil
          · exact .space hspace (@ih rc (ns + 1) false hrc herr hgo)
          · obtain ⟨raw, eol, rest, rfl, hraw, heol⟩ := exists_lineEnd s
            subst hns
            rw [List.nil_append, scan_content (List.cons_ne_nil c []) hraw heol] at hgo
            rcases hgo with hzero | ⟨hskip, hrest⟩
            · simp only at hzero
              omega
            · exact .line (by simpa using hspace) hhash hraw heol hskip hrest
      | true =>
          intro text htext
          simp only [parsefileline.scan, if_true] at herr hgo
          split_ifs at herr hgo with hnl
          · subst hnl
            exact .comment htext (hnext ns herr hgo)
          · have hmem : nl ∉ text ++ [c] := by simp [htext, Ne.symm hnl]
            simpa using @ih rc ns true hrc herr hgo (text ++ [c]) hmem

theorem parsefileline.not_silent_of_pos {rc : ℤ} {ns : ℕ} {comment : Bool} {s : List UInt8}
    (hrc : 0 < rc) : ¬(parsefileline.scan rc [] ns comment s).Silent := by
  rintro ⟨herr, hzero⟩
  rcases @scan_rc rc ns comment s hrc.le with h | h
  · exact herr h.1
  · omega

theorem parsefileline.not_silent_comment {ns : ℕ} {s : List UInt8} :
    ¬(parsefileline.scan 0 [] ns true s).Silent := by
  induction s with
  | nil => simp [parsefileline.scan, LineRead.Silent]
  | cons c s ih =>
      rw [parsefileline.scan, if_pos rfl]
      split_ifs
      · exact parsefileline.not_silent_of_pos (show (0 : ℤ) < 0 + 1 by omega)
      · exact ih

/-- Data that is no comment follows white space, of which `ns` characters are already
read. -/
def DataBehind (ns : ℕ) (s : List UInt8) : Prop :=
  ∃ ws c post, s = ws ++ c :: post ∧ (ns ≠ 0 ∨ ws ≠ []) ∧ BlankText ws ∧ isspace c = false ∧
    c ≠ hash

theorem not_dataBehind_nil {ns : ℕ} : ¬DataBehind ns [] := by
  rintro ⟨ws, c, post, h, -⟩
  simp at h

theorem dataBehind_cons {ns : ℕ} {c : UInt8} {s : List UInt8} :
    DataBehind ns (c :: s) ↔ (ns ≠ 0 ∧ isspace c = false ∧ c ≠ hash) ∨
      (isspace c = true ∧ c ≠ nl ∧ DataBehind (ns + 1) s) := by
  constructor
  · rintro ⟨ws, d, post, h, hbehind, hws, hd⟩
    cases ws with
    | nil =>
        obtain ⟨rfl, -⟩ := List.cons.inj h
        exact .inl ⟨hbehind.resolve_right (by simp), hd⟩
    | cons e ws =>
        obtain ⟨rfl, rfl⟩ := List.cons.inj h
        obtain ⟨hspace, hnl⟩ := hws c List.mem_cons_self
        exact .inr ⟨hspace, hnl, ws, d, post, rfl, .inl (by simp),
          fun x hx => hws x (List.mem_cons_of_mem c hx), hd⟩
  · rintro (⟨hns, hc⟩ | ⟨hspace, hnl, ws, d, post, rfl, -, hws, hd⟩)
    · exact ⟨[], c, s, rfl, .inl hns, .nil, hc⟩
    · refine ⟨c :: ws, d, post, rfl, .inr (by simp), ?_, hd⟩
      intro e he
      rcases List.mem_cons.mp he with rfl | he
      · exact ⟨hspace, hnl⟩
      · exact hws e he

/-- A rejection that returns 0, when `ns` characters of white space are already
read. -/
theorem parsefileline.silent_iff {ns : ℕ} {s : List UInt8} :
    (parsefileline.scan 0 [] ns false s).Silent ↔ DataBehind ns s := by
  induction s generalizing ns with
  | nil => simp [parsefileline.scan, LineRead.Silent, not_dataBehind_nil]
  | cons c s ih =>
      simp only [parsefileline.scan, ne_eq, not_true, if_false, true_and, Bool.false_eq_true]
      rw [dataBehind_cons]
      split_ifs with hnl hhash hspace hns
      · subst hnl
        refine iff_of_false (parsefileline.not_silent_of_pos (show (0 : ℤ) < 0 + 1 by omega)) ?_
        simp
      · subst hhash
        refine iff_of_false parsefileline.not_silent_comment ?_
        simp
      · rw [ih]
        simp [hspace, hnl]
      · -- the row begins with data, so it is read to its end
        subst hns
        obtain ⟨raw, eol, rest, rfl, hraw, heol⟩ := exists_lineEnd s
        rw [List.nil_append, scan_content (List.cons_ne_nil c []) hraw heol]
        simp [LineRead.Silent, hspace]
      · -- data behind white space: the row is refused before it is counted
        simp [LineRead.Silent, hns, hspace, hhash]

theorem parsefileline_silent {fp : List UInt8} :
    (parsefileline fp 0).Silent ↔ BadFileRow fp := by
  rw [parsefileline, parsefileline.silent_iff, DataBehind, BadFileRow]
  simp

/-! ### The record readers -/

theorem parsefileline_sentinel {skips : List UInt8 → Prop} {fp : List UInt8} {rc : ℤ}
    (hrc : 0 ≤ rc) (hsilent : ¬(parsefileline fp rc).Silent) :
    Sentinel (parsefileline fp rc).rc (parsefileline fp rc).err (FileIdle skips fp) := by
  have hbound := parsefileline_rc fp hrc
  refine ⟨fun hrej => ?_, fun hzero => ?_⟩
  · have hne : (parsefileline fp rc).rc ≠ 0 := fun h0 => hsilent ⟨hrej.ne_none, h0⟩
    rcases hbound with h | h
    · exact absurd h.1 hrej.ne_none
    · omega
  · have herr : (parsefileline fp rc).err = none := by
      by_contra herr
      exact hsilent ⟨herr, hzero⟩
    exact parsefileline.scan_idle hrc herr (.inl hzero)

/-- A record reader whose first row is not rejected silently returns sentinels:
later rows are read with a positive counter. -/
theorem readRecords_sentinel {ρ : Type} {judge : List UInt8 → Verdict ρ} {fp : List UInt8}
    {rc : ℤ} (hrc : 0 ≤ rc) (hsilent : ¬(parsefileline fp rc).Silent) :
    ∃ r, readRecords judge fp rc = some r ∧
      Sentinel r.rc r.err (FileIdle (fun raw => judge (cstr raw) = .skip) fp) := by
  induction hlen : fp.length using Nat.strongRecOn generalizing fp rc with
  | _ n ih =>
      subst hlen
      have hbound := parsefileline_rc fp hrc
      rw [readRecords_eq]
      simp only [readRecords.body]
      by_cases hpos : 0 < (parsefileline fp rc).rc
      · have herr : (parsefileline fp rc).err = none := by
          rcases hbound with h | h
          · exact h.1
          · omega
        simp only [if_pos hpos]
        cases hjudge : judge (cstr (parsefileline fp rc).line) with
        | reject err =>
            refine ⟨_, rfl, fun _ => ?_, fun hzero => ?_⟩
            · show -(parsefileline fp rc).rc < 0
              omega
            · have hneg : -(parsefileline fp rc).rc = 0 := hzero
              omega
        | hit record =>
            exact ⟨_, rfl, fun hrej => absurd rfl hrej.ne_none, fun hzero => absurd hzero hpos.ne'⟩
        | skip =>
            obtain ⟨r, hr, hsent⟩ := ih _ (parsefileline_rest_lt hpos) hpos.le
              (parsefileline.not_silent_of_pos hpos) rfl
            simp only [hr, Option.map_some]
            refine ⟨_, rfl, hsent.rejected, fun hzero => ?_⟩
            exact parsefileline.scan_idle hrc herr (.inr ⟨hjudge, hsent.eof hzero⟩)
      · simp only [if_neg hpos]
        exact ⟨_, rfl, parsefileline_sentinel hrc hsilent⟩

theorem lineSentinel_iff_not_silent {fp : List UInt8} {rc : ℤ} (hrc : 0 ≤ rc) :
    LineSentinel fp rc ↔
      rc + fileRows anyLine fp ≤ INT_MAX ∧ ¬(parsefileline fp rc).Silent := by
  rw [LineSentinel, IntRow.parsefileline, exists_counted]
  refine and_congr_right fun _ => ⟨?_, fun hsilent => ⟨_, rfl, parsefileline_sentinel hrc hsilent⟩⟩
  rintro ⟨r, hr, hsent⟩ ⟨herr, hzero⟩
  obtain rfl := Option.some.inj hr
  rcases parsefileline_rc fp hrc with h | h
  · exact herr h.1
  · exact (hsent.rejected (.inr h.1)).ne hzero

theorem recordSentinel_iff_not_silent {ρ : Type} {judge : List UInt8 → Verdict ρ}
    {fp : List UInt8} {rc : ℤ} (hrc : 0 ≤ rc) :
    (∃ r, readRecords judge fp rc = some r ∧
        Sentinel r.rc r.err (FileIdle (fun raw => judge (cstr raw) = .skip) fp)) ↔
      ¬(parsefileline fp rc).Silent := by
  refine ⟨?_, fun hsilent => readRecords_sentinel hrc hsilent⟩
  rintro ⟨r, hr, hsent⟩ ⟨herr, hzero⟩
  rw [readRecords_eq, readRecords.body, if_neg (by simp [hzero])] at hr
  obtain rfl := Option.some.inj hr
  rcases parsefileline_rc fp hrc with h | h
  · exact herr h.1
  · exact (hsent.rejected (.inr h.1)).ne hzero

theorem parsefileline_not_silent_iff {fp : List UInt8} {rc : ℤ} (hrc : 0 ≤ rc) :
    ¬(parsefileline fp rc).Silent ↔ rc ≠ 0 ∨ ¬BadFileRow fp := by
  rcases eq_or_ne rc 0 with rfl | hne
  · simp [parsefileline_silent]
  · have hsilent : ¬(parsefileline fp rc).Silent :=
      parsefileline.not_silent_of_pos (lt_of_le_of_ne hrc hne.symm)
    simp [hne, hsilent]

theorem i2GetConfLine_not_silent_iff {fp : List UInt8} {rc : ℤ} (hrc : 0 ≤ rc) :
    ¬(i2GetConfLine fp rc).Silent ↔ rc ≠ 0 ∨ ¬BadConfRow fp := by
  rcases eq_or_ne rc 0 with rfl | hne
  · simp [i2GetConfLine_silent]
  · have hsilent : ¬(i2GetConfLine fp rc).Silent :=
      i2GetConfLine.not_silent_of_pos (lt_of_le_of_ne hrc hne.symm)
    simp [hne, hsilent]

end I2util
