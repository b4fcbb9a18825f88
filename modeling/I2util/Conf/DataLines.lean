import I2util.Conf.Rows

/-!
A file as the data lines that its line reader hands over, and the calls of a record
reader on them.

`readRecords.Run` follows the loop of a call and keeps the lines that it consumes.
`CallShape` says the same about the list of data lines alone.
-/

namespace I2util

variable {ρ : Type} {judge : List UInt8 → Verdict ρ}

/-! ### The data lines of a file -/

/-- The data lines of some rows, as C strings. `none` stands for one that the line reader
refuses because of the white space counted in front of it. -/
def dataLines : ℕ → List Row → List (Option (List UInt8))
  | _, [] => []
  | ns, row :: rows =>
      match row.kind with
      | .data =>
          (if ns + row.indent = 0 then some (cstr row.text) else none) :: dataLines 0 rows
      | _ => dataLines (row.carry ns) rows

def fileLines (fp : List UInt8) : List (Option (List UInt8)) :=
  dataLines 0 ((splitRows fp).1 ++ [(splitRows fp).2])

@[simp] theorem fileLines_nil : fileLines [] = [] := rfl

theorem splitRows_joinRows (rows : List Row) (last : Row) :
    splitRows (joinRows rows ++ last.text) = (rows, last) := by
  induction rows with
  | nil => exact splitRows_last last
  | cons row rows ih =>
      rw [joinRows_cons, List.append_assoc, List.cons_append, splitRows_row, ih]

theorem fileLines_joinRows (rows : List Row) (last : Row) :
    fileLines (joinRows rows ++ last.text) = dataLines 0 (rows ++ [last]) := by
  rw [fileLines, splitRows_joinRows]

/-- What the line reader returns, entered with the row counter at `rc`, when these are
the data lines in front of it. -/
def Fetches (rc : ℤ) (r : LineRead) : List (Option (List UInt8)) → Prop
  | [] => r.rc = 0
  | none :: _ => r.rc ≤ 0 ∧ (0 < rc → r.rc < 0)
  | some line :: lines => rc < r.rc ∧ cstr r.line = line ∧ fileLines r.rest = lines

theorem Fetches.print {rc : ℤ} {r : LineRead} {lines : List (Option (List UInt8))}
    (h : Fetches (rc + 1) r lines) (text : List UInt8) : Fetches rc (r.print text) lines := by
  match lines, h with
  | [], h => exact h
  | none :: _, ⟨hle, hlt⟩ => exact ⟨hle, fun hpos => hlt (by omega)⟩
  | some _ :: _, ⟨hrc, hline, hrest⟩ => exact ⟨show rc < r.rc by omega, hline, hrest⟩

/-- A data row, with what is behind it. -/
theorem parsefileline.scan_fetches {rc : ℤ} {ns : ℕ} {row : Row} {eol s : List UInt8}
    (hkind : row.kind = .data) (heol : LineEnd eol s) (hrc : 0 ≤ rc)
    {lines : List (Option (List UInt8))} (hs : fileLines s = lines) :
    Fetches rc (parsefileline.scan rc [] ns false (row.text ++ (eol ++ s)))
      ((if ns + row.indent = 0 then some (cstr row.text) else none) :: lines) := by
  by_cases hns : ns + row.indent = 0
  · rw [if_pos hns, parsefileline.scan_dataRow hkind hns heol]
    exact ⟨by simp only; omega, rfl, hs⟩
  · rw [if_neg hns, parsefileline.scan_refused hkind hns]
    exact ⟨by simp only; omega, fun hpos => by simp only; omega⟩

theorem parsefileline.scan_lines (rows : List Row) (last : Row) (ns : ℕ) {rc : ℤ}
    (hrc : 0 ≤ rc) :
    Fetches rc (parsefileline.scan rc [] ns false (joinRows rows ++ last.text))
      (dataLines ns (rows ++ [last])) := by
  induction rows generalizing ns rc with
  | nil =>
      rw [joinRows_nil, List.nil_append, List.nil_append, dataLines]
      cases hkind : last.kind with
      | blank =>
          rw [parsefileline.scan_lastBlank hkind]
          rfl
      | comment =>
          rw [parsefileline.scan_lastComment hkind]
          rfl
      | data =>
          -- the last row ends with the stream
          have h := @parsefileline.scan_fetches rc ns last [] [] hkind .eof hrc [] fileLines_nil
          rwa [List.append_nil, List.append_nil] at h
  | cons row rows ih =>
      rw [joinRows_cons, List.append_assoc, List.cons_append, List.cons_append, dataLines]
      have hnext := fun n => @ih n (rc + 1) (by omega)
      cases hkind : row.kind with
      | blank =>
          rw [parsefileline.scan_blankRow hkind]
          have h := (hnext 0).print [nl]
          simpa [Row.carry, hkind] using h
      | comment =>
          rw [parsefileline.scan_commentRow hkind]
          have h := (hnext (ns + row.indent)).print (row.copy ns ++ [nl])
          simpa [Row.carry, hkind] using h
      | data =>
          exact parsefileline.scan_fetches hkind (.newline _) hrc (fileLines_joinRows rows last)

/-- A data line is empty, when the row begins with a NUL, or begins in the first column. -/
theorem Row.cstr_data {row : Row} {ns : ℕ} (hkind : row.kind = .data) (hns : ns + row.indent = 0) :
    cstr row.text = [] ∨ DataText (cstr row.text) := by
  obtain ⟨c, t, hbody, hspace, hhash, ht⟩ := Row.kind_data hkind
  have hnone : row.text.takeWhile isspace = [] := by
    apply List.eq_nil_of_length_eq_zero
    rw [← Row.indent]
    omega
  have htext := row.text_eq
  rw [hnone, hbody, List.nil_append] at htext
  rw [← htext]
  by_cases hc : c = 0
  · exact .inl (by simp [cstr, hc])
  · have hfirst : cstr (c :: t) = c :: cstr t := by simp [cstr, hc]
    rw [hfirst]
    refine .inr ⟨?_, ?_, c, cstr t, rfl, hspace, hhash⟩
    · have hnl : nl ∉ cstr t := fun h => ht ((List.takeWhile_prefix _).subset h)
      simp [hnl, (ne_nl_of_not_isspace hspace).symm]
    · simp [cstr_no_nul t, Ne.symm hc]

theorem dataLines_text {ns : ℕ} {rows : List Row} {line : List UInt8}
    (h : some line ∈ dataLines ns rows) : line = [] ∨ DataText line := by
  induction rows generalizing ns with
  | nil => exact absurd h List.not_mem_nil
  | cons row rows ih =>
      rw [dataLines] at h
      split at h
      · rename_i hkind
        rcases List.mem_cons.mp h with hline | hrest
        · split at hline
          · rename_i hns
            rw [Option.some.inj hline]
            exact Row.cstr_data hkind hns
          · cases hline
        · exact ih hrest
      · exact ih h

theorem fileLines_text {fp line : List UInt8} (h : some line ∈ fileLines fp) :
    line = [] ∨ DataText line :=
  dataLines_text h

theorem fileLines_no_nul {fp line : List UInt8} (h : some line ∈ fileLines fp) :
    (0 : UInt8) ∉ line := by
  rcases fileLines_text h with rfl | hline
  · exact List.not_mem_nil
  · exact hline.no_nul

theorem parsefileline_lines (fp : List UInt8) {rc : ℤ} (hrc : 0 ≤ rc) :
    Fetches rc (parsefileline fp rc) (fileLines fp) := by
  have h := parsefileline.scan_lines (splitRows fp).1 (splitRows fp).2 0 hrc
  rwa [joinRows_splitRows] at h

/-! ### The calls of a record reader -/

/-- How a call ends. `fetched` says that the refused line was judged, and not refused by
the line reader. -/
inductive CallEnd (ρ : Type)
  | eof
  | refused (fetched : Bool)
  | hit (record : ρ) (behind : List (Option (List UInt8)))

/-- A call on some data lines: those that it consumes, and how it ends. -/
inductive CallShape (judge : List UInt8 → Verdict ρ) :
    List (Option (List UInt8)) → List (List UInt8) → CallEnd ρ → Prop
  | eof : CallShape judge [] [] .eof
  | refused {lines : List (Option (List UInt8))} :
      CallShape judge (none :: lines) [] (.refused false)
  | reject {line : List UInt8} {lines : List (Option (List UInt8))} {err : Option ErrMsg}
      (hjudge : judge line = .reject err) :
      CallShape judge (some line :: lines) [] (.refused true)
  | hit {line : List UInt8} {lines : List (Option (List UInt8))} {record : ρ}
      (hjudge : judge line = .hit record) :
      CallShape judge (some line :: lines) [line] (.hit record lines)
  | skip {line : List UInt8} {lines : List (Option (List UInt8))} {consumed : List (List UInt8)}
      {e : CallEnd ρ} (hjudge : judge line = .skip) (hrest : CallShape judge lines consumed e) :
      CallShape judge (some line :: lines) (line :: consumed) e

theorem callShape_exists (judge : List UInt8 → Verdict ρ) (lines : List (Option (List UInt8))) :
    ∃ consumed e, CallShape judge lines consumed e := by
  induction lines with
  | nil => exact ⟨[], .eof, .eof⟩
  | cons line lines ih =>
      cases line with
      | none => exact ⟨[], .refused false, .refused⟩
      | some line =>
          cases hjudge : judge line with
          | reject err => exact ⟨[], .refused true, .reject hjudge⟩
          | skip =>
              obtain ⟨consumed, e, h⟩ := ih
              exact ⟨line :: consumed, e, .skip hjudge h⟩
          | hit record => exact ⟨[line], .hit record lines, .hit hjudge⟩

/-- A record that is returned comes from one of the lines. -/
theorem CallShape.hit_line {lines : List (Option (List UInt8))} {consumed : List (List UInt8)}
    {e : CallEnd ρ} (h : CallShape judge lines consumed e) {record : ρ}
    {behind : List (Option (List UInt8))} (he : e = .hit record behind) :
    ∃ line, some line ∈ lines ∧ judge line = .hit record := by
  induction h with
  | eof => cases he
  | refused => cases he
  | reject => cases he
  | hit hjudge =>
      cases he
      exact ⟨_, List.mem_cons_self, hjudge⟩
  | skip _ _ ih =>
      obtain ⟨line, hmem, hjudge⟩ := ih he
      exact ⟨line, List.mem_cons_of_mem _ hmem, hjudge⟩

def ReadState.fetched (st : ReadState) : List UInt8 := cstr (parsefileline st.fp st.rc).line

/-- A run of the loop, with the data lines that it copies and the one that it returns. -/
inductive readRecords.Run (judge : List UInt8 → Verdict ρ) :
    ReadState → List (List UInt8) → FileRead ρ → Prop
  | copies {st st' : ReadState} {lines : List (List UInt8)} {r : FileRead ρ}
      (hbody : readRecords.body judge st = .inl st') (hrest : readRecords.Run judge st' lines r) :
      readRecords.Run judge st (st.fetched :: lines) r
  | returns {st : ReadState} {r : FileRead ρ} (hbody : readRecords.body judge st = .inr r)
      (hrc : 0 < r.rc) : readRecords.Run judge st [st.fetched] r
  | ends {st : ReadState} {r : FileRead ρ} (hbody : readRecords.body judge st = .inr r)
      (hrc : r.rc ≤ 0) : readRecords.Run judge st [] r

theorem readRecords.Run.loop {st : ReadState} {lines : List (List UInt8)} {r : FileRead ρ}
    (h : readRecords.Run judge st lines r) :
    Loop.whileLoop (readRecords.body judge) (fun st => st.fp.length) st = some r := by
  induction h with
  | copies hbody _ ih =>
      rw [Loop.whileLoop_goes_on readRecords.body_decreases hbody]
      exact ih
  | returns hbody _ => exact Loop.whileLoop_leaves hbody
  | ends hbody _ => exact Loop.whileLoop_leaves hbody

theorem readRecords.Run.result {fp : List UInt8} {rc : ℤ} {lines : List (List UInt8)}
    {r : FileRead ρ} (h : readRecords.Run judge ⟨rc, fp, []⟩ lines r) :
    readRecords judge fp rc = some r :=
  h.loop

theorem readRecords.Run.lines_unique {st : ReadState} {lines lines' : List (List UInt8)}
    {r r' : FileRead ρ} (h : readRecords.Run judge st lines r)
    (h' : readRecords.Run judge st lines' r') : lines = lines' := by
  induction h generalizing lines' with
  | copies hbody _ ih =>
      cases h' with
      | copies hbody' hrest' =>
          obtain rfl := Sum.inl.inj (hbody.symm.trans hbody')
          rw [ih hrest']
      | returns hbody' _ => exact absurd (hbody.symm.trans hbody') (by simp)
      | ends hbody' _ => exact absurd (hbody.symm.trans hbody') (by simp)
  | returns hbody hrc =>
      cases h' with
      | copies hbody' _ => exact absurd (hbody.symm.trans hbody') (by simp)
      | returns _ _ => rfl
      | ends hbody' hrc' =>
          obtain rfl := Sum.inr.inj (hbody.symm.trans hbody')
          omega
  | ends hbody hrc =>
      cases h' with
      | copies hbody' _ => exact absurd (hbody.symm.trans hbody') (by simp)
      | returns hbody' hrc' =>
          obtain rfl := Sum.inr.inj (hbody.symm.trans hbody')
          omega
      | ends _ _ => rfl

/-- What a call returns that ends like this, entered with the row counter at `rc`. -/
def CallEnd.Returns (rc : ℤ) (consumed : List (List UInt8)) (r : FileRead ρ) : CallEnd ρ → Prop
  | .eof => r.rc = 0 ∧ r.found = none
  | .refused fetched =>
      r.rc ≤ 0 ∧ r.found = none ∧ (0 < rc ∨ consumed ≠ [] ∨ fetched = true → r.rc < 0)
  | .hit record behind => rc < r.rc ∧ r.found = some record ∧ fileLines r.rest = behind

theorem readRecords.body_line {st : ReadState} {r : LineRead} {line : List UInt8}
    (hread : parsefileline st.fp st.rc = r) (hrc : 0 < r.rc) (hline : cstr r.line = line) :
    readRecords.body judge st =
      match judge line with
      | .reject err => .inr ⟨-r.rc, none, r.rest, st.out ++ r.out, err⟩
      | .skip => .inl ⟨r.rc, r.rest, st.out ++ r.out ++ line ++ [nl]⟩
      | .hit record => .inr ⟨r.rc, some record, r.rest, st.out ++ r.out, none⟩ := by
  subst hread hline
  exact if_pos hrc

theorem readRecords.body_none {st : ReadState} {r : LineRead}
    (hread : parsefileline st.fp st.rc = r) (hrc : r.rc ≤ 0) :
    readRecords.body judge st = .inr ⟨r.rc, none, r.rest, st.out ++ r.out, r.err⟩ := by
  subst hread
  exact if_neg (by omega)

/-- The call on a file is the one on its data lines. -/
theorem CallShape.run {lines : List (Option (List UInt8))} {consumed : List (List UInt8)}
    {e : CallEnd ρ} (h : CallShape judge lines consumed e) {st : ReadState} (hrc : 0 ≤ st.rc)
    (hlines : fileLines st.fp = lines) :
    ∃ r, readRecords.Run judge st consumed r ∧ e.Returns st.rc consumed r := by
  have hfetch := parsefileline_lines st.fp hrc
  rw [hlines] at hfetch
  generalize hread : parsefileline st.fp st.rc = r at hfetch
  induction h generalizing st r with
  | eof =>
      have hzero : r.rc = 0 := hfetch
      have hbody := @readRecords.body_none ρ judge st r hread (by omega)
      exact ⟨_, .ends hbody (by simp only; omega), hzero, rfl⟩
  | refused =>
      obtain ⟨hle, hlt⟩ := hfetch
      have hbody := @readRecords.body_none ρ judge st r hread hle
      exact ⟨_, .ends hbody hle, hle, rfl, fun hor => hlt (by simpa using hor)⟩
  | reject hjudge =>
      obtain ⟨hlt, hline, -⟩ := hfetch
      have hbody := @readRecords.body_line ρ judge st r _ hread (by omega) hline
      rw [hjudge] at hbody
      refine ⟨_, .ends hbody (by simp only; omega), by simp only; omega, rfl, fun _ => ?_⟩
      simp only
      omega
  | hit hjudge =>
      obtain ⟨hlt, hline, hrest⟩ := hfetch
      have hbody := @readRecords.body_line ρ judge st r _ hread (by omega) hline
      rw [hjudge] at hbody
      have hrun := readRecords.Run.returns hbody (by simp only; omega)
      rw [ReadState.fetched, hread, hline] at hrun
      exact ⟨_, hrun, hlt, rfl, hrest⟩
  | @skip line lines consumed e hjudge _ ih =>
      obtain ⟨hlt, hline, hrest⟩ := hfetch
      have hbody := @readRecords.body_line ρ judge st r _ hread (by omega) hline
      rw [hjudge] at hbody
      -- the rest is a call with the counter behind this line
      have hpos : 0 < r.rc := by omega
      have hnext := parsefileline_lines r.rest (show 0 ≤ r.rc by omega)
      rw [hrest] at hnext
      obtain ⟨r', hrun, hreturns⟩ := @ih
        ⟨r.rc, r.rest, st.out ++ r.out ++ line ++ [nl]⟩ (Int.le_of_lt hpos) hrest _ rfl hnext
      have hrun := readRecords.Run.copies hbody hrun
      rw [ReadState.fetched, hread, hline] at hrun
      refine ⟨r', hrun, ?_⟩
      cases e with
      | eof => exact hreturns
      | refused fetched =>
          obtain ⟨hle, hfound, hneg⟩ := hreturns
          exact ⟨hle, hfound, fun _ => hneg (.inl hpos)⟩
      | hit record behind =>
          obtain ⟨hlt', hfound, hbehind⟩ := hreturns
          exact ⟨Int.lt_trans hlt hlt', hfound, hbehind⟩

theorem CallShape.call {fp : List UInt8} {rc : ℤ} {consumed : List (List UInt8)}
    {e : CallEnd ρ} (h : CallShape judge (fileLines fp) consumed e) (hrc : 0 ≤ rc) :
    ∃ r, readRecords judge fp rc = some r ∧ e.Returns rc consumed r := by
  obtain ⟨r, hrun, hreturns⟩ := @CallShape.run _ _ _ _ _ h ⟨rc, fp, []⟩ hrc rfl
  exact ⟨r, hrun.result, hreturns⟩

end I2util
