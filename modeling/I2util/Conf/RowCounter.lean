import I2util.Conf.ConfLine
import I2util.Conf.PFFile
import I2util.Conf.Rows

/-!
The row counter `rc` of the readers, which is an `int`.

A call adds 1 to it for each row that it counts. `i2GetConfLine.rows` and `fileRows` are
the numbers of these rows, as functions of the stream. When the counter would go beyond
`INT_MAX` the addition overflows, and the call has no result; the calls of `IntRow` are
those of the readers with this bound.
-/

namespace I2util

def INT_MAX : ℤ := 2147483647

/-- The rows that `I2GetConfLine` counts: how often its loops come to `rc++`. -/
def i2GetConfLine.rows (line : List UInt8) : ConfMode → List UInt8 → ℕ
  | .escape, [] => 0
  | _, [] => if line = [] then 0 else 1
  | .comment, c :: s =>
      if c = nl then i2GetConfLine.rows line .text s + 1 else i2GetConfLine.rows line .comment s
  | .escape, c :: s => if c = nl then i2GetConfLine.rows line .text s + 1 else 0
  | .text, c :: s =>
      if c = nl then
        if line ≠ [] then 1 else i2GetConfLine.rows line .text s + 1
      else if line = [] ∧ c = hash then i2GetConfLine.rows line .comment s
      else if line = [] ∧ isspace c = true then i2GetConfLine.rows line .text s
      else if c = backslash then i2GetConfLine.rows line .escape s
      else i2GetConfLine.rows (line ++ [c]) .text s

variable {ρ : Type}

/-- The rows that a reader of records counts: those it passes over, and the one that ends
the call unless it is refused. A row without a newline is counted when it holds data. -/
def countedRows (judge : List UInt8 → Verdict ρ) : ℕ → List Row → Row → ℕ
  | ns, [], last => if last.kind = .data ∧ ns + last.indent = 0 then 1 else 0
  | ns, row :: rows, last =>
      if row.passed judge ns = true then countedRows judge (row.carry ns) rows last + 1
      else if ns + row.indent = 0 then 1
      else 0

def fileRows (judge : List UInt8 → Verdict ρ) (fp : List UInt8) : ℕ :=
  countedRows judge 0 (splitRows fp).1 (splitRows fp).2

/-- Every data line ends a call of `parsefileline`. -/
def anyLine (_line : List UInt8) : Verdict Unit := .hit ()

/-- A call that counts `rows` rows, entered with the counter at `rc`. -/
def counted {α : Type} (rc : ℤ) (rows : ℕ) (call : Option α) : Option α :=
  if rc + rows ≤ INT_MAX then call else none

theorem exists_counted {α : Type} {rc : ℤ} {rows : ℕ} {call : Option α} {p : α → Prop} :
    (∃ r, counted rc rows call = some r ∧ p r) ↔
      rc + rows ≤ INT_MAX ∧ ∃ r, call = some r ∧ p r := by
  rw [counted]
  split_ifs with hfits
  · exact (and_iff_right hfits).symm
  · exact iff_of_false (by rintro ⟨r, hr, -⟩; cases hr) fun h => hfits h.1

namespace IntRow

def i2GetConfLine (fp : List UInt8) (rc : ℤ) : Option LineRead :=
  counted rc (i2GetConfLine.rows [] .text fp) (some (I2util.i2GetConfLine fp rc))

/-- All rows are counted by `I2GetConfLine`. -/
def i2ReadConfVar (fp : List UInt8) (rc : ℤ) (max : ℕ) : Option ConfRead :=
  counted rc (i2GetConfLine.rows [] .text fp) (some (I2util.i2ReadConfVar fp rc max))

def parsefileline (fp : List UInt8) (rc : ℤ) : Option LineRead :=
  counted rc (fileRows anyLine fp) (some (I2util.parsefileline fp rc))

def i2ParseKeyFile (fp : List UInt8) (rc : ℤ) (id_query : Option (List UInt8)) :
    Option (FileRead (List UInt8 × List UInt8)) :=
  counted rc (fileRows (keyLine id_query) fp) (I2util.i2ParseKeyFile (some fp) rc id_query)

def i2ParsePFFile (filep : List UInt8) (rc : ℤ) (id_query : Option (List UInt8)) :
    Option (FileRead (List UInt8 × List UInt8)) :=
  counted rc (fileRows (pfLine id_query) filep) (I2util.i2ParsePFFile (some filep) rc id_query)

end IntRow

/-! ### The counter is what the readers return -/

/-- A value that is returned is the counter, negated or not, or 0. -/
def Counts (rc : ℤ) (rows : ℕ) (value : ℤ) : Prop :=
  value = 0 ∨ value = rc + rows ∨ value = -(rc + rows)

theorem Counts.succ {rc : ℤ} {rows : ℕ} {value : ℤ} (h : Counts (rc + 1) rows value) :
    Counts rc (rows + 1) value := by
  rw [Counts] at h ⊢
  omega

theorem i2GetConfLine.scan_counts {rc : ℤ} {line : List UInt8} {mode : ConfMode}
    {s : List UInt8} :
    Counts rc (i2GetConfLine.rows line mode s) (i2GetConfLine.scan rc line mode s).rc := by
  induction s generalizing rc line mode with
  | nil =>
      cases mode with
      | escape => exact .inr (.inr (by simp [i2GetConfLine.scan, i2GetConfLine.rows]))
      | text | comment =>
          simp only [i2GetConfLine.scan, i2GetConfLine.rows]
          split_ifs
          · exact .inl rfl
          · exact .inr (.inl rfl)
  | cons c s ih =>
      cases mode with
      | text =>
          simp only [i2GetConfLine.scan, i2GetConfLine.rows]
          split_ifs
          · exact .inr (.inl rfl)
          · exact ih.succ
          all_goals exact ih
      | comment =>
          simp only [i2GetConfLine.scan, i2GetConfLine.rows]
          split_ifs
          · exact ih.succ
          · exact ih
      | escape =>
          simp only [i2GetConfLine.scan, i2GetConfLine.rows]
          split_ifs
          · exact ih.succ
          · exact .inr (.inr (by simp))

theorem i2GetConfLine_counts (fp : List UInt8) (rc : ℤ) :
    Counts rc (i2GetConfLine.rows [] .text fp) (i2GetConfLine fp rc).rc :=
  i2GetConfLine.scan_counts

/-- The result of a reader of records is one for the rows that it counts. -/
theorem readFrom_counts {judge : List UInt8 → Verdict ρ} {ns : ℕ} {rc : ℤ} (hrc : 0 ≤ rc)
    (rows : List Row) (last : Row) :
    ∃ r, readFrom judge ns (joinRows rows ++ last.text) rc = some r ∧
      Counts rc (countedRows judge ns rows last) r.rc := by
  induction rows generalizing ns rc with
  | nil =>
      rw [joinRows_nil, List.nil_append, countedRows]
      by_cases hkind : last.kind = .data
      · by_cases hns : ns + last.indent = 0
        · have hread := @readFrom_data _ judge ns rc last [] [] hkind hns .eof hrc
          rw [List.append_nil, List.append_nil] at hread
          rw [hread, if_pos ⟨hkind, hns⟩]
          cases judge (cstr last.text) with
          | reject err => exact ⟨_, rfl, .inr (.inr rfl)⟩
          | skip => exact ⟨_, rfl, .inl rfl⟩
          | hit record => exact ⟨_, rfl, .inr (.inl rfl)⟩
        · have hread := @readFrom_refused _ judge ns rc last [] hkind hns hrc
          rw [List.append_nil, List.append_nil] at hread
          rw [if_neg fun h => hns h.2]
          exact ⟨_, hread, .inr (.inr (by simp))⟩
      · exact ⟨_, readFrom_lastIdle hkind, .inl rfl⟩
  | cons row rows ih =>
      rw [joinRows_cons, List.append_assoc, List.cons_append, countedRows]
      by_cases hpassed : row.passed judge ns = true
      · obtain ⟨r, hr, hcounts⟩ := @ih (row.carry ns) (rc + 1) (by omega)
        rw [readFrom_passed hpassed hrc, hr, if_pos hpassed]
        exact ⟨_, rfl, hcounts.succ⟩
      · have hkind : row.kind = .data := Row.kind_of_not_passed (by simpa using hpassed)
        rw [if_neg hpassed]
        by_cases hns : ns + row.indent = 0
        · have hread := @readFrom_data _ judge ns rc row [nl] (joinRows rows ++ last.text) hkind hns
            (.newline _) hrc
          rw [if_pos hns]
          cases hjudge : judge (cstr row.text) with
          | reject err =>
              rw [hjudge] at hread
              exact ⟨_, hread, .inr (.inr rfl)⟩
          | skip => exact absurd ((Row.passed_data hkind).mpr ⟨hns, hjudge⟩) hpassed
          | hit record =>
              rw [hjudge] at hread
              exact ⟨_, hread, .inr (.inl rfl)⟩
        · have hread :=
            @readFrom_refused _ judge ns rc row (nl :: (joinRows rows ++ last.text)) hkind hns hrc
          rw [if_neg hns]
          exact ⟨_, hread, .inr (.inr (by simp))⟩

theorem readRecords_counts (judge : List UInt8 → Verdict ρ) (fp : List UInt8) {rc : ℤ}
    (hrc : 0 ≤ rc) :
    ∃ r, readRecords judge fp rc = some r ∧ Counts rc (fileRows judge fp) r.rc := by
  obtain ⟨r, hr, hcounts⟩ :=
    @readFrom_counts _ judge 0 rc hrc (splitRows fp).1 (splitRows fp).2
  rw [joinRows_splitRows, ← readRecords_eq_readFrom] at hr
  exact ⟨r, hr, hcounts⟩

/-- The line reader returns what a reader returns that every data line ends. -/
theorem parsefileline_counts (fp : List UInt8) {rc : ℤ} (hrc : 0 ≤ rc) :
    Counts rc (fileRows anyLine fp) (parsefileline fp rc).rc := by
  obtain ⟨r, hr, hcounts⟩ := readRecords_counts anyLine fp hrc
  rw [readRecords_eq] at hr
  simp only [readRecords.body, anyLine] at hr
  split_ifs at hr <;> cases hr <;> exact hcounts

end I2util
