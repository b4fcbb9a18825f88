import I2util.Conf.Rows
import I2util.Store.Format

/-!
Comments and blank lines inserted into a file of records.

Successive calls return the records of a file one by one. `readAll` is the whole
sequence. `readAlone` says what it should be: every line is read for itself. The
two differ through the counter of leading spaces, which survives a comment.
-/

namespace I2util

/-- What successive calls return, up to the one that returns no record: the
records, whether that last call returned 0, and the bytes printed to `tofp`. -/
structure WholeRead (ρ : Type) where
  records : List ρ
  ok : Bool
  out : List UInt8

variable {ρ : Type}

@[ext] theorem WholeRead.ext {a b : WholeRead ρ} (hrecords : a.records = b.records)
    (hok : a.ok = b.ok) (hout : a.out = b.out) : a = b := by
  cases a
  cases b
  simp_all

def WholeRead.print (text : List UInt8) (w : WholeRead ρ) : WholeRead ρ :=
  { w with out := text ++ w.out }

def WholeRead.add (records : List ρ) (w : WholeRead ρ) : WholeRead ρ :=
  { w with records := records ++ w.records }

def readAll.calls (judge : List UInt8 → Verdict ρ) : ℕ → List UInt8 → ℤ → WholeRead ρ
  | 0, _, _ => ⟨[], false, []⟩
  | n + 1, fp, rc =>
      match readRecords judge fp rc with
      | none => ⟨[], false, []⟩
      | some r =>
          if 0 < r.rc then
            ((readAll.calls judge n r.rest r.rc).add r.found.toList).print r.out
          else ⟨[], r.rc = 0, r.out⟩

/-- Calls until one of them returns no record. Every call consumes something. -/
def readAll (judge : List UInt8 → Verdict ρ) (fp : List UInt8) (rc : ℤ) : WholeRead ρ :=
  readAll.calls judge (fp.length + 1) fp rc

def Row.readData (judge : List UInt8 → Verdict ρ) (ns : ℕ) (row : Row) (rest : WholeRead ρ) :
    WholeRead ρ :=
  if ns + row.indent ≠ 0 then ⟨[], false, []⟩
  else
    match judge (cstr row.text) with
    | .reject _ => ⟨[], false, []⟩
    | .skip => rest.print (row.copy ns ++ [nl])
    | .hit record => rest.add [record]

/-- The rows of a file read one by one, where `carry` says which counter of
leading spaces a row leaves for the next one. -/
def readRows (judge : List UInt8 → Verdict ρ) (carry : ℕ → Row → ℕ) (last : Row) :
    ℕ → List Row → WholeRead ρ
  | ns, [] =>
      match last.kind with
      | .data => last.readData judge ns ⟨[], true, []⟩
      | _ => ⟨[], true, last.copy ns⟩
  | ns, row :: rows =>
      match row.kind with
      | .data => row.readData judge ns (readRows judge carry last (carry ns row) rows)
      | _ => (readRows judge carry last (carry ns row) rows).print (row.copy ns ++ [nl])

/-- What the readers should do: no row has an effect on another one. -/
def readAlone (judge : List UInt8 → Verdict ρ) (rows : List Row) (last : Row) : WholeRead ρ :=
  readRows judge (fun _ _ => 0) last 0 rows

/-- Comments and blank lines inserted between the rows of a file. -/
inductive Inserted : List Row → List Row → Prop
  | nil : Inserted [] []
  | keep (row : Row) {rows rows' : List Row} :
      Inserted rows rows' → Inserted (row :: rows) (row :: rows')
  | add (row : Row) (h : row.kind ≠ .data) {rows rows' : List Row} :
      Inserted rows rows' → Inserted rows (row :: rows')

def FirstColumn (rows : List Row) : Prop := ∀ row ∈ rows, row.kind = .data → row.indent = 0

def dataRows (text : List UInt8) : List (List UInt8) :=
  ((splitRows text).1.filter fun row => row.kind = .data).map Row.text

/-- The law of inserted lines, for a file of rows and the same file with lines
inserted: the same records are returned, the same calls succeed, the same data
lines are copied, and in the new file no line has an effect on another. -/
structure InsertionInvisible (judge : List UInt8 → Verdict ρ) (rows rows' : List Row)
    (last : Row) : Prop where
  records : (readAll judge (joinRows rows' ++ last.text) 0).records =
    (readAll judge (joinRows rows ++ last.text) 0).records
  success : (readAll judge (joinRows rows' ++ last.text) 0).ok =
    (readAll judge (joinRows rows ++ last.text) 0).ok
  copied : dataRows (readAll judge (joinRows rows' ++ last.text) 0).out =
    dataRows (readAll judge (joinRows rows ++ last.text) 0).out
  alone : readAll judge (joinRows rows' ++ last.text) 0 = readAlone judge rows' last

def Row.rejected (judge : List UInt8 → Verdict ρ) (row : Row) : Bool :=
  match row.kind, judge (cstr row.text) with
  | .data, .reject _ => true
  | _, _ => false

/-- As far as the reader gets, no row of the kinds in `P` comes after an indented
comment without a blank line between them. -/
def Undisturbed (P : RowKind → Bool) (judge : List UInt8 → Verdict ρ) : ℕ → List Row → Prop
  | _, [] => True
  | ns, row :: rows =>
      row.rejected judge = true ∨
        (P row.kind = true → ns = 0) ∧ Undisturbed P judge (row.carry ns) rows

instance undisturbedDecidable (P : RowKind → Bool) (judge : List UInt8 → Verdict ρ) (ns : ℕ)
    (rows : List Row) : Decidable (Undisturbed P judge ns rows) :=
  match rows with
  | [] => isTrue trivial
  | row :: rows =>
      have := undisturbedDecidable P judge (row.carry ns) rows
      inferInstanceAs (Decidable (_ ∨ _ ∧ _))

variable {judge : List UInt8 → Verdict ρ}

/-! ### Successive calls -/

theorem readRecords_rest_lt {fp : List UInt8} {rc : ℤ} {r : FileRead ρ}
    (hr : readRecords judge fp rc = some r) (hpos : 0 < r.rc) :
    r.rest.length < fp.length := by
  have hleave : ∀ st r, readRecords.body judge st = .inr r → 0 < r.rc →
      r.rest.length < st.fp.length := by
    intro st r h hpos
    simp only [readRecords.body] at h
    split at h
    · rename_i hrc
      split at h <;> cases h
      · simp only at hpos
        omega
      · exact parsefileline_rest_lt hrc
    · cases h
      contradiction
  obtain ⟨r', hr', hlt⟩ := Loop.whileLoop_induct (@readRecords.body_decreases ρ judge)
    (motive := fun st r => 0 < r.rc → r.rest.length < st.fp.length) hleave
    (fun st st' r h hlt hpos => (hlt hpos).trans (readRecords.body_decreases st st' h)) ⟨rc, fp, []⟩
  obtain rfl := Option.some.inj (hr'.symm.trans hr)
  exact hlt hpos

theorem readAll.calls_fuel {n m : ℕ} {fp : List UInt8} {rc : ℤ} (hn : fp.length < n)
    (hm : fp.length < m) : readAll.calls judge n fp rc = readAll.calls judge m fp rc := by
  induction n generalizing m fp rc with
  | zero => omega
  | succ n ih =>
      cases m with
      | zero => omega
      | succ m =>
          rw [readAll.calls, readAll.calls]
          cases hr : readRecords judge fp rc with
          | none => rfl
          | some r =>
              by_cases hpos : 0 < r.rc
              · have hlt := readRecords_rest_lt hr hpos
                simp only [hpos, if_true, @ih m r.rest r.rc (by omega) (by omega)]
              · simp only [hpos, if_false]

def afterCall (judge : List UInt8 → Verdict ρ) : Option (FileRead ρ) → WholeRead ρ
  | none => ⟨[], false, []⟩
  | some r =>
      if 0 < r.rc then ((readAll judge r.rest r.rc).add r.found.toList).print r.out
      else ⟨[], r.rc = 0, r.out⟩

theorem readAll_eq (fp : List UInt8) (rc : ℤ) :
    readAll judge fp rc = afterCall judge (readFrom judge 0 fp rc) := by
  rw [readAll, readAll.calls, ← readRecords_eq_readFrom]
  cases hr : readRecords judge fp rc with
  | none => rfl
  | some r =>
      by_cases hpos : 0 < r.rc
      · have hlt := readRecords_rest_lt hr hpos
        simp only [afterCall, hpos, if_true, readAll,
          @readAll.calls_fuel _ judge fp.length _ r.rest r.rc hlt (Nat.lt_succ_self _)]
      · simp only [afterCall, hpos, if_false]

theorem afterCall_pos {r : FileRead ρ} (hpos : 0 < r.rc) :
    afterCall judge (some r) =
      ((readAll judge r.rest r.rc).add r.found.toList).print r.out :=
  if_pos hpos

theorem afterCall_neg {r : FileRead ρ} (hneg : r.rc < 0) :
    afterCall judge (some r) = ⟨[], false, r.out⟩ := by
  rw [afterCall, if_neg (by omega)]
  simp [hneg.ne]

theorem afterCall_print (r : FileRead ρ) (text : List UInt8) :
    afterCall judge (some (r.print text)) = (afterCall judge (some r)).print text := by
  by_cases hpos : 0 < r.rc
  · rw [afterCall_pos hpos, @afterCall_pos _ judge (r.print text) hpos]
    simp [WholeRead.print, WholeRead.add]
  · rw [afterCall, afterCall, if_neg hpos, if_neg (show ¬0 < (r.print text).rc from hpos)]
    rfl

variable {ns : ℕ} {rc : ℤ} {row last : Row} {rows rows' : List Row} {eol s : List UInt8}

theorem afterCall_map_print (text : List UInt8) :
    afterCall judge ((readFrom judge ns s rc).map (FileRead.print text)) =
      (afterCall judge (readFrom judge ns s rc)).print text := by
  obtain ⟨r, hr⟩ : ∃ r, readFrom judge ns s rc = some r := by
    rw [readFrom, afterLine]
    split
    · split
      · exact ⟨_, rfl⟩
      · obtain ⟨r, hr⟩ := @readRecords_isSome _ judge (parsefileline.scan rc [] ns false s).rest
          (parsefileline.scan rc [] ns false s).rc
        exact ⟨_, by rw [hr]; rfl⟩
      · exact ⟨_, rfl⟩
    · exact ⟨_, rfl⟩
  rw [hr]
  exact afterCall_print r text

/-- One data row. A refusal before the first row could not be told from the end
of the stream. -/
theorem afterCall_data (hkind : row.kind = .data) (hcol : row.indent = 0) (heol : LineEnd eol s)
    (hrc : 0 ≤ rc) (hstart : rc = 0 → ns = 0) :
    afterCall judge (readFrom judge ns (row.text ++ (eol ++ s)) rc) =
      row.readData judge ns (afterCall judge (readFrom judge 0 s (rc + 1))) := by
  rw [Row.readData]
  by_cases hns : ns + row.indent = 0
  · rw [if_neg (not_not.mpr hns), readFrom_data hkind hns heol hrc]
    cases judge (cstr row.text) with
    | reject err =>
        exact afterCall_neg (show -(rc + 1) < 0 by omega)
    | skip =>
        simp only [afterCall_map_print]
        simp [Row.copy, hkind]
    | hit record =>
        rw [← readAll_eq]
        exact afterCall_pos (show 0 < rc + 1 by omega)
  · rw [if_pos hns, readFrom_refused hkind hns hrc]
    exact afterCall_neg (show -rc < 0 by omega)

theorem readAll_rows (hcol : FirstColumn (rows ++ [last])) (hrc : 0 ≤ rc)
    (hstart : rc = 0 → ns = 0) :
    afterCall judge (readFrom judge ns (joinRows rows ++ last.text) rc) =
      readRows judge Row.carry last ns rows := by
  induction rows generalizing ns rc with
  | nil =>
      rw [readRows, joinRows_nil, List.nil_append]
      cases hkind : last.kind with
      | data =>
          have h := @afterCall_data _ judge ns rc last [] [] hkind (hcol last (by simp) hkind) .eof
            hrc hstart
          simpa [afterCall] using h
      | blank | comment =>
          rw [readFrom_lastIdle (by simp [hkind])]
          simp [afterCall]
  | cons row rows ih =>
      have hcol' : FirstColumn (rows ++ [last]) := fun r hr => hcol r (List.mem_cons_of_mem row hr)
      have ih := @ih (row.carry ns) (rc + 1) hcol' (by omega) (by omega)
      rw [readRows, joinRows_cons, List.append_assoc, List.cons_append]
      cases hkind : row.kind with
      | data =>
          have h := @afterCall_data _ judge ns rc row [nl] (joinRows rows ++ last.text) hkind
            (hcol row (by simp) hkind) (.newline _) hrc hstart
          have hcarry : row.carry ns = 0 := by simp [Row.carry, hkind]
          rw [hcarry] at ih ⊢
          rw [ih] at h
          simpa using h
      | blank | comment =>
          rw [readFrom_idle (by simp [hkind]), afterCall_map_print, ih]

/-! ### What is visible of the data lines -/

/-- The records, whether the last call returned 0, and the data lines copied. -/
def WholeRead.lines (w : WholeRead ρ) : List ρ × Bool × List (List UInt8) :=
  (w.records, w.ok, dataRows w.out)

@[simp] theorem WholeRead.print_inj {text : List UInt8} {w w' : WholeRead ρ} :
    w.print text = w'.print text ↔ w = w' := by
  simp [WholeRead.ext_iff, WholeRead.print]

@[simp] theorem WholeRead.add_inj {records : List ρ} {w w' : WholeRead ρ} :
    w.add records = w'.add records ↔ w = w' := by
  simp [WholeRead.ext_iff, WholeRead.add]

theorem WholeRead.lines_print (row : Row) (w : WholeRead ρ) :
    (w.print (row.text ++ [nl])).lines =
      (w.records, w.ok,
        (if row.kind = .data then [row.text] else []) ++ dataRows w.out) := by
  have hsplit := splitRows_row row w.out
  by_cases hkind : row.kind = .data <;>
    simp [WholeRead.lines, WholeRead.print, dataRows, hsplit, hkind]

theorem WholeRead.lines_print_idle (hkind : row.kind ≠ .data) (w : WholeRead ρ) :
    (w.print (row.text ++ [nl])).lines = w.lines := by
  rw [WholeRead.lines_print, if_neg hkind]
  rfl

theorem WholeRead.lines_print_inj {w w' : WholeRead ρ} :
    (w.print (row.text ++ [nl])).lines = (w'.print (row.text ++ [nl])).lines ↔
      w.lines = w'.lines := by
  rw [WholeRead.lines_print, WholeRead.lines_print]
  simp [WholeRead.lines]

theorem WholeRead.lines_add_inj {records : List ρ} {w w' : WholeRead ρ} :
    (w.add records).lines = (w'.add records).lines ↔ w.lines = w'.lines := by
  simp [WholeRead.lines, WholeRead.add]

/-! ### The counter of leading spaces -/

variable {rest rest' : WholeRead ρ}

theorem Row.readData_refused (hns : ns + row.indent ≠ 0) :
    row.readData judge ns rest = ⟨[], false, []⟩ :=
  if_pos hns

theorem Row.readData_rejected (hkind : row.kind = .data) (h : row.rejected judge = true) :
    row.readData judge ns rest = ⟨[], false, []⟩ := by
  rw [Row.readData]
  split
  · rfl
  · rw [Row.rejected, hkind] at h
    cases hjudge : judge (cstr row.text) with
    | reject err => rfl
    | skip => simp [hjudge] at h
    | hit record => simp [hjudge] at h

/-- A data row that is neither rejected nor refused is copied or returned. -/
theorem Row.readData_cases (hkind : row.kind = .data) (h : row.rejected judge = false)
    (hns : ns + row.indent = 0) :
    judge (cstr row.text) = .skip ∧
        (∀ rest, row.readData judge ns rest = rest.print ((row.copied ns).text ++ [nl])) ∨
      ∃ record, ∀ rest, row.readData judge ns rest = rest.add [record] := by
  simp only [Row.readData, hns, ne_eq, not_true, if_false]
  cases hjudge : judge (cstr row.text) with
  | reject err => simp [Row.rejected, hkind, hjudge] at h
  | skip => exact .inl ⟨rfl, fun _ => rfl⟩
  | hit record => exact .inr ⟨record, fun _ => rfl⟩

/-- The white space in front of a copied comment tells the counter. -/
theorem Row.copy_comment_inj (hkind : row.kind = .comment) {ns ns' : ℕ} {a b : List UInt8}
    (h : row.copy ns ++ a = row.copy ns' ++ b) : ns = ns' := by
  obtain ⟨t, -, -, hcopy⟩ := Row.kind_comment hkind
  have hlead : ∀ n a, ((row.copy n ++ a).takeWhile isspace).length = n + row.indent := by
    intro n a
    rw [hcopy, List.append_assoc, Scan.takeWhile_append (by simp) (by simp),
      List.length_replicate]
  have hlen := hlead ns a
  rw [h, hlead ns' b] at hlen
  omega

/-- What is looked at in a reading, and the kinds of rows whose reading it shows. -/
structure Observation {β : Type} (f : WholeRead ρ → β) (P : RowKind → Bool) : Prop where
  blank : P .blank = false
  data : P .data = true
  print_inj : ∀ (row : Row) (w w' : WholeRead ρ), f (w.print (row.text ++ [nl])) =
    f (w'.print (row.text ++ [nl])) ↔ f w = f w'
  add_inj : ∀ record (w w' : WholeRead ρ), f (w.add [record]) = f (w'.add [record]) ↔ f w = f w'
  failed_ne_print : ∀ (row : Row) (w : WholeRead ρ), row.kind = .data →
    f ⟨[], false, []⟩ ≠ f (w.print (row.text ++ [nl]))
  failed_ne_add : ∀ record (w : WholeRead ρ), f ⟨[], false, []⟩ ≠ f (w.add [record])
  comment : ∀ (row : Row) ns (w w' : WholeRead ρ), row.kind = .comment →
    (f (w.print (row.copy ns ++ [nl])) = f (w'.print (row.copy 0 ++ [nl])) ↔
      (P .comment = true → ns = 0) ∧ f w = f w')
  last_comment : ∀ (row : Row) ns, row.kind = .comment →
    (f ⟨[], true, row.copy ns⟩ = f ⟨[], true, row.copy 0⟩ ↔ (P .comment = true → ns = 0))

theorem observation_id : Observation (id : WholeRead ρ → WholeRead ρ) (· ≠ .blank) where
  blank := rfl
  data := rfl
  print_inj := fun _ _ _ => WholeRead.print_inj
  add_inj := fun _ _ _ => WholeRead.add_inj
  failed_ne_print := by simp [WholeRead.ext_iff, WholeRead.print]
  failed_ne_add := by simp [WholeRead.ext_iff, WholeRead.add]
  comment := by
    intro row ns w w' hkind
    constructor
    · intro h
      have hout : row.copy ns ++ (nl :: w.out) = row.copy 0 ++ (nl :: w'.out) := by
        simpa [WholeRead.print] using congrArg WholeRead.out h
      obtain rfl := Row.copy_comment_inj hkind hout
      exact ⟨fun _ => rfl, WholeRead.print_inj.mp h⟩
    · rintro ⟨hns, hw⟩
      obtain rfl := hns rfl
      exact WholeRead.print_inj.mpr hw
  last_comment := by
    intro row ns hkind
    constructor
    · intro h _
      have hout : row.copy ns ++ [] = row.copy 0 ++ [] := by
        simpa using congrArg WholeRead.out h
      exact Row.copy_comment_inj hkind hout
    · intro hns
      rw [hns rfl]

theorem observation_lines :
    Observation (WholeRead.lines : WholeRead ρ → _) (· = .data) where
  blank := rfl
  data := rfl
  print_inj := fun _ _ _ => WholeRead.lines_print_inj
  add_inj := fun _ _ _ => WholeRead.lines_add_inj
  failed_ne_print := by
    intro row w hkind h
    rw [WholeRead.lines_print, if_pos hkind] at h
    simp [WholeRead.lines, dataRows, splitRows] at h
  failed_ne_add := by simp [WholeRead.lines, WholeRead.add]
  comment := by
    intro row ns w w' hkind
    have hcopied : ∀ n, (row.copied n).kind ≠ .data := fun n => by
      simp [(Row.copied_comment hkind n).1]
    have h : (w.print ((row.copied ns).text ++ [nl])).lines =
        (w'.print ((row.copied 0).text ++ [nl])).lines ↔ w.lines = w'.lines := by
      rw [WholeRead.lines_print_idle (hcopied ns), WholeRead.lines_print_idle (hcopied 0)]
    simpa [Row.copied] using h
  last_comment := by
    intro row ns hkind
    have h : ∀ n, dataRows (row.copied n).text = [] := fun n => by
      simp [dataRows, splitRows_last]
    simpa [WholeRead.lines, Row.copied] using (h ns).trans (h 0).symm

variable {β : Type} {f : WholeRead ρ → β} {P : RowKind → Bool}

theorem Observation.readData (hobs : Observation f P) (hempty : judge [] ≠ .skip)
    (hkind : row.kind = .data) (hcol : row.indent = 0) :
    f (row.readData judge ns rest) = f (row.readData judge 0 rest') ↔
      row.rejected judge = true ∨ ns = 0 ∧ f rest = f rest' := by
  cases hrejected : row.rejected judge with
  | true => simp [Row.readData_rejected hkind hrejected]
  | false =>
      have hcases := @Row.readData_cases _ judge 0 row hkind hrejected (by omega)
      have hdata : judge (cstr row.text) = .skip → (row.copied 0).kind = .data := fun hskip =>
        (Row.copied_data hkind hcol (fun hnil => hempty (hnil ▸ hskip)) 0).1
      simp only [Bool.false_eq_true, false_or]
      by_cases hns : ns = 0
      · subst hns
        rw [eq_self, true_and]
        rcases hcases with ⟨-, hread⟩ | ⟨record, hread⟩
        · rw [hread, hread, hobs.print_inj]
        · rw [hread, hread, hobs.add_inj]
      · rw [Row.readData_refused (by omega : ns + row.indent ≠ 0)]
        simp only [hns, false_and, iff_false]
        rcases hcases with ⟨hskip, hread⟩ | ⟨record, hread⟩
        · rw [hread]
          exact hobs.failed_ne_print _ _ (hdata hskip)
        · rw [hread]
          exact hobs.failed_ne_add _ _

/-- The code reads the rows as if each stood alone, as far as one looks, exactly
when no row one looks at comes below white space that is still counted. -/
theorem Observation.readRows (hobs : Observation f P) (hempty : judge [] ≠ .skip)
    (hcol : FirstColumn (rows ++ [last])) :
    f (readRows judge Row.carry last ns rows) = f (readRows judge (fun _ _ => 0) last 0 rows) ↔
      Undisturbed P judge ns (rows ++ [last]) := by
  induction rows generalizing ns with
  | nil =>
      simp only [List.nil_append, Undisturbed, and_true, I2util.readRows]
      cases hkind : last.kind with
      | blank => simp [Row.copy, hkind, hobs.blank]
      | comment => simp [hobs.last_comment last ns hkind, Row.rejected, hkind]
      | data =>
          rw [hobs.readData hempty hkind (hcol last (by simp) hkind)]
          simp [hobs.data]
  | cons row rows ih =>
      have ih := @ih (row.carry ns) fun r hr => hcol r (List.mem_cons_of_mem row hr)
      simp only [List.cons_append, Undisturbed, I2util.readRows]
      cases hkind : row.kind with
      | blank =>
          have hcopy : row.copy ns = row.copy 0 := by simp [Row.copy, hkind]
          have hprint := hobs.print_inj (row.copied 0) (I2util.readRows judge Row.carry last
            (row.carry ns) rows) (I2util.readRows judge (fun _ _ => 0) last 0 rows)
          simp only [hcopy]
          simpa [Row.rejected, hkind, hobs.blank, ← ih, Row.copied] using hprint
      | comment =>
          simp [hobs.comment row ns _ _ hkind, Row.rejected, hkind, ih]
      | data =>
          have hcarry : row.carry ns = 0 := by simp [Row.carry, hkind]
          rw [hcarry] at ih ⊢
          rw [hobs.readData hempty hkind (hcol row (by simp) hkind), ih]
          simp [hobs.data]

/-! ### Inserted lines -/

theorem Row.readData_lines (h : rest.lines = rest'.lines) :
    (row.readData judge ns rest).lines = (row.readData judge ns rest').lines := by
  rw [Row.readData, Row.readData]
  by_cases hns : ns + row.indent ≠ 0
  · rw [if_pos hns, if_pos hns]
  · rw [if_neg hns, if_neg hns]
    cases judge (cstr row.text) with
    | reject err => rfl
    | skip => exact (@WholeRead.lines_print_inj _ (row.copied ns) rest rest').mpr h
    | hit record => exact WholeRead.lines_add_inj.mpr h

/-- Lines read alone do not show comments and blank lines. -/
theorem readRows_idle (hkind : row.kind ≠ .data) :
    (readRows judge (fun _ _ => 0) last 0 (row :: rows)).lines =
      (readRows judge (fun _ _ => 0) last 0 rows).lines := by
  have hcopied : (row.copied 0).kind ≠ .data := by
    rw [Row.copied_kind 0 fun h => absurd h hkind]
    exact hkind
  have h := WholeRead.lines_print_idle hcopied (readRows judge (fun _ _ => 0) last 0 rows)
  rw [readRows]
  cases hk : row.kind with
  | blank | comment => exact h
  | data => exact absurd hk hkind

theorem Inserted.readAlone (hins : Inserted rows rows') :
    (readAlone judge rows' last).lines = (readAlone judge rows last).lines := by
  induction hins with
  | nil => rfl
  | keep row _ ih =>
      by_cases hkind : row.kind = .data
      · simp only [I2util.readAlone, readRows, hkind]
        exact Row.readData_lines ih
      · rw [I2util.readAlone, I2util.readAlone, readRows_idle hkind, readRows_idle hkind]
        exact ih
  | add row hkind _ ih =>
      rw [I2util.readAlone, readRows_idle hkind]
      exact ih

theorem Inserted.firstColumn (hins : Inserted rows rows') (hcol : FirstColumn (rows ++ [last])) :
    FirstColumn (rows' ++ [last]) := by
  induction hins with
  | nil => exact hcol
  | keep row _ ih =>
      have ih := ih fun r hr => hcol r (List.mem_cons_of_mem row hr)
      intro r hr hkind
      rcases List.mem_cons.mp hr with rfl | hr
      · exact hcol r (by simp) hkind
      · exact ih r hr hkind
  | add row hidle _ ih =>
      intro r hr hkind
      rcases List.mem_cons.mp hr with rfl | hr
      · exact absurd hkind hidle
      · exact ih hcol r hr hkind

/-- The law holds exactly when, as far as the reader gets, no comment and no data
line of the new file and no data line of the old one comes after an indented comment
without a blank line between them. -/
theorem insertionInvisible_iff (hempty : judge [] ≠ .skip) (hins : Inserted rows rows')
    (hcol : FirstColumn (rows ++ [last])) :
    InsertionInvisible judge rows rows' last ↔
      Undisturbed (· ≠ .blank) judge 0 (rows' ++ [last]) ∧
        Undisturbed (· = .data) judge 0 (rows ++ [last]) := by
  have hcol' := hins.firstColumn hcol
  have hread : readAll judge (joinRows rows ++ last.text) 0 = _ :=
    (readAll_eq _ 0).trans (readAll_rows hcol le_rfl fun _ => rfl)
  have hread' : readAll judge (joinRows rows' ++ last.text) 0 = _ :=
    (readAll_eq _ 0).trans (readAll_rows hcol' le_rfl fun _ => rfl)
  have hall : readAll judge (joinRows rows' ++ last.text) 0 = readAlone judge rows' last ↔
      Undisturbed (· ≠ .blank) judge 0 (rows' ++ [last]) := by
    rw [hread']
    exact observation_id.readRows hempty hcol'
  have hlines := @Inserted.readAlone _ judge last rows rows' hins
  have hdata : (readAll judge (joinRows rows ++ last.text) 0).lines =
      (readAlone judge rows' last).lines ↔ Undisturbed (· = .data) judge 0 (rows ++ [last]) := by
    rw [hread, hlines]
    exact observation_lines.readRows hempty hcol
  rw [← hall, ← hdata]
  constructor
  · rintro ⟨hrecords, hok, hcopied, halone⟩
    refine ⟨halone, ?_⟩
    rw [← halone, WholeRead.lines, WholeRead.lines, hrecords, hok, hcopied]
  · rintro ⟨halone, hsame⟩
    rw [← halone, WholeRead.lines, WholeRead.lines, Prod.mk.injEq, Prod.mk.injEq] at hsame
    exact ⟨hsame.1.symm, hsame.2.1.symm, hsame.2.2.symm, halone⟩

theorem insertion_iff (hins : Inserted rows rows') (hcol : FirstColumn (rows ++ [last]))
    (query : Option (List UInt8)) :
    (InsertionInvisible (keyLine query) rows rows' last ↔
      Undisturbed (· ≠ .blank) (keyLine query) 0 (rows' ++ [last]) ∧
        Undisturbed (· = .data) (keyLine query) 0 (rows ++ [last])) ∧
      (InsertionInvisible (pfLine query) rows rows' last ↔
        Undisturbed (· ≠ .blank) (pfLine query) 0 (rows' ++ [last]) ∧
          Undisturbed (· = .data) (pfLine query) 0 (rows ++ [last])) :=
  ⟨insertionInvisible_iff (keyLine_nil query) hins hcol,
    insertionInvisible_iff (pfLine_nil query) hins hcol⟩

def jdoeRow : Row := ⟨PFRecord.jdoe.raw, by decide⟩

def usersRow : Row := ⟨ascii "  # users", by decide⟩

theorem firstColumn_jdoe : FirstColumn ([jdoeRow] ++ [Row.empty]) := by
  unfold FirstColumn
  decide

theorem insertion_jdoe :
    InsertionInvisible (pfLine none) [jdoeRow] [usersRow, Row.empty, jdoeRow] Row.empty :=
  (insertion_iff (.add usersRow (by decide) (.add Row.empty (by decide) (.keep jdoeRow .nil)))
    firstColumn_jdoe none).2.mpr (by decide)

/-- An indented comment above a record makes the reader refuse the record. -/
theorem insertion_refused :
    Inserted [jdoeRow] [usersRow, jdoeRow] ∧ FirstColumn ([jdoeRow] ++ [Row.empty]) ∧
      ¬InsertionInvisible (pfLine none) [jdoeRow] [usersRow, jdoeRow] Row.empty := by
  refine ⟨.add usersRow (by decide) (.keep jdoeRow .nil), firstColumn_jdoe, fun h => ?_⟩
  exact absurd h.success (by decide)

end I2util
