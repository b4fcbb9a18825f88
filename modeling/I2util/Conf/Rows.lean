import I2util.Conf.RecordFile

/-!
Any stream as a list of rows, and how the readers pass over them.

The counter `ns` of leading spaces survives a comment, so what a row does depends
on the rows before it through this counter only. `readFrom` is a reader entered
with the counter at some value.
-/

namespace I2util

structure Row where
  text : List UInt8
  no_nl : nl ∉ text

inductive RowKind
  | blank
  | comment
  | data
  deriving DecidableEq

namespace Row

def empty : Row := ⟨[], List.not_mem_nil⟩

def cons (c : UInt8) (hc : c ≠ nl) (row : Row) : Row where
  text := c :: row.text
  no_nl := List.not_mem_cons_of_ne_of_not_mem hc.symm row.no_nl

def indent (row : Row) : ℕ := (row.text.takeWhile isspace).length

def body (row : Row) : List UInt8 := row.text.dropWhile isspace

def kind (row : Row) : RowKind :=
  match row.body with
  | [] => .blank
  | c :: _ => if c = hash then .comment else .data

def carry (ns : ℕ) (row : Row) : ℕ :=
  match row.kind with
  | .comment => ns + row.indent
  | _ => 0

/-- The row as it is copied to `tofp`. -/
def copy (ns : ℕ) (row : Row) : List UInt8 :=
  match row.kind with
  | .blank => []
  | .comment => List.replicate (ns + row.indent) blank ++ row.body
  | .data => cstr row.text

theorem copy_no_nl (ns : ℕ) (row : Row) : nl ∉ row.copy ns := by
  have hbody : nl ∉ row.body := fun h => row.no_nl ((List.dropWhile_suffix _).subset h)
  rw [copy]
  cases row.kind with
  | blank => exact List.not_mem_nil
  | comment => simp [hbody, show nl ≠ blank by decide]
  | data => exact fun h => row.no_nl ((List.takeWhile_prefix _).subset h)

def copied (ns : ℕ) (row : Row) : Row := ⟨row.copy ns, row.copy_no_nl ns⟩

theorem text_eq (row : Row) : row.text.takeWhile isspace ++ row.body = row.text :=
  List.takeWhile_append_dropWhile

theorem kind_blank {row : Row} (h : row.kind = .blank) : BlankText row.text := by
  have hbody : row.body = [] := by
    rw [kind] at h
    split at h
    · assumption
    · split at h <;> cases h
  have hspaces := row.text_eq
  rw [hbody, List.append_nil] at hspaces
  intro c hc
  refine ⟨?_, fun hnl => row.no_nl (hnl ▸ hc)⟩
  rw [← hspaces] at hc
  exact List.mem_takeWhile_imp hc

theorem kind_comment {row : Row} (h : row.kind = .comment) :
    ∃ t, row.body = hash :: t ∧ nl ∉ t ∧
      ∀ ns, row.copy ns = List.replicate (ns + row.indent) blank ++ hash :: t := by
  have hcopy : ∀ ns, row.copy ns = List.replicate (ns + row.indent) blank ++ row.body := by
    intro ns
    rw [copy, h]
  rw [kind] at h
  split at h
  · cases h
  · rename_i c t hbody
    split at h
    · rename_i hc
      subst hc
      refine ⟨t, hbody, fun hmem => row.no_nl ?_, fun ns => hbody ▸ hcopy ns⟩
      rw [← row.text_eq, hbody]
      simp [hmem]
    · cases h

theorem kind_data {row : Row} (h : row.kind = .data) :
    ∃ c t, row.body = c :: t ∧ isspace c = false ∧ c ≠ hash ∧ nl ∉ t := by
  rw [kind] at h
  split at h
  · cases h
  · rename_i c t hbody
    split at h
    · cases h
    · rename_i hc
      refine ⟨c, t, hbody, ?_, hc, fun hmem => row.no_nl ?_⟩
      · have hhead := @List.head?_dropWhile_not _ isspace row.text
        rw [← body, hbody] at hhead
        simpa using hhead
      · rw [← row.text_eq, hbody]
        simp [hmem]

end Row

theorem cstr_cstr (s : List UInt8) : cstr (cstr s) = cstr s := by
  apply cstr_of_not_mem
  intro hmem
  simpa using List.mem_takeWhile_imp hmem

theorem Row.comment_text {row : Row} {n : ℕ} {t : List UInt8}
    (h : row.text = List.replicate n blank ++ hash :: t) :
    row.kind = .comment ∧ row.indent = n := by
  have hspaces : ∀ c ∈ List.replicate n blank, isspace c = true := by
    intro c hc
    rw [List.eq_of_mem_replicate hc]
    rfl
  have hstop : Scan.Stops isspace (hash :: t) := by simp
  constructor
  · rw [Row.kind, Row.body, h, Scan.dropWhile_append hspaces hstop]
    rfl
  · rw [Row.indent, h, Scan.takeWhile_append hspaces hstop, List.length_replicate]

theorem Row.data_text {row : Row} {c : UInt8} {t : List UInt8} (h : row.text = c :: t)
    (hspace : isspace c = false) (hhash : c ≠ hash) : row.kind = .data ∧ row.indent = 0 := by
  simp [Row.kind, Row.body, Row.indent, h, hspace, hhash]

/-- The indentation of a comment is preserved, and the white space that was still
counted is added to it. -/
theorem Row.copied_comment {row : Row} (hkind : row.kind = .comment) (ns : ℕ) :
    (row.copied ns).kind = .comment ∧ (row.copied ns).indent = ns + row.indent := by
  obtain ⟨t, -, -, hcopy⟩ := Row.kind_comment hkind
  exact Row.comment_text (hcopy ns)

theorem Row.copied_data {row : Row} (hkind : row.kind = .data) (hcol : row.indent = 0)
    (hne : cstr row.text ≠ []) (ns : ℕ) :
    (row.copied ns).kind = .data ∧ (row.copied ns).indent = 0 := by
  obtain ⟨c, t, hbody, hspace, hhash, -⟩ := Row.kind_data hkind
  have htext : row.text = c :: t := by
    have hnone : row.text.takeWhile isspace = [] := List.eq_nil_of_length_eq_zero hcol
    rw [← row.text_eq, hnone, hbody]
    rfl
  have hc : c ≠ 0 := by
    rintro rfl
    exact hne (by simp [cstr, htext])
  have hcopy : (row.copied ns).text = c :: cstr t := by
    simp [Row.copied, Row.copy, hkind, htext, cstr, hc]
  exact Row.data_text hcopy hspace hhash

theorem Row.copied_kind {row : Row} (ns : ℕ)
    (hdata : row.kind = .data → row.indent = 0 ∧ cstr row.text ≠ []) :
    (row.copied ns).kind = row.kind := by
  cases hkind : row.kind with
  | blank =>
      have htext : (row.copied ns).text = [] := by simp [Row.copied, Row.copy, hkind]
      simp [Row.kind, Row.body, htext]
  | comment => exact (Row.copied_comment hkind ns).1
  | data => exact (Row.copied_data hkind (hdata hkind).1 (hdata hkind).2 ns).1

/-- The rows of a stream: those that end in a newline, and what stands behind the
last newline. -/
def splitRows : List UInt8 → List Row × Row
  | [] => ([], .empty)
  | c :: s =>
      let (rows, last) := splitRows s
      if hc : c = nl then (.empty :: rows, last)
      else
        match rows with
        | [] => ([], last.cons c hc)
        | row :: rows => (row.cons c hc :: rows, last)

theorem splitRows_row (row : Row) (s : List UInt8) :
    splitRows (row.text ++ nl :: s) = (row :: (splitRows s).1, (splitRows s).2) := by
  obtain ⟨text, hnl⟩ := row
  induction text with
  | nil => simp [splitRows, Row.empty]
  | cons c text ih =>
      simp only [List.mem_cons, not_or] at hnl
      rw [List.cons_append, splitRows, ih hnl.2]
      simp [Ne.symm hnl.1, Row.cons]

theorem splitRows_last (row : Row) : splitRows row.text = ([], row) := by
  obtain ⟨text, hnl⟩ := row
  induction text with
  | nil => rfl
  | cons c text ih =>
      simp only [List.mem_cons, not_or] at hnl
      rw [splitRows, ih hnl.2]
      simp [Ne.symm hnl.1, Row.cons]

def joinRows (rows : List Row) : List UInt8 := rows.flatMap fun row => row.text ++ [nl]

@[simp] theorem joinRows_nil : joinRows [] = [] := rfl

@[simp] theorem joinRows_cons (row : Row) (rows : List Row) :
    joinRows (row :: rows) = row.text ++ nl :: joinRows rows := by
  simp [joinRows]

theorem joinRows_splitRows (s : List UInt8) :
    joinRows (splitRows s).1 ++ (splitRows s).2.text = s := by
  induction s with
  | nil => rfl
  | cons c s ih =>
      rw [splitRows]
      by_cases hc : c = nl
      · subst hc
        simpa [Row.empty] using ih
      · simp only [hc, dif_neg, not_false_iff]
        revert ih
        cases (splitRows s).1 with
        | nil => simp [Row.cons]
        | cons row rows => simp [Row.cons]

/-! ### The line reader on one row -/

section Scan

variable {rc : ℤ} {row : Row} {eol s : List UInt8}

theorem parsefileline.scan_spaces {ns : ℕ} {ws : List UInt8} (hws : BlankText ws) :
    parsefileline.scan rc [] ns false (ws ++ s) =
      parsefileline.scan rc [] (ns + ws.length) false s := by
  induction ws generalizing ns with
  | nil => rfl
  | cons c ws ih =>
      obtain ⟨hspace, hc⟩ := hws c List.mem_cons_self
      have hhash : c ≠ hash := by
        rintro rfl
        simp at hspace
      have hrest : BlankText ws := fun d hd => hws d (List.mem_cons_of_mem c hd)
      have hlen : ns + 1 + ws.length = ns + (ws.length + 1) := by omega
      simp [parsefileline.scan, hc, hhash, hspace, ih hrest, hlen]

theorem Row.leading_blank (row : Row) : BlankText (row.text.takeWhile isspace) := fun _ hc =>
  ⟨List.mem_takeWhile_imp hc, fun hnl => row.no_nl (hnl ▸ (List.takeWhile_prefix _).subset hc)⟩

/-- The leading spaces of a row are counted first. -/
theorem parsefileline.scan_indent (row : Row) (ns : ℕ) :
    parsefileline.scan rc [] ns false (row.text ++ s) =
      parsefileline.scan rc [] (ns + row.indent) false (row.body ++ s) := by
  have h := @parsefileline.scan_spaces rc (row.body ++ s) ns _ row.leading_blank
  rwa [← List.append_assoc, row.text_eq] at h

theorem parsefileline.scan_blankRow (hkind : row.kind = .blank) (ns : ℕ) :
    parsefileline.scan rc [] ns false (row.text ++ nl :: s) =
      (parsefileline.scan (rc + 1) [] 0 false s).print [nl] :=
  parsefileline.scan_blank (Row.kind_blank hkind) s

theorem parsefileline.scan_commentRow (hkind : row.kind = .comment) (ns : ℕ) :
    parsefileline.scan rc [] ns false (row.text ++ nl :: s) =
      (parsefileline.scan (rc + 1) [] (ns + row.indent) false s).print
        (row.copy ns ++ [nl]) := by
  obtain ⟨t, hbody, ht, hcopy⟩ := Row.kind_comment hkind
  rw [parsefileline.scan_indent, hbody, hcopy, List.cons_append, parsefileline.scan]
  simp [parsefileline.scan_comment ht]

/-- A data line below white space that has not been forgotten is refused. -/
theorem parsefileline.scan_refused (hkind : row.kind = .data) {ns : ℕ}
    (hns : ns + row.indent ≠ 0) :
    parsefileline.scan rc [] ns false (row.text ++ s) =
      ⟨-rc, [], row.body.tail ++ s, [], some (.leadingSpacesNotAllowed rc)⟩ := by
  obtain ⟨c, t, hbody, hspace, hhash, -⟩ := Row.kind_data hkind
  have hc := ne_nl_of_not_isspace hspace
  rw [parsefileline.scan_indent, hbody, List.cons_append, parsefileline.scan]
  generalize ns + row.indent = n at hns ⊢
  simp [hc, hhash, hspace, hns]

theorem parsefileline.scan_dataRow (hkind : row.kind = .data) {ns : ℕ}
    (hns : ns + row.indent = 0) (heol : LineEnd eol s) :
    parsefileline.scan rc [] ns false (row.text ++ (eol ++ s)) =
      ⟨rc + 1, row.text, s, [], none⟩ := by
  obtain ⟨c, t, hbody, hspace, hhash, ht⟩ := Row.kind_data hkind
  have hc := ne_nl_of_not_isspace hspace
  have htext : row.text = c :: t := by
    have hspaces := row.text_eq
    have hnone : row.text.takeWhile isspace = [] := by
      apply List.eq_nil_of_length_eq_zero
      rw [← Row.indent]
      omega
    rw [hnone, hbody] at hspaces
    exact hspaces.symm
  have hline : parsefileline.scan rc [c] 0 false (t ++ (eol ++ s)) = _ :=
    parsefileline.scan_content (List.cons_ne_nil c []) ht heol
  obtain rfl : ns = 0 := by omega
  rw [htext]
  simpa [parsefileline.scan, hc, hhash, hspace] using hline

theorem parsefileline.scan_lastBlank (hkind : row.kind = .blank) (ns : ℕ) :
    parsefileline.scan rc [] ns false row.text = ⟨0, [], [], [], none⟩ := by
  have h := @parsefileline.scan_spaces rc [] ns _ (Row.kind_blank hkind)
  rw [List.append_nil] at h
  rw [h]
  rfl

theorem parsefileline.scan_openComment {ns : ℕ} {t : List UInt8} (ht : nl ∉ t) :
    parsefileline.scan rc [] ns true t = ⟨0, [], [], t, none⟩ := by
  induction t with
  | nil => rfl
  | cons c t ih =>
      simp only [List.mem_cons, not_or] at ht
      simp [parsefileline.scan, Ne.symm ht.1, ih ht.2, LineRead.print]

theorem parsefileline.scan_lastComment (hkind : row.kind = .comment) (ns : ℕ) :
    parsefileline.scan rc [] ns false row.text = ⟨0, [], [], row.copy ns, none⟩ := by
  obtain ⟨t, hbody, ht, hcopy⟩ := Row.kind_comment hkind
  have hspaces := @parsefileline.scan_indent rc [] row ns
  rw [List.append_nil, List.append_nil] at hspaces
  rw [hspaces, hbody, hcopy, parsefileline.scan]
  simp [parsefileline.scan_openComment ht, LineRead.print]

end Scan

/-! ### The readers on one row -/

variable {ρ : Type} {judge : List UInt8 → Verdict ρ}

/-- What a reader does with the line its line reader has fetched. -/
def afterLine (judge : List UInt8 → Verdict ρ) (r : LineRead) : Option (FileRead ρ) :=
  if 0 < r.rc then
    match judge (cstr r.line) with
    | .reject err => some ⟨-r.rc, none, r.rest, r.out, err⟩
    | .skip =>
        (readRecords judge r.rest r.rc).map (FileRead.print (r.out ++ cstr r.line ++ [nl]))
    | .hit record => some ⟨r.rc, some record, r.rest, r.out, none⟩
  else some ⟨r.rc, none, r.rest, r.out, r.err⟩

/-- A reader, entered with `ns` leading spaces counted. -/
def readFrom (judge : List UInt8 → Verdict ρ) (ns : ℕ) (fp : List UInt8) (rc : ℤ) :
    Option (FileRead ρ) :=
  afterLine judge (parsefileline.scan rc [] ns false fp)

theorem readRecords_eq_readFrom (fp : List UInt8) (rc : ℤ) :
    readRecords judge fp rc = readFrom judge 0 fp rc := by
  rw [readRecords_eq, readFrom, afterLine, ← parsefileline, readRecords.body]
  simp only [List.nil_append]
  by_cases hrc : 0 < (parsefileline fp rc).rc
  · rw [if_pos hrc, if_pos hrc]
    cases judge (cstr (parsefileline fp rc).line) <;> rfl
  · rw [if_neg hrc, if_neg hrc]

theorem afterLine_print (r : LineRead) (text : List UInt8) :
    afterLine judge (r.print text) = (afterLine judge r).map (FileRead.print text) := by
  rw [afterLine, afterLine]
  by_cases hrc : 0 < r.rc
  · rw [if_pos hrc, if_pos (show 0 < (r.print text).rc from hrc), LineRead.print_line]
    cases judge (cstr r.line) with
    | reject err => rfl
    | skip =>
        simp only [Option.map_map, LineRead.print_rest, LineRead.print_rc, LineRead.print_out]
        congr 1
        funext x
        simp
    | hit record => rfl
  · rw [if_neg hrc, if_neg (show ¬0 < (r.print text).rc from hrc)]
    rfl

variable {ns : ℕ} {rc : ℤ} {row : Row} {eol s : List UInt8}

@[simp] theorem readFrom_nil : readFrom judge ns [] rc = some ⟨0, none, [], [], none⟩ := rfl

theorem readFrom_idle (hkind : row.kind ≠ .data) :
    readFrom judge ns (row.text ++ nl :: s) rc =
      (readFrom judge (row.carry ns) s (rc + 1)).map
        (FileRead.print (row.copy ns ++ [nl])) := by
  cases h : row.kind with
  | blank =>
      rw [readFrom, parsefileline.scan_blankRow h, afterLine_print]
      simp [readFrom, Row.carry, Row.copy, h]
  | comment =>
      rw [readFrom, parsefileline.scan_commentRow h, afterLine_print]
      simp [readFrom, Row.carry, h]
  | data => exact absurd h hkind

theorem readFrom_refused (hkind : row.kind = .data) (hns : ns + row.indent ≠ 0) (hrc : 0 ≤ rc) :
    readFrom judge ns (row.text ++ s) rc =
      some ⟨-rc, none, row.body.tail ++ s, [], some (.leadingSpacesNotAllowed rc)⟩ := by
  rw [readFrom, parsefileline.scan_refused hkind hns, afterLine, if_neg]
  show ¬0 < -rc
  omega

theorem readFrom_data (hkind : row.kind = .data) (hns : ns + row.indent = 0)
    (heol : LineEnd eol s) (hrc : 0 ≤ rc) :
    readFrom judge ns (row.text ++ (eol ++ s)) rc =
      match judge (cstr row.text) with
      | .reject err => some ⟨-(rc + 1), none, s, [], err⟩
      | .skip => (readFrom judge 0 s (rc + 1)).map (FileRead.print (cstr row.text ++ [nl]))
      | .hit record => some ⟨rc + 1, some record, s, [], none⟩ := by
  rw [readFrom, parsefileline.scan_dataRow hkind hns heol, afterLine, if_pos]
  · simp only [readRecords_eq_readFrom, List.nil_append]
  · show 0 < rc + 1
    omega

/-! ### The readers on many rows -/

def Verdict.isSkip : Verdict ρ → Bool
  | .skip => true
  | _ => false

theorem Verdict.isSkip_iff {v : Verdict ρ} : v.isSkip = true ↔ v = .skip := by
  cases v <;> simp [Verdict.isSkip]

def Row.passed (judge : List UInt8 → Verdict ρ) (ns : ℕ) (row : Row) : Bool :=
  match row.kind with
  | .data => ns + row.indent = 0 && (judge (cstr row.text)).isSkip
  | _ => true

/-- The counter behind the rows, when a reader passes over all of them. -/
def passRows (judge : List UInt8 → Verdict ρ) : ℕ → List Row → Option ℕ
  | ns, [] => some ns
  | ns, row :: rows =>
      if row.passed judge ns = true then passRows judge (row.carry ns) rows else none

theorem Row.passed_of_ne_data (hkind : row.kind ≠ .data) : row.passed judge ns = true := by
  rw [Row.passed]
  split
  · rename_i h
    exact absurd h hkind
  · rfl

theorem Row.kind_of_not_passed (h : row.passed judge ns = false) : row.kind = .data := by
  by_contra hne
  rw [Row.passed_of_ne_data hne] at h
  cases h

theorem Row.passed_data (hkind : row.kind = .data) :
    row.passed judge ns = true ↔ ns + row.indent = 0 ∧ judge (cstr row.text) = .skip := by
  simp [Row.passed, hkind, Verdict.isSkip_iff]

theorem readFrom_passed (h : row.passed judge ns = true) (hrc : 0 ≤ rc) :
    readFrom judge ns (row.text ++ nl :: s) rc =
      (readFrom judge (row.carry ns) s (rc + 1)).map
        (FileRead.print (row.copy ns ++ [nl])) := by
  by_cases hkind : row.kind = .data
  · obtain ⟨hns, hskip⟩ := (Row.passed_data hkind).mp h
    have hdata := @readFrom_data _ judge ns rc row [nl] s hkind hns (.newline s) hrc
    rw [hskip] at hdata
    simpa [Row.carry, Row.copy, hkind] using hdata
  · exact readFrom_idle hkind

/-- A data row that is not passed over ends the call, and nothing is copied. -/
theorem readFrom_stops (hkind : row.kind = .data) (h : row.passed judge ns = false)
    (heol : LineEnd eol s) (hrc : 0 ≤ rc) :
    ∃ r, readFrom judge ns (row.text ++ (eol ++ s)) rc = some r ∧ r.out = [] ∧
      (0 < r.rc → ns = 0) ∧ (r.rc = 0 → rc = 0) := by
  by_cases hns : ns + row.indent = 0
  · have hread := @readFrom_data _ judge ns rc row eol s hkind hns heol hrc
    have hskip : judge (cstr row.text) ≠ .skip := fun hskip => by
      simp [(Row.passed_data hkind).mpr ⟨hns, hskip⟩] at h
    cases hjudge : judge (cstr row.text) with
    | reject err =>
        rw [hjudge] at hread
        exact ⟨_, hread, rfl, fun hpos => by simp only at hpos; omega, fun h0 => by
          simp only at h0; omega⟩
    | skip => exact absurd hjudge hskip
    | hit record =>
        rw [hjudge] at hread
        exact ⟨_, hread, rfl, fun _ => by omega, fun h0 => by simp only at h0; omega⟩
  · have hread := @readFrom_refused _ judge ns rc row (eol ++ s) hkind hns hrc
    exact ⟨_, hread, rfl, fun hpos => by simp only at hpos; omega, fun h0 => by
      simp only at h0; omega⟩

theorem readFrom_lastIdle (hkind : row.kind ≠ .data) :
    readFrom judge ns row.text rc = some ⟨0, none, [], row.copy ns, none⟩ := by
  cases h : row.kind with
  | blank =>
      rw [readFrom, parsefileline.scan_lastBlank h]
      simp [afterLine, Row.copy, h]
  | comment =>
      rw [readFrom, parsefileline.scan_lastComment h]
      simp [afterLine]
  | data => exact absurd h hkind

theorem readFrom_lastPassed (hkind : row.kind = .data) (h : row.passed judge ns = true)
    (hrc : 0 ≤ rc) :
    readFrom judge ns row.text rc = some ⟨0, none, [], row.copy ns ++ [nl], none⟩ := by
  obtain ⟨hns, hskip⟩ := (Row.passed_data hkind).mp h
  have hdata := @readFrom_data _ judge ns rc row [] [] hkind hns .eof hrc
  rw [hskip] at hdata
  simpa [FileRead.print, Row.copy, hkind] using hdata

end I2util
