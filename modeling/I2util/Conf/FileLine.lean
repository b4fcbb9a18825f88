import I2util.Conf.Text
import Mathlib.Tactic.Common

/-!
`parsefileline`: the line reader of the key and pass-phrase files.

It skips blank lines and comments, copying them to `tofp`, and returns the next
data line. The stream is a list of bytes; the line buffer is a list too, so `nc`
is its length. `tofp` is only written to: a call with a null `tofp` is the same
call with `out` dropped.
-/

namespace I2util

/-- What one call of a line reader leaves behind: the value returned, the
characters in `*lbuf`, the unread part of `fp`, the bytes printed to `tofp` and
the message logged. -/
structure LineRead where
  rc : ℤ
  line : List UInt8
  rest : List UInt8
  out : List UInt8
  err : Option ErrMsg
  deriving DecidableEq

def LineRead.print (text : List UInt8) (r : LineRead) : LineRead :=
  { r with out := text ++ r.out }

/-- The loop of `parsefileline`. `comment` says that the inner loop, which
copies a comment to its newline, is the one running. -/
def parsefileline.scan (rc : ℤ) (line : List UInt8) (ns : ℕ) (comment : Bool) :
    List UInt8 → LineRead
  | [] =>
      if line = [] then ⟨0, line, [], [], none⟩
      else ⟨rc + 1, line, [], [], none⟩
  | c :: s =>
      if comment = true then
        if c = nl then (parsefileline.scan (rc + 1) line ns false s).print [c]
        else (parsefileline.scan rc line ns true s).print [c]
      else if c = nl then
        if line ≠ [] then ⟨rc + 1, line, s, [], none⟩
        else (parsefileline.scan (rc + 1) line 0 false s).print [nl]
      else if line = [] ∧ c = hash then
        (parsefileline.scan rc line ns true s).print (List.replicate ns blank ++ [hash])
      else if line = [] ∧ isspace c = true then
        parsefileline.scan rc line (ns + 1) false s
      else if ns ≠ 0 then
        ⟨-rc, line, s, [], some (.leadingSpacesNotAllowed rc)⟩
      else
        parsefileline.scan rc (line ++ [c]) ns false s

def parsefileline (fp : List UInt8) (rc : ℤ) : LineRead :=
  parsefileline.scan rc [] 0 false fp

@[simp] theorem LineRead.print_rc (text : List UInt8) (r : LineRead) :
    (r.print text).rc = r.rc := rfl

@[simp] theorem LineRead.print_line (text : List UInt8) (r : LineRead) :
    (r.print text).line = r.line := rfl

@[simp] theorem LineRead.print_rest (text : List UInt8) (r : LineRead) :
    (r.print text).rest = r.rest := rfl

@[simp] theorem LineRead.print_out (text : List UInt8) (r : LineRead) :
    (r.print text).out = text ++ r.out := rfl

@[simp] theorem LineRead.print_err (text : List UInt8) (r : LineRead) :
    (r.print text).err = r.err := rfl

@[simp] theorem LineRead.print_nil (r : LineRead) : r.print [] = r := rfl

@[simp] theorem LineRead.print_print (a b : List UInt8) (r : LineRead) :
    (r.print b).print a = r.print (a ++ b) := by
  simp [LineRead.print]

/-! ### Lines as they stand in a file -/

def BlankText (ws : List UInt8) : Prop := ∀ c ∈ ws, isspace c = true ∧ c ≠ nl

theorem BlankText.nil : BlankText [] := fun _ h => absurd h List.not_mem_nil

theorem BlankText.isspace {ws : List UInt8} (h : BlankText ws) (c : UInt8) (hc : c ∈ ws) :
    isspace c = true :=
  (h c hc).1

theorem BlankText.no_nul {ws : List UInt8} (h : BlankText ws) : (0 : UInt8) ∉ ws :=
  fun h0 => by simpa using h.isspace 0 h0

/-- A data line without its newline: it begins in the first column with
neither white space nor a comment sign. -/
structure DataText (raw : List UInt8) : Prop where
  no_nl : nl ∉ raw
  no_nul : (0 : UInt8) ∉ raw
  first : ∃ c t, raw = c :: t ∧ isspace c = false ∧ c ≠ hash

theorem DataText.ne_nil {raw : List UInt8} (h : DataText raw) : raw ≠ [] := by
  obtain ⟨c, t, rfl, -⟩ := h.first
  exact List.cons_ne_nil c t

theorem DataText.cstr_eq {raw : List UInt8} (h : DataText raw) : cstr raw = raw :=
  cstr_of_not_mem h.no_nul

inductive FileLine
  | blank (ws : List UInt8) (h : BlankText ws)
  | comment (text : List UInt8) (h : nl ∉ text)
  | record (raw : List UInt8) (h : DataText raw)

namespace FileLine

def text : FileLine → List UInt8
  | .blank ws _ => ws
  | .comment text _ => hash :: text
  | .record raw _ => raw

/-- The characters of the line that a reader copies to `tofp`. -/
def copy : FileLine → List UInt8
  | .blank _ _ => []
  | .comment text _ => hash :: text
  | .record raw _ => raw

def render (ls : List FileLine) : List UInt8 := ls.flatMap fun l => l.text ++ [nl]

def renderCopy (ls : List FileLine) : List UInt8 := ls.flatMap fun l => l.copy ++ [nl]

@[simp] theorem render_nil : render [] = [] := rfl

@[simp] theorem render_cons (l : FileLine) (ls : List FileLine) :
    render (l :: ls) = l.text ++ nl :: render ls := by
  simp [render]

@[simp] theorem render_append (as bs : List FileLine) :
    render (as ++ bs) = render as ++ render bs := by
  simp [render]

@[simp] theorem renderCopy_nil : renderCopy [] = [] := rfl

@[simp] theorem renderCopy_cons (l : FileLine) (ls : List FileLine) :
    renderCopy (l :: ls) = l.copy ++ nl :: renderCopy ls := by
  simp [renderCopy]

@[simp] theorem renderCopy_append (as bs : List FileLine) :
    renderCopy (as ++ bs) = renderCopy as ++ renderCopy bs := by
  simp [renderCopy]

end FileLine

/-! ### One line at a time -/

/-- The end of a line: its newline, or the end of the stream. -/
def LineEnd (eol s : List UInt8) : Prop := eol = [nl] ∨ eol = [] ∧ s = []

theorem LineEnd.newline (s : List UInt8) : LineEnd [nl] s := .inl rfl

theorem LineEnd.eof : LineEnd [] [] := .inr ⟨rfl, rfl⟩

/-- How the last line of a file may end: with a newline, or the file breaks off
there. -/
def FileEnd (eol : List UInt8) : Prop := eol = [nl] ∨ eol = []

/-- The file made of some lines. `eol` ends the last of them. -/
def joinLines : List (List UInt8) → List UInt8 → List UInt8
  | [], _ => []
  | [l], eol => l ++ eol
  | l :: ls, eol => l ++ nl :: joinLines ls eol

theorem joinLines_cons (l : List UInt8) (ls : List (List UInt8)) {eol : List UInt8}
    (heol : FileEnd eol) :
    ∃ e, joinLines (l :: ls) eol = l ++ (e ++ joinLines ls eol) ∧
      LineEnd e (joinLines ls eol) := by
  cases ls with
  | nil =>
      refine ⟨eol, by simp [joinLines], ?_⟩
      rcases heol with rfl | rfl
      · exact .newline _
      · exact .eof
  | cons l' ls => exact ⟨[nl], by simp [joinLines], .newline _⟩

/-- Once a line has its first character, everything up to the end of the line
belongs to it. -/
theorem parsefileline.scan_content {rc : ℤ} {line raw eol s : List UInt8}
    (hline : line ≠ []) (hraw : nl ∉ raw) (heol : LineEnd eol s) :
    parsefileline.scan rc line 0 false (raw ++ (eol ++ s)) =
      ⟨rc + 1, line ++ raw, s, [], none⟩ := by
  induction raw generalizing line with
  | nil =>
      rcases heol with rfl | ⟨rfl, rfl⟩ <;> simp [parsefileline.scan, hline]
  | cons c raw ih =>
      simp only [List.mem_cons, not_or] at hraw
      have hc : c ≠ nl := Ne.symm hraw.1
      have hne : line ++ [c] ≠ [] := by simp
      have hrest := ih hne hraw.2
      simpa [parsefileline.scan, hline, hc] using hrest

theorem parsefileline_record {rc : ℤ} {raw eol s : List UInt8} (hraw : DataText raw)
    (heol : LineEnd eol s) :
    parsefileline (raw ++ (eol ++ s)) rc = ⟨rc + 1, raw, s, [], none⟩ := by
  obtain ⟨c, t, rfl, hspace, hhash⟩ := hraw.first
  have hnl := hraw.no_nl
  simp only [List.mem_cons, not_or] at hnl
  have hc := ne_nl_of_not_isspace hspace
  have htail : parsefileline.scan rc [c] 0 false (t ++ (eol ++ s)) = _ :=
    parsefileline.scan_content (List.cons_ne_nil c []) hnl.2 heol
  simpa [parsefileline, parsefileline.scan, hc, hhash, hspace] using htail

theorem parsefileline.scan_blank {rc : ℤ} {ns : ℕ} {ws : List UInt8} (hws : BlankText ws)
    (s : List UInt8) :
    parsefileline.scan rc [] ns false (ws ++ nl :: s) =
      (parsefileline s (rc + 1)).print [nl] := by
  induction ws generalizing ns with
  | nil => simp [parsefileline.scan, parsefileline]
  | cons c ws ih =>
      obtain ⟨hspace, hc⟩ := hws c List.mem_cons_self
      have hhash : c ≠ hash := by
        rintro rfl
        simp at hspace
      have hrest : BlankText ws := fun d hd => hws d (List.mem_cons_of_mem c hd)
      simp [parsefileline.scan, hc, hhash, hspace, ih hrest]

theorem parsefileline.scan_comment {rc : ℤ} {ns : ℕ} {text : List UInt8} (htext : nl ∉ text)
    (s : List UInt8) :
    parsefileline.scan rc [] ns true (text ++ nl :: s) =
      (parsefileline.scan (rc + 1) [] ns false s).print (text ++ [nl]) := by
  induction text with
  | nil => simp [parsefileline.scan]
  | cons c text ih =>
      simp only [List.mem_cons, not_or] at htext
      have hc : c ≠ nl := Ne.symm htext.1
      simp [parsefileline.scan, hc, ih htext.2]

/-- Blank lines and comments are copied and passed over. -/
theorem parsefileline_skip {rc : ℤ} {l : FileLine} (hl : ∀ raw h, l ≠ .record raw h)
    (s : List UInt8) :
    parsefileline (l.text ++ nl :: s) rc =
      (parsefileline s (rc + 1)).print (l.copy ++ [nl]) := by
  cases l with
  | blank ws h => simpa [parsefileline, FileLine.text, FileLine.copy] using
      @parsefileline.scan_blank rc 0 ws h s
  | comment text h =>
      simp only [FileLine.text, FileLine.copy, List.cons_append]
      simp [parsefileline, parsefileline.scan, parsefileline.scan_comment h]
  | record raw h => exact absurd rfl (hl raw h)

@[simp] theorem parsefileline_nil (rc : ℤ) : parsefileline [] rc = ⟨0, [], [], [], none⟩ := rfl

/-! ### Any stream -/

theorem parsefileline.scan_suffix {rc : ℤ} {line : List UInt8} {ns : ℕ} {comment : Bool}
    {s : List UInt8} : (parsefileline.scan rc line ns comment s).rest <:+ s := by
  induction s generalizing rc line ns comment with
  | nil =>
      rw [parsefileline.scan]
      split <;> simp
  | cons c s ih =>
      rw [parsefileline.scan]
      split_ifs <;>
        first | exact ih.trans (List.suffix_cons c s) | exact List.suffix_cons c s

theorem parsefileline.scan_rest {rc : ℤ} {line : List UInt8} {ns : ℕ} {comment : Bool}
    {s : List UInt8} : (parsefileline.scan rc line ns comment s).rest.length ≤ s.length :=
  parsefileline.scan_suffix.length_le

/-- A call that returns a row number has consumed something. -/
theorem parsefileline_rest_lt {fp : List UInt8} {rc : ℤ} (hrc : 0 < (parsefileline fp rc).rc) :
    (parsefileline fp rc).rest.length < fp.length := by
  cases fp with
  | nil => simp at hrc
  | cons c s =>
      have hle := fun rc line ns comment => @parsefileline.scan_rest rc line ns comment s
      rw [parsefileline, parsefileline.scan]
      split_ifs <;> simp only [LineRead.print_rest, List.length_cons] <;>
        first | exact Nat.lt_succ_of_le (hle _ _ _ _) | omega

end I2util
